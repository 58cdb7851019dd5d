import TreeCode.Proofs.Needs

/-!
# Programs depend on what their trees mention

A tree mentions its free names that the host does not give, and the free names of the definitions
that it needs. The program of a tree, or the error in its place, depends on nothing else of a
library (`Expr.lower_is_hygienic`): neither on definitions that the tree does not mention nor on
their places between the others.

Nor do the definitions of a library depend on the trees that use them: two trees that need the same
definitions take them in as the same code, whatever variables the trees have and whatever the host
provides.
-/

namespace TreeCode

open Entries List

/-- **A name that a tree mentions**: free in the tree and not the host's, or free in a definition
that the tree needs. -/
inductive Environment.Mentions (env : Environment) (e : Expr) : String → Prop where
  | tree {n} (free : n ∈ e.freeNames) (hidden : get? env.names n = none) :
      Mentions env e n
  | definition {m n c} (needed : Needs env e m)
      (source : get? env.library m = some (.source c)) (free : n ∈ c.freeNames) :
      Mentions env e n

/-- One name comes before another in a library. -/
def Library.Before (library : Library) (a b : String) : Prop := [a, b].Sublist (keys library)

variable {library : Library} {n key : String} {keep : String → Bool} {α : Type} {env : Environment}

lemma Library.Before.asymm (hks : (keys library).Nodup)
    {a b} (h : library.Before a b) : ¬ library.Before b a := by
  intro h'
  -- the places of two names in a list without duplicates cannot be on both sides of each other
  have hidx : ∀ {x y}, library.Before x y → (keys library).idxOf x < (keys library).idxOf y := by
    intro x y hxy
    have hpairs : (keys library).Pairwise fun x y =>
        (keys library).idxOf x < (keys library).idxOf y := by
      rw [pairwise_iff_getElem]
      intro i j hi hj hij
      rwa [hks.idxOf_getElem, hks.idxOf_getElem]
    exact pairwise_iff_forall_sublist.mp hpairs hxy
  exact Nat.lt_asymm (hidx h) (hidx h')

namespace Environment

variable {env' : Environment} {e : Expr}

/-- **The tree means the same in two environments**: its free names have the same values of the
host, what it mentions has the same definitions, and those that it needs come in the same order. -/
structure Same (env env' : Environment) (e : Expr) : Prop where
  modules : env.SameModules env'
  names : ∀ n ∈ e.freeNames, get? env.names n = get? env'.names n
  library : ∀ n, env.Mentions e n → get? env.library n = get? env'.library n
  order : ∀ a b, env.Needs e a → env.Needs e b → (env.library.Before a b ↔ env'.library.Before a b)

lemma Needs.mentions (h : env.Needs e n) : env.Mentions e n := by
  cases h with
  | tree free hidden _ => exact .tree free hidden
  | definition needed src free _ => exact .definition needed src free

lemma Same.needs_iff (h : env.Same env' e) (n) : env.Needs e n ↔ env'.Needs e n := by
  constructor
  · intro hn
    induction hn with
    | @tree n d free hidden defined =>
      exact .tree free (h.names n free ▸ hidden) (h.library n (.tree free hidden) ▸ defined)
    | @definition m n c d needed src free defined ih =>
      exact .definition ih (h.library m needed.mentions ▸ src) free
        (h.library n (.definition needed src free) ▸ defined)
  · intro hn
    induction hn with
    | @tree n d free hidden defined =>
      rw [← h.names n free] at hidden
      exact .tree free hidden (h.library n (.tree free hidden) ▸ defined)
    | @definition m n c d _ src free defined ih =>
      rw [← h.library m ih.mentions] at src
      exact .definition ih src free (h.library n (.definition ih src free) ▸ defined)

lemma retained_ordered (env : Environment) (e) :
    (env.retained e).Pairwise fun x y => env.library.Before x.1 y.1 := by
  rw [← pairwise_map, pairwise_iff_forall_sublist]
  intro a b hab
  exact hab.trans (((env.retained_sublist e).map Prod.fst).trans env.library.sources_names_sublist)

lemma retained_nodup (hks : (keys env.library).Nodup) : (env.retained e).Nodup :=
  Pairwise.of_map Prod.fst (fun _ _ hne heq => hne (congrArg Prod.fst heq))
    (retained_names_nodup hks)

/-- Trees that need the same definitions, in the same order, take in the same. -/
lemma retained_eq_of_needs {e'} (hks : (keys env.library).Nodup)
    (hkeys' : (keys env'.library).Nodup) (hneeds : ∀ n, env.Needs e n ↔ env'.Needs e' n)
    (hlib : ∀ n, env.Needs e n → get? env.library n = get? env'.library n)
    (horder : ∀ a b, env.Needs e a → env.Needs e b →
      (env.library.Before a b ↔ env'.library.Before a b)) :
    env.retained e = env'.retained e' := by
  have hmem : ∀ x, x ∈ env.retained e ↔ x ∈ env'.retained e' := by
    rintro ⟨n, d⟩
    rw [mem_retained_iff hks, mem_retained_iff hkeys', ← hneeds]
    exact and_congr_right fun hn => by rw [hlib n hn]
  have hneeded : ∀ x ∈ env'.retained e', env.Needs e x.1 := fun x hx =>
    ((mem_retained_iff hks).mp ((hmem x).mpr hx)).1
  have hordered' : (env'.retained e').Pairwise fun x y => env.library.Before x.1 y.1 := by
    refine (env'.retained_ordered e').imp_of_mem fun {x y} hx hy hxy => ?_
    exact (horder x.1 y.1 (hneeded x hx) (hneeded y hy)).mpr hxy
  refine Perm.eq_of_pairwise (fun x y _ _ hxy hyx => absurd hyx (hxy.asymm hks))
    (env.retained_ordered e) hordered' ?_
  exact (perm_ext_iff_of_nodup (retained_nodup hks) (retained_nodup hkeys')).mpr hmem

lemma Same.retained_eq (h : env.Same env' e) (hks : (keys env.library).Nodup)
    (hkeys' : (keys env'.library).Nodup) : env.retained e = env'.retained e :=
  retained_eq_of_needs hks hkeys' h.needs_iff (fun n hn => h.library n hn.mentions) h.order

/-- **A tree that means the same in two environments has the same program in both**, or the same
error. -/
theorem Same.lower_eq (h : env.Same env' e) (hks : (keys env.library).Nodup)
    (hkeys' : (keys env'.library).Nodup) : e.lower env = e.lower env' := by
  have hconcurs := Lower.concurs_mainCode (U := fun _ => True) h.modules (h.retained_eq hks hkeys')
    (fun n hn => ⟨h.names n hn, fun hhidden _ => h.library n (.tree hn hhidden),
      fun _ _ _ => trivial⟩)
    (fun m c hm n hn =>
      have ⟨hneeded, hsrc⟩ := (mem_retained_iff hks).mp hm
      ⟨rfl, fun _ _ => h.library n (.definition hneeded hsrc hn), fun _ _ _ => trivial⟩)
  have hrun : (Lower.mainCode env e).run .start = (Lower.mainCode env' e).run .start :=
    hconcurs.same _ rfl
  show ((Lower.mainCode env e).run .start >>= _) = ((Lower.mainCode env' e).run .start >>= _)
  rw [hrun]

end Environment

/-! ## Definitions that are not mentioned -/

lemma Entries.get?_filter_keys (h : keep key = true) (es : Entries α) :
    get? (es.filter fun x => keep x.1) key = get? es key := by
  induction es with
  | nil => rfl
  | cons pair rest ih =>
    obtain ⟨k, v⟩ := pair
    rw [filter_cons, get?]
    by_cases hk : k = key
    · subst hk
      rw [if_pos h, get?, if_pos rfl, if_pos rfl]
    · rw [if_neg hk]
      split
      · rw [get?, if_neg hk, ih]
      · exact ih

lemma Entries.keys_filter (keep) (es : Entries α) :
    keys (es.filter fun x => keep x.1) = (keys es).filter keep := by
  rw [keys, keys, filter_map]
  rfl

lemma Library.before_filter_iff {a b} (ha : keep a = true) (hb : keep b = true) :
    Before (library.filter fun x => keep x.1) a b ↔ library.Before a b := by
  rw [Before, Before, keys_filter]
  constructor
  · exact fun h => h.trans filter_sublist
  · intro h
    have := h.filter keep
    rwa [filter_cons_of_pos ha, filter_cons_of_pos hb, filter_nil] at this

/-- The environment without some definitions of the library. -/
def Environment.keeping (env : Environment) (keep : String → Bool) : Environment :=
  { env with library := env.library.filter fun x => keep x.1 }

lemma Environment.same_keeping {e}
    (hkeep : ∀ n, env.Mentions e n → keep n = true) : env.Same (env.keeping keep) e where
  modules _ := rfl
  names _ _ := rfl
  library n hn := (get?_filter_keys (hkeep n hn) env.library).symm
  order a b ha hb := (Library.before_filter_iff (hkeep a ha.mentions) (hkeep b hb.mentions)).symm

/-! ## Trees that need the same definitions -/

/-- Definitions are lowered in one way only. -/
lemma LowersEach.unique {slot ds d d₁ d₂ code code'} (h : LowersEach env slot ds d code d₁)
    (h' : LowersEach env slot ds d code' d₂) : code = code' ∧ d₁ = d₂ := by
  induction h generalizing code' d₂ with
  | nil =>
    cases h'
    exact ⟨rfl, rfl⟩
  | cons definition _ ih =>
    cases h' with
    | cons definition' later' =>
      rw [definition] at definition'
      cases definition'
      obtain ⟨rfl, rfl⟩ := ih later'
      exact ⟨rfl, rfl⟩

/-- The environment with other names of the host. -/
def Environment.withNames (env : Environment) (names : Entries Value) : Environment :=
  { env with names }

/-- **The program of a tree depends on what the tree mentions and on nothing else**: in two
environments in which its free names have the same values of the host, and what it mentions the same
definitions in the same order, it has the same program or the same error. In particular what the
tree does not mention can be left out of the library. And the definitions that it needs are the same
code in the program of every tree that needs the same definitions, with any names of the host. -/
theorem Expr.lower_is_hygienic (env env' : Environment) (e : Expr)
    (hkeys : (Entries.keys env.library).Nodup) (hkeys' : (Entries.keys env'.library).Nodup)
    (hsame : env.Same env' e) :
    e.lower env = e.lower env'
    ∧ (∀ keep : String → Bool, (∀ n, env.Mentions e n → keep n = true) →
        e.lower (env.keeping keep) = e.lower env)
    ∧ (∀ (names : Entries Value) (tree : Expr) (p p' : Program),
        (∀ n, (env.withNames names).Needs tree n ↔ env.Needs e n) → (∃ n, env.Needs e n) →
        e.lower env = .ok p → tree.lower (env.withNames names) = .ok p' →
        ∃ retained definitions d,
          LowersEach env.ofLibrary 0 retained (.atDefinitions retained) definitions d
          ∧ env.GoesOn retained definitions d e p
          ∧ (env.withNames names).GoesOn retained definitions d tree p') := by
  refine ⟨hsame.lower_eq hkeys hkeys', fun keep hkeep => ?_,
    fun names tree p p' hneeds hsome hlower hlower' => ?_⟩
  · refine ((Environment.same_keeping hkeep).lower_eq hkeys ?_).symm
    rw [Environment.keeping, Entries.keys_filter]
    exact hkeys.filter _
  · have hretained : (env.withNames names).retained tree = env.retained e :=
      Environment.retained_eq_of_needs hkeys hkeys hneeds (fun _ _ => rfl) fun _ _ _ _ => Iff.rfl
    have htakes := lower_takesIn hlower
    have htakes' := lower_takesIn hlower'
    obtain ⟨n, hn⟩ := hsome
    have hnames := (Environment.mem_retained_names hkeys).mpr hn
    rw [hretained] at htakes'
    generalize env.retained e = retained at htakes htakes' hnames
    cases htakes with
    | nothing => cases hnames
    | definitions _ each goesOn =>
      cases htakes' with
      | nothing => cases hnames
      | definitions _ each' goesOn' =>
        obtain ⟨rfl, rfl⟩ := each.unique each'
        exact ⟨_, _, _, each, goesOn, goesOn'⟩

/-- The library of `parity` with another third definition in another place, and a host that provides
a name of the library. -/
def crowdedParity : Environment where
  library := [("other", .value (.boolean false)), ("isEven", .source (callingOther "isOdd")),
    ("isOdd", .source (callingOther "isEven"))]
  names := [("isOdd", .boolean true)]

lemma parity_mentions (h : parity.Mentions askingParity n) :
    n = "isEven" ∨ n = "isOdd" := by
  have hneeded : ∀ m, parity.Needs askingParity m → m ≠ "other" := by
    rintro m hm rfl
    exact not_parity_needs_other hm
  cases h with
  | tree free =>
    have hfree : askingParity.freeNames = ["isEven"] := by decide
    rw [hfree, mem_singleton] at free
    exact .inl free
  | @definition m n c needed src free =>
    have hmem := mem_of_get? src
    simp only [parity, mem_cons, Prod.mk.injEq, Definition.source.injEq, not_mem_nil,
      or_false] at hmem
    have heven : (callingOther "isOdd").freeNames = ["isOdd"] := by decide
    have hodd : (callingOther "isEven").freeNames = ["isEven"] := by decide
    rcases hmem with ⟨-, rfl⟩ | ⟨rfl, -⟩ | ⟨-, rfl⟩
    · exact .inr (mem_singleton.mp (heven ▸ free))
    · exact absurd rfl (hneeded _ needed)
    · exact .inl (mem_singleton.mp (hodd ▸ free))

lemma parity_same : parity.Same crowdedParity askingParity where
  modules _ := rfl
  names n hn := by
    have hfree : askingParity.freeNames = ["isEven"] := by decide
    rw [hfree, mem_singleton] at hn
    subst hn
    rfl
  library n hn := by rcases parity_mentions hn with rfl | rfl <;> rfl
  order a b ha hb := by
    unfold Library.Before
    rcases parity_mentions ha.mentions with rfl | rfl <;>
      rcases parity_mentions hb.mentions with rfl | rfl <;> decide

/-- The host's `isOdd` is not what the library's `isEven` calls. -/
theorem Expr.lower_is_hygienic_parity : ∃ p, askingParity.lower parity = .ok p
    ∧ askingParity.lower crowdedParity = .ok p := by
  have hlowers : (askingParity.lower parity).toOption.any (fun _ => true)
    = true := by decide +kernel
  have hsame := (lower_is_hygienic parity crowdedParity askingParity (by decide) (by decide)
    parity_same).1
  obtain ⟨p, hlower, -⟩ := lowers_of_any hlowers
  exact ⟨p, hlower, hsame ▸ hlower⟩

end TreeCode
