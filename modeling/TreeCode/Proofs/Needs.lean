import TreeCode.Proofs.Scoping

/-!
# What a program takes in of a library

A tree needs those definitions of a library that its free names refer to, those that these need, and
so on (`Environment.Needs`, the least such set). Lowering finds them in rounds, and a program takes
in exactly them, in the order of the library (`Expr.lower_takes_what_is_needed`).

A name is reported as undefined only if it is free, in the tree or in a definition that the tree
needs, and has no meaning there (`Environment.Misses`).
-/

namespace TreeCode

open Entries Prod Library

variable {e : Expr}

namespace Library

variable {library : Library} {name : String}

lemma mem_sources : (name, e) ∈ library.sources ↔ (name, .source e) ∈ library := by
  rw [sources, List.mem_filterMap]
  constructor
  · rintro ⟨⟨other, definition⟩, hmem, heq⟩
    cases definition with
    | source d => cases heq; exact hmem
    | value v => cases heq
  · intro hmem
    exact ⟨_, hmem, rfl⟩

lemma mem_sources_iff_get? (hkeys : (keys library).Nodup) :
    (name, e) ∈ library.sources ↔ get? library name = some (.source e) :=
  mem_sources.trans ⟨get?_of_mem hkeys, mem_of_get?⟩

/-- The names of the definitions that are expressions are names of the library, in its order. -/
lemma sources_names_sublist (library : Library) :
    (library.sources.map fst).Sublist (keys library) := by
  rw [sources, List.map_filterMap]
  induction library with
  | nil => exact .slnil
  | cons pair rest ih =>
    obtain ⟨name, definition⟩ := pair
    cases definition with
    | source e => exact .cons_cons _ ih
    | value v => exact .cons _ ih

/-! ## Rounds -/

variable {defs : List (String × Expr)}

/-- Names that include those of the definitions which their own definitions use. -/
def Closed (defs : List (String × Expr)) (P : String → Prop) : Prop :=
  ∀ m c, (m, c) ∈ defs → P m → ∀ n ∈ c.freeNames, n ∈ defs.map fst → P n

lemma mem_named {names} : (name, e) ∈ named defs names ↔ (name, e) ∈ defs ∧ name ∈ names := by
  simp [named]

lemma mem_names_of_mem_named {names} :
    name ∈ (named defs names).map Prod.fst ↔ name ∈ defs.map Prod.fst ∧ name ∈ names := by
  simp only [List.mem_map, Prod.exists, mem_named]
  constructor
  · rintro ⟨n, e, ⟨hmem, hn⟩, rfl⟩
    exact ⟨⟨n, e, hmem, rfl⟩, hn⟩
  · rintro ⟨⟨n, e, hmem, rfl⟩, hn⟩
    exact ⟨n, e, ⟨hmem, hn⟩, rfl⟩

/-- The names that one more round adds. -/
def added (defs : List (String × Expr)) (found : List String) : List String :=
  ((named defs ((named defs found).flatMap (·.2.freeNames))).map (·.1)).filter (!found.contains ·)

variable {found : List String}

lemma mem_added : name ∈ added defs found ↔
    name ∈ defs.map Prod.fst ∧ (∃ m c, (m, c) ∈ defs ∧ m ∈ found ∧ name ∈ c.freeNames)
      ∧ name ∉ found := by
  rw [added, List.mem_filter, mem_names_of_mem_named, List.mem_flatMap]
  simp only [Prod.exists, mem_named, Bool.not_eq_true', List.contains_eq_mem,
    decide_eq_false_iff_not, and_assoc]

lemma rounds_succ (count found) : rounds defs (count + 1) found =
    if (added defs found).isEmpty then found else rounds defs count (found ++ added defs found) :=
      rfl

lemma subset_rounds (count found) : found ⊆ rounds defs count found := by
  induction count generalizing found with
  | zero => exact List.Subset.refl _
  | succ count ih =>
    rw [rounds_succ]
    split
    · exact List.Subset.refl _
    · exact fun n hn => ih _ (List.mem_append_left _ hn)

/-- **Rounds add nothing that is not used.** -/
theorem rounds_least {P} (hP : Closed defs P) (count)
    (hf : ∀ n ∈ found, P n) : ∀ n ∈ rounds defs count found, P n := by
  induction count generalizing found with
  | zero => exact hf
  | succ count ih =>
    rw [rounds_succ]
    split
    · exact hf
    · refine ih (List.forall_mem_append.mpr ⟨hf, fun n hn => ?_⟩)
      obtain ⟨hdefined, ⟨m, c, hmem, hm, hn⟩, -⟩ := mem_added.mp hn
      exact hP m c hmem (hf m hm) n hn hdefined

/-- How many definitions have not been found. -/
def missing (defs : List (String × Expr)) (found : List String) : Nat :=
  (defs.filter fun d => !found.contains d.1).length

/-- A round that adds something leaves fewer definitions to be found. -/
lemma missing_added_lt (h : (added defs found).isEmpty = false) :
    missing defs (found ++ added defs found) < missing defs found := by
  obtain ⟨n, hn⟩ := List.exists_mem_of_ne_nil _ (List.isEmpty_eq_false_iff.mp h)
  obtain ⟨hdefined, -, hnew⟩ := mem_added.mp hn
  obtain ⟨⟨name, e⟩, hmem, rfl⟩ := List.mem_map.mp hdefined
  have hfilter : (defs.filter fun d => !(found ++ added defs found).contains d.1) =
      (defs.filter fun d => !found.contains d.1).filter fun d =>
        !(added defs found).contains d.1 := by
    rw [List.filter_filter]
    refine List.filter_congr fun d _ => ?_
    simp [Bool.and_comm]
  rw [missing, missing, hfilter, List.length_filter_lt_length_iff_exists]
  refine ⟨(name, e), List.mem_filter.mpr ⟨hmem, by simpa using hnew⟩, ?_⟩
  simpa using hn

/-- **As many rounds as definitions suffice.** -/
theorem rounds_closed (count) (h : missing defs found ≤ count) :
    Closed defs (· ∈ rounds defs count found) := by
  induction count generalizing found with
  | zero =>
    -- every definition has been found, so every name of one
    intro m c _ _ n _ hdefined
    obtain ⟨d, hd, rfl⟩ := List.mem_map.mp hdefined
    have hnone : (defs.filter fun d => !found.contains d.1) = [] :=
      List.length_eq_zero_iff.mp (Nat.le_zero.mp h)
    rw [rounds]
    simpa using List.filter_eq_nil_iff.mp hnone d hd
  | succ count ih =>
    rw [rounds_succ]
    cases hmore : (added defs found).isEmpty with
    | true =>
      intro m c hmem hm n hn hdefined
      rw [if_pos rfl] at hm ⊢
      by_contra hnew
      have hadded : n ∈ added defs found := mem_added.mpr ⟨hdefined, ⟨m, c, hmem, hm, hn⟩, hnew⟩
      rw [List.isEmpty_iff.mp hmore] at hadded
      cases hadded
    | false =>
      have hlt := missing_added_lt hmore
      exact ih (by omega)

end Library

/-! ## The least set -/

/-- **A definition that a tree needs**: one that a free name of the tree refers to, if the host does
not hide it, or a free name of a definition that the tree needs. -/
inductive Environment.Needs (env : Environment) (e : Expr) : String → Prop where
  | tree {n d} (free : n ∈ e.freeNames)
      (hidden : get? env.names n = none)
      (defined : get? env.library n = some (.source d)) : Needs env e n
  | definition {m n c d} (needed : Needs env e m)
      (source : get? env.library m = some (.source c)) (free : n ∈ c.freeNames)
      (defined : get? env.library n = some (.source d)) : Needs env e n

/-- **A name without a meaning**: free in the tree and neither the host's nor the library's, or free
in a definition that the tree needs and not the library's. -/
inductive Environment.Misses (env : Environment) (e : Expr) : String → Prop where
  | tree {n} (free : n ∈ e.freeNames) (host : get? env.names n = none)
      (library : get? env.library n = none) : Misses env e n
  | definition {m n c} (needed : Needs env e m)
      (source : get? env.library m = some (.source c)) (free : n ∈ c.freeNames)
      (library : get? env.library n = none) : Misses env e n

variable {env : Environment}

namespace Environment

variable {n : String} {d : Expr}

variable (hkeys : (keys env.library).Nodup)

include hkeys

/-- **The definitions that a tree takes in are those that it needs.** -/
theorem mem_retained_iff : (n, d) ∈ env.retained e ↔
    env.Needs e n ∧ get? env.library n = some (.source d) := by
  have hsrc : ∀ {n d}, (n, d) ∈ env.library.sources ↔ _ := mem_sources_iff_get? hkeys
  have hname : ∀ n, n ∈ env.library.sources.map fst ↔
      ∃ d, get? env.library n = some (.source d) := by
    intro n
    simp [hsrc]
  rw [retained, reachable, mem_named, hsrc, and_comm]
  refine and_congr_left fun hd => ⟨fun h => ?_, fun h => ?_⟩
  · refine rounds_least (P := env.Needs e) ?_ _ ?_ n h
    · intro m c hmem hm n hn hdefined
      obtain ⟨d, hd⟩ := (hname n).mp hdefined
      exact .definition hm (hsrc.mp hmem) hn hd
    · intro n hn
      obtain ⟨hdefined, hroot⟩ := mem_names_of_mem_named.mp hn
      obtain ⟨d, hd⟩ := (hname n).mp hdefined
      obtain ⟨hfree, hh⟩ := List.mem_filter.mp hroot
      refine .tree hfree ?_ hd
      simpa [contains] using hh
  · clear hd
    have hc : Closed env.library.sources (· ∈ rounds env.library.sources
        env.library.sources.length ((named env.library.sources
          (e.freeNames.filter (!Entries.contains env.names ·))).map (·.1))) :=
      rounds_closed _ (List.length_filter_le _ _)
    induction h with
    | @tree n d hfree hhidden hdefined =>
      refine subset_rounds _ _ (mem_names_of_mem_named.mpr
        ⟨(hname n).mpr ⟨d, hdefined⟩, List.mem_filter.mpr ⟨hfree, ?_⟩⟩)
      simp [contains, hhidden]
    | @definition m n c d _ hsourced hfree hdefined ih =>
      exact hc m c (hsrc.mpr hsourced) ih n hfree ((hname n).mpr ⟨d, hdefined⟩)

lemma mem_retained_names :
    n ∈ (env.retained e).map fst ↔ env.Needs e n := by
  rw [show n ∈ (env.retained e).map fst ↔ ∃ d, (n, d) ∈ env.retained e by simp]
  simp only [mem_retained_iff hkeys]
  constructor
  · rintro ⟨d, h, -⟩
    exact h
  · intro h
    cases h with
    | tree hfree hhidden hdefined => exact ⟨_, .tree hfree hhidden hdefined, hdefined⟩
    | definition hneeded hsrc hfree hdefined =>
      exact ⟨_, .definition hneeded hsrc hfree hdefined, hdefined⟩

omit hkeys in
lemma retained_sublist (env : Environment) (e) :
    (env.retained e).Sublist env.library.sources := List.filter_sublist

/-- A tree takes a definition in only once. -/
lemma retained_names_nodup : ((env.retained e).map fst).Nodup :=
  (((env.retained_sublist e).map fst).trans env.library.sources_names_sublist).nodup hkeys

end Environment

/-! ## Programs side by side -/

/-- The draft that lowering begins with. -/
def Draft.start : Draft := { frames := [.ofBlock .ofFunction] }

namespace Lower

variable {U : String → Prop} {env' : Environment}

lemma scopes_hold_library (retained : List (String × Expr)) (blocks S) :
    Scopes.Hold (((libraryScope retained).bare :: blocks) :: S) [] (retained.map fst) where
  bound := nofun
  library _ hn := .of_block (Block.isLibrary_declareAll _ _) (Block.isSome_get?_declareAll
    (.inl hn))

/-- The definitions that a tree takes in are lowered the same way in environments that share their
free names, whatever the names of the host. -/
lemma concurs_library (hmodules : env.SameModules env') (retained : List (String × Expr))
    (blocks S) (hds : ∀ n d, (n, d) ∈ retained →
      SharesAll env.ofLibrary env'.ofLibrary U (retained.map fst) d.freeNames) :
    Concurs U (((libraryScope retained).bare :: blocks) :: S)
      (((libraryScope retained).bare :: blocks) :: S)
      (libraryDefinitions env.ofLibrary 0 retained)
        (libraryDefinitions env'.ofLibrary 0 retained) :=
  have hsame : env.ofLibrary.SameModules env'.ofLibrary := hmodules
  concurs_libraryDefinitions hsame retained 0 (scopes_hold_library retained blocks S) hds

/-- **A tree has the same program in environments that share its free names**, and those of the
definitions that it takes in. -/
theorem concurs_mainCode (hmodules : env.SameModules env')
    (hretained : env.retained e = env'.retained e)
    (htree : SharesAll env env' U ((env.retained e).map fst) e.freeNames)
    (hds : ∀ n d, (n, d) ∈ env.retained e →
      SharesAll env.ofLibrary env'.ofLibrary U ((env.retained e).map fst) d.freeNames) :
    Concurs U Draft.start.scopes Draft.start.scopes (mainCode env e) (mainCode env' e) := by
  refine Concurs.bind ?_ fun _ => concurs_pure _
  rw [← hretained, afterLibrary, afterLibrary]
  split
  · next hn =>
    rw [List.isEmpty_iff.mp hn] at htree
    exact concurs_expr hmodules anonymous e ⟨List.forall_mem_nil _, List.forall_mem_nil _⟩ htree
  · exact (concurs_openBlock _).bind fun _ =>
      (concurs_library hmodules _ _ _ hds).bind fun _ =>
      (concurs_expr hmodules anonymous e (scopes_hold_library _ _ _) htree).bind fun _ =>
      concurs_leaveBlock.bind fun _ => concurs_pure _

end Lower

/-! ## Names that are reported -/

namespace Environment

/-- Every name of a tree has the meaning that it has, and it misses one that has none. -/
lemma shares_tree (hkeys : (keys env.library).Nodup) :
    Lower.SharesAll env env (env.Misses e) ((env.retained e).map fst) e.freeNames := by
  refine fun n hn => ⟨rfl, fun _ _ => rfl, fun hh hout hvalue => ?_⟩
  rw [mem_retained_names hkeys] at hout
  cases hdefined : get? env.library n with
  | none => exact .tree hn hh hdefined
  | some definition =>
    cases definition with
    | source d => exact absurd (.tree hn hh hdefined) hout
    | value v => exact absurd hdefined (hvalue v)

lemma shares_definitions (hkeys : (keys env.library).Nodup) {m c}
    (hm : (m, c) ∈ env.retained e) : Lower.SharesAll env.ofLibrary env.ofLibrary (env.Misses e)
      ((env.retained e).map fst) c.freeNames := by
  obtain ⟨hneeded, hsource⟩ := (mem_retained_iff hkeys).mp hm
  refine fun n hn => ⟨rfl, fun _ _ => rfl, fun _ hout hvalue => ?_⟩
  rw [mem_retained_names hkeys] at hout
  cases hdefined : get? env.library n with
  | none => exact .definition hneeded hsource hn hdefined
  | some definition =>
    cases definition with
    | source d => exact absurd (.definition hneeded hsource hn hdefined) hout
    | value v => exact absurd hdefined (hvalue v)

end Environment

/-- A tree that has no program has none because of its main code. -/
lemma Expr.lower_eq_error {error}
    (h : e.lower env = .error error) : (Lower.mainCode env e).run .start = .error error := by
  cases hrun : (Lower.mainCode env e).run .start with
  | error other =>
    rw [lower, show Draft.mk _ _ _ _ = Draft.start from rfl, hrun] at h
    cases h
    rfl
  | ok r =>
    rw [lower, show Draft.mk _ _ _ _ = Draft.start from rfl, hrun] at h
    cases h

/-! ## Programs and what they take in -/

open Code in
/-- **Definitions are lowered one after another**, each into the next slot, from one draft to
another. -/
inductive LowersEach (env : Environment) :
    Nat → List (String × Expr) → Draft → Code → Draft → Prop where
  | nil {slot d} : LowersEach env slot [] d [] d
  | cons {slot name e rest d d₁ d₂ first others} (definition :
      (Lower.expr env name e).run d = .ok (first, d₁))
      (later : LowersEach env (slot + 1) rest d₁ others d₂) :
      LowersEach env slot ((name, e) :: rest) d
        (first ++ emit (.writeLocal 0 (UInt32.ofNat slot)) ++ others) d₂

open Code Lower in
/-- **A program goes on with a tree** after definitions, in the scope that they have around the
tree: given the code of the definitions and the draft that they leave. -/
def Environment.GoesOn (env : Environment) (retained : List (String × Expr)) (ds : Code)
    (d : Draft) (e : Expr) (p : Program) : Prop :=
  ∃ last d', (expr env anonymous e).run d = .ok (last, d') ∧ p = d'.outOfBlock.program
    (emit (.pushScope 0) ++ reserveSlots (libraryScope retained) ++ ds ++ last
      ++ (detachSlots d'.block ++ emit .popScope) ++ emit .ret)

/-- The draft in the scope of definitions, before the first of them. -/
def Draft.atDefinitions (retained : List (String × Expr)) : Draft :=
  Draft.start.inBlock (libraryScope retained)

open Code Lower in
/-- **A program that consists of definitions and a tree.** The definitions come first, and do not
see the names of the host. -/
inductive Environment.TakesIn (env : Environment) : List (String × Expr) → Expr → Program →
    Prop where
  | nothing {e code d}
      (tree : (expr env anonymous e).run .start = .ok (code, d)) :
      TakesIn env [] e (d.program (code ++ emit .ret))
  | definitions {retained e definitions d p} (some : retained ≠ [])
      (each : LowersEach env.ofLibrary 0 retained (.atDefinitions retained) definitions d)
      (tree : env.GoesOn retained definitions d e p) : TakesIn env retained e p

lemma LowersEach.of_run {ds code} :
    ∀ {slot d d'}, (Lower.libraryDefinitions env slot ds).run d = .ok (code, d') →
      LowersEach env slot ds d code d' := by
  induction ds generalizing code with
  | nil =>
    intro slot d d' h
    cases h
    exact .nil
  | cons definition rest ih =>
    obtain ⟨name, e⟩ := definition
    intro slot d d' h
    obtain ⟨first, d₁, hf, h⟩ := Lower.bind_eq_ok.mp h
    obtain ⟨os, d₂, ho, h⟩ := Lower.bind_eq_ok.mp h
    cases h
    exact .cons hf (ih ho)

/-- **A program consists of the definitions that its tree takes in, and the tree.** -/
theorem Expr.lower_takesIn {p} (h : e.lower env = .ok p) :
    env.TakesIn (env.retained e) e p := by
  obtain ⟨body, d, hrun, rfl⟩ := lower_eq_ok h
  obtain ⟨code, d₁, hafter, hret⟩ := Lower.bind_eq_ok.mp hrun
  cases hret
  rw [Lower.afterLibrary] at hafter
  split at hafter
  · next hn =>
    rw [List.isEmpty_iff.mp hn]
    exact .nothing hafter
  · next hsome =>
    obtain ⟨_, d₀, hopen, h⟩ := Lower.bind_eq_ok.mp hafter
    cases hopen
    obtain ⟨ds, d₁, hds, h⟩ := Lower.bind_eq_ok.mp h
    obtain ⟨last, d₂, hl, h⟩ := Lower.bind_eq_ok.mp h
    obtain ⟨left, d₃, hleave, h⟩ := Lower.bind_eq_ok.mp h
    cases h
    cases hleave
    exact .definitions (by simpa using hsome) (.of_run hds) ⟨last, d₂, hl, rfl⟩

/-- **A program takes in exactly the definitions that its tree needs**, in the order of the library
and each once. A name is reported as undefined only if the tree misses it, and never if it misses
none. -/
theorem Expr.lower_takes_what_is_needed (env : Environment) (e : Expr)
    (hkeys : (Entries.keys env.library).Nodup) :
    ∃ retained : List (String × Expr), (∀ n d, (n, d) ∈ retained ↔
        env.Needs e n ∧ Entries.get? env.library n = some (.source d))
      ∧ retained.Sublist env.library.sources ∧ (retained.map Prod.fst).Nodup
      ∧ (∀ p, e.lower env = .ok p → env.TakesIn retained e p)
      ∧ (∀ n, e.lower env = .error (.nameNotDefined n) → env.Misses e n)
      ∧ ((∀ n, ¬ env.Misses e n) → ∀ n, e.lower env ≠ .error (.nameNotDefined n)) := by
  have hreported : ∀ n, e.lower env = .error (.nameNotDefined n) → env.Misses e n := fun n h =>
    (Lower.concurs_mainCode (fun _ => rfl) rfl (env.shares_tree hkeys)
      fun _ _ hmem => env.shares_definitions hkeys hmem).undefined _ n rfl (lower_eq_error h)
  exact ⟨env.retained e, fun n d => Environment.mem_retained_iff hkeys, env.retained_sublist e,
    Environment.retained_names_nodup hkeys, fun p h => lower_takesIn h, hreported,
    fun hnone n h => hnone n (hreported n h)⟩

/-! ### Functions that call each other -/

/-- A function of `x` that calls another one with it. -/
def callingOther (other : String) : Expr :=
  .given [.required (.name "x")] [] (.calling (.name other none) [.item (.name "x" none)] [])

/-- Two functions that call each other, and a definition that neither uses. -/
def parity : Environment where
  library := [("isEven", .source (callingOther "isOdd")), ("other", .source (.name "nowhere" none)),
    ("isOdd", .source (callingOther "isEven"))]

/-- A tree that uses one of them. It has a variable with the name of the third. -/
def askingParity : Expr :=
  .defining [(.name "other", .literal (.boolean true))]
    (.calling (.name "isEven" none) [.item (.name "other" none)] [])

lemma parity_needs_isOdd : parity.Needs askingParity "isOdd" :=
  .definition (m := "isEven") (c := callingOther "isOdd")
    (.tree (d := callingOther "isOdd") (by decide) rfl rfl) rfl (by decide) rfl

lemma not_parity_needs_other : ¬ parity.Needs askingParity "other" := by
  intro h
  cases h with
  | tree free => exact absurd free (by decide)
  | @definition m n c d _ src free =>
    have hmem := mem_of_get? src
    simp only [parity, List.mem_cons, mk.injEq, Definition.source.injEq, List.not_mem_nil,
      or_false] at hmem
    rcases hmem with ⟨-, rfl⟩ | ⟨-, rfl⟩ | ⟨-, rfl⟩ <;> exact absurd free (by decide)

/-- The program takes in both functions that call each other, and not the third. -/
theorem Expr.lower_takes_what_is_needed_parity : ∃ p retained, askingParity.lower parity = .ok p
    ∧ parity.TakesIn retained askingParity p ∧ (∃ d, ("isOdd", d) ∈ retained)
    ∧ ∀ d, ("other", d) ∉ retained := by
  have hlowers : (askingParity.lower parity).toOption.any (fun _ => true)
    = true := by decide +kernel
  obtain ⟨retained, hmem, -, -, htakes, -, -⟩ :=
    lower_takes_what_is_needed parity askingParity (by decide)
  obtain ⟨p, hlower, -⟩ := lowers_of_any hlowers
  exact ⟨p, retained, hlower, htakes p hlower,
    ⟨callingOther "isEven", (hmem _ _).mpr ⟨parity_needs_isOdd, rfl⟩⟩,
    fun d h => not_parity_needs_other ((hmem _ _).mp h).1⟩

end TreeCode
