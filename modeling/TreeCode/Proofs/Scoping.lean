import TreeCode.Proofs.Drafting

/-!
# Lowering depends on free names only

Which environment a tree is lowered in matters at one place: where a name is looked up that no scope
has. Those names are among the free names of the tree. So two environments in which the free names
mean the same give the same code, the same draft or the same error (`Lower.concurs_expr`), and a
name that is reported as undefined is a free name without a meaning.

`Lower.Concurs` is the rule by which two computations of lowering are followed side by side.
-/

namespace TreeCode

open List TreeCode.Expr Entries

/-! ## The scopes of a draft -/

/-- The scopes of functions inside one another, without a note of what is captured. -/
abbrev Scopes := List (List Block)

/-- The scopes around the current place. -/
def Draft.scopes (d : Draft) : Scopes := d.frames.map fun f => f.blocks.map Block.bare

/-- A scope declares the name: the scope of the library, or one of the others. -/
def Scopes.Declare (S : Scopes) (library : Bool) (name : String) : Prop :=
  ∃ blocks ∈ S, (Frame.lookupIn library name blocks).isSome = true

variable {S : Scopes} {blocks : List Block} {b : Block} {library : Bool} {name : String}

namespace Scopes.Declare

lemma inFunction (h : Declare S library name) (b) : Declare ([b] :: S) library name := by
  obtain ⟨blocks, hmem, hf⟩ := h
  exact ⟨blocks, mem_cons_of_mem _ hmem, hf⟩

lemma inBlock (h : Declare (blocks :: S) library name) (b) :
    Declare ((b :: blocks) :: S) library name := by
  obtain ⟨os, hmem, hf⟩ := h
  rcases mem_cons.mp hmem with rfl | hmem
  · refine ⟨b :: os, mem_cons_self, ?_⟩
    rw [Frame.lookupIn]
    split
    · rfl
    · rwa [Option.isSome_map]
  · exact ⟨os, mem_cons_of_mem _ hmem, hf⟩

/-- The innermost scope declares its names. -/
lemma of_block (hkind : b.isLibrary = library) (h : (get? b.names name).isSome = true) :
    Declare ((b :: blocks) :: S) library name := by
  refine ⟨b :: blocks, mem_cons_self, ?_⟩
  obtain ⟨slot, hs⟩ := Option.isSome_iff_exists.mp h
  rw [Frame.lookupIn, hkind, beq_self_eq_true, if_pos rfl, hs]
  rfl

end Scopes.Declare

variable {arguments : Bool} {d : Draft} {e : LoweringError}

lemma Block.isSome_get?_declareAll {names}
    (h : name ∈ names ∨ (get? b.names name).isSome = true) :
    (get? (b.declareAll names).names name).isSome = true := by
  induction names generalizing b with
  | nil => exact h.resolve_left not_mem_nil
  | cons first names ih =>
    rw [declareAll, foldl_cons, ← declareAll]
    refine ih ?_
    by_cases heq : name = first
    · subst heq
      exact .inr (by rw [declare, get?_insert_self]; rfl)
    · rcases h with h | h
      · exact .inl ((mem_cons.mp h).resolve_left heq)
      · exact .inr (by rwa [declare, get?_insert_of_ne heq])

lemma Frame.GrowAll.scopes_eq {fs gs} (h : GrowAll fs gs) :
    gs.map (fun f => f.blocks.map Block.bare) = fs.map fun f => f.blocks.map Block.bare := by
  induction h with
  | nil => rfl
  | cons hf _ ih => rw [map_cons, map_cons, hf.blocks, ih]

lemma Draft.declare_iff :
    d.scopes.Declare library name ↔ ¬ Frame.Lacks library name d.frames := by
  simp only [Scopes.Declare, scopes, Frame.Lacks, mem_map, exists_exists_and_eq_and,
    Frame.lookupIn_bare, Option.isSome_iff_ne_none, not_forall, exists_prop, ne_eq]

/-! ## Two computations side by side -/

variable {α : Type} {U : String → Prop}

namespace Lower

variable {β : Type} {T R : Scopes}

/-- **Computations that do the same** in drafts with the scopes `S`, and leave drafts with the
scopes `T`. A name that they report as undefined has the property `U`. -/
structure Concurs (U : String → Prop) (S T : Scopes) (x y : Lower α) : Prop where
  same : ∀ d, d.scopes = S → x.run d = y.run d
  undefined : ∀ d n, d.scopes = S → x.run d = .error (.nameNotDefined n) → U n
  scopes : ∀ d a d', d.scopes = S → x.run d = .ok (a, d') → d'.scopes = T

lemma run_bind_of_ok {x : Lower α} {f : α → Lower β} {d' a}
    (h : x.run d = .ok (a, d')) : (x >>= f).run d = (f a).run d' := by
  rw [StateT.run_bind, h]
  rfl

lemma run_bind_of_error {x : Lower α} {f : α → Lower β}
    (h : x.run d = .error e) : (x >>= f).run d = .error e := by
  rw [StateT.run_bind, h]
  rfl

lemma Concurs.bind {x y : Lower α} {f g : α → Lower β} (hx : Concurs U S T x y)
    (hf : ∀ a, Concurs U T R (f a) (g a)) : Concurs U S R (x >>= f) (y >>= g) where
  same d hd := by
    cases hrun : x.run d with
    | error e => rw [run_bind_of_error hrun, run_bind_of_error ((hx.same d hd).symm.trans hrun)]
    | ok r =>
      obtain ⟨a, d'⟩ := r
      rw [run_bind_of_ok hrun, run_bind_of_ok ((hx.same d hd).symm.trans hrun)]
      exact (hf a).same d' (hx.scopes d a d' hd hrun)
  undefined d n hd h := by
    cases hrun : x.run d with
    | error e =>
      rw [run_bind_of_error hrun] at h
      cases h
      exact hx.undefined d n hd hrun
    | ok r =>
      obtain ⟨a, d'⟩ := r
      rw [run_bind_of_ok hrun] at h
      exact (hf a).undefined d' n (hx.scopes d a d' hd hrun) h
  scopes d b d₂ hd h := by
    obtain ⟨a, d₁, hrun, hnext⟩ := bind_eq_ok.mp h
    exact (hf a).scopes d₁ b d₂ (hx.scopes d a d₁ hd hrun) hnext

/-- A computation that always succeeds does the same as itself. -/
lemma concurs_total {x : Lower α}
    (h : ∀ d, d.scopes = S → ∃ a d', x.run d = .ok (a, d') ∧ d'.scopes = T) :
      Concurs U S T x x where
  same _ _ := rfl
  undefined d n hd herror := by
    obtain ⟨a, d', hrun, -⟩ := h d hd
    cases hrun.symm.trans herror
  scopes d a d' hd hok := by
    obtain ⟨b, d₁, hrun, hsc⟩ := h d hd
    cases hrun.symm.trans hok
    exact hsc

lemma concurs_pure (a : α) : Concurs U S S (pure a : Lower α) (pure a) :=
  concurs_total fun d hd => ⟨a, d, rfl, hd⟩

lemma concurs_throw (h : ∀ n, e = .nameNotDefined n → U n) :
    Concurs U S T (throw e : Lower α) (throw e) where
  same _ _ := rfl
  undefined d n _ hrun := by
    cases hrun
    exact h n rfl
  scopes d a d' _ hrun := by cases hrun

lemma concurs_get : Concurs U S S (get) get := concurs_total fun d hd => ⟨d, d, rfl, hd⟩

lemma concurs_modify {f} (h : ∀ d, d.scopes = S → (f d).scopes = T) :
    Concurs U S T (modify f : Lower Unit) (modify f) :=
  concurs_total fun d hd => ⟨(), f d, rfl, h d hd⟩

/-! ### Tables -/

lemma concurs_tableIndex (table : String) (count : Nat) :
    Concurs U S S (tableIndex table count) (tableIndex table count) := by
  unfold tableIndex
  split
  · exact concurs_pure _
  · exact concurs_throw nofun

lemma concurs_constant (value : Value) : Concurs U S S (constant value) (constant value) := by
  refine concurs_get.bind fun d => ?_
  dsimp only
  split
  · exact concurs_pure _
  · refine (concurs_tableIndex _ _).bind fun _ => Concurs.bind (concurs_modify ?_) fun _ =>
      concurs_pure _
    exact fun _ hd => hd

lemma concurs_platform (name : String) (value : Value) :
    Concurs U S S (platform name value) (platform name value) := by
  refine concurs_get.bind fun d => ?_
  dsimp only
  split
  · exact concurs_pure _
  · refine (concurs_tableIndex _ _).bind fun _ => Concurs.bind (concurs_modify ?_) fun _ =>
      concurs_pure _
    exact fun _ hd => hd

lemma concurs_hostValue (name : String) (value : Value) :
    Concurs U S S (hostValue name value) (hostValue name value) := by
  unfold hostValue
  split
  · exact (concurs_constant value).bind fun _ => concurs_pure _
  · exact (concurs_platform name value).bind fun _ => concurs_pure _

lemma concurs_literalCode (value : Value) :
    Concurs U S S (literalCode value) (literalCode value) := by
  unfold literalCode
  split
  · exact (concurs_constant value).bind fun _ => concurs_pure _
  · split
    · exact (concurs_platform _ value).bind fun _ => concurs_pure _
    · exact concurs_throw nofun

lemma concurs_schemaConstant (schema : Value) :
    Concurs U S S (schemaConstant schema) (schemaConstant schema) := by
  unfold schemaConstant
  split
  · exact concurs_constant schema
  · exact concurs_throw nofun

lemma concurs_checkRest (isRest : List Bool) :
    Concurs U S S (checkRest isRest) (checkRest isRest) := by
  unfold checkRest
  split
  · exact concurs_throw nofun
  · exact concurs_pure _

lemma concurs_checkKind (arguments : Bool) (kind : String) :
    Concurs U S S (checkKind arguments kind) (checkKind arguments kind) := by
  unfold checkKind
  split
  · exact concurs_pure _
  · exact (concurs_constant _).bind fun _ => concurs_pure _

/-! ### Scopes -/

lemma concurs_block : Concurs U S S block block :=
  (concurs_get.bind fun _ => concurs_pure _).bind fun _ => concurs_pure _

lemma concurs_slotOf (name : String) : Concurs U S S (slotOf name) (slotOf name) := by
  refine concurs_block.bind fun b => ?_
  split
  · exact concurs_pure _
  · exact concurs_throw nofun

lemma concurs_openBlock (b : Block) :
    Concurs U (blocks :: S) ((b.bare :: blocks) :: S) (openBlock b) (openBlock b) := by
  refine concurs_total fun d hd => ⟨_, _, rfl, ?_⟩
  obtain ⟨f, fs, hf, rfl, rfl⟩ := map_eq_cons_iff.mp hd
  simp [Draft.scopes, hf]

lemma concurs_leaveBlock : Concurs U ((b :: blocks) :: S) (blocks :: S) leaveBlock leaveBlock := by
  refine concurs_total fun d hd => ⟨_, _, rfl, ?_⟩
  obtain ⟨f, fs, hf, hblocks, rfl⟩ := map_eq_cons_iff.mp hd
  obtain ⟨c, cs, hcs, -, rfl⟩ := map_eq_cons_iff.mp hblocks
  simp [Draft.scopes, hf, hcs]

lemma concurs_openFunction (b : Block) :
    Concurs U S ([b.bare] :: S) (openFunction b) (openFunction b) :=
  concurs_modify fun d hd => by rw [← hd]; rfl

lemma concurs_closeFunction : Concurs U (blocks :: S) S closeFunction closeFunction := by
  refine (concurs_get.bind fun _ => concurs_pure _).bind fun _ =>
    Concurs.bind (concurs_modify ?_) fun _ => concurs_pure _
  intro d hd
  rw [Draft.scopes, map_tail, ← Draft.scopes, hd, tail_cons]

lemma concurs_finish (f : CodeFunction) : Concurs U S S (finish f) (finish f) := by
  refine Concurs.bind (concurs_modify ?_) fun _ => concurs_get.bind fun _ => concurs_pure _
  exact fun _ hd => hd

/-! ### Names -/

/-- A search for a name finds nothing only if no scope declares the name. -/
lemma run_reach {d' found}
    (h : (reach library name).run d = .ok (found, d')) :
    d'.scopes = d.scopes ∧ (found = none → ¬ d.scopes.Declare library name) := by
  obtain ⟨c, d₁, hget, hrun⟩ := bind_eq_ok.mp h
  cases hget
  have hs := Frame.reach_spec library name d.frames
  split at hrun
  next place frames hr =>
    rw [hr] at hs
    cases hrun
    exact ⟨hs.2.1.scopes_eq, nofun⟩
  next hr =>
    rw [hr] at hs
    cases hrun
    exact ⟨rfl, fun _ hdeclare => Draft.declare_iff.mp hdeclare hs⟩

/-- A search for a name, followed by computations that concur in what it finds. -/
lemma concurs_reach {f g : Option Capture → Lower α}
    (hf : ∀ place, Concurs U S S (f (some place)) (g (some place)))
    (hn : ¬ S.Declare library name → Concurs U S S (f none) (g none)) :
    Concurs U S S (reach library name >>= f) (reach library name >>= g) := by
  -- what follows the search is known to concur for the result that the search has in this draft
  have hnext : ∀ {d d' found}, d.scopes = S →
      (reach library name).run d = .ok (found, d') →
      d'.scopes = S ∧ Concurs U S S (f found) (g found) := by
    intro d d' found hd hrun
    obtain ⟨hsc, hlacks⟩ := run_reach hrun
    refine ⟨hsc.trans hd, ?_⟩
    cases found with
    | some place => exact hf place
    | none => exact hn (hd ▸ hlacks rfl)
  have hruns : ∀ d, ∃ found d', (reach library name).run d = .ok (found, d') := by
    intro d
    cases hr : Frame.reach library name d.frames with
    | none => exact ⟨none, d, by simp [reach, hr]; rfl⟩
    | some r => exact ⟨some r.1, { d with frames := r.2 }, by simp [reach, hr]; rfl⟩
  constructor
  · intro d hd
    obtain ⟨found, d', hrun⟩ := hruns d
    obtain ⟨hd', hconcurs⟩ := hnext hd hrun
    rw [run_bind_of_ok hrun, run_bind_of_ok hrun, hconcurs.same d' hd']
  · intro d n hd h
    obtain ⟨found, d', hrun⟩ := hruns d
    obtain ⟨hd', hconcurs⟩ := hnext hd hrun
    rw [run_bind_of_ok hrun] at h
    exact hconcurs.undefined d' n hd' h
  · intro d a d₂ hd h
    obtain ⟨found, d', hrun, hafter⟩ := bind_eq_ok.mp h
    obtain ⟨hd', hconcurs⟩ := hnext hd hrun
    exact hconcurs.scopes d' a d₂ hd' hafter

end Lower

/-! ## Names that mean the same -/

/-- **A name without a scope means the same in two environments**: the same value of the host, or
else a definition of the library that is in scope, or the same value of the library. If it means
nothing, it has the property `U`. -/
structure Environment.Shares (env env' : Environment) (U : String → Prop) (inScope : List String)
    (name : String) : Prop where
  host : get? env.names name = get? env'.names name
  library : get? env.names name = none → name ∉ inScope →
    get? env.library name = get? env'.library name
  undefined : get? env.names name = none → name ∉ inScope →
    (∀ value, get? env.library name ≠ some (.value value)) → U name

/-- Modules provide the same. -/
abbrev Environment.SameModules (env env' : Environment) : Prop :=
  ∀ module, get? env.modules module = get? env'.modules module

/-- The scopes declare the names `bound`, and the scope of the library the names `inScope`. -/
structure Scopes.Hold (S : Scopes) (bound inScope : List String) : Prop where
  bound : ∀ n ∈ bound, S.Declare false n
  library : ∀ n ∈ inScope, S.Declare true n

variable {bound inScope : List String}

namespace Scopes.Hold

lemma inBlock (h : Hold (blocks :: S) bound inScope) (hkind : b.isLibrary = false)
    (names) :
    Hold (((b.declareAll names).bare :: blocks) :: S) (names ++ bound) inScope where
  bound n hn := by
    rcases mem_append.mp hn with hn | hn
    · exact .of_block ((Block.isLibrary_declareAll b names).trans hkind)
        (Block.isSome_get?_declareAll (.inl hn))
    · exact (h.bound n hn).inBlock _
  library n hn := (h.library n hn).inBlock _

lemma inFunction (h : Hold S bound inScope) (hkind : b.isLibrary = false)
    (names) : Hold ([(b.declareAll names).bare] :: S) (names ++ bound) inScope where
  bound n hn := by
    rcases mem_append.mp hn with hn | hn
    · exact .of_block ((Block.isLibrary_declareAll b names).trans hkind)
        (Block.isSome_get?_declareAll (.inl hn))
    · exact (h.bound n hn).inFunction _
  library n hn := (h.library n hn).inFunction _

end Scopes.Hold

namespace Lower

variable {env env' : Environment}

lemma concurs_libraryName (hshares : env.Shares env' U inScope name)
    (hh : get? env.names name = none) (hS : S.Hold bound inScope) :
    Concurs U S S (libraryName env name) (libraryName env' name) := by
  refine concurs_reach (fun _ => concurs_pure _) fun hlacks => ?_
  have hout : name ∉ inScope := fun hin => hlacks (hS.library name hin)
  dsimp only
  rw [← hshares.library hh hout]
  split
  · exact concurs_hostValue _ _
  · next hv =>
    refine concurs_throw fun n hn => ?_
    cases hn
    exact hshares.undefined hh hout fun value => hv value

lemma concurs_nameCode
    (hfree : name ∉ bound → env.Shares env' U inScope name) (hS : S.Hold bound inScope) :
    Concurs U S S (nameCode env name) (nameCode env' name) := by
  refine concurs_reach (fun _ => concurs_pure _) fun hlacks => ?_
  have hshares := hfree fun hin => hlacks (hS.bound name hin)
  dsimp only
  rw [← hshares.host]
  split
  · exact concurs_hostValue _ _
  · next hh => exact concurs_libraryName hshares hh hS

lemma concurs_moduleName (hmodules : env.SameModules env') (name module : String) :
    Concurs U S S (moduleName env name module) (moduleName env' name module) := by
  unfold moduleName
  rw [← hmodules]
  split
  · exact concurs_throw nofun
  · split
    · exact concurs_throw nofun
    · exact concurs_hostValue _ _

/-! ### Patterns and functions -/

lemma concurs_arrayPattern {es : List ArrayPatternElement}
    {rest rest' fixed fixed' : Lower Code} (hr : Concurs U S S rest rest')
    (hfixed : Concurs U S S fixed fixed') :
    Concurs U S S (arrayPattern arguments es rest fixed) (arrayPattern arguments es rest' fixed') :=
  (concurs_checkRest _).bind fun _ => (concurs_checkKind _ _).bind fun _ =>
    hr.bind fun _ => hfixed.bind fun _ => concurs_pure _

lemma concurs_objectPattern {es : List ObjectPatternElement}
    {ps properties' : Lower Code} (h : Concurs U S S ps properties') :
    Concurs U S S (objectPattern arguments es ps) (objectPattern arguments es properties') :=
  (concurs_checkRest _).bind fun _ => (concurs_checkKind _ _).bind fun _ =>
    h.bind fun _ => concurs_pure _

lemma concurs_parameters {items : List α} {read : Instruction} {taken taken' : Lower Code}
    (h : Concurs U S S taken taken') :
    Concurs U S S (parameters items read taken) (parameters items read taken') := by
  unfold parameters
  split
  · exact concurs_pure _
  · exact h.bind fun _ => concurs_pure _

/-! ### The tree -/

/-- Free names mean the same. -/
abbrev SharesAll (env env' : Environment) (U : String → Prop) (inScope names : List String) :
    Prop :=
  ∀ n ∈ names, env.Shares env' U inScope n

/-- **Lowering is lexical**: in two environments it does the same wherever these share the names
that are free. -/
abbrev Lexical (env env' : Environment) (U : String → Prop) (inScope : List String)
    (free : List String → List String) (x : Environment → Lower Code) : Prop :=
  ∀ {blocks : List Block} {S : Scopes} {bound : List String},
    Scopes.Hold (blocks :: S) bound inScope →
    SharesAll env env' U inScope (free bound) → Concurs U (blocks :: S) (blocks :: S) (x env)
      (x env')

section Tree

variable (hmodules : env.SameModules env')

include hmodules

-- The linter does not see a use by way of another member of the block.
set_option linter.unusedSectionVars false in
mutual
/-- **An expression is lowered to the same code in environments that share its free names.** -/
theorem concurs_expr (label : String) :
    ∀ e, Lexical env env' U inScope e.freeIn (expr · label e)
  | .literal value => fun _ _ => by
    simp only [expr]
    exact concurs_literalCode value
  | .name n (some module) => fun _ _ => by
    simp only [expr]
    exact concurs_moduleName hmodules n module
  | .name n none => fun hS h => by
    simp only [expr]
    exact concurs_nameCode (fun hn => h n (by simp [freeIn, hn])) hS
  | .array es => fun hS h => by
    simp only [freeIn, expr] at h ⊢
    exact (concurs_arrayElements es hS h).bind fun _ => concurs_pure _
  | .object xs => fun hS h => by
    simp only [freeIn, expr] at h ⊢
    exact (concurs_objectElements xs hS h).bind fun _ => concurs_pure _
  | .defining ds r => fun hS h => by
    simp only [freeIn, forall_mem_append, expr] at h ⊢
    obtain ⟨hds, hr⟩ := h
    have hin := hS.inBlock (b := {}) rfl (ds.flatMap fun d => d.1.names)
    exact (concurs_openBlock _).bind fun _ =>
      (concurs_defineAll ds hin hds).bind fun _ =>
      (concurs_expr anonymous r hin hr).bind fun _ =>
      concurs_leaveBlock.bind fun _ => concurs_pure _
  | .given params nps r => fun hS h => by
    simp only [freeIn, forall_mem_append, expr] at h ⊢
    obtain ⟨⟨hps, hnamed⟩, hr⟩ := h
    have hin := hS.inFunction (b := .ofFunction) rfl
      (Pattern.elementNames params ++ Pattern.entryNames nps)
    exact (concurs_openFunction _).bind fun _ =>
      (concurs_parameters (concurs_arrayPattern (concurs_arrayRest 0 params hin hps)
        (concurs_arrayFixed true 1 params hin hps))).bind fun _ =>
      (concurs_parameters (concurs_objectPattern
        (concurs_objectProperties true nps hin hnamed))).bind fun _ =>
      (concurs_expr anonymous r hin hr).bind fun _ => concurs_block.bind fun _ =>
      concurs_closeFunction.bind fun _ => (concurs_finish _).bind fun _ => concurs_pure _
  | .calling f args namedArgs => fun hS h => by
    simp only [freeIn, forall_mem_append, expr] at h ⊢
    obtain ⟨⟨hf, hargs⟩, hnamed⟩ := h
    exact (concurs_expr anonymous f hS hf).bind fun _ =>
      (concurs_arrayElements args hS hargs).bind fun _ =>
      (concurs_objectElements namedArgs hS hnamed).bind fun _ => concurs_pure _
  | .indexing collection key => fun hS h => by
    simp only [freeIn, forall_mem_append, expr] at h ⊢
    obtain ⟨hcollection, hkey⟩ := h
    exact (concurs_expr anonymous collection hS hcollection).bind fun _ =>
      (concurs_expr anonymous key hS hkey).bind fun _ => concurs_pure _
  | .catching inner => fun hS h => by
    simp only [freeIn, expr] at h ⊢
    have hin := hS.inBlock (b := {}) rfl []
    exact (concurs_openBlock _).bind fun _ => (concurs_expr anonymous inner hin h).bind fun _ =>
      concurs_leaveBlock.bind fun _ => concurs_pure _

lemma concurs_arrayElements : ∀ es,
    Lexical env env' U inScope (freeInElements · es) (arrayElements · es)
  | [] => fun _ _ => by
    simp only [arrayElements]
    exact concurs_pure _
  | .item e :: rest | .spread e :: rest => fun hS h => by
    simp only [freeInElements, forall_mem_append, arrayElements] at h ⊢
    obtain ⟨he, hr⟩ := h
    exact (concurs_expr anonymous e hS he).bind fun _ =>
      (concurs_arrayElements rest hS hr).bind fun _ => concurs_pure _

lemma concurs_objectElements : ∀ es,
    Lexical env env' U inScope (freeInEntries · es) (objectElements · es)
  | [] => fun _ _ => by
    simp only [objectElements]
    exact concurs_pure _
  | .entry key value :: rest => fun hS h => by
    simp only [freeInEntries, forall_mem_append, objectElements] at h ⊢
    obtain ⟨⟨hkey, hvalue⟩, hr⟩ := h
    exact (concurs_expr anonymous key hS hkey).bind fun _ =>
      (concurs_expr anonymous value hS hvalue).bind fun _ =>
      (concurs_objectElements rest hS hr).bind fun _ => concurs_pure _
  | .spread e :: rest => fun hS h => by
    simp only [freeInEntries, forall_mem_append, objectElements] at h ⊢
    obtain ⟨he, hr⟩ := h
    exact (concurs_expr anonymous e hS he).bind fun _ =>
      (concurs_objectElements rest hS hr).bind fun _ => concurs_pure _

lemma concurs_defineAll : ∀ ds : List (Pattern × Expr),
    Lexical env env' U inScope (freeInDefinitions · ds) (defineAll · ds)
  | [] => fun _ _ => by
    simp only [defineAll]
    exact concurs_pure _
  | (p, value) :: rest => fun hS h => by
    simp only [freeInDefinitions, forall_mem_append, defineAll] at h ⊢
    obtain ⟨⟨hpattern, hv⟩, hr⟩ := h
    exact (concurs_expr (definedName p) value hS hv).bind fun _ =>
      (concurs_destructure none p hS hpattern).bind fun _ =>
      (concurs_defineAll rest hS hr).bind fun _ => concurs_pure _

lemma concurs_destructure (a : Option String) : ∀ p,
    Lexical env env' U inScope (freeInPattern · p) (destructure · a p)
  | .name n => fun _ _ => by
    simp only [destructure]
    exact (concurs_slotOf n).bind fun _ => concurs_pure _
  | .checked p schema => fun hS h => by
    simp only [freeInPattern, destructure] at h ⊢
    exact (concurs_schemaConstant schema).bind fun _ =>
      (concurs_destructure none p hS h).bind fun _ => concurs_pure _
  | .array es => fun hS h => by
    simp only [freeInPattern, destructure] at h ⊢
    exact concurs_arrayPattern (concurs_arrayRest 0 es hS h)
      (concurs_arrayFixed false 1 es hS h)
  | .object xs => fun hS h => by
    simp only [freeInPattern, destructure] at h ⊢
    exact concurs_objectPattern (concurs_objectProperties false xs hS h)

lemma concurs_arrayRest (count : Nat) : ∀ es,
    Lexical env env' U inScope (freeInParams · es) (arrayRest · count es)
  | [] => fun _ _ => by
    simp only [arrayRest]
    exact concurs_pure _
  | .rest p :: _ => fun hS h => by
    simp only [freeInParams, forall_mem_append, arrayRest] at h ⊢
    exact (concurs_destructure none p hS h.1).bind fun _ => concurs_pure _
  | .required _ :: later | .optional _ _ :: later => fun hS h => by
    simp only [freeInParams, forall_mem_append, arrayRest] at h ⊢
    exact concurs_arrayRest (count + 1) later hS h.2

lemma concurs_arrayFixed (arguments : Bool) (i : Nat) : ∀ es,
    Lexical env env' U inScope (freeInParams · es) (arrayFixed · arguments i es)
  | [] => fun _ _ => by
    simp only [arrayFixed]
    exact concurs_pure _
  | .rest _ :: _ => fun _ _ => by
    simp only [arrayFixed]
    exact concurs_pure _
  | .required p :: later => fun hS h => by
    simp only [freeInParams, forall_mem_append, arrayFixed] at h ⊢
    obtain ⟨hpattern, hlater⟩ := h
    exact (concurs_destructure _ p hS hpattern).bind fun _ =>
      (concurs_arrayFixed arguments (i + 1) later hS hlater).bind fun _ => concurs_pure _
  | .optional p default :: later => fun hS h => by
    simp only [freeInParams, forall_mem_append, arrayFixed] at h ⊢
    obtain ⟨⟨hdef, hpattern⟩, hlater⟩ := h
    exact (concurs_expr anonymous default hS hdef).bind fun _ =>
      (concurs_destructure _ p hS hpattern).bind fun _ =>
      (concurs_arrayFixed arguments (i + 1) later hS hlater).bind fun _ => concurs_pure _

lemma concurs_objectProperties (arguments : Bool) : ∀ es,
    Lexical env env' U inScope (freeInNamedParams · es) (objectProperties · arguments es)
  | [] => fun _ _ => by
    simp only [objectProperties]
    exact concurs_pure _
  | .rest p :: _ => fun hS h => by
    simp only [freeInNamedParams, forall_mem_append, objectProperties] at h ⊢
    exact concurs_destructure none p hS h.1
  | .property key p none :: later => fun hS h => by
    simp only [freeInNamedParams, forall_mem_append, objectProperties] at h ⊢
    obtain ⟨hpattern, hlater⟩ := h
    exact (concurs_constant _).bind fun _ =>
      (concurs_destructure _ p hS hpattern).bind fun _ =>
      (concurs_objectProperties arguments later hS hlater).bind fun _ => concurs_pure _
  | .property key p (some default) :: later => fun hS h => by
    simp only [freeInNamedParams, forall_mem_append, objectProperties] at h ⊢
    obtain ⟨⟨hdef, hpattern⟩, hlater⟩ := h
    exact (concurs_constant _).bind fun _ =>
      (concurs_expr anonymous default hS hdef).bind fun _ =>
      (concurs_destructure _ p hS hpattern).bind fun _ =>
      (concurs_objectProperties arguments later hS hlater).bind fun _ => concurs_pure _
end

/-- **Definitions of the library are lowered to the same code** in environments that share their
free names. -/
theorem concurs_libraryDefinitions (ds : List (String × Expr)) (slot : Nat)
    (hS : Scopes.Hold (blocks :: S) [] inScope)
    (h : ∀ name e, (name, e) ∈ ds → SharesAll env env' U inScope e.freeNames) :
    Concurs U (blocks :: S) (blocks :: S) (libraryDefinitions env slot ds)
      (libraryDefinitions env' slot ds) := by
  induction ds generalizing slot with
  | nil => exact concurs_pure _
  | cons definition rest ih =>
    obtain ⟨name, e⟩ := definition
    rw [libraryDefinitions, libraryDefinitions]
    exact (concurs_expr hmodules name e hS (h name e mem_cons_self)).bind fun _ =>
      (ih (slot + 1) fun name e hmem => h name e (mem_cons_of_mem _ hmem)).bind fun _ =>
      concurs_pure _

end Tree

end Lower

end TreeCode
