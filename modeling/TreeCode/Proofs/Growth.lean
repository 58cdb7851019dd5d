import TreeCode.Proofs.Needs

/-!
# What lowering does to a draft

Lowering gives code, and on the side a draft grows: its tables get constants and values of the host,
and functions are finished. A `Growth` is a relation between a draft and what becomes of it, by the
code that is given, which holds of each such change and of one change after another. Then it holds
of lowering a whole tree (`Growth.gives_mainCode`).

A function that lowering finishes is put into the table, and the code that makes its closures is
left to the code around it. So no function of a program is there for nothing: an item of the
program's own code, or of a function that was finished later, makes it (`Draft.cited_of_mainCode`).
-/

namespace TreeCode

open List

mutual
/-- **The values that are written in an expression**: its literals, and the schemas of its
patterns. -/
def Expr.values : Expr → List Value
  | .literal value => [value]
  | .name _ _ => []
  | .array es => valuesOfElements es
  | .object xs => valuesOfEntries xs
  | .defining ds r => valuesOfDefinitions ds ++ r.values
  | .given params nps r => valuesOfParams params ++ valuesOfNamedParams nps ++ r.values
  | .calling f args namedArgs => f.values ++ valuesOfElements args ++ valuesOfEntries namedArgs
  | .indexing coll key => coll.values ++ key.values
  | .catching inner => inner.values
def valuesOfElements : List ArrayElement → List Value
  | [] => []
  | .item e :: rest => e.values ++ valuesOfElements rest
  | .spread e :: rest => e.values ++ valuesOfElements rest
def valuesOfEntries : List ObjectElement → List Value
  | [] => []
  | .entry key value :: rest => key.values ++ value.values ++ valuesOfEntries rest
  | .spread e :: rest => e.values ++ valuesOfEntries rest
def valuesOfDefinitions : List (Pattern × Expr) → List Value
  | [] => []
  | (p, value) :: rest => value.values ++ p.values ++ valuesOfDefinitions rest
/-- The schemas of a pattern, and the values in its defaults. -/
def Pattern.values : Pattern → List Value
  | .name _ => []
  | .array es => valuesOfParams es
  | .object xs => valuesOfNamedParams xs
  | .checked p schema => schema :: p.values
def valuesOfParams : List ArrayPatternElement → List Value
  | [] => []
  | .required p :: rest => p.values ++ valuesOfParams rest
  | .optional p default :: rest => p.values ++ default.values ++ valuesOfParams rest
  | .rest p :: rest => p.values ++ valuesOfParams rest
def valuesOfNamedParams : List ObjectPatternElement → List Value
  | [] => []
  | .property _ p none :: rest => p.values ++ valuesOfNamedParams rest
  | .property _ p (some default) :: rest => p.values ++ default.values ++ valuesOfNamedParams rest
  | .rest p :: rest => p.values ++ valuesOfNamedParams rest
end

/-- **A way in which drafts grow**: what a draft becomes by a computation that gives some code, or
code that has all its items. -/
structure Growth where
  Grows : Draft → Draft → Code → Prop
  /-- The values that may become constants. -/
  Constant : Value → Prop
  /-- The values that the host may provide under a name. -/
  Platform : String → Value → Prop
  string : ∀ s, Constant (.string s)
  same : ∀ {d d' code}, d'.finished = d.finished → d'.constants = d.constants →
    d'.platform = d.platform → Grows d d' code
  trans : ∀ {d d₁ d₂ first second code}, Grows d d₁ first → Grows d₁ d₂ second → first ⊆ code →
    second ⊆ code → Grows d d₂ code
  addConstant : ∀ {d v}, Constant v → Grows d { d with constants := d.constants.push v } []
  addPlatform : ∀ {d name value}, Platform name value →
    (∀ entry ∈ d.platform, entry.name = name → entry.value.equals value = false) →
    Grows d { d with platform := d.platform.push { name, value } } []
  /-- What the inside of a function does is done by making the function. -/
  addFunction : ∀ {d d' f code}, Grows d d' f.body → .makeFunction (d'.finished.size + 1) ∈ code →
    Grows d { d' with finished := d'.finished.push f } code

namespace Growth

open Lower

variable {α β : Type} (G : Growth)

/-- A value that may be provided under a name. -/
def Provides (name : String) (v : Value) : Prop :=
  (v.isData = true → G.Constant v) ∧ (v.isData = false → G.Platform name v)

/-- A value that may be written in a tree. -/
def Writes (v : Value) : Prop := ∀ name, G.Provides name v

/-- Everything in the environment may be provided, and may be written in a tree. -/
structure Allows (env : Environment) : Prop where
  names : ∀ {name value}, Entries.get? env.names name = some value → G.Provides name value
  modules : ∀ {module exports name value}, Entries.get? env.modules module = some exports →
    Entries.get? exports name = some value → G.Provides name value
  library : ∀ {name value}, Entries.get? env.library name = some (.value value) →
    G.Provides name value
  sources : ∀ {name e}, (name, .source e) ∈ env.library → ∀ v ∈ e.values, G.Writes v

/-- The computation lets the draft grow, whatever code there is. -/
def Steps (x : Lower α) : Prop := ∀ d a d', x.run d = .ok (a, d') → G.Grows d d' []

/-- **The code that a computation gives has the items of `before`**, and the draft grows by it. -/
def Gives (pre : Code) (x : Lower Code) : Prop :=
  ∀ d code d', x.run d = .ok (code, d') → pre ⊆ code ∧ G.Grows d d' code

variable {G} {pre : Code}

/-! ## Computations beside the code -/

lemma Steps.bind {x : Lower α} {f : α → Lower β} (hx : G.Steps x) (hf : ∀ a, G.Steps (f a)) :
    G.Steps (x >>= f) := by
  intro d b d' hrun
  obtain ⟨a, d₁, hrun₁, hrun₂⟩ := bind_eq_ok.mp hrun
  exact G.trans (hx _ _ _ hrun₁) (hf a _ _ _ hrun₂) (nil_subset _) (nil_subset _)

lemma steps_pure (a : α) : G.Steps (pure a) := by
  intro d b d' hrun
  cases hrun
  exact G.same rfl rfl rfl

lemma steps_throw (e : LoweringError) : G.Steps (throw e : Lower α) := by
  intro d b d' hrun
  cases hrun

/-- A computation that looks at the draft first. -/
lemma steps_get {f : Draft → Lower β}
    (h : ∀ d a d', (f d).run d = .ok (a, d') → G.Grows d d' []) : G.Steps (get >>= f) := by
  intro d b d' hrun
  obtain ⟨_, _, hget, hr⟩ := bind_eq_ok.mp hrun
  cases hget
  exact h d b d' hr

lemma steps_frames {f : Draft → List Frame} :
    G.Steps (modify fun d => { d with frames := f d }) := by
  intro d b d' hrun
  cases hrun
  exact G.same rfl rfl rfl

variable {v schema : Value} {name label : String} {arguments : Bool}

lemma steps_constant (hv : G.Constant v) : G.Steps (constant v) := by
  refine steps_get fun d k d' hrun => ?_
  dsimp only at hrun
  split at hrun
  · exact steps_pure _ _ _ _ hrun
  · obtain ⟨_, _, hi, hadd⟩ := bind_eq_ok.mp hrun
    obtain ⟨rfl, -, -⟩ := run_tableIndex hi
    cases hadd
    exact G.addConstant hv

lemma steps_platform (hv : G.Platform name v) :
    G.Steps (platform name v) := by
  refine steps_get fun d k d' hrun => ?_
  dsimp only at hrun
  split at hrun
  · exact steps_pure _ _ _ _ hrun
  · next hn =>
    obtain ⟨_, _, hi, hadd⟩ := bind_eq_ok.mp hrun
    obtain ⟨rfl, -, -⟩ := run_tableIndex hi
    cases hadd
    refine G.addPlatform hv fun entry he hname => ?_
    have hnew := Array.findIdx?_eq_none_iff.mp hn entry he
    rwa [hname, beq_self_eq_true, Bool.true_and] at hnew

lemma steps_reach (lib name) : G.Steps (reach lib name) := by
  refine steps_get fun d a d' hrun => ?_
  split at hrun
  · exact (steps_frames.bind fun _ => steps_pure _) _ _ _ hrun
  · exact steps_pure _ _ _ _ hrun

lemma steps_frame : G.Steps frame := steps_get fun _ _ _ hrun => steps_pure _ _ _ _ hrun

lemma steps_block : G.Steps block := steps_frame.bind fun _ => steps_pure _

lemma steps_openBlock (b) : G.Steps (openBlock b) := steps_frame.bind fun _ => steps_frames

lemma steps_closeBlock : G.Steps closeBlock :=
  steps_block.bind fun _ => steps_frame.bind fun _ => steps_frames.bind fun _ => steps_pure _

lemma steps_slotOf (name) : G.Steps (slotOf name) := by
  refine steps_block.bind fun b => ?_
  split
  · exact steps_pure _
  · exact steps_throw _

lemma steps_schemaConstant (h : G.Writes schema) :
    G.Steps (schemaConstant schema) := by
  unfold schemaConstant
  split
  · next hdata => exact steps_constant ((h "").1 hdata)
  · exact steps_throw _

lemma steps_checkRest (isRest) : G.Steps (checkRest isRest) := by
  unfold checkRest
  split
  · exact steps_throw _
  · exact steps_pure _

/-! ## Computations that give code -/

lemma gives_pure {code} (h : pre ⊆ code := by grind) : G.Gives pre (pure code) := by
  intro d code' d' hrun
  cases hrun
  exact ⟨h, G.same rfl rfl rfl⟩

lemma gives_throw (e) : G.Gives pre (throw e) := by
  intro d code d' hrun
  cases hrun

lemma Gives.bind {x f} (hx : G.Gives [] x)
    (hf : ∀ code, G.Gives (pre ++ code) (f code)) : G.Gives pre (x >>= f) := by
  intro d code d' hrun
  obtain ⟨first, d₁, hrun₁, hrun₂⟩ := bind_eq_ok.mp hrun
  obtain ⟨-, hgrows⟩ := hx _ _ _ hrun₁
  obtain ⟨hsub, hgrows'⟩ := hf first _ _ _ hrun₂
  exact ⟨fun _ h => hsub (mem_append_left _ h),
    G.trans hgrows hgrows' (fun _ h => hsub (mem_append_right _ h)) (Subset.refl _)⟩

lemma Gives.after {x : Lower α} {f} (hx : G.Steps x)
    (hf : ∀ a, G.Gives pre (f a)) : G.Gives pre (x >>= f) := by
  intro d code d' hrun
  obtain ⟨a, d₁, hrun₁, hrun₂⟩ := bind_eq_ok.mp hrun
  obtain ⟨hsub, hgrows⟩ := hf a _ _ _ hrun₂
  exact ⟨hsub, G.trans (hx _ _ _ hrun₁) hgrows (nil_subset _) (Subset.refl _)⟩

lemma gives_leaveBlock : G.Gives [] leaveBlock := .after steps_closeBlock fun _ => gives_pure

lemma gives_hostValue (h : G.Provides name v) :
    G.Gives [] (hostValue name v) := by
  unfold hostValue
  split
  · next hdata => exact .after (steps_constant (h.1 hdata)) fun _ => gives_pure
  · next hdata =>
    exact .after (steps_platform (h.2 (Bool.eq_false_iff.mpr hdata))) fun _ => gives_pure

lemma gives_literalCode (h : G.Writes v) : G.Gives [] (literalCode v) := by
  unfold literalCode
  split
  · next hdata => exact .after (steps_constant ((h "").1 hdata)) fun _ => gives_pure
  · next hdata =>
    split
    · next name _ =>
      exact .after (steps_platform ((h name).2 (Bool.eq_false_iff.mpr hdata))) fun _ => gives_pure
    · exact gives_throw _

lemma gives_checkKind (arguments kind) :
    G.Gives [] (checkKind arguments kind) := by
  unfold checkKind
  split
  · exact gives_pure
  · exact .after (steps_constant (G.string kind)) fun _ => gives_pure

lemma gives_arrayPattern {es : List ArrayPatternElement}
    {rest fixed} (hr : G.Gives [] rest) (hfixed : G.Gives [] fixed) :
    G.Gives [] (arrayPattern arguments es rest fixed) :=
  .after (steps_checkRest _) fun _ => (gives_checkKind _ _).bind fun _ =>
    hr.bind fun _ => hfixed.bind fun _ => gives_pure

lemma gives_objectPattern {es : List ObjectPatternElement} {ps} (h : G.Gives [] ps) :
    G.Gives [] (objectPattern arguments es ps) :=
  .after (steps_checkRest _) fun _ => (gives_checkKind _ _).bind fun _ => h.bind fun _ => gives_pure

lemma gives_parameters {items : List α} {read taken}
    (h : G.Gives [] taken) : G.Gives [] (parameters items read taken) := by
  unfold parameters
  split
  · exact gives_pure
  · exact h.bind fun _ => gives_pure

/-- The draft grows by the body of a function, and then by the code that makes it. -/
lemma gives_function {scope positional named last}
    (hpositional : G.Gives [] positional) (hn : G.Gives [] named) (hl : G.Gives [] last) :
    G.Gives [] (do
      openFunction scope
      let positional ← positional
      let named ← named
      let last ← last
      let detach := detachSlots (← block)
      let frame ← closeFunction
      let index ← finish
        { name := label
          body := reserveSlots scope ++ positional ++ named ++ last ++ detach ++ Code.emit .ret
          captures := frame.captures }
      return .makeFunction index :: frame.captures.flatMap captureCode) := by
  intro d code d' hrun
  obtain ⟨_, d₀, hopen, hrun₀⟩ := bind_eq_ok.mp hrun
  obtain ⟨pos, d₁, hpos, hrun₁⟩ := bind_eq_ok.mp hrun₀
  obtain ⟨nam, d₂, hnam, hrun₂⟩ := bind_eq_ok.mp hrun₁
  obtain ⟨las, d₃, hlas, hrun₃⟩ := bind_eq_ok.mp hrun₂
  have hopened : G.Grows d d₀ [] := by
    cases hopen
    exact G.same rfl rfl rfl
  have hpositional : G.Grows d d₁ pos :=
    G.trans hopened (hpositional _ _ _ hpos).2 (nil_subset _) (Subset.refl _)
  have hboth : G.Grows d d₂ (pos ++ nam) :=
    G.trans hpositional (hn _ _ _ hnam).2 (by grind) (by grind)
  have hin : G.Grows d d₃ (pos ++ nam ++ las) :=
    G.trans hboth (hl _ _ _ hlas).2 (by grind) (by grind)
  have hc : G.Grows d₃ { d₃ with frames := d₃.frames.tail } [] := G.same rfl rfl rfl
  cases hrun₃
  refine ⟨nil_subset _, @G.addFunction d { d₃ with frames := d₃.frames.tail } _ _ ?_ (by simp)⟩
  exact G.trans hin hc (by grind) (nil_subset _)

/-! ## The tree -/

section Tree

variable {env : Environment} (henv : G.Allows env)

include henv

lemma gives_nameCode (name) : G.Gives [] (nameCode env name) := by
  refine .after (steps_reach false name) fun found => ?_
  split
  · exact gives_pure
  · split
    · next hv => exact gives_hostValue (henv.names hv)
    · refine .after (steps_reach true name) fun found => ?_
      split
      · exact gives_pure
      · split
        · next hv => exact gives_hostValue (henv.library hv)
        · exact gives_throw _

lemma gives_moduleName (name module) :
    G.Gives [] (moduleName env name module) := by
  unfold moduleName
  split
  · exact gives_throw _
  · next hexports =>
    split
    · exact gives_throw _
    · next hv => exact gives_hostValue (henv.modules hexports hv)

-- The linter does not see a use by way of another member of the block.
set_option linter.unusedSectionVars false in
mutual
/-- **The draft grows by the code of an expression.** -/
theorem gives_expr (label) : ∀ e, (∀ v ∈ e.values, G.Writes v) → G.Gives [] (expr env label e)
  | .literal value, he => by
    rw [expr]
    exact gives_literalCode (he value mem_cons_self)
  | .name n (some module), _ => by
    rw [expr]
    exact gives_moduleName henv n module
  | .name n none, _ => by
    rw [expr]
    exact gives_nameCode henv n
  | .array es, he => by
    rw [expr]
    exact (gives_arrayElements es he).bind fun _ => gives_pure
  | .object xs, he => by
    rw [expr]
    exact (gives_objectElements xs he).bind fun _ => gives_pure
  | .defining ds r, he => by
    rw [Expr.values, forall_mem_append] at he
    rw [expr]
    exact .after (steps_openBlock _) fun _ => (gives_defineAll ds he.1).bind fun _ =>
      (gives_expr anonymous r he.2).bind fun _ => gives_leaveBlock.bind fun _ =>
      gives_pure
  | .given params nps r, he => by
    rw [Expr.values, forall_mem_append, forall_mem_append] at he
    obtain ⟨⟨hps, hnamed⟩, hr⟩ := he
    rw [expr]
    exact gives_function
      (gives_parameters (gives_arrayPattern (gives_arrayRest 0 params hps)
        (gives_arrayFixed true 1 params hps)))
      (gives_parameters (gives_objectPattern (gives_objectProperties true nps hnamed)))
      (gives_expr anonymous r hr)
  | .calling f args namedArgs, he => by
    rw [Expr.values, forall_mem_append, forall_mem_append] at he
    rw [expr]
    exact (gives_expr anonymous f he.1.1).bind fun _ =>
      (gives_arrayElements args he.1.2).bind fun _ =>
      (gives_objectElements namedArgs he.2).bind fun _ => gives_pure
  | .indexing collection key, he => by
    rw [Expr.values, forall_mem_append] at he
    rw [expr]
    exact (gives_expr anonymous collection he.1).bind fun _ =>
      (gives_expr anonymous key he.2).bind fun _ => gives_pure
  | .catching inner, he => by
    rw [expr]
    exact .after (steps_openBlock _) fun _ => (gives_expr anonymous inner he).bind fun _ =>
      gives_leaveBlock.bind fun _ => gives_pure

lemma gives_arrayElements : ∀ es,
    (∀ v ∈ valuesOfElements es, G.Writes v) → G.Gives [] (arrayElements env es)
  | [], _ => by
    rw [arrayElements]
    exact gives_pure
  | .item e :: rest, he | .spread e :: rest, he => by
    rw [valuesOfElements, forall_mem_append] at he
    rw [arrayElements]
    exact (gives_expr anonymous e he.1).bind fun _ =>
      (gives_arrayElements rest he.2).bind fun _ => gives_pure

lemma gives_objectElements : ∀ es,
    (∀ v ∈ valuesOfEntries es, G.Writes v) → G.Gives [] (objectElements env es)
  | [], _ => by
    rw [objectElements]
    exact gives_pure
  | .entry key value :: rest, he => by
    rw [valuesOfEntries, forall_mem_append, forall_mem_append] at he
    rw [objectElements]
    exact (gives_expr anonymous key he.1.1).bind fun _ =>
      (gives_expr anonymous value he.1.2).bind fun _ =>
      (gives_objectElements rest he.2).bind fun _ => gives_pure
  | .spread e :: rest, he => by
    rw [valuesOfEntries, forall_mem_append] at he
    rw [objectElements]
    exact (gives_expr anonymous e he.1).bind fun _ =>
      (gives_objectElements rest he.2).bind fun _ => gives_pure

lemma gives_defineAll : ∀ ds : List (Pattern × Expr),
    (∀ v ∈ valuesOfDefinitions ds, G.Writes v) → G.Gives [] (defineAll env ds)
  | [], _ => by
    rw [defineAll]
    exact gives_pure
  | (p, value) :: rest, he => by
    rw [valuesOfDefinitions, forall_mem_append, forall_mem_append] at he
    rw [defineAll]
    exact (gives_expr (definedName p) value he.1.1).bind fun _ =>
      (gives_destructure none p he.1.2).bind fun _ =>
      (gives_defineAll rest he.2).bind fun _ => gives_pure

lemma gives_destructure (a) : ∀ p, (∀ v ∈ p.values, G.Writes v) → G.Gives [] (destructure env a p)
  | .name n, _ => by
    rw [destructure]
    exact .after (steps_slotOf n) fun _ => gives_pure
  | .checked p schema, he => by
    rw [Pattern.values, forall_mem_cons] at he
    rw [destructure]
    exact .after (steps_schemaConstant he.1) fun _ =>
      (gives_destructure none p he.2).bind fun _ => gives_pure
  | .array es, he => by
    rw [destructure]
    exact gives_arrayPattern (gives_arrayRest 0 es he)
      (gives_arrayFixed false 1 es he)
  | .object xs, he => by
    rw [destructure]
    exact gives_objectPattern (gives_objectProperties false xs he)

lemma gives_arrayRest (count) :
    ∀ es, (∀ v ∈ valuesOfParams es, G.Writes v) →
    G.Gives [] (arrayRest env count es)
  | [], _ => by
    rw [arrayRest]
    exact gives_pure
  | .rest p :: _, he => by
    rw [valuesOfParams, forall_mem_append] at he
    rw [arrayRest]
    exact (gives_destructure none p he.1).bind fun _ => gives_pure
  | .required _ :: later, he | .optional _ _ :: later, he => by
    rw [valuesOfParams, forall_mem_append] at he
    rw [arrayRest]
    exact gives_arrayRest (count + 1) later he.2

lemma gives_arrayFixed (arguments i) :
    ∀ es, (∀ v ∈ valuesOfParams es, G.Writes v) →
    G.Gives [] (arrayFixed env arguments i es)
  | [], _ | .rest _ :: _, _ => by
    rw [arrayFixed]
    exact gives_pure
  | .required p :: later, he => by
    rw [valuesOfParams, forall_mem_append] at he
    rw [arrayFixed]
    exact (gives_destructure _ p he.1).bind fun _ =>
      (gives_arrayFixed arguments (i + 1) later he.2).bind fun _ =>
      gives_pure
  | .optional p default :: later, he => by
    rw [valuesOfParams, forall_mem_append, forall_mem_append] at he
    rw [arrayFixed]
    exact (gives_expr anonymous default he.1.2).bind fun _ =>
      (gives_destructure _ p he.1.1).bind fun _ =>
      (gives_arrayFixed arguments (i + 1) later he.2).bind fun _ =>
      gives_pure

lemma gives_objectProperties (arguments) :
    ∀ es, (∀ v ∈ valuesOfNamedParams es, G.Writes v) →
    G.Gives [] (objectProperties env arguments es)
  | [], _ => by
    rw [objectProperties]
    exact gives_pure
  | .rest p :: _, he => by
    rw [valuesOfNamedParams, forall_mem_append] at he
    rw [objectProperties]
    exact gives_destructure none p he.1
  | .property key p none :: later, he => by
    rw [valuesOfNamedParams, forall_mem_append] at he
    rw [objectProperties]
    exact .after (steps_constant (G.string key)) fun _ =>
      (gives_destructure _ p he.1).bind fun _ =>
      (gives_objectProperties arguments later he.2).bind fun _ => gives_pure
  | .property key p (some default) :: later, he => by
    rw [valuesOfNamedParams, forall_mem_append, forall_mem_append] at he
    rw [objectProperties]
    exact .after (steps_constant (G.string key)) fun _ =>
      (gives_expr anonymous default he.1.2).bind fun _ =>
      (gives_destructure _ p he.1.1).bind fun _ =>
      (gives_objectProperties arguments later he.2).bind fun _ => gives_pure
end

lemma gives_libraryDefinitions (slot) :
    ∀ retained : List (String × Expr), (∀ d ∈ retained, ∀ v ∈ d.2.values, G.Writes v) →
    G.Gives [] (libraryDefinitions env slot retained)
  | [], _ => gives_pure
  | (name, e) :: rest, h =>
    (gives_expr henv name e (h _ mem_cons_self)).bind fun _ =>
      (gives_libraryDefinitions (slot + 1) rest fun d hd =>
        h d (mem_cons_of_mem _ hd)).bind fun _ => gives_pure

/-- **The draft grows by the code of a program.** -/
theorem gives_mainCode {e} (he : ∀ v ∈ e.values, G.Writes v) :
    G.Gives [] (mainCode env e) := by
  refine Gives.bind ?_ fun _ => gives_pure
  unfold afterLibrary
  split
  · exact gives_expr henv anonymous e he
  · have hlib : G.Allows { env with names := [] } := { henv with names := nofun }
    refine .after (steps_openBlock _) fun _ => ?_
    refine (gives_libraryDefinitions hlib 0 _ fun d hd => ?_).bind fun _ => ?_
    · exact henv.sources (Library.mem_sources.mp ((env.retained_sublist e).subset hd))
    · exact (gives_expr henv anonymous e he).bind fun _ => gives_leaveBlock.bind fun _ => gives_pure

end Tree

end Growth

/-! ## Every finished function is made somewhere -/

/-- **The new functions of a draft are made** by an item of `code` or of a function after them. -/
structure Draft.Cited (d d' : Draft) (code : Code) : Prop where
  finished : d.finished.toList <+: d'.finished.toList
  made : ∀ k, d.finished.size ≤ k → k < d'.finished.size →
    CodeItem.makeFunction (k + 1) ∈ code ∨
      ∃ j f, k < j ∧ d'.finished[j]? = some f ∧ CodeItem.makeFunction (k + 1) ∈ f.body

namespace Draft.Cited

variable {d d₁ d₂ : Draft} {first second code : Code}

lemma same (h : d₁.finished = d.finished) (code) : Cited d d₁ code where
  finished := h ▸ prefix_refl _
  made k hle hlt := by rw [h] at hlt; omega

lemma trans (h : Cited d d₁ first) (h' : Cited d₁ d₂ second) (hfirst : first ⊆ code)
    (hsecond : second ⊆ code) : Cited d d₂ code where
  finished := h.finished.trans h'.finished
  made k hle hlt := by
    rcases Nat.lt_or_ge k d₁.finished.size with hk | hk
    · rcases h.made k hle hk with hmem | ⟨j, f, hkj, hf, hmem⟩
      · exact .inl (hfirst hmem)
      · exact .inr ⟨j, f, hkj, getElem?_of_prefix h'.finished hf, hmem⟩
    · rcases h'.made k hk hlt with hmem | hlater
      · exact .inl (hsecond hmem)
      · exact .inr hlater

/-- What is made in the body of a function that is finished is made in a function after it. -/
lemma finish {f} (h : Cited d d₁ f.body)
    (hmade : .makeFunction (d₁.finished.size + 1) ∈ code) :
    Cited d { d₁ with finished := d₁.finished.push f } code where
  finished := by
    rw [Array.toList_push]
    exact h.finished.trans (prefix_append _ _)
  made k hle hlt := by
    rw [Array.size_push] at hlt
    rcases Nat.lt_or_ge k d₁.finished.size with hk | hk
    · right
      rcases h.made k hle hk with hmem | ⟨j, g, hkj, hg, hmem⟩
      · exact ⟨d₁.finished.size, f, hk, Array.getElem?_push_size, hmem⟩
      · refine ⟨j, g, hkj, ?_, hmem⟩
        have hj := (Array.getElem?_eq_some_iff.mp hg).1
        rw [Array.getElem?_push_lt hj, ← hg, Array.getElem?_eq_getElem hj]
    · left
      rwa [show k = d₁.finished.size by omega]

end Draft.Cited

/-- Drafts grow by functions that are made. -/
def Growth.citing : Growth where
  Grows := Draft.Cited
  Constant _ := True
  Platform _ _ := True
  string _ := trivial
  same hfinished _ _ := .same hfinished _
  trans := .trans
  addConstant _ := .same (by rfl) _
  addPlatform _ _ := .same (by rfl) _
  addFunction := .finish

/-- **Every function of a program is made** by its own code or by a function after it. -/
theorem Draft.cited_of_mainCode {env e d d' code}
    (h : (Lower.mainCode env e).run d = .ok (code, d')) : d.Cited d' code := by
  have hall : ∀ v, Growth.citing.Writes v := fun v name => ⟨fun _ => trivial, fun _ => trivial⟩
  have henv : Growth.citing.Allows env :=
    ⟨fun _ => hall _ _, fun _ _ => hall _ _, fun _ => hall _ _, fun _ v _ => hall v⟩
  exact (Growth.gives_mainCode henv (fun v _ => hall v) d code d' h).2

end TreeCode
