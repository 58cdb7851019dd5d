import TreeCode.Proofs.Satisfaction

/-!
# Why a match fails

A match fails for one of three causes: a flaw of the value that the match finds itself, a part of
the schema that is no schema, or an error that a condition raises. In a container the failure is
blamed on the place, once for every container around it: `Blamed root places e` says that `e` is the
error `root` as it is reported from the places `places`, the outermost first.

Asked whether a value matches, the host looks at the outermost error only. That is the root where no
container is around it, and a mismatch wherever there is one. So what the answer tells of the cause
depends on where the cause stands (`Schema.refusals_by_cause`): outside of all containers, a broken
schema and an error of a condition get through, unless the error has the kind of a mismatch; inside
of one they are refusals like any other.

`Job.Hears Q` follows a job under all answers to its requests and keeps the errors that its calls
are answered with. `Schema.Ends` is what a match comes to, and each function of the match has it.
-/

namespace TreeCode

open Mismatch

/-! ## The errors that a job hears -/

/-- The error that a call is answered with. -/
def Request.raised : (q : Request) → q.Response → List ErrorValue
  | .call _ _ _, .error e => [e]
  | .call _ _ _, .ok _ => []
  | .force _, _ | .collect _, _ | .settle _, _ | .allocate _, _ | .text _, _ => []

variable {α β : Type}

namespace Job

variable {σ : Type}

/-- **The errors that the calls of a job are answered with** on a runtime, in order. -/
def raised (rt : Runtime σ) : Job α → σ → List ErrorValue
  | .done _, _ => []
  | .ask _ q next, st =>
    let (r, st) := rt.respond q st
    q.raised r ++ (next r).raised rt st

/-- **What a job comes to, by the errors that it has heard**, whatever its requests are answered
with. -/
def Hears (Q : List ErrorValue → Except ErrorValue α → Prop) : Job α → Prop
  | .done r => Q [] r
  | .ask _ q next => ∀ resp, (next resp).Hears fun heard r => Q (q.raised resp ++ heard) r

namespace Hears

lemma of_runOn (rt : Runtime σ) : ∀ (j : Job α) (st)
    {Q}, j.Hears Q →
    Q (j.raised rt st) (j.runOn rt st).1
  | .done _, _, _, h => h
  | .ask _ _ next, _, _, h => of_runOn rt (next _) _ (h _)

/-- The errors heard on the way come before those that the continuation hears. -/
lemma andThen {f : Except ErrorValue α → Job β} : ∀ {j : Job α}
    {Q R}, j.Hears Q → (∀ heard r, Q heard r →
      (f r).Hears fun later r => R (heard ++ later) r) → (j.andThen f).Hears R
  | .done r, _, _, hj, hf => hf [] r hj
  | .ask _ q next, Q, R, hj, hf => by
    intro resp
    refine andThen (hj resp) fun heard r hr => ?_
    simpa only [List.append_assoc] using hf _ r hr

lemma mono : ∀ {j : Job α} {Q S}, (∀ heard r, Q heard r → S heard r) → j.Hears Q → j.Hears S
  | .done _, _, _, hQ, hj => hQ _ _ hj
  | .ask _ _ _, _, _, hQ, hj => fun resp => mono (fun _ _ => hQ _ _) (hj resp)

lemma holding (values) : ∀ {j : Job α}
    {Q}, j.Hears Q → (j.holding values).Hears Q
  | .done _, _, h => h
  | .ask _ _ _, _, h => fun r => holding values (h r)

end Hears

/-- A continuation that asks nothing makes its result of the result of the job. -/
lemma runOn_andThen_done {f : Except ErrorValue α → Job β}
    {g : Except ErrorValue α → Except ErrorValue β} (hf : ∀ r, f r = .done (g r))
    (rt : Runtime σ) : ∀ (j : Job α) (st), ((j.andThen f).runOn rt st).1 = g (j.runOn rt st).1
  | .done res, st => by
    show ((f res).runOn rt st).1 = g res
    rw [hf]
    rfl
  | .ask _ _ next, _ => runOn_andThen_done hf rt (next _) _

end Job

namespace Schema

/-! ## Places and causes -/

/-- **An error as it is reported from inside containers**, the outermost place first. -/
inductive Blamed (root) : List Place → ErrorValue → Prop where
  | here : Blamed root [] root
  | inside {places e} (value) (place : Place)
      (h : Blamed root places e) : Blamed root (place :: places) (place.blame value e)

/-- **The mismatches that a match finds itself**, in the value that it looks at. -/
inductive Flaw : ErrorValue → Prop where
  | wrongType (value expected) : Flaw (wrongType value expected)
  | conditionFailed (value condition) : Flaw (conditionFailed value condition)
  | notAnOption (value options) : Flaw (notAnOption value options)
  | noAlternative (value errors) :
      Flaw (noAlternative value errors)
  | missingElement (value position) : Flaw (missingElement value position)
  | missingProperty (value key) : Flaw (missingProperty value key)

lemma Flaw.missing (place : Place) (value) : Flaw (place.missing value) := by
  cases place <;> constructor

/-- **Why a match fails.** -/
inductive Cause where
  /-- The value has a flaw. -/
  | flaw (e : ErrorValue)
  /-- A part of the schema is no schema. -/
  | broken (source : Value)
  /-- A condition raised an error. -/
  | raised (e : ErrorValue)

/-- The error of a cause. -/
def Cause.error : Cause → ErrorValue
  | .flaw e => e
  | .broken src => invalidSchema src
  | .raised e => e

/-- **What a schema itself can cause**, apart from the schemas in it, where its conditions raised
the errors `heard`. -/
inductive Causes (heard : List ErrorValue) : Schema → Cause → Prop where
  | flaw {s e} (h : Flaw e) : Causes heard s (.flaw e)
  | invalid (source names) :
      Causes heard (.invalid source names) (.broken source)
  | shape {source test elements keys values shape condition} (h : ¬shape.Placed) :
      Causes heard (.typed source test elements shape keys values condition) (.broken source)
  | condition {source condition test elements keys values shape e} (h : e ∈ heard) :
      Causes heard (.typed source test elements shape keys values (some condition)) (.raised e)

/-- There is no alternative anywhere in the schema. -/
def NoAlternatives (s : Schema) : Prop := ∀ places bs, ¬s.Inside places (.either bs)

variable {s t : Schema} {place : Option Place} {heard later : List ErrorValue}

lemma NoAlternatives.of_holds (h : s.Holds place t) (hs : s.NoAlternatives) : t.NoAlternatives :=
  fun _ bs ht => hs _ bs (.step h ht)

/-- **The cause stands at the places**, in a schema inside the schema. -/
def Culprit (s : Schema) (heard : List ErrorValue) (places : List Place) (cause : Cause) : Prop :=
  ∃ t, s.Inside places t ∧ t.Causes heard cause

variable {cause : Cause}

lemma Culprit.here (h : s.Causes heard cause) : s.Culprit heard [] cause := ⟨s, .here s, h⟩

variable {places : List Place}

lemma Culprit.step (h : s.Holds place t) (ht : t.Culprit heard places cause) :
    s.Culprit heard (place.toList ++ places) cause := by
  obtain ⟨u, hin, hcauses⟩ := ht
  exact ⟨u, .step h hin, hcauses⟩

lemma Causes.mono {more}
    (hsub : ∀ e ∈ heard, e ∈ more) (h : s.Causes heard cause) : s.Causes more cause := by
  cases h with
  | flaw h => exact .flaw h
  | invalid => exact .invalid _ _
  | shape h => exact .shape h
  | condition h => exact .condition (hsub _ h)

lemma Culprit.mono {more}
    (hsub : ∀ e ∈ heard, e ∈ more) (h : s.Culprit heard places cause) :
    s.Culprit more places cause := by
  obtain ⟨t, hin, hcauses⟩ := h
  exact ⟨t, hin, hcauses.mono hsub⟩

/-! ## What a match comes to -/

/-- **How a match with a schema ends.** If it fails, a cause inside the schema is blamed for it.
Without alternatives, the first error of a condition ends the match and is that cause. -/
def Ends {α : Type} (s : Schema) (heard : List ErrorValue) : Except ErrorValue α → Prop
  | .ok _ => s.NoAlternatives → heard = []
  | .error e => ∃ places cause, s.Culprit heard places cause ∧ Blamed cause.error places e
      ∧ (s.NoAlternatives → ∀ raised ∈ heard, cause = .raised raised)

variable {e : ErrorValue}

section Parts

lemma hears_pure (a : α) : (pure a : Job α).Hears t.Ends := fun _ => rfl

lemma hears_fail (cause : Cause) (h : t.Causes [] cause) :
    (Job.fail cause.error : Job α).Hears t.Ends :=
  ⟨[], cause, .here h, .here, fun _ => List.forall_mem_nil _⟩

lemma hears_flaw (h : Flaw e) : (Job.fail e : Job α).Hears t.Ends :=
  hears_fail (.flaw e) (.flaw h)

/-- A part of a match that comes after one that has heard errors: without alternatives there are
none. -/
lemma Ends.append {r : Except ErrorValue α}
    (h : t.NoAlternatives → heard = []) (hr : t.Ends later r) : t.Ends (heard ++ later) r := by
  cases r with
  | ok b =>
    intro halt
    rw [h halt, hr halt]
    rfl
  | error e =>
    obtain ⟨places, cause, hculprit, hblamed, hraised⟩ := hr
    refine ⟨places, cause, hculprit.mono fun _ => List.mem_append_right _, hblamed, fun halt => ?_⟩
    rw [h halt]
    exact hraised halt

lemma hears_error (h : t.Ends heard (.error e : Except ErrorValue α)) :
    (Job.fail e : Job β).Hears fun later r => t.Ends (heard ++ later) r := by
  show t.Ends (heard ++ []) (.error e : Except ErrorValue β)
  rw [List.append_nil]
  exact h

/-- What a schema causes that stands for the value itself. -/
lemma Ends.of_holds (h : t.Holds none s) {r : Except ErrorValue α}
    (hr : s.Ends heard r) : t.Ends heard r := by
  cases r with
  | ok a => exact fun halt => hr (halt.of_holds h)
  | error e =>
    obtain ⟨places, cause, hculprit, hblamed, hraised⟩ := hr
    exact ⟨places, cause, hculprit.step h, hblamed, fun halt => hraised (halt.of_holds h)⟩

variable {j : Job α}

/-- Two parts of a match, one after the other. -/
lemma hears_bind {f : α → Job β} (hj : j.Hears t.Ends)
    (hf : ∀ a, (f a).Hears t.Ends) : (j >>= f).Hears t.Ends := by
  refine hj.andThen fun heard r hr => ?_
  cases r with
  | ok a => exact Job.Hears.mono (fun later r => Ends.append hr) (hf a)
  | error e => exact hears_error hr

/-- An attempt keeps what the match ended in. -/
lemma hears_attempt (hj : j.Hears s.Ends) :
    j.attempt.Hears fun heard r => ∃ res, r = .ok res ∧ s.Ends heard res := by
  refine hj.andThen fun heard res hr => ?_
  refine ⟨res, rfl, ?_⟩
  rw [List.append_nil]
  exact hr

/-- A match at a place of a container, for a schema that stands there. -/
lemma hears_mapError {place} (h : t.Holds (some place) s) (value)
    (hj : j.Hears s.Ends) : (j.mapError (place.blame value)).Hears t.Ends := by
  refine hj.andThen fun heard r hr => ?_
  cases r with
  | ok a =>
    show t.Ends (heard ++ []) (.ok a)
    rw [List.append_nil]
    exact fun halt => hr (halt.of_holds h)
  | error e =>
    obtain ⟨places, cause, hculprit, hblamed, hraised⟩ := hr
    refine hears_error (α := α) ⟨place :: places, cause, hculprit.step h, ?_, fun halt => ?_⟩
    · exact .inside value place hblamed
    · exact hraised (halt.of_holds h)

lemma checkType_hears (test : TypeTest) (value) :
    (checkType test value).Hears t.Ends := by
  unfold checkType
  split
  · exact hears_pure ()
  · exact hears_flaw (.wrongType _ _)

/-- The one place where a match hears an error. -/
lemma checkCondition_hears {src test es keys values shape} (c : Option Value) (value) :
    (checkCondition c value).Hears
      (Ends (.typed src test es shape keys values c)) := by
  cases c with
  | none => exact hears_pure ()
  | some c =>
    intro resp
    cases resp with
    | error e =>
      refine ⟨[], .raised e, .here (.condition (List.mem_singleton_self e)), .here,
        fun _ raised h => ?_⟩
      rw [List.mem_singleton.mp h]
    | ok r =>
      show Job.Hears _ (if r.equals (.boolean true) then _ else _)
      split
      · exact hears_pure ()
      · exact hears_flaw (.conditionFailed value c)

/-- Alternatives that none of the branches satisfies are a flaw of the value. -/
lemma joinBranches_hears (value : Value) (outcomes : List BranchOutcome) (out) :
    (Job.ofExcept (joinBranches value outcomes out)).Hears t.Ends := by
  unfold joinBranches
  split
  · exact hears_pure _
  · dsimp only
    split
    · exact hears_flaw (.wrongType _ _)
    · exact hears_flaw (.noAlternative _ _)

end Parts

/-! ## The match -/

/-- The branches of an alternative: an error of a branch is kept as its outcome, or, if it blames
the schema, ends the attempt. -/
lemma tryBranches_hears (halt : ¬t.NoAlternatives) (value) :
    ∀ bs tried,
    (∀ s ∈ bs, t.Holds none s ∧ (bindInto s value []).Hears s.Ends) →
    (tryBranches bs value tried).Hears t.Ends
  | [], tried, _ => by
    rw [tryBranches]
    exact hears_pure _
  | s :: rest, tried, hbranches => by
    rw [tryBranches]
    obtain ⟨⟨hholds, hs⟩, hrest⟩ := List.forall_mem_cons.mp hbranches
    have hlater : ∀ heard res, (tryBranches rest value (⟨s.names, res⟩ :: tried)).Hears
        fun later r => t.Ends (heard ++ later) r := fun heard res =>
      Job.Hears.mono (fun _ _ => Ends.append fun h => absurd h halt)
        (tryBranches_hears halt value rest _ hrest)
    refine Job.Hears.andThen (hears_attempt (hs.holding _)) ?_
    rintro heard _ ⟨res, rfl, hr⟩
    cases res with
    | ok b => exact hlater heard _
    | error e =>
      dsimp only
      split
      · exact hears_error (Ends.of_holds hholds hr)
      · exact hlater heard _

/-- **Every match ends with a cause inside its schema, if it fails.** -/
theorem bindInto_hears (s : Schema) (value : Value) (out) :
    (bindInto s value out).Hears s.Ends := by
  induction s using Holds.induction generalizing value out with | step s ih
  cases s with
  | type test =>
    rw [bindInto]
    exact hears_bind (checkType_hears test value) fun _ => hears_pure out
  | either bs =>
    rw [bindInto]
    refine hears_bind (Job.Hears.holding _ ?_) fun outcomes => joinBranches_hears value outcomes out
    refine tryBranches_hears (fun halt => halt [] bs (.here _)) value bs [] fun s hs => ?_
    exact ⟨.branch hs, ih _ s (.branch hs) value []⟩
  | oneOf options =>
    rw [bindInto]
    split
    · exact hears_pure out
    · exact hears_flaw (.notAnOption _ _)
  | bind inner name =>
    rw [bindInto]
    refine hears_bind ?_ fun _ => hears_pure _
    have hi := Holds.bind inner name
    exact Job.Hears.mono (fun _ _ => Ends.of_holds hi) (ih _ inner hi value out)
  | typed src test es shape keys values c =>
    refine typed_of_steps (J := fun j => j.Hears (Ends (.typed ..))) hears_pure hears_bind ?_ out
    intro step out hstep
    cases hstep with
    | wrongType => exact hears_flaw (.wrongType _ _)
    | @missing place => exact hears_flaw (Flaw.missing place value)
    | broken ht h =>
      cases ht
      exact hears_fail (.broken src) (.shape h)
    | check h v =>
      exact hears_bind ((hears_mapError h value (ih _ _ h v [])).holding _) fun _ => hears_pure out
    | bind h v => exact hears_mapError h value (ih _ _ h v out)
    | keep => exact hears_pure _
    | ask ht =>
      cases ht
      exact hears_bind ((checkCondition_hears _ value).holding _) fun _ => hears_pure out
  | invalid src names =>
    rw [bindInto]
    exact hears_fail (.broken src) (.invalid src names)

/-! ## What is made of the cause -/

lemma Flaw.isMismatch (h : Flaw e) : e.isMismatch = true := by cases h <;> rfl

variable {root : ErrorValue}

/-- What is reported is a mismatch if it comes from inside a container, or if its root is one. -/
lemma Blamed.isMismatch_iff
    (h : Blamed root places e) : e.isMismatch = true ↔ places ≠ [] ∨ root.isMismatch = true := by
  cases h with
  | here => simp
  | inside value place =>
    have hblame : ∀ e, (place.blame value e).isMismatch = true := by cases place <;> exact fun _ =>
      rfl
    simp [hblame]

/-- What is no mismatch is the root itself. -/
lemma Blamed.root_of_not_isMismatch
    (h : Blamed root places e) (he : e.isMismatch = false) : places = [] ∧ e = root := by
  have hplaces : places = [] := by
    by_contra hne
    rw [h.isMismatch_iff.mpr (.inl hne)] at he
    cases he
  subst hplaces
  cases h
  exact ⟨rfl, rfl⟩

/-- **The schema itself can do no harm**: it is a schema, and it has no condition. -/
def Harmless : Schema → Prop
  | .invalid _ _ => False
  | .typed _ _ _ shape _ _ c => shape.Placed ∧ c = none
  | .type _ | .either _ | .oneOf _ | .bind _ _ => True

lemma Causes.flaw_of_harmless
    (h : s.Causes heard cause) (hs : s.Harmless) : Flaw cause.error := by
  cases h with
  | flaw h => exact h
  | invalid => exact hs.elim
  | shape h => exact absurd hs.1 h
  | condition => cases hs.2

/-- **What can do harm stands outside of all containers.** -/
def Exposed (s : Schema) : Prop := ∀ place places t, s.Inside (place :: places) t → t.Harmless

lemma Culprit.flaw_of_exposed
    (h : s.Culprit heard places cause) (hs : s.Exposed) (hplaces : places ≠ []) :
    Flaw cause.error := by
  obtain ⟨t, hin, hcauses⟩ := h
  cases places with
  | nil => exact absurd rfl hplaces
  | cons place places => exact hcauses.flaw_of_harmless (hs place places t hin)

/-- Where what can do harm is exposed and is no mismatch, only flaws are refused. -/
lemma Culprit.flaw_of_refused (h : s.Culprit heard places cause) (hs : s.Exposed)
    (hkinds : ∀ raised ∈ heard, raised.isMismatch = false)
    (hrefused : places ≠ [] ∨ cause.error.isMismatch = true) : Flaw cause.error := by
  rcases hrefused with hplaces | hmismatch
  · exact h.flaw_of_exposed hs hplaces
  · obtain ⟨t, -, hcauses⟩ := h
    cases hcauses with
    | flaw h => exact h
    | invalid => cases hmismatch
    | shape => cases hmismatch
    | condition hraised =>
      rw [Cause.error, hkinds _ hraised] at hmismatch
      cases hmismatch

/-- What is answered, by what the match ends in. -/
def answerTo : Except ErrorValue Bindings → Except ErrorValue Bool
  | .ok _ => .ok true
  | .error e => if e.isMismatch then .ok false else .error e

lemma accepts_runOn {σ : Type} (rt : Runtime σ) (st : σ) (value schema) :
    ((accepts value schema).runOn rt st).1 = answerTo ((bindValue value schema).runOn rt st).1 := by
  refine Job.runOn_andThen_done (fun r => ?_) rt (bindValue value schema) st
  cases r with
  | ok _ => rfl
  | error e =>
    dsimp only [answerTo]
    split <;> rfl

lemma answerTo_refuses_iff (h : Blamed root places e) :
    answerTo (.error e) = .ok false ↔ places ≠ [] ∨ root.isMismatch = true := by
  rw [← h.isMismatch_iff, answerTo]
  split <;> simp_all

lemma answerTo_fails_iff {e'} (h : Blamed root places e) :
    answerTo (.error e) = .error e' ↔ places = [] ∧ root.isMismatch = false ∧ e' = root := by
  rw [answerTo]
  cases he : e.isMismatch with
  | true =>
    rw [if_pos rfl]
    refine ⟨nofun, fun ⟨hplaces, hroot, _⟩ => ?_⟩
    rcases h.isMismatch_iff.mp he with hne | hroot'
    · exact absurd hplaces hne
    · rw [hroot] at hroot'
      cases hroot'
  | false =>
    obtain ⟨rfl, rfl⟩ := h.root_of_not_isMismatch he
    rw [if_neg Bool.false_ne_true, Except.error.injEq]
    exact ⟨fun heq => ⟨rfl, he, heq.symm⟩, fun h => h.2.2.symm⟩

/-- **What the answer tells of the cause.** For every value, schema and runtime:

A match that fails has a cause inside the schema, and the answer depends on where it stands. It is a
refusal if there is a container around the cause or its error has the kind of a mismatch; otherwise
the error of the cause gets through. Without alternatives, an error that a condition raises is
always the cause.

So if broken parts and conditions stand outside of all containers and conditions raise no error of a
mismatch's kind, then a refusal has nothing but mismatches from the top to the root, all of them
found by the match itself; and without alternatives, whatever a condition raises gets through. -/
theorem refusals_by_cause {σ : Type} (runtime : Runtime σ) (state : σ) (value schema : Value) :
    let s := ofValue schema
    let heard := (bindValue value schema).raised runtime state
    let bound := ((bindValue value schema).runOn runtime state).1
    let answer := ((accepts value schema).runOn runtime state).1
    (∀ e, bound = .error e → ∃ places cause, s.Culprit heard places cause ∧
      Blamed cause.error places e ∧
      (answer = .ok false ↔ places ≠ [] ∨ cause.error.isMismatch = true) ∧
      (∀ e', answer = .error e' ↔ places = [] ∧ cause.error.isMismatch = false ∧ e' = cause.error))
        ∧
    ((∃ bindings, bound = .ok bindings) ↔ answer = .ok true) ∧
    (s.NoAlternatives → ∀ raised ∈ heard, ∃ places e, bound = .error e ∧ Blamed raised places e) ∧
    (s.Exposed → (∀ raised ∈ heard, raised.isMismatch = false) →
      (answer = .ok false → ∃ places flaw e, bound = .error e ∧ Flaw flaw ∧ Blamed flaw places e) ∧
      (s.NoAlternatives → ∀ raised ∈ heard, answer = .error raised)) := by
  intro s heard bound answer
  have hends : s.Ends heard bound := (bindInto_hears s value []).of_runOn runtime _ state
  have hanswer : answer = answerTo bound := accepts_runOn runtime state value schema
  clear_value bound answer heard
  subst hanswer
  cases bound with
  | ok bindings =>
    have hheard : s.NoAlternatives → ∀ raised, raised ∉ heard := by
      intro halt raised
      rw [hends halt]
      exact List.not_mem_nil
    refine ⟨nofun, ⟨fun _ => rfl, fun _ => ⟨bindings, rfl⟩⟩, ?_, fun _ _ => ⟨nofun, ?_⟩⟩
    · exact fun halt raised hmem => absurd hmem (hheard halt raised)
    · exact fun halt raised hmem => absurd hmem (hheard halt raised)
  | error e =>
    obtain ⟨places, cause, hculprit, hblamed, hraised⟩ := hends
    refine ⟨?_, ?_, fun halt raised hmem => ?_, fun hexposed hkinds => ⟨fun hrefused => ?_, ?_⟩⟩
    · rintro _ ⟨⟩
      exact ⟨places, cause, hculprit, hblamed, answerTo_refuses_iff hblamed,
        fun _ => answerTo_fails_iff hblamed⟩
    · rw [answerTo]
      split <;> simp
    · rw [hraised halt raised hmem] at hblamed
      exact ⟨places, e, rfl, hblamed⟩
    · have hflaw :=
        hculprit.flaw_of_refused hexposed hkinds ((answerTo_refuses_iff hblamed).mp hrefused)
      exact ⟨places, cause.error, e, rfl, hflaw, hblamed⟩
    · intro halt raised hmem
      obtain rfl := hraised halt raised hmem
      have hkind : raised.isMismatch = false := hkinds raised hmem
      have hplaces : places = [] := by
        by_contra hne
        have hflaw : Flaw raised := hculprit.flaw_of_exposed hexposed hne
        rw [hflaw.isMismatch] at hkind
        cases hkind
      exact (answerTo_fails_iff hblamed).mpr ⟨hplaces, hkind, rfl⟩

/-! ### Causes inside a container -/

/-- Elements for which there is no schema. -/
def arrayOfNonsense : Value := .object [("type", .string "array"), ("elements", .string "nonsense")]

/-- Numbers with a condition that is no function. -/
def arrayOfConditions : Value :=
  .object [("type", .string "array"),
    ("elements", .object [("type", .string "number"), ("where", .null)])]

lemma ofValue_arrayOfNonsense : ofValue arrayOfNonsense = .typed arrayOfNonsense (.exactly .array)
    (some (.invalid (.string "nonsense") [])) .absent none none none := by
  simp [arrayOfNonsense, ofValue, field, shapeOf, Entries.get?, Entries.contains, TypeTest.ofName?,
    Kind.ofName?, Kind.all, Kind.name]

lemma ofValue_arrayOfConditions : ofValue arrayOfConditions = .typed arrayOfConditions
    (.exactly .array) (some (.typed (.object [("type", .string "number"), ("where", .null)])
      (.exactly .number) none .absent none none (some .null))) .absent none none none := by
  simp [arrayOfConditions, ofValue, field, shapeOf, Entries.get?, Entries.contains,
    TypeTest.ofName?,
    Kind.ofName?, Kind.all, Kind.name]

/-- **A refusal can hide a broken schema and a condition that raises.** Both are answered as if the
elements did not match. -/
theorem refusal_hides_harm :
    (((bindValue (.array [.ofNat 1]) arrayOfNonsense).runOn refusing ()).1 =
        .error (Mismatch.badElement (.array [.ofNat 1]) 1 (Mismatch.invalidSchema
          (.string "nonsense"))) ∧
      ((accepts (.array [.ofNat 1]) arrayOfNonsense).runOn refusing ()).1 = .ok false) ∧
    ((bindValue (.array [.ofNat 1]) arrayOfConditions).raised refusing () =
        [.of "notCallable" [("value", .null)]] ∧
      ((accepts (.array [.ofNat 1]) arrayOfConditions).runOn refusing ()).1 = .ok false) := by
  rw [accepts, accepts, bindValue, bindValue, ofValue_arrayOfNonsense, ofValue_arrayOfConditions]
  exact ⟨⟨rfl, rfl⟩, rfl, rfl⟩

end Schema

end TreeCode
