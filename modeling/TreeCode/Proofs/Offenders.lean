import TreeCode.Proofs.Alternatives

/-!
# The first offender

A match without alternatives and conditions asks for nothing, and whether it fails does not depend
on what has been bound before (`Schema.Fails`). It fails at the first of its steps that does. If
something is missing there, the error says what; if the step looks at a part of the value, the error
names the container and the place, and its reason is the error that the part gives alone. Following
the reasons leads down the value to a part that its own schema refuses
(`Schema.errors_point_at_first_offender`).
-/

namespace TreeCode

namespace Schema

open List Mismatch

variable {s t : Schema} {v w : Value} {e : ErrorValue}

/-- The match succeeds, whatever has been bound before. -/
def Passes (s : Schema) (v : Value) : Prop := ∀ out, ∃ b, bindInto s v out = .done (.ok b)

/-- The match fails with the error, whatever has been bound before. -/
def Fails (s : Schema) (v : Value) (e : ErrorValue) : Prop := ∀ out,
    bindInto s v out = .done (.error e)

namespace Step

def Passes (v : Value) (step : Step) : Prop := ∀ out, ∃ b, step.run v out = .done (.ok b)

def Fails (v : Value) (step : Step) (e : ErrorValue) : Prop := ∀ out,
    step.run v out = .done (.error e)

/-- What a step looks at: a place, the schema for it and what is there. -/
def looksAt : Step → Option (Place × Schema × Value)
  | .check place s w | .bind place s w => some (place, s, w)
  | _ => none

end Step

/-- **The error points at the first offender**: at the value itself, or, through the reason, at the
part that the first step which fails looks at. -/
inductive Offends : Schema → Value → ErrorValue → Prop where
  | type {test : TypeTest} {v : Value} (h : test.accepts v = false) :
      Offends (.type test) v (notOfType v test.name)
  | option {options : List Value} {v : Value} (h : options.any (·.equals v) = false) :
      Offends (.oneOf options) v (notAnOption v options)
  | bound {s : Schema} {v : Value} {e} (name) (hfails : s.Fails v e)
      (h : Offends s v e) : Offends (.bind s name) v e
  | lacking {s : Schema} {v : Value} {e before after}
      (hsteps : s.steps v = before ++ .refuse e :: after) (hbefore : ∀ step ∈ before, step.Passes v)
      (h : Step.Of s v (.refuse e)) (hflaw : Flaw e) : Offends s v e
  | inside {s t : Schema} {v w : Value} {e place step before after}
      (hsteps : s.steps v = before ++ step :: after)
      (hbefore : ∀ step ∈ before, step.Passes v) (hstep : step.looksAt = some (place, t, w))
      (hold : s.Holds (some place) t) (hw : v.HasAt place w) (hfails : t.Fails w e)
      (h : Offends t w e) : Offends s v (place.blame v e)

/-- **Following the reasons of an error**, from a value down to one of its parts. -/
inductive Traced : Value → ErrorValue → List Place → Value → ErrorValue → Prop where
  | here (v : Value) (e) : Traced v e [] v e
  | inside {v w u e root place places}
      (hw : v.HasAt place w) (h : Traced w e places u root) :
      Traced v (place.blame v e) (place :: places) u root

/-- Nothing is wrong with the schema itself, it has no alternatives and no condition, and its
defaults match their own schemas. -/
def Regular : Schema → Prop
  | .either _ | .invalid .. => False
  | .typed _ _ _ shape _ _ condition => shape.Placed ∧ condition = none ∧
    ∀ place t d, shape.EntryAt place (.optional t d) → ∃ b, bindInto t d [] = .done (.ok b)
  | _ => True

/-- **A schema that is regular at every depth.** -/
def Orderly (s : Schema) : Prop := ∀ places t, s.Inside places t → t.Regular

lemma Orderly.of_holds {place} (hs : s.Orderly) (h : s.Holds place t) : t.Orderly :=
  fun _ u hu => hs _ u (.step h hu)

lemma Orderly.of_parts (hs : s.Regular) (h : ∀ place t, s.Holds place t → t.Orderly) :
    s.Orderly := by
  intro places t ht
  cases ht with
  | here => exact hs
  | step hold ht => exact h _ _ hold _ _ ht

/-! ## The first step that fails -/

/-- Why a step fails. -/
inductive Step.Blames (s : Schema) (v : Value) : Step → ErrorValue → Prop where
  | lacking {e : ErrorValue} (h : Step.Of s v (.refuse e)) (hflaw : Flaw e) :
      Blames s v (.refuse e) e
  | inside {step : Step} {place : Place} {t : Schema} {w e}
      (hstep : step.looksAt = some (place, t, w)) (hold : s.Holds (some place) t)
        (hw : v.HasAt place w)
      (hfails : t.Fails w e) (h : t.Offends w e) : Blames s v step (place.blame v e)

/-- A step passes or fails with the part that it looks at. A default cannot be to blame. -/
lemma Step.of_part {step : Step} {place} (hstep : step.looksAt = some (place, t, w))
    (hold : s.Holds (some place) t) (hw : v.HasAt place w ∨ ∃ b, bindInto t w [] = .done (.ok b))
    (ht : t.Passes w ∨ ∃ e, t.Fails w e ∧ t.Offends w e) :
    step.Passes v ∨ ∃ e, step.Fails v e ∧ step.Blames s v e := by
  rcases ht with hpass | ⟨e, hfails, hoff⟩
  · refine .inl fun out => ?_
    cases step with
    | check =>
      cases hstep
      obtain ⟨b, hb⟩ := hpass []
      exact ⟨out, by rw [run, hb]; rfl⟩
    | bind =>
      cases hstep
      obtain ⟨b, hb⟩ := hpass out
      exact ⟨b, by rw [run, hb]; rfl⟩
    | _ => cases hstep
  · have hp : v.HasAt place w := by
      refine hw.resolve_right ?_
      rintro ⟨b, hb⟩
      cases hb.symm.trans (hfails [])
    refine .inr ⟨_, fun out => ?_, .inside hstep hold hp hfails hoff⟩
    cases step with
    | check => cases hstep; rw [run, hfails]; rfl
    | bind => cases hstep; rw [run, hfails]; rfl
    | _ => cases hstep

/-- Steps that all pass or fail do so together: they fail where the first of them does. -/
lemma runSteps_cases : ∀ {steps},
    (∀ step ∈ steps, step.Passes v ∨ ∃ e, step.Fails v e ∧ step.Blames s v e) →
    (∀ out, ∃ b, runSteps v steps out = .done (.ok b)) ∨
      ∃ pre step after e, steps = pre ++ step :: after ∧ (∀ step ∈ pre, step.Passes v) ∧
        step.Blames s v e ∧ ∀ out, runSteps v steps out = .done (.error e)
  | [], _ => .inl fun out => ⟨out, rfl⟩
  | step :: rest, h => by
    obtain ⟨hstep, hr⟩ := forall_mem_cons.mp h
    rcases hstep with hpass | ⟨e, hfail, hwhy⟩
    · rcases runSteps_cases hr with hall | ⟨pre, next, after, e, rfl, hbefore, hwhy, hfail⟩
      · refine .inl fun out => ?_
        obtain ⟨b, hb⟩ := hpass out
        rw [runSteps, hb]
        exact hall b
      · refine .inr ⟨step :: pre, next, after, e, rfl, forall_mem_cons.mpr ⟨hpass, hbefore⟩, hwhy,
          fun out => ?_⟩
        obtain ⟨b, hb⟩ := hpass out
        rw [runSteps, hb]
        exact hfail b
    · exact .inr ⟨[], step, rest, e, rfl, forall_mem_nil _, hwhy, fun out => by
        rw [runSteps, hfail]
        rfl⟩

/-- **A match passes, or it fails and points at the first offender.** -/
theorem passes_or_offends (s : Schema) : s.Orderly → ∀ v, s.Passes v ∨ ∃ e, s.Fails v e ∧
    s.Offends v e := by
  induction s using Holds.induction with
  | step s ih =>
  intro hs v
  have hregular := hs _ _ (.here s)
  cases s with
  | either => exact hregular.elim
  | invalid => exact hregular.elim
  | type test =>
    cases h : test.accepts v with
    | true => exact .inl fun out => ⟨out, by simp only [bindInto, checkType, h]; rfl⟩
    | false => exact .inr ⟨_, fun out => by simp only [bindInto, checkType, h]; rfl, .type h⟩
  | oneOf options =>
    cases h : options.any (·.equals v) with
    | true => exact .inl fun out => ⟨out, by simp only [bindInto, h]; rfl⟩
    | false => exact .inr ⟨_, fun out => by simp only [bindInto, h]; rfl, .option h⟩
  | bind inner name =>
    rcases ih none inner (.bind inner name) (hs.of_holds (.bind inner name)) v with h | ⟨e, h, hoff⟩
    · refine .inl fun out => ?_
      obtain ⟨b, hb⟩ := h out
      exact ⟨_, by rw [bindInto, hb]; rfl⟩
    · exact .inr ⟨e, fun out => by rw [bindInto, h]; rfl, .bound name h hoff⟩
  | typed src test es shape keys values c =>
    obtain ⟨hplaced, rfl, hdefaults⟩ := hregular
    have hp := fun place t (h : Holds _ (some place) t) => ih _ t h (hs.of_holds h)
    have hsteps := runSteps_cases (s := .typed src test es shape keys values none)
      fun step hmem => by
      cases of_steps _ v step hmem with
      | wrongType test h =>
        exact .inr ⟨_, fun _ => rfl, .lacking (.wrongType test h) (.wrongType _ _)⟩
      | @missing place _ he h =>
        exact .inr ⟨_, fun _ => rfl, .lacking (.missing he h) (.missing place v)⟩
      | broken ht h => cases ht; exact absurd hplaced h
      | check h w hw => exact Step.of_part rfl h (.inl hw) (hp _ _ h w)
      | bind h w hw => exact Step.of_part rfl h (hw.imp_right (hdefaults _ _ w)) (hp _ _ h w)
      | keep => exact .inl fun out => ⟨_, rfl⟩
      | ask ht => cases ht
    simp only [Passes, Fails, bindInto_typed]
    rcases hsteps with h | ⟨pre, step, after, e, heq, hbefore, hwhy, h⟩
    · exact .inl h
    · refine .inr ⟨e, h, ?_⟩
      cases hwhy with
      | lacking hof hflaw => exact .lacking heq hbefore hof hflaw
      | inside hstep hold hw hfails hoff => exact .inside heq hbefore hstep hold hw hfails hoff

/-- **The reasons lead to a part of the value that its own schema refuses**, for a flaw of the part
itself. -/
theorem Offends.traced (h : s.Offends v e) : s.Fails v e → ∃ places t w root, s.Inside places t ∧
    Traced v e places w root ∧ t.Fails w root ∧ Flaw root := by
  induction h with
  | type => exact fun hfails => ⟨[], _, _, _, .here _, .here _ _, hfails, .wrongType _ _⟩
  | option => exact fun hfails => ⟨[], _, _, _, .here _, .here _ _, hfails, .notAnOption _ _⟩
  | bound name hfails _ ih =>
    intro _
    obtain ⟨places, t, w, root, hin, h⟩ := ih hfails
    exact ⟨places, t, w, root, .step (.bind _ name) hin, h⟩
  | lacking _ _ _ hflaw => exact fun hfails => ⟨[], _, _, _, .here _, .here _ _, hfails, hflaw⟩
  | inside _ _ _ hold hw hfails _ ih =>
    intro _
    obtain ⟨places, t, w, root, hin, htraced, h⟩ := ih hfails
    exact ⟨_, t, w, root, .step hold hin, .inside hw htraced, h⟩

/-- **The errors of a match point at the first offender.** For a well-formed schema without
alternatives and conditions, whose defaults match their own schemas, and for every value that it
rejects: the steps of the match before the offender all pass; what is missing there is reported as
missing, and a part that fails is reported with the container, its place and, as the reason, the
error that the part gives alone. The reasons lead to a part that its own schema refuses. -/
theorem errors_point_at_first_offender {σ : Type} {schema : Value} (hs : (ofValue schema).Orderly)
    (v : Value) (runtime : Runtime σ) (st : σ) (h : matched runtime st v schema = .error e) :
    (ofValue schema).Offends v e ∧ ∃ places t w root, (ofValue schema).Inside places t ∧
      Traced v e places w root ∧ t.Fails w root ∧ Flaw root := by
  rw [matched, bindValue] at h
  rcases passes_or_offends _ hs v with hpass | ⟨e', hfails, hoff⟩
  · obtain ⟨b, hb⟩ := hpass []
    rw [hb] at h
    cases h
  · rw [hfails []] at h
    cases h
    exact ⟨hoff, hoff.traced hfails⟩

/-- A name, and numbers after it. -/
def nameThenNumbers : Value :=
  .object [("type", .string "array"),
    ("shape", .array [.string "string", .object [("rest", .string "number")]])]

lemma ofValue_nameThenNumbers : ofValue nameThenNumbers = .typed nameThenNumbers
    (.exactly .array) none
    (.tuple [.required (.type (.exactly .string)), .rest (.type
      (.exactly .number)) none]) none none none := by
  simp [nameThenNumbers, ofValue, field, shapeOf, tupleOf, entryOf_eq_match, Value.get?,
    Value.asObject?,
    Entries.get?, Entries.contains, TypeTest.ofName?, Kind.ofName?, Kind.all, Kind.name]

lemma orderly_type (test) : (Schema.type test).Orderly :=
  .of_parts trivial fun _ _ h => by cases h

lemma orderly_nameThenNumbers : (ofValue nameThenNumbers).Orderly := by
  rw [ofValue_nameThenNumbers]
  refine .of_parts ⟨rfl, rfl, fun place t d hd => ?_⟩ fun place t ht => ?_
  · rcases place with (_ | _ | _ | _) | _ | _ <;> cases hd
  · cases ht with
    | entry h =>
      rcases mem_pair.mp h with rfl | rfl
      · exact orderly_type _
      · exact orderly_type _

/-- The third element of the whole array is the offender. -/
theorem errors_point_at_first_offender_third :
    (ofValue nameThenNumbers).Offends (.array [.string "a", .ofNat 1, .null])
      (badElement (.array [.string "a", .ofNat 1, .null]) 3 (notOfType .null "number")) :=
  (errors_point_at_first_offender orderly_nameThenNumbers _ refusing () (by
    rw [matched, bindValue, ofValue_nameThenNumbers]
    rfl)).1

end Schema

end TreeCode
