import TreeCode.Proofs.Alone
import TreeCode.Proofs.Bindings

/-!
# What it means to satisfy a schema

`Schema.Satisfies` is the declarative reading of a schema: it speaks of values only, and knows
neither bindings nor errors nor the order of checks. `Schema.WellFormed` says which values are
schemas through and through. Both look at the schema as the value that it is; the reading of values
into trees is part of what is proved.

A match decides the declarative reading (`Schema.matching_decides`): on a runtime that answers
conditions by a function `answer` of the condition and the value, it succeeds if the value satisfies
the schema and otherwise ends with a mismatch.
-/

namespace TreeCode

open Entries Option

variable {name : String} {bs options later shape : List Value} {inner schema entry v : Value}
  {test : TypeTest} {P' P : Prop} {e : ErrorValue} {blame : ErrorValue → ErrorValue}
  {fs : Entries Value}

namespace Schema

/-! ## The declarative reading -/

/-- The keys that make an object a schema, by precedence. -/
def decidingKeys : List String := ["either", "oneOf", "bind", "default", "type"]

/-- **The key decides what the object is as a schema**: `v` stands under it, and none of the keys
that take precedence is present. -/
def Decisive (fs : Entries Value) (key : String) (v : Value) : Prop :=
  Entries.get? fs key = some v
    ∧ ∀ earlier ∈ decidingKeys.takeWhile (· != key), Entries.get? fs earlier = none

/-- An entry of a shape is the rest: it describes what the other entries leave over. -/
def isRest (entry : Value) : Bool := (entry.get? "rest").isSome

/-- The value of an entry that is absent. -/
def entryDefault? (entry : Value) : Option Value :=
  if (entry.get? "of").isSome then entry.get? "default" else none

/-- The schema of an entry of a shape. -/
def entrySchema (entry : Value) : Value :=
  ((entry.get? "rest").or ((entryDefault? entry).bind fun _ => entry.get? "of")).getD entry

/-- The entries of a shape. -/
def shapeEntries : Value → List Value
  | .array es => es
  | .object es => Entries.values es
  | _ => []

/-- The rest is the last entry of a tuple, and the only one in a record. -/
def RestPlaced : Value → Prop
  | .array es => ∀ entry ∈ es.dropLast, isRest entry = false
  | .object es => ((Entries.values es).filter isRest).length ≤ 1
  | _ => False

/-- **A schema that is well-formed**, with all the schemas inside it. -/
inductive WellFormed : Value → Prop where
  | type {name : String} {test : TypeTest} (hname : TypeTest.ofName? name = some test) :
      WellFormed (.string name)
  | either {fs : Entries Value} {bs : List Value}
      (h : Decisive fs "either" (.array bs)) (hall : ∀ b ∈ bs, WellFormed b) :
      WellFormed (.object fs)
  | oneOf {fs : Entries Value} {options : List Value}
      (h : Decisive fs "oneOf" (.array options)) : WellFormed (.object fs)
  | bind {fs : Entries Value} {inner : Value} {name : String}
      (h : Decisive fs "bind" inner) (has : Entries.get? fs "as" = some (.string name))
      (hinner : WellFormed inner) : WellFormed (.object fs)
  | default {fs : Entries Value} {value inner : Value} (h : Decisive fs "default" value)
      (hof : Entries.get? fs "of" = some inner) (hinner : WellFormed inner) :
      WellFormed (.object fs)
  | typed {fs : Entries Value} {name test}
      (h : Decisive fs "type" (.string name)) (hname : TypeTest.ofName? name = some test)
      (helements : ∀ s, Entries.get? fs "elements" = some s → WellFormed s)
      (hentries : ∀ shape, Entries.get? fs "shape" = some shape →
        ∀ entry ∈ shapeEntries shape, WellFormed (entrySchema entry))
      (hrest : ∀ shape, Entries.get? fs "shape" = some shape → RestPlaced shape)
      (hkeys : ∀ s, Entries.get? fs "keys" = some s → WellFormed s)
      (hvalues : ∀ s, Entries.get? fs "values" = some s → WellFormed s) :
      WellFormed (.object fs)

/-- **What is inside a value that a schema describes**: a schema and a part of the value that is to
satisfy it. An entry of a shape describes what it finds, or its default. -/
inductive Part (fs) : Value → Value → Value → Prop where
  | element {s e : Value} {es : List Value} (hs : Entries.get? fs "elements" = some s)
      (he : e ∈ es) : Part fs (.array es) s e
  | position {shape es : List Value} {i : Nat} {entry e : Value}
      (hshape : Entries.get? fs "shape" = some (.array shape)) (hentry : shape[i]? = some entry)
      (hfixed : isRest entry = false) (he : es[i]?.or (entryDefault? entry) = some e) :
      Part fs (.array es) (entrySchema entry) e
  | tail {shape es : List Value} {i : Nat} {entry e : Value}
      (hshape : Entries.get? fs "shape" = some (.array shape)) (hentry : shape[i]? = some entry)
      (hrest : isRest entry = true) (he : e ∈ es.drop i) :
      Part fs (.array es) (entrySchema entry) e
  | property {shape ps : Entries Value} {key : String} {entry w : Value}
      (hshape : Entries.get? fs "shape" = some (.object shape)) (hentry : (key, entry) ∈ shape)
      (hfixed : isRest entry = false)
      (hw : (Entries.get? ps key).or (entryDefault? entry) = some w) :
      Part fs (.object ps) (entrySchema entry) w
  | leftover {shape ps : Entries Value} {key other : String} {entry w : Value}
      (hshape : Entries.get? fs "shape" = some (.object shape)) (hentry : (key, entry) ∈ shape)
      (hrest : isRest entry = true) (hw : (other, w) ∈ ps)
      (hother : other ∉ Entries.keys shape) :
      Part fs (.object ps) (entrySchema entry) w
  | key {ps : Entries Value} {s w : Value} {key : String}
      (hs : Entries.get? fs "keys" = some s) (hw : (key, w) ∈ ps) :
      Part fs (.object ps) s (.string key)
  | value {ps : Entries Value} {s w key}
      (hs : Entries.get? fs "values" = some s) (hw : (key, w) ∈ ps) :
      Part fs (.object ps) s w

/-- **The value has the parts that a schema asks for**: it is an array or an object where the schema
describes elements or properties, and no entry of the shape is missing. -/
structure Formed (fs : Entries Value) (v : Value) : Prop where
  elements : ∀ s, Entries.get? fs "elements" = some s → ∃ es, v = .array es
  tuple : ∀ shape, Entries.get? fs "shape" = some (.array shape) → ∃ es, v = .array es ∧
    ∀ (i : Nat) entry, shape[i]? = some entry → isRest entry = false →
      ∃ e, es[i]?.or (entryDefault? entry) = some e
  record : ∀ shape, Entries.get? fs "shape" = some (.object shape) →
    ∃ ps, v = .object ps ∧ ∀ key entry, (key, entry) ∈ shape →
      isRest entry = false → ∃ w, (Entries.get? ps key).or (entryDefault? entry) = some w
  keys : ∀ s, Entries.get? fs "keys" = some s → ∃ ps, v = .object ps
  values : ∀ s, Entries.get? fs "values" = some s → ∃ ps, v = .object ps

/-- **The value satisfies the schema**, where `answer` says what conditions return. -/
inductive Satisfies (answer : Value → Value → Value) : Value → Value → Prop where
  | type {name : String} {test : TypeTest} {v : Value}
      (hname : TypeTest.ofName? name = some test) (hv : test.accepts v = true) :
      Satisfies answer (.string name) v
  | either {fs : Entries Value} {bs : List Value} {branch v : Value}
      (h : Decisive fs "either" (.array bs)) (hbranch : branch ∈ bs)
      (hv : Satisfies answer branch v) : Satisfies answer (.object fs) v
  | oneOf {fs : Entries Value} {options : List Value} {option v : Value}
      (h : Decisive fs "oneOf" (.array options)) (hoption : option ∈ options)
      (hv : option.equals v = true) : Satisfies answer (.object fs) v
  | bind {fs : Entries Value} {inner v : Value} (h : Decisive fs "bind" inner)
      (hv : Satisfies answer inner v) : Satisfies answer (.object fs) v
  | default {fs : Entries Value} {value inner v : Value} (h : Decisive fs "default" value)
      (hof : Entries.get? fs "of" = some inner) (hv : Satisfies answer inner v) :
      Satisfies answer (.object fs) v
  | typed {fs : Entries Value} {name : String} {test v}
      (h : Decisive fs "type" (.string name)) (hname : TypeTest.ofName? name = some test)
      (hv : test.accepts v = true) (hformed : Formed fs v)
      (hparts : ∀ s w, Part fs v s w → Satisfies answer s w)
      (hcondition : ∀ c, Entries.get? fs "where" = some c → answer c v = .boolean true) :
      Satisfies answer (.object fs) v

/-! ## Reading schemas -/

section Reading

lemma ofValue_either (h : Decisive fs "either" (.array bs)) :
    ofValue (.object fs) = .either (ofList bs) := by
  simp only [ofValue_object, h.1]

lemma ofValue_oneOf (h : Decisive fs "oneOf" (.array options)) :
    ofValue (.object fs) = .oneOf options := by
  simp only [ofValue_object, h.1, h.2 "either" (by decide)]

lemma ofValue_bind (h : Decisive fs "bind" inner) (has : get? fs "as" = some (.string name)) :
    ofValue (.object fs) = .bind (ofValue inner) name := by
  simp only [ofValue_object, h.1, has, h.2 "either" (by decide), h.2 "oneOf" (by decide)]

lemma ofValue_default {value} (h : Decisive fs "default" value)
    (hof : get? fs "of" = some inner) : ofValue (.object fs) = ofValue inner := by
  simp only [ofValue_object, contains, h.1, hof, h.2 "either" (by decide),
    h.2 "oneOf" (by decide), h.2 "bind" (by decide), isSome_some, if_true]

lemma ofValue_typed (h : Decisive fs "type" (.string name))
    (hname : TypeTest.ofName? name = some test) :
    ofValue (.object fs) = .typed (.object fs) test (field fs "elements")
      (shapeOf fs) (field fs "keys") (field fs "values") (get? fs "where") := by
  simp only [ofValue_object, contains, h.1, hname, h.2 "either" (by decide),
    h.2 "oneOf" (by decide), h.2 "bind" (by decide), h.2 "default" (by decide), isSome_none,
    Bool.false_eq_true, if_false]

/-- How an entry of a shape is read. -/
lemma entryOf_eq (entry) :
    (isRest entry = true ∧ ∃ name, entryOf entry = .rest (ofValue (entrySchema entry)) name) ∨
    (isRest entry = false ∧ entryOf entry =
      match entryDefault? entry with
      | some value => .optional (ofValue (entrySchema entry)) value
      | none => .required (ofValue (entrySchema entry))) := by
  rw [entryOf_eq_match]
  cases hr : entry.get? "rest" with
  | some inner => exact .inl ⟨by simp [isRest, hr], _, by simp [entrySchema, hr]; rfl⟩
  | none =>
    refine .inr ⟨by simp [isRest, hr], ?_⟩
    cases hdef : entry.get? "default" <;> cases hof : entry.get? "of" <;>
      simp [entryDefault?, entrySchema, hr, hdef, hof]

end Reading

end Schema

/-! ## Jobs whose conditions are answered -/

/-- A request to call a condition of a kind with the value that it judges. -/
def Request.OfCondition (C : Value → Prop) (q : Request) : Prop :=
  ∃ c value, C c ∧ q = .call c [value] []

/-- The runtime settles the conditions of a kind, which are called with one value, by a function of
the condition and the value: what they return, or the error that they raise. -/
def Runtime.SettlesFor {σ : Type} (rt : Runtime σ) (C : Value → Prop)
    (outcome : Value → Value → Except ErrorValue Value) : Prop :=
  ∀ c, C c → ∀ value st, (rt.respond (.call c [value] []) st).1 = outcome c value

/-- **The runtime answers the conditions of a kind**: they always return. -/
def Runtime.Answers {σ : Type} (rt : Runtime σ) (C : Value → Prop)
    (answer : Value → Value → Value) :
    Prop := rt.SettlesFor C fun c value => .ok (answer c value)

variable {answer : Value → Value → Value}

namespace Job

variable {α β : Type}

/-- **What a job comes to if its conditions are answered.** The job asks for conditions only. -/
inductive Gives (answer : Value → Value → Value) (Q : Except ErrorValue α → Prop) : Job α →
    Prop where
  | done {r} (h : Q r) : Gives answer Q (.done r)
  | ask {held condition value next}
      (h : Gives answer Q (next (.ok (answer condition value)))) :
      Gives answer Q (.ask held (.call condition [value] []) next)

variable {Q : Except ErrorValue α → Prop} {R : Except ErrorValue β → Prop} {j : Job α}

lemma Gives.runOn {σ : Type} {rt : Runtime σ} {C} (hrt : rt.Answers C answer)
    (hasks : j.Asks (Request.OfCondition C)) (h : j.Gives answer Q) :
    ∀ st, Q (j.runOn rt st).1 := by
  induction h with
  | done h => exact fun _ => h
  | ask _ ih =>
    intro st
    cases hasks with
    | ask hallowed hnext =>
      obtain ⟨c, value, hc, ⟨⟩⟩ := hallowed
      rw [runOn.eq_def]
      dsimp only
      rw [hrt _ hc]
      exact ih (hnext _) _

lemma Gives.andThen {f} (hf : ∀ r, Q r → (f r).Gives answer R)
    (h : j.Gives answer Q) : (j.andThen f).Gives answer R := by
  induction h with
  | done h => exact hf _ h
  | ask _ ih => exact .ask ih

lemma Gives.weaken {S} (hS : ∀ r, Q r → S r)
    (h : j.Gives answer Q) : j.Gives answer S := by
  induction h with
  | done h => exact .done (hS _ h)
  | ask _ ih => exact .ask ih

lemma Gives.holding (values) (h : j.Gives answer Q) :
    (j.holding values).Gives answer Q := by
  induction h with
  | done h => exact .done h
  | ask _ ih => exact .ask ih

/-- **A result passes a verdict**: it is a success if `P` holds, and a mismatch otherwise. -/
def Verdict (P : Prop) : Except ErrorValue α → Prop
  | .ok _ => P
  | .error e => ¬P ∧ e.isMismatch = true

/-- The job decides `P`. -/
abbrev Decides (answer : Value → Value → Value) (P : Prop) (j : Job α) : Prop :=
  j.Gives answer (Verdict P)

lemma Decides.of_iff (hiff : P ↔ P') (h : j.Decides answer P) :
    j.Decides answer P' := propext hiff ▸ h

lemma decides_pure (h : P) (a : α) : (pure a).Decides answer P := .done h

lemma decides_fail (h : ¬P) (he : e.isMismatch = true) :
    (Job.fail e : Job α).Decides answer P := .done ⟨h, he⟩

/-- Two jobs in a row decide a conjunction. -/
lemma Decides.bind (h : j.Decides answer P) {f : α → Job β}
    (hf : P → ∀ a, (f a).Decides answer P') : (j >>= f).Decides answer (P ∧ P') := by
  refine Gives.andThen (fun r hr => ?_) h
  cases r with
  | ok a => exact (hf hr a).of_iff (by simp [show P from hr])
  | error e => exact .done ⟨fun hboth => hr.1 hboth.1, hr.2⟩

lemma Decides.mapError (h : j.Decides answer P) (hblame : ∀ e, (blame e).isMismatch = true) :
    (j.mapError blame).Decides answer P := by
  refine Gives.andThen (fun r hr => ?_) h
  cases r with
  | ok a => exact .done hr
  | error e => exact .done ⟨hr.1, hblame e⟩

end Job

namespace Schema

/-! ## What a match asks for -/

variable {P : Request → Prop}

lemma tryBranches_asks {v} : ∀ {bs} (tried),
    (∀ s ∈ bs, ∀ out, (bindInto s v out).Asks P) → (tryBranches bs v tried).Asks P
  | [], tried, _ => by
    rw [tryBranches]
    exact .done _
  | s :: rest, tried, h => by
    obtain ⟨hs, hr⟩ := List.forall_mem_cons.mp h
    rw [tryBranches]
    refine (((hs []).holding _).andThen fun r => .done _).bind fun res => ?_
    have hnext := tryBranches_asks (⟨s.names, res⟩ :: tried) hr
    cases res with
    | ok b => exact hnext
    | error e =>
      dsimp only
      split
      · exact .done _
      · exact hnext

/-- A match calls the conditions of the schema and asks for nothing else. -/
lemma bindInto_asks_of (s : Schema) : (∀ c v, s.HasCondition c → P (.call c [v] [])) →
    ∀ v out, (bindInto s v out).Asks P := by
  induction s using Holds.induction with
  | step t ih' =>
    intro hP v out
    have ih : ∀ place s, t.Holds place s → ∀ v out, (bindInto s v out).Asks P := fun place s h =>
      ih' place s h fun c v hc => hP c v (hc.of_holds h)
    cases t with
    | type test =>
      rw [bindInto, checkType]
      split
      · exact .done _
      · exact .done _
    | oneOf options =>
      rw [bindInto]
      split
      · exact .done _
      · exact .done _
    | either bs =>
      rw [bindInto]
      exact ((tryBranches_asks [] fun s hs => ih none s (.branch hs) v).holding _).bind fun _ =>
        .done _
    | bind inner name =>
      rw [bindInto]
      exact (ih none inner (.bind inner name) v out).bind fun _ => .done _
    | invalid src names => exact .done _
    | typed src test es shape keys values cond =>
      refine typed_of_steps (fun _ => .done _) (fun hj hf => hj.bind hf) (fun out hstep => ?_) out
      cases hstep with
      | check h w => exact (((ih _ _ h w []).mapError _).holding _).bind fun _ => .done _
      | bind h w => exact (ih _ _ h w out).mapError _
      | @ask _ _ _ _ _ _ c ht =>
        have hc := hP c v (ht ▸ ⟨_, _, _, _, _, _, _, .here _⟩)
        refine Job.Asks.bind (Job.Asks.holding (.bind (.ask hc fun _ => .done _) fun a => ?_) _)
          fun _ => .done _
        split
        · exact .done _
        · exact .done _
      | _ => exact .done _

/-- **A match asks the conditions of the schema and nothing else.** -/
theorem bindInto_asks (s : Schema) (v) :
    (bindInto s v []).Asks (Request.OfCondition s.HasCondition) :=
  bindInto_asks_of s (fun c v hc => ⟨c, v, hc, rfl⟩) v []

end Schema

/-! ## Verdicts on the steps of a match -/

namespace Schema

open Job

/-- **A match decides whether a value satisfies the schema.** -/
def Reads (answer : Value → Value → Value) (schema : Value) : Prop :=
  ∀ v out, (bindInto (ofValue schema) v out).Decides answer (Satisfies answer schema v)

/-- **Steps of a match of `v` decide `P`**, whatever has been bound before. -/
def Asks (answer : Value → Value → Value) (v : Value) (steps : List Step) (P : Prop) : Prop :=
  ∀ out, (runSteps v steps out).Decides answer P

variable {steps more : List Step} {src : Value} {ps : Entries Value}
  {mentioned : List String}

lemma Asks.of_iff (hiff : P ↔ P') (h : Asks answer v steps P) : Asks answer v steps P' :=
  propext hiff ▸ h

lemma asks_nil (h : P) : Asks answer v [] P := decides_pure h

lemma asks_refuse (h : ¬P) (he : e.isMismatch = true) : Asks answer v [.refuse e] P :=
  fun _ => .done ⟨h, he⟩

lemma Asks.append (h : Asks answer v steps P) (h' : Asks answer v more P') :
    Asks answer v (steps ++ more) (P ∧ P') := by
  intro out
  rw [runSteps_append]
  exact (h out).bind fun _ => h'

lemma asks_of_checks {j : Job Unit} (h : Checks v j steps) (hj : j.Decides answer P) :
    Asks answer v steps P := by
  intro out
  rw [h out]
  exact (Decides.bind (Gives.holding _ hj) fun _ _ => decides_pure trivial out).of_iff
    (iff_of_eq (and_true P))

lemma blame_isMismatch (v) (place : Place) (e) :
    (place.blame v e).isMismatch = true := by
  cases place <;> rfl

section

variable (h : Reads answer schema)

include h

lemma asks_bind (place w) (hr : Asks answer v steps P) :
    Asks answer v (.bind place (ofValue schema) w :: steps) (Satisfies answer schema w ∧ P) :=
  fun out => ((h w out).mapError (blame_isMismatch v place)).bind fun _ => hr

lemma asks_check (place : Place) (w) (hr : Asks answer v steps P) :
    Asks answer v (.check place (ofValue schema) w :: steps) (Satisfies answer schema w ∧ P) := by
  intro out
  refine Decides.bind (Decides.of_iff (iff_of_eq (and_true _)) ?_) fun _ => hr
  exact Decides.bind (Gives.holding _ ((h w []).mapError (blame_isMismatch v place))) fun _ _ =>
    decides_pure trivial out

omit h in
lemma asks_keep (name : Option String) (w) :
    Asks answer v (name.toList.map (Step.keep · w)) True := by
  cases name with
  | none => exact asks_nil trivial
  | some name => exact fun _ => .done trivial

lemma asks_elements (es first) :
    Asks answer v (elementChecks (ofValue schema) es first) (∀ e ∈ es,
      Satisfies answer schema e) := by
  induction es generalizing first with
  | nil => exact asks_nil (List.forall_mem_nil _)
  | cons e es ih => exact (asks_check h _ e (ih (first + 1))).of_iff List.forall_mem_cons.symm

lemma asks_properties (place : String × Value → Place)
    (w : String × Value → Value) (ps : Entries Value) :
    Asks answer v (ps.map fun p => .check (place p) (ofValue schema) (w p))
      (∀ p ∈ ps, Satisfies answer schema (w p)) := by
  induction ps with
  | nil => exact asks_nil (List.forall_mem_nil _)
  | cons p ps ih => exact (asks_check h _ _ ih).of_iff List.forall_mem_cons.symm

end

lemma checkType_decides (test : TypeTest) (v) :
    (checkType test v).Decides answer (test.accepts v = true) := by
  unfold checkType
  split
  · next h => exact decides_pure h ()
  · next h => exact decides_fail h rfl

lemma checkCondition_decides (cond : Option Value) (v) :
    (checkCondition cond v).Decides answer (∀ c, cond = some c → answer c v = .boolean true) := by
  cases cond with
  | none => exact decides_pure nofun ()
  | some c =>
    refine .ask ?_
    show (if (answer c v).equals (.boolean true) = true then Job.pure ()
      else Job.fail (Mismatch.conditionFailed v c) : Job Unit).Decides answer _
    have htrue : ∀ w : Value, w.equals (.boolean true) = true ↔ w = .boolean true := by
      intro w
      cases w <;> simp [Value.equals]
    split
    · next h =>
      refine decides_pure ?_ ()
      rintro c ⟨⟩
      exact (htrue _).mp h
    · next h =>
      refine decides_fail (fun hall => ?_) rfl
      exact h ((htrue _).mpr (hall c rfl))

section Parts

variable (x : Option Value) (h : ∀ s, x = some s → Reads answer s)
include h

lemma asks_elementSteps : Asks answer v (elementSteps (x.map ofValue) v)
    (∀ s, x = some s → ∃ es, v = .array es ∧ ∀ e ∈ es, Satisfies answer s e) := by
  cases x with
  | none => exact asks_nil nofun
  | some s =>
    cases v with
    | array es => exact (asks_elements (h s rfl) es 1).of_iff (by simp)
    | _ => exact asks_refuse (by simp) rfl

lemma asks_keySteps : Asks answer v (keySteps (x.map ofValue) v)
    (∀ s ps, x = some s → v = .object ps → ∀ p ∈ ps, Satisfies answer s (.string p.1)) := by
  cases x with
  | none => exact asks_nil nofun
  | some s =>
    cases v with
    | object ps => exact (asks_properties (h s rfl) (.key ·.1) (.string ·.1) _).of_iff (by simp)
    | _ => exact asks_nil (by simp)

lemma asks_valueSteps : Asks answer v (valueSteps (x.map ofValue) v)
    (∀ s ps, x = some s → v = .object ps → ∀ p ∈ ps, Satisfies answer s p.2) := by
  cases x with
  | none => exact asks_nil nofun
  | some s =>
    cases v with
    | object ps => exact (asks_properties (h s rfl) (.property ·.1) (·.2) _).of_iff (by simp)
    | _ => exact asks_nil (by simp)

end Parts

lemma asks_objectSteps (needed) : Asks answer v (objectSteps needed v)
    (needed = true → ∃ ps, v = .object ps) := by
  cases needed with
  | false => exact asks_nil nofun
  | true =>
    cases v with
    | object ps => exact asks_nil fun _ => ⟨ps, rfl⟩
    | _ => exact asks_refuse (by simp) rfl

/-! ### Tuples -/

/-- What an entry of a tuple asks for, with the elements from its position on. -/
def EntryFits (sat : Value → Value → Prop) (entry : Value) (es : List Value) : Prop :=
  if isRest entry then ∀ e ∈ es, sat (entrySchema entry) e
  else ∃ e, es.head?.or (entryDefault? entry) = some e ∧ sat (entrySchema entry) e

/-- The entries of a tuple fit, each with the elements from its position on. -/
def TupleFits (sat : Value → Value → Prop) (shape es : List Value) : Prop :=
  ∀ (i : Nat) entry, shape[i]? = some entry → EntryFits sat entry (es.drop i)

lemma TupleFits.fixed {sat : Value → Value → Prop} {es : List Value} (h : TupleFits sat shape es)
    {i : Nat} (hi : shape[i]? = some entry) (hfixed : isRest entry = false) :
    ∃ e, es[i]?.or (entryDefault? entry) = some e ∧ sat (entrySchema entry) e := by
  simpa [EntryFits, hfixed] using h i entry hi

lemma tupleFits_cons {sat es} :
    TupleFits sat (entry :: later) es ↔ EntryFits sat entry es ∧ TupleFits sat later es.tail := by
  refine ⟨fun h => ⟨h 0 entry rfl, fun i x hx => ?_⟩, fun h i x hx => ?_⟩
  · rw [List.drop_tail]
    exact h (i + 1) x hx
  · cases i with
    | zero =>
      cases hx
      exact h.1
    | succ i => exact List.drop_tail ▸ h.2 i x hx

/-- Only the last entry of a tuple may be the rest, so what comes after an entry that is no rest is
a tuple again. -/
lemma RestPlaced.tail (h : RestPlaced (.array (entry :: later))) :
    (isRest entry = true → later = []) ∧ RestPlaced (.array later) := by
  cases later with
  | nil => exact ⟨fun _ => rfl, by simp [RestPlaced]⟩
  | cons next later =>
    have hall : ∀ x ∈ entry :: (next :: later).dropLast, isRest x = false := h
    rw [List.forall_mem_cons] at hall
    exact ⟨fun hr => absurd hr (by simp [hall.1]), hall.2⟩

lemma asks_tupleSteps : ∀ {shape},
    (∀ entry ∈ shape, Reads answer (entrySchema entry)) → RestPlaced (.array shape) →
    ∀ i es, Asks answer v
      (tupleSteps (tupleOf shape) src v i es) (TupleFits (Satisfies answer) shape es)
  | [], _, _, _, _ => by
    rw [tupleOf]
    exact asks_nil nofun
  | entry :: later, h, hplaced, i, es => by
    rw [List.forall_mem_cons] at h
    obtain ⟨hl, hlater⟩ := hplaced.tail
    refine Asks.of_iff tupleFits_cons.symm ?_
    rw [tupleOf]
    rcases entryOf_eq entry with ⟨hr, name, he⟩ | ⟨hfixed, he⟩
    · obtain rfl := hl hr
      rw [he, tupleOf, tupleSteps, List.isEmpty_nil, if_pos rfl]
      exact ((asks_elements h.1 es i).append (asks_keep name _)).of_iff
        (by simp [EntryFits, TupleFits, hr])
    · have hrecursion := asks_tupleSteps h.2 hlater (i + 1)
      rw [he]
      cases hdef : entryDefault? entry with
      | some default =>
        exact (asks_bind h.1 _ _ (hrecursion es.tail)).of_iff (and_congr_left fun _ => by
          cases es <;> simp [EntryFits, hfixed, hdef])
      | none =>
        cases es with
        | nil => exact asks_refuse (by simp [EntryFits, hfixed, hdef]) rfl
        | cons element es => exact (asks_bind h.1 _ element (hrecursion es)).of_iff (and_congr_left
            fun _ => by simp [EntryFits, hfixed])

/-! ### Records -/

/-- How many entries of a record are a rest. -/
def restCount (shape : Entries Value) : Nat := ((Entries.values shape).filter isRest).length

lemma restCount_cons (key entry later) :
    restCount ((key, entry) :: later) = (if isRest entry then 1 else 0) + restCount later := by
  simp only [restCount, values, List.map_cons, List.filter_cons]
  split <;> simp [Nat.add_comm]

lemma isRest_eq_false_of_restCount {shape} (h : restCount shape = 0)
    {p} (hp : p ∈ shape) : isRest p.2 = false := by
  have hn := List.filter_eq_nil_iff.mp (List.length_eq_zero_iff.mp h)
  exact Bool.eq_false_iff.mpr (hn p.2 (List.mem_map_of_mem hp))

/-- The entries of a record that are no rest find their properties. -/
def FixedFit (sat : Value → Value → Prop) (shape ps : Entries Value) : Prop :=
  ∀ p ∈ shape, isRest p.2 = false →
    ∃ w, (Entries.get? ps p.1).or (entryDefault? p.2) = some w ∧ sat (entrySchema p.2) w

/-- The rest of a record describes the properties under other keys than those mentioned. -/
def RestFits (sat : Value → Value → Prop) (mentioned : List String)
    (shape ps : Entries Value) : Prop :=
  ∀ p ∈ shape, isRest p.2 = true → ∀ q ∈ ps, q.1 ∉ mentioned → sat (entrySchema p.2) q.2

lemma asks_recordSteps : ∀ {shape},
    (∀ p ∈ shape, Reads answer (entrySchema p.2)) → ∀ restSeen,
    restCount shape + restSeen.toNat ≤ 1 →
    Asks answer v (recordSteps (recordOf shape) src v ps restSeen)
      (FixedFit (Satisfies answer) shape ps)
  | [], _, _, _ => by
    rw [recordOf]
    exact asks_nil (List.forall_mem_nil _)
  | (key, entry) :: later, h, restSeen, hn => by
    rw [List.forall_mem_cons] at h
    rw [restCount_cons] at hn
    refine Asks.of_iff List.forall_mem_cons.symm ?_
    rw [recordOf]
    rcases entryOf_eq entry with ⟨hr, name, he⟩ | ⟨hfixed, he⟩
    · rw [if_pos hr] at hn
      rw [he]
      cases restSeen with
      | true => simp only [Bool.toNat_true] at hn; omega
      | false =>
        have hlater : restCount later + true.toNat ≤ 1 := by simp at hn ⊢; omega
        exact (asks_recordSteps h.2 true hlater).of_iff (by simp [FixedFit, hr])
    · have hlater : restCount later + restSeen.toNat ≤ 1 := by simpa [hfixed] using hn
      have hrecursion := asks_recordSteps h.2 restSeen hlater
      rw [he]
      cases hdef : entryDefault? entry with
      | some default => exact (asks_bind h.1 _ _ hrecursion).of_iff (and_congr_left fun _ => by
          cases get? ps key <;> simp [hfixed])
      | none =>
        dsimp only
        rw [recordSteps]
        cases get? ps key with
        | none => exact asks_refuse (by simp [hfixed]) rfl
        | some property =>
          exact (asks_bind h.1 _ property hrecursion).of_iff (and_congr_left
            fun _ => by simp [hfixed])

lemma asks_restSteps : ∀ {shape},
    (∀ p ∈ shape, Reads answer (entrySchema p.2)) → restCount shape ≤ 1 →
    Asks answer v (restSteps (recordOf shape) mentioned ps)
      (RestFits (Satisfies answer) mentioned shape ps)
  | [], _, _ => by
    rw [recordOf]
    exact asks_nil (List.forall_mem_nil _)
  | (key, entry) :: later, h, hn => by
    rw [List.forall_mem_cons] at h
    rw [restCount_cons] at hn
    refine Asks.of_iff List.forall_mem_cons.symm ?_
    rw [recordOf]
    rcases entryOf_eq entry with ⟨hr, name, he⟩ | ⟨hfixed, he⟩
    · rw [if_pos hr] at hn
      have ho : ∀ p ∈ later, isRest p.2 = false := fun p hp =>
        isRest_eq_false_of_restCount (by omega) hp
      rw [he, restSteps]
      refine ((asks_properties h.1 (.property ·.1) (·.2) _).append (asks_keep name _)).of_iff ?_
      constructor
      · rintro ⟨hall, -⟩
        refine ⟨fun _ q hq hq' => ?_, fun p hp hp' => absurd hp' (by simp [ho p hp])⟩
        exact hall q (List.mem_filter.mpr ⟨hq, by simpa using hq'⟩)
      · intro hall
        refine ⟨fun q hq => ?_, trivial⟩
        obtain ⟨hq, hq'⟩ := List.mem_filter.mp hq
        exact hall.1 hr q hq (by simpa using hq')
    · have hrecursion := asks_restSteps h.2 (by simpa [hfixed] using hn)
      rw [he]
      cases entryDefault? entry <;> exact hrecursion.of_iff (by simp [RestFits, hfixed])

lemma recordOf_eq_map : ∀ shape : Entries Value,
    recordOf shape = shape.map fun p => (p.1, entryOf p.2)
  | [] => by rw [recordOf]; rfl
  | (key, entry) :: later => by rw [recordOf, recordOf_eq_map later]; rfl

lemma keys_recordOf (shape) : keys (recordOf shape) = keys shape := by
  simp [recordOf_eq_map, keys]

/-! ### Shapes -/

/-- The value has the shape. -/
def ShapeFits (sat : Value → Value → Prop) : Option Value → Value → Prop
  | some (.array shape), v => ∃ es, v = .array es ∧ TupleFits sat shape es
  | some (.object shape), v => ∃ ps, v = .object ps
    ∧ FixedFit sat shape ps ∧ RestFits sat (Entries.keys shape) shape ps
  | _, _ => True

lemma asks_shapeSteps (h : ∀ shape, get? fs "shape" = some shape →
      ∀ entry ∈ shapeEntries shape, Reads answer (entrySchema entry))
    (hplaced : ∀ shape, get? fs "shape" = some shape → RestPlaced shape) :
    Asks answer v (shapeSteps (shapeOf fs) src v)
      (ShapeFits (Satisfies answer) (get? fs "shape") v) := by
  rw [shapeOf_eq]
  cases hshape : get? fs "shape" with
  | none => exact asks_nil trivial
  | some shape =>
    have hr := h _ hshape
    have hpl := hplaced _ hshape
    cases shape with
    | array shape =>
      cases v with
      | array es => exact (asks_tupleSteps hr hpl 1 es).of_iff (by simp [ShapeFits, shapeEntries])
      | _ => exact asks_refuse (by simp [ShapeFits]) rfl
    | object shape =>
      have hes : ∀ p ∈ shape, Reads answer (entrySchema p.2) := fun p hp =>
        hr p.2 (List.mem_map_of_mem hp)
      cases v with
      | object ps =>
        exact ((asks_recordSteps hes false hpl).append
          (asks_restSteps hes hpl)).of_iff (by simp [ShapeFits, keys_recordOf])
      | _ => exact asks_refuse (by simp [ShapeFits]) rfl
    | _ => exact hpl.elim

/-! ### Alternatives -/

/-- A mismatch does not blame the schema. -/
lemma kind_ne_of_isMismatch (h : e.isMismatch = true) :
    e.kind ≠ "invalidSchema" := by
  intro hkind
  rw [ErrorValue.isMismatch, hkind] at h
  revert h
  decide

/-- Every branch is tried, and gets its verdict. -/
lemma tryBranches_gives {v} : ∀ {bs}, (∀ b ∈ bs, Reads answer b) →
    ∀ tried, (tryBranches (ofList bs) v tried).Gives answer fun r =>
      ∃ found, r = .ok (tried.reverse ++ found) ∧ List.Forall₂ (fun b (o : BranchOutcome) =>
        Verdict (Satisfies answer b v) o.result) bs found
  | [], _, tried => by
    rw [ofList, tryBranches]
    exact .done ⟨[], by simp, .nil⟩
  | branch :: rest, h, tried => by
    rw [List.forall_mem_cons] at h
    rw [ofList, tryBranches]
    have hattempt : ((bindInto (ofValue branch) v []).holding
        (tried.map BranchOutcome.toValue)).attempt.Gives answer
        fun r => ∃ res, r = .ok res ∧ Verdict (Satisfies answer branch v) res :=
      Gives.andThen (fun r hr => .done ⟨r, rfl, hr⟩) (Gives.holding _ (h.1 v []))
    refine Gives.andThen (fun r hr => ?_) hattempt
    obtain ⟨res, rfl, hres⟩ := hr
    have hrest : (tryBranches (ofList rest) v (⟨(ofValue branch).names, res⟩ :: tried)).Gives answer
        fun r => ∃ found, r = .ok (tried.reverse ++ found)
          ∧ List.Forall₂ (fun b (o : BranchOutcome) => Verdict (Satisfies answer b v) o.result)
            (branch :: rest) found := by
      have hlater := tryBranches_gives (v := v) h.2 (⟨(ofValue branch).names, res⟩ :: tried)
      refine hlater.weaken ?_
      rintro r ⟨found, rfl, hf⟩
      exact ⟨⟨(ofValue branch).names, res⟩ :: found, by simp, .cons hres hf⟩
    cases res with
    | ok b => exact hrest
    | error e =>
      dsimp only
      rw [if_neg (kind_ne_of_isMismatch hres.2)]
      exact hrest

/-- Joining branches gives the verdict that one of them has succeeded. -/
lemma joinBranches_verdict {outcomes}
    (h : List.Forall₂ (fun b (o : BranchOutcome) => Verdict (Satisfies answer b v) o.result)
      bs outcomes) (out) :
    Verdict (∃ b ∈ bs, Satisfies answer b v) (joinBranches v outcomes out) := by
  have hf : (∃ b ∈ bs, Satisfies answer b v) ↔
      ∃ binds, outcomes.findSome? (·.bindings?) = some binds := by
    induction h with
    | nil => simp
    | @cons b o _ _ ho _ ih =>
      obtain ⟨names, r⟩ := o
      cases r with
      | ok binds =>
        have hb : Satisfies answer b v := ho
        simp [hb, BranchOutcome.bindings?]
      | error e =>
        have hb : ¬Satisfies answer b v := ho.1
        simpa [hb, BranchOutcome.bindings?] using ih
  unfold joinBranches
  split
  · next binds hsome => exact hf.mpr ⟨binds, hsome⟩
  · next hn =>
    have hfails : ¬∃ b ∈ bs, Satisfies answer b v := by
      rw [hf, hn]
      simp
    dsimp only
    split
    · exact ⟨hfails, rfl⟩
    · exact ⟨hfails, rfl⟩

/-! ## The whole match -/

/-- What the parts of a typed schema ask for, put together. -/
lemma satisfies_typed_iff
    (h : Decisive fs "type" (.string name)) (hname : TypeTest.ofName? name = some test) :
    Satisfies answer (.object fs) v ↔ test.accepts v = true
      ∧ (∀ s, get? fs "elements" = some s → ∃ es, v = .array es ∧ ∀ e ∈ es, Satisfies answer s e)
      ∧ ShapeFits (Satisfies answer) (get? fs "shape") v
      ∧ ((contains fs "keys" || contains fs "values") = true → ∃ ps, v = .object ps)
      ∧ (∀ s ps, get? fs "keys" = some s → v = .object ps →
        ∀ p ∈ ps, Satisfies answer s (.string p.1))
      ∧ (∀ s ps, get? fs "values" = some s → v = .object ps → ∀ p ∈ ps, Satisfies answer s p.2)
      ∧ ∀ c, get? fs "where" = some c → answer c v = .boolean true := by
  constructor
  · intro hsat
    cases hsat with
    | typed h' hname' hv hformed hparts hcondition =>
      cases some.inj (h.1.symm.trans h'.1)
      obtain rfl := some.inj (hname.symm.trans hname')
      refine ⟨hv, fun s hs => ?_, ?_, fun hneeded => ?_, ?_, ?_, hcondition⟩
      · obtain ⟨es, rfl⟩ := hformed.elements s hs
        exact ⟨es, rfl, fun e he => hparts s e (.element hs he)⟩
      · cases hshape : get? fs "shape" with
        | none => simp [ShapeFits]
        | some shape =>
          cases shape with
          | array shape =>
            obtain ⟨es, rfl, hpresent⟩ := hformed.tuple shape hshape
            refine ⟨es, rfl, fun i entry hi => ?_⟩
            rw [EntryFits, List.head?_drop]
            split
            · next hr => exact fun e he => hparts _ e (.tail hshape hi hr he)
            · next hr =>
              have hfixed := Bool.eq_false_iff.mpr hr
              obtain ⟨e, he⟩ := hpresent i entry hi hfixed
              exact ⟨e, he, hparts _ e (.position hshape hi hfixed he)⟩
          | object shape =>
            obtain ⟨ps, rfl, hpresent⟩ := hformed.record shape hshape
            refine ⟨ps, rfl, fun p hp hfixed => ?_, fun p hp hr q hq hother =>
              hparts _ q.2 (.leftover hshape hp hr hq hother)⟩
            obtain ⟨w, hw⟩ := hpresent p.1 p.2 hp hfixed
            exact ⟨w, hw, hparts _ w (.property hshape hp hfixed hw)⟩
          | _ => simp [ShapeFits]
      · rw [Bool.or_eq_true, contains, contains, isSome_iff_exists, isSome_iff_exists] at hneeded
        rcases hneeded with ⟨s, hs⟩ | ⟨s, hs⟩
        · exact hformed.keys s hs
        · exact hformed.values s hs
      · rintro s ps hs rfl p hp
        exact hparts s _ (.key hs hp)
      · rintro s ps hs rfl p hp
        exact hparts s _ (.value hs hp)
    | _ => simp_all [Decisive, decidingKeys]
  · rintro ⟨hv, helements, hshapes, ho, hks, hvs, hcondition⟩
    have hneeded : ∀ key, key = "keys" ∨ key = "values" → ∀ s, get? fs key = some s →
        ∃ ps, v = .object ps := by
      rintro key (rfl | rfl) s hs
      · exact ho (by simp [contains, hs])
      · exact ho (by simp [contains, hs])
    refine .typed h hname hv ⟨fun s hs => ?_, fun shape hshape => ?_, fun shape hshape => ?_,
      hneeded _ (.inl rfl), hneeded _ (.inr rfl)⟩ (fun s w hpart => ?_) hcondition
    · obtain ⟨es, hes, -⟩ := helements s hs
      exact ⟨es, hes⟩
    · rw [hshape] at hshapes
      obtain ⟨es, hes, hf⟩ := hshapes
      refine ⟨es, hes, fun i entry hi hfixed => ?_⟩
      obtain ⟨e, he, -⟩ := hf.fixed hi hfixed
      exact ⟨e, he⟩
    · rw [hshape] at hshapes
      obtain ⟨ps, hproperties, hf, -⟩ := hshapes
      refine ⟨ps, hproperties, fun key entry hentry hfixed => ?_⟩
      obtain ⟨w, hw, -⟩ := hf (key, entry) hentry hfixed
      exact ⟨w, hw⟩
    · cases hpart with
      | element hs he =>
        obtain ⟨es, heq, hall⟩ := helements _ hs
        cases heq
        exact hall _ he
      | position hshape hentry hfixed he =>
        rw [hshape] at hshapes
        obtain ⟨es, heq, hf⟩ := hshapes
        cases heq
        obtain ⟨e, he', hsat⟩ := hf.fixed hentry hfixed
        exact some.inj (he'.symm.trans he) ▸ hsat
      | tail hshape hentry hr he =>
        rw [hshape] at hshapes
        obtain ⟨es, heq, hf⟩ := hshapes
        cases heq
        have hall := hf _ _ hentry
        rw [EntryFits, if_pos hr] at hall
        exact hall _ he
      | property hshape hentry hfixed hw =>
        rw [hshape] at hshapes
        obtain ⟨ps, heq, hf, -⟩ := hshapes
        cases heq
        obtain ⟨w, hw', hsat⟩ := hf _ hentry hfixed
        exact some.inj (hw'.symm.trans hw) ▸ hsat
      | leftover hshape hentry hr hw hother =>
        rw [hshape] at hshapes
        obtain ⟨ps, heq, -, hf⟩ := hshapes
        cases heq
        exact hf _ hentry hr _ hw hother
      | key hs hw => exact hks _ _ hs rfl _ hw
      | value hs hw => exact hvs _ _ hs rfl _ hw

lemma isSome_field (fs key) :
    (field fs key).isSome = contains fs key := by
  rw [field_eq, isSome_map, contains]

/-- **A match decides whether a value satisfies a well-formed schema.** -/
theorem reads_of_wellFormed (h : WellFormed schema) : Reads answer schema := by
  induction h with
  | @type name test hname =>
    intro v out
    rw [ofValue, hname]
    dsimp only
    rw [bindInto]
    refine Decides.of_iff ?_ ((checkType_decides test v).bind fun _ _ => decides_pure trivial out)
    constructor
    · rintro ⟨hv, -⟩
      exact .type hname hv
    · rintro ⟨hname', hv⟩
      obtain rfl := some.inj (hname.symm.trans hname')
      exact ⟨hv, trivial⟩
  | @either fs bs h _ ih =>
    intro v out
    rw [ofValue_either h, bindInto]
    have hiff : (∃ b ∈ bs, Satisfies answer b v) ↔ Satisfies answer (.object fs) v := by
      constructor
      · rintro ⟨b, hb, hv⟩
        exact .either h hb hv
      · intro hsat
        cases hsat with
        | either h' hb hv =>
          cases some.inj (h.1.symm.trans h'.1)
          exact ⟨_, hb, hv⟩
        | _ => simp_all [Decisive, decidingKeys]
    refine Decides.of_iff hiff ?_
    refine Gives.andThen (fun r hr => ?_) (Gives.holding _ (tryBranches_gives ih []))
    obtain ⟨found, rfl, hf⟩ := hr
    exact .done (joinBranches_verdict hf out)
  | @oneOf fs options h =>
    intro v out
    rw [ofValue_oneOf h, bindInto]
    have hiff : (options.any (·.equals v)) = true ↔ Satisfies answer (.object fs) v := by
      rw [List.any_eq_true]
      constructor
      · rintro ⟨option, hoption, hv⟩
        exact .oneOf h hoption hv
      · intro hsat
        cases hsat with
        | oneOf h' hoption hv =>
          cases some.inj (h.1.symm.trans h'.1)
          exact ⟨_, hoption, hv⟩
        | _ => simp_all [Decisive, decidingKeys]
    split
    · next hany => exact decides_pure (hiff.mp hany) out
    · next hany => exact decides_fail (fun hsat => hany (hiff.mpr hsat)) rfl
  | @bind fs inner name h has _ ih =>
    intro v out
    rw [ofValue_bind h has, bindInto]
    refine Decides.of_iff ?_ ((ih v out).bind fun _ b => decides_pure trivial _)
    constructor
    · rintro ⟨hv, -⟩
      exact .bind h hv
    · intro hsat
      cases hsat with
      | bind h' hv =>
        obtain rfl := some.inj (h.1.symm.trans h'.1)
        exact ⟨hv, trivial⟩
      | _ => simp_all [Decisive, decidingKeys]
  | @default fs value inner h hof _ ih =>
    intro v out
    rw [ofValue_default h hof]
    refine Decides.of_iff ?_ (ih v out)
    constructor
    · exact .default h hof
    · intro hsat
      cases hsat with
      | default h' hof' hv =>
        obtain rfl := some.inj (hof.symm.trans hof')
        exact hv
      | _ => simp_all [Decisive, decidingKeys]
  | @typed fs name test h hname _ _ hplaced _ _ ihelements ihentries ihkeys ihvalues =>
    intro v out
    rw [ofValue_typed h hname, bindInto_typed, steps, isSome_field, isSome_field, field_eq,
      field_eq,
      field_eq]
    refine Asks.of_iff (satisfies_typed_iff h hname).symm ?_ out
    refine (asks_of_checks (checks_type test v) (checkType_decides test v)).append ?_
    refine (asks_elementSteps _ ihelements).append ((asks_shapeSteps ihentries hplaced).append ?_)
    refine (asks_objectSteps _).append ((asks_keySteps _ ihkeys).append ?_)
    exact (asks_valueSteps _ ihvalues).append
      (asks_of_checks (checks_condition _ v) (checkCondition_decides _ v))

/-- **Matching decides the declarative reading of a schema.** On a runtime that answers the
conditions of the schema, a match with a well-formed schema succeeds exactly if the value satisfies
the schema, and otherwise reports a mismatch; asked whether the value matches, it answers so. -/
theorem matching_decides {σ : Type} {runtime : Runtime σ} {schema : Value}
    (hruntime : runtime.Answers (ofValue schema).HasCondition answer) (hschema : WellFormed schema)
    (v : Value) (state : σ) :
    ((∃ bindings, ((bindValue v schema).runOn runtime state).1 = .ok bindings) ↔
      Satisfies answer schema v) ∧
    (¬Satisfies answer schema v → ∃ e, ((bindValue v schema).runOn runtime state).1 = .error e
      ∧ e.isMismatch = true) ∧
    ∃ matched, ((accepts v schema).runOn runtime state).1 = .ok matched
      ∧ (matched = true ↔ Satisfies answer schema v) := by
  have hreads : (bindInto (ofValue schema) v []).Decides answer (Satisfies answer schema v) :=
    reads_of_wellFormed hschema v []
  have hasks := bindInto_asks (ofValue schema) v
  have hverdict := Gives.runOn hruntime hasks hreads state
  have haccepts : (accepts v schema).Gives answer fun r =>
      ∃ matched, r = .ok matched ∧ (matched = true ↔ Satisfies answer schema v) := by
    refine Gives.andThen (fun r hr => ?_) hreads
    cases r with
    | ok bindings => exact .done ⟨true, rfl, ⟨fun _ => hr, fun _ => rfl⟩⟩
    | error e =>
      dsimp only
      rw [if_pos hr.2]
      exact .done ⟨false, rfl, by simpa using hr.1⟩
  have hasks' : (accepts v schema).Asks (Request.OfCondition (ofValue schema).HasCondition) := by
    refine hasks.andThen fun r => ?_
    cases r with
    | ok bindings => exact .done _
    | error e =>
      dsimp only
      split
      · exact .done _
      · exact .done _
  refine ⟨?_, fun hnot => ?_, Gives.runOn hruntime hasks' haccepts state⟩
  · show (∃ bindings, ((bindInto (ofValue schema) v []).runOn runtime state).1 = .ok bindings) ↔ _
    cases hr : ((bindInto (ofValue schema) v []).runOn runtime state).1 with
    | ok bindings =>
      rw [hr] at hverdict
      exact ⟨fun _ => hverdict, fun _ => ⟨bindings, rfl⟩⟩
    | error e =>
      rw [hr] at hverdict
      exact ⟨by rintro ⟨_, ⟨⟩⟩, fun hsat => absurd hsat hverdict.1⟩
  · show ∃ e, ((bindInto (ofValue schema) v []).runOn runtime state).1 = .error e ∧ _
    cases hr : ((bindInto (ofValue schema) v []).runOn runtime state).1 with
    | ok bindings =>
      rw [hr] at hverdict
      exact absurd hverdict hnot
    | error e =>
      rw [hr] at hverdict
      exact ⟨e, rfl, hverdict.2⟩

/-! ### A record with a default, a condition and a rest -/

/-- A runtime whose functions answer for their first argument. Nothing else can be called, and it
has no streams. -/
def answering (answer : Value → Value → Value) : Runtime Unit where
  respond q _ := match q with
    | .call (.native f) args _ => (.ok (answer (.native f) (args.headD .null)), ())
    | .call f _ _ => (.error (Machine.notCallable f), ())
    | .force _ | .collect _ | .settle _ => (.error (.of "noStreams" []), ())
    | .allocate _ => (0, ())
    | .text _ => ("", ())

/-- A text of which the condition says that it is right. -/
def rightText : Value := .object [("type", .string "string"), ("where", .native ⟨"isRight", 0, 0⟩)]

/-- A number, a right text unless it is left out, and otherwise booleans only. -/
def labelled : Value :=
  .object [("type", .string "object"), ("shape", .object [("id", .string "number"),
      ("label", .object [("default", .string "none"), ("of", rightText)]),
      ("flags", .object [("rest", .string "boolean")])])]

lemma wellFormed_labelled : WellFormed labelled := by
  have hnumber : WellFormed (.string "number") := @WellFormed.type _ (.exactly .number) (by decide)
  have hboolean : WellFormed (.string "boolean") := @WellFormed.type _ (.exactly .boolean)
    (by decide)
  have hright : WellFormed rightText := by
    refine @WellFormed.typed _ "string" (.exactly .string) ⟨rfl, by decide⟩ (by decide) ?_ ?_ ?_
      ?_ ?_ <;> simp [get?]
  refine @WellFormed.typed _ "object" (.exactly .object) ⟨rfl, by decide⟩ (by decide) ?_ ?_ ?_
    ?_ ?_
  · simp [get?]
  · rintro shape ⟨⟩ entry he
    simp only [shapeEntries, values, List.map_cons, List.map_nil, List.mem_cons,
      List.not_mem_nil, or_false] at he
    rcases he with rfl | rfl | rfl
    · exact hnumber
    · exact hright
    · exact hboolean
  · rintro shape ⟨⟩
    show _ ≤ 1
    decide
  · simp [get?]
  · simp [get?]

lemma ofValue_labelled : ofValue labelled = .typed labelled (.exactly .object) none
    (.record [("id", .required (.type (.exactly .number))),
      ("label", .optional (.typed rightText (.exactly .string) none .absent none none
        (some (.native ⟨"isRight", 0, 0⟩))) (.string "none")),
      ("flags", .rest (.type (.exactly .boolean)) none)]) none none none := by
  simp [labelled, rightText, ofValue, field, shapeOf, recordOf, entryOf, Value.get?,
    Value.asObject?,
    get?, contains, TypeTest.ofName?, Kind.ofName?, Kind.all, Kind.name]

/-- The condition of the text is a function. -/
lemma labelled_conditions {c} (hc : (ofValue labelled).HasCondition c) :
    ∃ f, c = .native f := by
  rw [ofValue_labelled] at hc
  rcases hc.cases with ⟨_, _, _, _, _, _, h⟩ | ⟨_, _, h, hc⟩
  · cases h
  cases h with
  | property h key =>
    simp only [List.mem_cons, List.not_mem_nil, or_false] at h
    rcases h with rfl | rfl | rfl
    · exact absurd hc (not_hasCondition_type _ _)
    · rcases hc.cases with ⟨_, _, _, _, _, _, h⟩ | ⟨_, _, h, -⟩
      · cases h
        exact ⟨_, rfl⟩
      · cases h
    · exact absurd hc (not_hasCondition_type _ _)

/-- What the record accepts and what it does not: the default is checked as any other text. -/
theorem matching_decides_labelled :
    Satisfies (fun _ v => .boolean (v.equals (.string "none"))) labelled
      (.object [("id", .ofNat 7), ("open", .boolean true)]) ∧
    ¬Satisfies (fun _ _ => .boolean false) labelled
      (.object [("id", .ofNat 7), ("open", .boolean true)]) := by
  have hanswers : ∀ answer, (answering answer).Answers (ofValue labelled).HasCondition answer := by
    rintro answer c hc
    obtain ⟨f, rfl⟩ := labelled_conditions hc
    exact fun _ _ => rfl
  constructor
  · refine (matching_decides (hanswers _) wellFormed_labelled _ ()).1.mp ?_
    rw [bindValue, ofValue_labelled]
    exact ⟨_, rfl⟩
  · refine fun hsat => ?_
    obtain ⟨bindings, hbindings⟩ :=
      (matching_decides (hanswers _) wellFormed_labelled _ ()).1.mpr hsat
    rw [bindValue, ofValue_labelled] at hbindings
    cases hbindings

end Schema

end TreeCode
