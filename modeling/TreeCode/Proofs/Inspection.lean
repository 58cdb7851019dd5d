import Mathlib.Tactic.Lemma
import TreeCode.Schema.Match

/-!
# What a match does, one thing after another

A match with a typed schema goes through the value in a fixed order: the type, the elements, the
entries of the shape, what the shape leaves over, the keys, the values, and last the condition.
`Schema.steps` lists what it does as data, without errors and bindings getting in the way, and
`Schema.bindInto_typed` says that the match carries out that list. What holds of every step holds of
the match; where a match fails it fails at the first step that does.
-/

namespace TreeCode

namespace Job

variable {α β γ : Type}

lemma andThen_andThen (f : Except ErrorValue α → Job β) (g : Except ErrorValue β → Job γ) :
    ∀ j : Job α, (j.andThen f).andThen g = j.andThen fun r => (f r).andThen g
  | .done _ => rfl
  | .ask held q next => congrArg (Job.ask held q)
    (funext fun resp => andThen_andThen f g (next resp))

lemma bind_bind (j : Job α) (f : α → Job β) (g : β → Job γ) :
    j >>= f >>= g = j >>= fun a => f a >>= g := by
  refine (andThen_andThen _ _ j).trans (congrArg j.andThen (funext fun r => ?_))
  cases r <;> rfl

lemma bind_done (j : Job α) : (j >>= fun a => pure a) = j := by
  induction j with
  | done r => cases r <;> rfl
  | ask held q next ih => exact congrArg (Job.ask held q) (funext ih)

lemma holding_bind (values : List Value) (f : α → Job β) : ∀ j,
    (j >>= f).holding values = j.holding values >>= fun a => (f a).holding values
  | .done (.ok _) => rfl
  | .done (.error _) => rfl
  | .ask held q next => congrArg (Job.ask (values ++ held) q)
    (funext fun r => holding_bind values f (next r))

end Job

namespace Schema

/-! ## Reading -/

/-- An object as a schema. -/
lemma ofValue_object (fs) : ofValue (.object fs) =
    match Entries.get? fs "either" with
    | some (.array bs) => .either (ofList bs)
    | some _ => .invalid (.object fs) (looseNames fs)
    | none =>
      match Entries.get? fs "oneOf" with
      | some (.array options) => .oneOf options
      | some _ => .invalid (.object fs) []
      | none =>
        match Entries.get? fs "bind" with
        | some inner =>
          match Entries.get? fs "as" with
          | some (.string name) => .bind (ofValue inner) name
          | _ => .invalid (.object fs) (looseNames fs)
        | none =>
          if Entries.contains fs "default" then
            match Entries.get? fs "of" with
            | some inner => ofValue inner
            | none => .invalid (.object fs) []
          else
            match Entries.get? fs "type" with
            | some (.string name) =>
              match TypeTest.ofName? name with
              | some test =>
                .typed (.object fs) test (field fs "elements") (shapeOf fs)
                  (field fs "keys") (field fs "values") (Entries.get? fs "where")
              | none => .invalid (.object fs) (looseNames fs)
            | _ => .invalid (.object fs) (looseNames fs) := by
  rw [ofValue]
  split
  · next h => simp only [h]
  · next h => simp only [h]
  · next heither =>
    simp only [heither]
    cases Entries.get? fs "oneOf" with
    | some options => cases options <;> rfl
    | none =>
      dsimp only
      split
      · next hbind =>
        cases Entries.get? fs "as" with
        | none => simp only [hbind]
        | some name => cases name <;> simp only [hbind]
      · next hbind =>
        simp only [hbind]
        by_cases hdef : Entries.contains fs "default" = true
        · rw [if_pos hdef, if_pos hdef]
          split
          · next h => simp only [h]
          · next h => simp only [h]
        · exact (if_neg hdef).trans (if_neg hdef).symm

lemma field_eq (fs key) :
    field fs key = (Entries.get? fs key).map ofValue := by
  rw [field]
  split
  next h => simp only [h, Option.map_some]
  next h => simp only [h, Option.map_none]

lemma shapeOf_eq (fs) : shapeOf fs =
    match Entries.get? fs "shape" with
    | some (.array list) => .tuple (tupleOf list)
    | some (.object es) => .record (recordOf es)
    | some _ => .malformed
    | none => .absent := by
  rw [shapeOf]
  split
  next list h => simp only [h]
  next es h => simp only [h]
  next other hlist hes h => simp only [h]
  next h => simp only [h]

lemma entryOf_eq_match (value : Value) : entryOf value =
    match value.get? "rest" with
    | some inner => .rest (ofValue inner) ((value.get? "as").bind Value.asString?)
    | none =>
      match value.get? "default", value.get? "of" with
      | some default, some inner => .optional (ofValue inner) default
      | _, _ => .required (ofValue value) := by
  rw [entryOf]
  split
  next inner h => simp only [h]
  next h =>
    simp only [h]
    split
    next default inner hdef hof => simp only [hdef, hof]
    next hneither =>
      split
      next default inner hdef hof => exact absurd hof (hneither _ _ hdef)
      · rfl

/-! ## Places -/

/-- **A place in a container.** -/
inductive Place where
  | element (position : Nat)
  | property (name : String)
  | key (name : String)

/-- A failure at a place, as a failure of the container. -/
def Place.blame (value : Value) : Place → ErrorValue → ErrorValue
  | .element i => Mismatch.badElement value i
  | .property name => Mismatch.badProperty value name
  | .key name => Mismatch.badKey value name

/-! ## Steps -/

/-- **One thing that a match with a typed schema does.** -/
inductive Step where
  /-- It fails. -/
  | refuse (e : ErrorValue)
  /-- What is at a place is matched for its own sake. -/
  | check (place : Place) (s : Schema) (v : Value)
  /-- What is at a place is matched, and the names of its schema are bound. -/
  | bind (place : Place) (s : Schema) (v : Value)
  /-- What is left over is bound to a name. -/
  | keep (name : String) (v : Value)
  /-- The condition is asked. -/
  | ask (condition : Value)

/-- **A step of a match of `value`.** What is bound so far is held while something is asked. -/
def Step.run (value : Value) : Step → Bindings → Job Bindings
  | .refuse e, _ => .fail e
  | .check place s v, out => do
    let _ ← ((bindInto s v []).mapError (place.blame value)).holding [.object out]
    return out
  | .bind place s v, out => (bindInto s v out).mapError (place.blame value)
  | .keep name v, out => return Entries.insert out name v
  | .ask c, out => do
    (checkCondition (some c) value).holding [.object out]
    return out

/-- Steps one after another. -/
def runSteps (value : Value) : List Step → Bindings → Job Bindings
  | [], out => return out
  | step :: rest, out => do runSteps value rest (← step.run value out)

/-- Positions are counted from `first` on. -/
def elementChecks (s : Schema) (es : List Value) (first : Nat) : List Step :=
  (es.zipIdx first).map fun x => .check (.element x.2) s x.1

def propertyChecks (s : Schema) (ps : Entries Value) : List Step :=
  ps.map fun p => .check (.property p.1) s p.2

def typeSteps (test : TypeTest) (value : Value) : List Step :=
  if test.accepts value then [] else [.refuse (Mismatch.notOfType value test.name)]

def elementSteps : Option Schema → Value → List Step
  | none, _ => []
  | some s, .array es => elementChecks s es 1
  | some _, value => [.refuse (Mismatch.notOfType value "array")]

/-- The entries of a tuple from a position on, with the elements from there on. -/
def tupleSteps : List ShapeEntry → Value → Value → Nat → List Value → List Step
  | [], _, _, _, _ => []
  | .rest s name :: later, src, _, i, es =>
    if later.isEmpty then
      elementChecks s es i ++ name.toList.map fun name => .keep name (.array es)
    else [.refuse (Mismatch.invalidSchema src)]
  | .required s :: later, src, value, i, es =>
    match es with
    | element :: es => .bind (.element i) s element :: tupleSteps later src value (i + 1) es
    | [] => [.refuse (Mismatch.missingElement value i)]
  | .optional s default :: later, src, value, i, es =>
    .bind (.element i) s (es.headD default)
      :: tupleSteps later src value (i + 1) es.tail

/-- The entries of a record, apart from its rest. -/
def recordSteps : List (String × ShapeEntry) → Value → Value → Entries Value → Bool → List Step
  | [], _, _, _, _ => []
  | (_, .rest _ _) :: later, src, value, ps, restSeen =>
    if restSeen then [.refuse (Mismatch.invalidSchema src)]
    else recordSteps later src value ps true
  | (key, .required s) :: later, src, value, ps, restSeen =>
    match Entries.get? ps key with
    | some property => .bind (.property key) s property :: recordSteps later src value ps restSeen
    | none => [.refuse (Mismatch.missingProperty value key)]
  | (key, .optional s default) :: later, src, value, ps, restSeen =>
    .bind (.property key) s ((Entries.get? ps key).getD default)
      :: recordSteps later src value ps restSeen

/-- The properties under keys that the shape does not mention, for the rest of a record. -/
def leftover (mentioned : List String) (ps : Entries Value) : Entries Value :=
  ps.filter fun (key, _) => !mentioned.contains key

def restSteps : List (String × ShapeEntry) → List String → Entries Value → List Step
  | [], _, _ => []
  | (_, .rest s name) :: _, mentioned, ps =>
    propertyChecks s (leftover mentioned ps)
      ++ name.toList.map fun name => .keep name (.object (leftover mentioned ps))
  | (_, .required _) :: later, mentioned, ps
  | (_, .optional _ _) :: later, mentioned, ps => restSteps later mentioned ps

def shapeSteps : Shape → Value → Value → List Step
  | .absent, _, _ => []
  | .malformed, src, _ => [.refuse (Mismatch.invalidSchema src)]
  | .tuple xs, src, .array es => tupleSteps xs src (.array es) 1 es
  | .tuple _, _, value => [.refuse (Mismatch.notOfType value "array")]
  | .record xs, src, .object ps =>
    recordSteps xs src (.object ps) ps false
      ++ restSteps xs (Entries.keys xs) ps
  | .record _, _, value => [.refuse (Mismatch.notOfType value "object")]

/-- Conditions on keys and values are for objects only. -/
def objectSteps (needed : Bool) (value : Value) : List Step :=
  if needed && value.kind != .object then [.refuse (Mismatch.notOfType value "object")] else []

def keySteps : Option Schema → Value → List Step
  | some s, .object ps => ps.map fun p => .check (.key p.1) s (.string p.1)
  | _, _ => []

def valueSteps : Option Schema → Value → List Step
  | some s, .object ps => propertyChecks s ps
  | _, _ => []

/-- **What a match of a value with a schema does**, if the schema is typed. -/
def steps : Schema → Value → List Step
  | .typed src test es shape keys values c, value =>
    typeSteps test value ++ (elementSteps es value ++ (shapeSteps shape src value
      ++ (objectSteps (keys.isSome || values.isSome) value ++ (keySteps keys value
        ++ (valueSteps values value ++ c.toList.map .ask)))))
  | _, _ => []

/-! ## Where steps come from -/

/-- Only the last entry of a tuple is a rest. -/
def RestLast : List ShapeEntry → Prop
  | [] => True
  | .rest _ _ :: later => later = []
  | .required _ :: later | .optional _ _ :: later => RestLast later

/-- At most one entry of a record is a rest, and none if one has been seen before. -/
def OneRest : Bool → List (String × ShapeEntry) → Prop
  | _, [] => True
  | seen, (_, .rest _ _) :: later => seen = false ∧ OneRest true later
  | seen, _ :: later => OneRest seen later

end Schema

/-- The rest of a shape stands where it may. -/
def Shape.Placed : Shape → Prop
  | .absent => True
  | .tuple es => Schema.RestLast es
  | .record es => Schema.OneRest false es
  | .malformed => False

/-- The schema of an entry. -/
def ShapeEntry.schema : ShapeEntry → Schema
  | .required s | .optional s _ | .rest s _ => s

namespace Schema

/-- **A schema that stands in another**: for what is at a place of the value, or, in a binding and
in an alternative, for the value itself. -/
inductive Holds : Schema → Option Place → Schema → Prop where
  | bind (inner name) : Holds (.bind inner name) none inner
  | branch {branches s} (h : s ∈ branches) :
      Holds (.either branches) none s
  | element {src test s keys values shape condition} (position) :
      Holds (.typed src test (some s) shape keys values condition) (some (.element position)) s
  | entry {src test elements keys values entries condition entry}
      (h : entry ∈ entries) (position) :
      Holds (.typed src test elements (.tuple entries) keys values condition)
        (some (.element position)) entry.schema
  | property {src test elements keys values entries condition pair}
      (h : pair ∈ entries) (key) :
      Holds (.typed src test elements (.record entries) keys values condition)
        (some (.property key)) pair.2.schema
  | key {src test s elements values shape condition} (key) :
      Holds (.typed src test elements shape (some s) values condition) (some (.key key)) s
  | value {src test s elements keys shape condition} (key) :
      Holds (.typed src test elements shape keys (some s) condition) (some (.property key)) s

/-- **A schema inside another**, at any depth, with the places on the way. -/
inductive Inside : Schema → List Place → Schema → Prop where
  | here (s : Schema) : Inside s [] s
  | step {s t u place places} (h : s.Holds place t)
      (ht : Inside t places u) : Inside s (place.toList ++ places) u

/-- **The conditions of a schema**: those of the typed schemas inside it. -/
def HasCondition (s : Schema) (c : Value) : Prop :=
  ∃ places src test elements shape keys values,
    s.Inside places (.typed src test elements shape keys values (some c))

lemma HasCondition.of_holds {s t : Schema} {place c} (h : t.Holds place s)
    (hc : s.HasCondition c) : t.HasCondition c := by
  obtain ⟨places, src, test, elements, shape, keys, values, hin⟩ := hc
  exact ⟨_, src, test, elements, shape, keys, values, .step h hin⟩

lemma HasCondition.cases {t : Schema} {c} (hc : t.HasCondition c) :
    (∃ src test elements shape keys values, t = .typed src test elements shape keys values
      (some c)) ∨
      ∃ place s, t.Holds place s ∧ s.HasCondition c := by
  obtain ⟨places, src, test, elements, shape, keys, values, hin⟩ := hc
  cases hin with
  | here => exact .inl ⟨src, test, elements, shape, keys, values, rfl⟩
  | step h ht => exact .inr ⟨_, _, h, _, src, test, elements, shape, keys, values, ht⟩

lemma not_hasCondition_type (test c) : ¬(Schema.type test).HasCondition c := by
  intro hc
  rcases hc.cases with ⟨_, _, _, _, _, _, h⟩ | ⟨_, _, h, -⟩ <;> cases h

variable {s : Schema} {src value : Value} {ps : Entries Value}

lemma Holds.sizeOf_lt {t : Schema} {place} (h : t.Holds place s) :
    sizeOf s < sizeOf t := by
  cases h with
  | bind | element | key | value => simp; omega
  | branch h =>
    have := List.sizeOf_lt_of_mem h
    simp; omega
  | @entry _ _ _ _ _ _ _ entry h =>
    have := List.sizeOf_lt_of_mem h
    have : sizeOf entry.schema < sizeOf entry := by
      cases entry <;> simp [ShapeEntry.schema] <;> omega
    simp; omega
  | @property _ _ _ _ _ _ _ pair h =>
    have := List.sizeOf_lt_of_mem h
    obtain ⟨key, entry⟩ := pair
    have : sizeOf entry.schema < sizeOf entry := by
      cases entry <;> simp [ShapeEntry.schema] <;> omega
    simp at *; omega

/-- Induction over the schemas that stand in a schema. -/
lemma Holds.induction {motive : Schema → Prop}
    (step : ∀ t, (∀ place s, t.Holds place s → motive s) → motive t) (t : Schema) : motive t :=
  (measure sizeOf).wf.induction t fun t ih => step t fun _ s h => ih s h.sizeOf_lt

/-- The shape of a typed schema. -/
def shape : Schema → Shape
  | .typed _ _ _ shape .. => shape
  | _ => .absent

/-- The mismatch of a value that has nothing at the place. -/
def Place.missing (value : Value) : Place → ErrorValue
  | .element position => Mismatch.missingElement value position
  | .property name | .key name => Mismatch.missingProperty value name

end Schema

/-- **What is at a place of a value.** Elements are counted from one. -/
def Value.HasAt (value : Value) : Schema.Place → Value → Prop
  | .element 0, _ => False
  | .element (i + 1), v => ∃ es, value = .array es ∧ es[i]? = some v
  | .property key, v => ∃ ps, value = .object ps ∧ (key, v) ∈ ps
  | .key key, v => ∃ ps, value = .object ps ∧ key ∈ Entries.keys ps ∧ v = .string key

/-- The entry of a shape for what is at a place. -/
def Shape.EntryAt : Shape → Schema.Place → ShapeEntry → Prop
  | .tuple entries, .element (i + 1), entry => entries[i]? = some entry
  | .record entries, .property key, entry => (key, entry) ∈ entries
  | _, _, _ => False

namespace Schema

variable {s t : Schema} {src value : Value} {ps : Entries Value}

/-- **What a typed schema asks for**: mismatches of the value, matches with the schemas that stand
in it, and its condition. What is matched is a part of the value, or a default. The schema is broken
if the rest of its shape is out of place. -/
inductive Step.Of (t : Schema) (value : Value) : Step → Prop where
  | wrongType (test : TypeTest) (h : test.accepts value = false) :
      Of t value (.refuse (Mismatch.notOfType value test.name))
  | missing {place : Place} {s : Schema} (hentry : t.shape.EntryAt place (.required s))
      (h : ∀ v, ¬value.HasAt place v) : Of t value (.refuse (place.missing value))
  | broken {src : Value} {test : TypeTest} {elements keys values : Option Schema} {shape : Shape}
      {condition : Option Value} (ht : t = .typed src test elements shape keys values condition)
      (h : ¬shape.Placed) : Of t value (.refuse (Mismatch.invalidSchema src))
  | check {place : Place} {s : Schema} (h : t.Holds (some place) s) (v)
      (hv : value.HasAt place v) : Of t value (.check place s v)
  | bind {place : Place} {s : Schema} (h : t.Holds (some place) s) (v)
      (hv : value.HasAt place v ∨ t.shape.EntryAt place (.optional s v)) :
        Of t value (.bind place s v)
  | keep (name v) : Of t value (.keep name v)
  | ask {src : Value} {test : TypeTest} {elements keys values : Option Schema} {shape c}
      (ht : t = .typed src test elements shape keys values (some c)) :
      Of t value (.ask c)

section Of

open List

lemma of_elementChecks (h : ∀ i, t.Holds (some (.element i)) s) (es : List Value) (k) :
    ∀ step ∈ elementChecks s (es.drop k) (k + 1), step.Of t (.array es) := by
  refine forall_mem_map.mpr fun x hx => ?_
  obtain ⟨hle, hget⟩ := mk_mem_zipIdx_iff_le_and_getElem?_sub.mp hx
  rw [getElem?_drop] at hget
  obtain ⟨i, hi⟩ : ∃ i, x.2 = i + 1 := ⟨x.2 - 1, by omega⟩
  have hp : (Value.array es).HasAt (.element x.2) x.1 := by
    rw [hi] at hget ⊢
    exact ⟨es, rfl, by rwa [show k + (i + 1 - (k + 1)) = i by omega] at hget⟩
  exact .check (h x.2) x.1 hp

lemma of_propertyChecks (h : ∀ key, t.Holds (some (.property key)) s) {qs}
    (hqs : ∀ p ∈ qs, p ∈ ps) : ∀ step ∈ propertyChecks s qs, step.Of t (.object ps) :=
  forall_mem_map.mpr fun p hp => .check (h p.1) p.2 ⟨ps, rfl, hqs p hp⟩

lemma of_keep (name : Option String) (v) :
    ∀ step ∈ name.toList.map (Step.keep · v), step.Of t value :=
  forall_mem_map.mpr fun name _ => .keep name v

/-- The entries of a tuple from a place on, with the elements from there on. -/
lemma of_tupleSteps {all} (hshape : t.shape = .tuple all)
    (hold : ∀ entry ∈ all, ∀ i, t.Holds (some (.element i)) entry.schema) (es : List Value) :
    ∀ xs k, all.drop k = xs →
    (¬RestLast xs → Step.Of t (.array es) (.refuse (Mismatch.invalidSchema src))) →
    ∀ step ∈ tupleSteps xs src (.array es) (k + 1) (es.drop k), step.Of t (.array es)
  | [], _, _, _ => forall_mem_nil _
  | entry :: later, k, hxs, hbroken => by
    have hget : all[k]? = some entry := by
      rw [← head?_drop, hxs]
      rfl
    have hlater : all.drop (k + 1) = later := by
      rw [← tail_drop, hxs]
      rfl
    have he : t.shape.EntryAt (.element (k + 1)) entry := hshape ▸ hget
    have hs := hold entry (mem_of_getElem? hget)
    have hhead : (es.drop k).head? = es[k]? := head?_drop
    have htail : (es.drop k).tail = es.drop (k + 1) := tail_drop
    cases entry with
    | rest s name =>
      rw [tupleSteps]
      split
      · exact forall_mem_append.mpr ⟨of_elementChecks hs es k, of_keep name _⟩
      · next hne => exact forall_mem_singleton.mpr (hbroken fun hl => hne (isEmpty_iff.mpr hl))
    | required s =>
      cases hes : es.drop k with
      | nil =>
        rw [hes] at hhead
        refine forall_mem_singleton.mpr (.missing he ?_)
        rintro v ⟨_, heq, hv⟩
        cases heq
        cases hhead.trans hv
      | cons v rest =>
        rw [hes] at hhead htail
        refine forall_mem_cons.mpr ⟨.bind (hs _) v (.inl ⟨es, rfl, hhead.symm⟩), ?_⟩
        rw [show rest = _ from htail]
        exact of_tupleSteps hshape hold es later (k + 1) hlater hbroken
    | optional s default =>
      rw [tupleSteps, htail]
      refine forall_mem_cons.mpr
        ⟨.bind (hs _) _ ?_, of_tupleSteps hshape hold es later (k + 1) hlater hbroken⟩
      cases hes : es.drop k with
      | nil => exact .inr he
      | cons v rest =>
        rw [hes] at hhead
        exact .inl ⟨es, rfl, hhead.symm⟩

lemma of_recordSteps {all} (hshape : t.shape = .record all)
    (hold : ∀ pair ∈ all, ∀ key, t.Holds (some (.property key)) pair.2.schema) :
    ∀ es restSeen, (∀ pair ∈ es, pair ∈ all) →
    (¬OneRest restSeen es → Step.Of t (.object ps) (.refuse (Mismatch.invalidSchema src))) →
    ∀ step ∈ recordSteps es src (.object ps) ps restSeen, step.Of t (.object ps)
  | [], _, _, _ => forall_mem_nil _
  | (_, .rest _ _) :: later, true, _, hbroken =>
    forall_mem_singleton.mpr (hbroken fun hone => nomatch hone.1)
  | (_, .rest _ _) :: later, false, h, hbroken =>
    of_recordSteps hshape hold later true (forall_mem_cons.mp h).2
      fun hone => hbroken fun hone' => hone hone'.2
  | (key, .required s) :: later, restSeen, h, hbroken => by
    obtain ⟨hmem, hlater⟩ := forall_mem_cons.mp h
    have he : t.shape.EntryAt (.property key) (.required s) := hshape ▸ hmem
    rw [recordSteps]
    split
    · next v hget =>
      exact forall_mem_cons.mpr ⟨.bind (hold _ hmem key) v
        (.inl ⟨ps, rfl, Entries.mem_of_get? hget⟩),
          of_recordSteps hshape hold later restSeen hlater hbroken⟩
    · next hget =>
      refine forall_mem_singleton.mpr (.missing he ?_)
      rintro v ⟨_, heq, hv⟩
      cases heq
      have hf := Entries.contains_iff_mem_keys.mpr (mem_map_of_mem hv)
      rw [Entries.contains, hget] at hf
      cases hf
  | (key, .optional s default) :: later, restSeen, h, hbroken => by
    obtain ⟨hmem, hlater⟩ := forall_mem_cons.mp h
    have he : t.shape.EntryAt (.property key) (.optional s default) := hshape ▸ hmem
    refine forall_mem_cons.mpr
      ⟨.bind (hold _ hmem key) _ ?_, of_recordSteps hshape hold later restSeen hlater hbroken⟩
    cases hget : Entries.get? ps key with
    | none => exact .inr he
    | some v => exact .inl ⟨ps, rfl, Entries.mem_of_get? hget⟩

lemma of_restSteps {mentioned} :
    ∀ es : List (String × ShapeEntry),
    (∀ pair ∈ es, ∀ key, t.Holds (some (.property key)) pair.2.schema) →
    ∀ step ∈ restSteps es mentioned ps, step.Of t (.object ps)
  | [], _ => forall_mem_nil _
  | (_, .rest _ name) :: _, h => forall_mem_append.mpr
    ⟨of_propertyChecks (h _ mem_cons_self) fun _ hp => (mem_filter.mp hp).1, of_keep name _⟩
  | (_, .required _) :: later, h | (_, .optional _ _) :: later, h =>
    of_restSteps later (forall_mem_cons.mp h).2

/-- **Every step of a match comes from the schema and the value.** -/
theorem of_steps (t : Schema) (value) : ∀ step ∈ t.steps value, step.Of t value := by
  cases t with
  | typed src test es shape keys values cond =>
    have hother : ∀ {kind}, value.kind ≠ kind → (TypeTest.exactly kind).accepts value = false :=
      fun hne => beq_eq_false_iff_ne.mpr hne
    rw [steps]
    simp only [forall_mem_append]
    refine ⟨?_, ?_, ?_, ?_, ?_, ?_, ?_⟩
    · unfold typeSteps
      split
      · exact forall_mem_nil _
      · next h => exact forall_mem_singleton.mpr (.wrongType test (Bool.eq_false_iff.mpr h))
    · cases es with
      | none => exact forall_mem_nil _
      | some s =>
        cases value with
        | array es => exact of_elementChecks .element es 0
        | _ => exact forall_mem_singleton.mpr (.wrongType (.exactly .array) rfl)
    · cases shape with
      | absent => exact forall_mem_nil _
      | malformed => exact forall_mem_singleton.mpr (.broken rfl id)
      | tuple entries =>
        cases value with
        | array es =>
          exact of_tupleSteps rfl (fun _ => .entry) es entries 0 rfl fun h => .broken rfl h
        | _ => exact forall_mem_singleton.mpr (.wrongType (.exactly .array) rfl)
      | record entries =>
        cases value with
        | object ps =>
          exact forall_mem_append.mpr ⟨of_recordSteps rfl (fun _ => .property) entries false
            (fun _ => id) fun h => .broken rfl h, of_restSteps _ fun _ => .property⟩
        | _ => exact forall_mem_singleton.mpr (.wrongType (.exactly .object) rfl)
    · unfold objectSteps
      split
      · next h =>
        exact forall_mem_singleton.mpr
          (.wrongType (.exactly .object) (hother (by simp at h; exact h.2)))
      · exact forall_mem_nil _
    · unfold keySteps
      split
      · exact forall_mem_map.mpr fun p hp => .check (.key p.1) _ ⟨_, rfl, mem_map_of_mem hp, rfl⟩
      · exact forall_mem_nil _
    · unfold valueSteps
      split
      · exact of_propertyChecks .value fun _ => id
      · exact forall_mem_nil _
    · cases cond with
      | none => exact forall_mem_nil _
      | some c => exact forall_mem_singleton.mpr (.ask rfl)
  | _ => exact forall_mem_nil _

end Of

/-! ## A match carries out its steps -/

lemma runSteps_append (value) : ∀ steps more out,
    runSteps value (steps ++ more) out = runSteps value steps out >>= runSteps value more
  | [], _, _ => rfl
  | step :: rest, more, out => by
    show (step.run value out >>= runSteps value (rest ++ more)) = _
    rw [funext (runSteps_append value rest more)]
    exact (Job.bind_bind _ _ _).symm

lemma runSteps_checks {γ : Type} (value : Value) (s : Schema) (place : γ → Place) (v : γ → Value)
    (out : Bindings) : ∀ items : List γ,
    runSteps value (items.map fun x => .check (place x) s (v x)) out = (do
      (items.forM fun x =>
        within (bindInto s (v x) []) ((place x).blame value)).holding [.object out]
      return out)
  | [] => rfl
  | x :: items => by
    have hforM : ((x :: items).forM fun x => within (bindInto s (v x) []) ((place x).blame value))
        = within (bindInto s (v x) []) ((place x).blame value) >>= fun _ =>
          items.forM fun x => within (bindInto s (v x) []) ((place x).blame value) := rfl
    rw [List.map_cons, runSteps, Step.run, hforM, within, Job.holding_bind, Job.holding_bind,
      Job.bind_bind, Job.bind_bind, Job.bind_bind]
    exact congrArg _ (funext fun _ => runSteps_checks value s place v out items)

lemma runSteps_elements (value s) (es : List Value) (first out) :
    runSteps value (elementChecks s es first) out = (do
      ((es.zipIdx first).forM fun x => within (bindInto s x.1 [])
        (Mismatch.badElement value x.2)).holding [.object out]
      return out) :=
  runSteps_checks value s (fun x : Value × Nat => .element x.2) (·.1) out _

lemma runSteps_properties (value s) (ps : Entries Value)
    (out) : runSteps value (propertyChecks s ps) out = (do
      (ps.forM fun p => within (bindInto s p.2 [])
        (Mismatch.badProperty value p.1)).holding [.object out]
      return out) :=
  runSteps_checks value s (fun p : String × Value => .property p.1) (·.2) out _

lemma bindTuple_eq (src value) : ∀ xs i es out, bindTuple xs src value i es out
      = runSteps value (tupleSteps xs src value i es) out
  | [], _, _, _ => by rw [bindTuple, tupleSteps]; rfl
  | .rest s name :: later, i, es, out => by
    rw [bindTuple.eq_def, tupleSteps]
    dsimp only
    split
    · rw [runSteps_append, runSteps_elements, Job.bind_bind]
      refine congrArg _ (funext fun _ => ?_)
      cases name <;> rfl
    · rfl
  | .required s :: later, i, [], out => by rw [bindTuple, tupleSteps]; rfl
  | .required s :: later, i, element :: es, out => by
    rw [bindTuple, tupleSteps, funext (bindTuple_eq src value later (i + 1) es)]
    rfl
  | .optional s default :: later, i, es, out => by
    rw [bindTuple, tupleSteps, funext (bindTuple_eq src value later (i + 1) es.tail)]
    rfl

lemma bindRecord_eq (src value ps) :
    ∀ es restSeen out,
    bindRecord es src value ps restSeen out
      = runSteps value (recordSteps es src value ps restSeen) out
  | [], _, _ => by rw [bindRecord, recordSteps]; rfl
  | (_, .rest _ _) :: later, restSeen, out => by
    rw [bindRecord, recordSteps]
    split
    · rfl
    · exact bindRecord_eq src value ps later true out
  | (key, .required s) :: later, restSeen, out => by
    rw [bindRecord.eq_def, recordSteps]
    dsimp only
    cases Entries.get? ps key with
    | none => rfl
    | some property =>
      dsimp only
      rw [funext (bindRecord_eq src value ps later restSeen)]
      rfl
  | (key, .optional s default) :: later, restSeen, out => by
    rw [bindRecord, recordSteps, funext (bindRecord_eq src value ps later restSeen)]
    rfl

lemma bindRecordRest_eq (mentioned value ps out) : ∀ es : List (String × ShapeEntry),
    bindRecordRest es mentioned value ps out
      = runSteps value (restSteps es mentioned ps) out
  | [] => by rw [bindRecordRest, restSteps]; rfl
  | (_, .rest s name) :: _ => by
    rw [bindRecordRest.eq_def, restSteps, runSteps_append, runSteps_properties, Job.bind_bind]
    refine congrArg (Job.holding [.object out] _ >>= ·) (funext fun _ => ?_)
    cases name <;> rfl
  | (_, .required _) :: later | (_, .optional _ _) :: later => by
    rw [bindRecordRest, restSteps]
    exact bindRecordRest_eq mentioned value ps out later

lemma bindShape_eq (shape src value out) :
    bindShape shape src value out = runSteps value (shapeSteps shape src value) out := by
  cases shape with
  | absent => rw [bindShape]; rfl
  | malformed => rw [bindShape]; rfl
  | tuple xs =>
    rw [bindShape.eq_def]
    cases value with
    | array es => exact bindTuple_eq src _ xs 1 es out
    | _ => rfl
  | record xs =>
    rw [bindShape.eq_def]
    cases value with
    | object ps =>
      show (bindRecord xs src _ ps false out >>= fun out => _) = _
      rw [bindRecord_eq, funext fun out => bindRecordRest_eq _ _ ps out xs]
      exact (runSteps_append ..).symm
    | _ => rfl

/-- A part of a match that binds nothing, as steps. -/
def Checks (value : Value) (j : Job Unit) (steps : List Step) : Prop :=
  ∀ out, runSteps value steps out = (do j.holding [.object out]; return out)

lemma Checks.append {j k steps more}
    (h : Checks value j steps) (h' : Checks value k more) :
    Checks value (do j; k) (steps ++ more) := by
  intro out
  rw [runSteps_append, h, Job.holding_bind, Job.bind_bind, Job.bind_bind]
  exact congrArg _ (funext fun _ => h' out)

lemma checks_type (test : TypeTest) (value : Value) :
    Checks value (checkType test value) (typeSteps test value) := by
  intro out
  rw [checkType, typeSteps]
  split <;> rfl

lemma checks_object (needed : Bool) (value : Value) :
    Checks value (checkObject needed value) (objectSteps needed value) := by
  intro out
  cases needed with
  | false => rfl
  | true => cases value <;> rfl

lemma checks_elements (es : Option Schema) (value : Value) :
    Checks value (checkElements es value) (elementSteps es value) := by
  intro out
  rw [checkElements.eq_def]
  cases es with
  | none => rfl
  | some s =>
    cases value with
    | array es => exact runSteps_elements _ s es 1 out
    | _ => rfl

lemma checks_keys (keys : Option Schema) (value : Value) :
    Checks value (checkKeys keys value) (keySteps keys value) := by
  intro out
  rw [checkKeys.eq_def]
  cases keys with
  | none => rfl
  | some s =>
    cases value with
    | object ps =>
      exact runSteps_checks _ s (fun p : String × Value => .key p.1) (.string ·.1) out _
    | _ => rfl

lemma checks_values (values : Option Schema) (value : Value) :
    Checks value (checkValues values value) (valueSteps values value) := by
  intro out
  rw [checkValues.eq_def]
  cases values with
  | none => rfl
  | some s =>
    cases value with
    | object ps => exact runSteps_properties _ s ps out
    | _ => rfl

lemma checks_condition (cond : Option Value) (value : Value) :
    Checks value (checkCondition cond value) (cond.toList.map .ask) := by
  intro out
  cases cond with
  | none => rfl
  | some c => exact Job.bind_done _

/-- **A match with a typed schema carries out its steps.** -/
theorem bindInto_typed (src : Value) (test : TypeTest) (es : Option Schema) (shape : Shape)
    (keys values : Option Schema) (c : Option Value) (value : Value) (out : Bindings) :
    bindInto (.typed src test es shape keys values c) value out
      = runSteps value (steps (.typed src test es shape keys values c) value) out := by
  have htype : (checkType test value).holding [.object out] = checkType test value := by
    unfold checkType
    split <;> rfl
  have hin := (checks_object (keys.isSome || values.isSome) value).append
    ((checks_keys keys value).append ((checks_values values value).append
      (checks_condition c value)))
  rw [bindInto, steps, runSteps_append, checks_type, Job.bind_bind, htype]
  refine congrArg _ (funext fun _ => ?_)
  show _ = runSteps value _ out
  rw [runSteps_append, checks_elements, Job.bind_bind]
  refine congrArg _ (funext fun _ => ?_)
  show _ = runSteps value _ out
  rw [runSteps_append, bindShape_eq]
  exact congrArg _ (funext fun out => (hin out).symm)

/-- **What holds of every step of a typed schema holds of the match.** -/
theorem typed_of_steps {J : Job Bindings → Prop} {test : TypeTest}
    {es : Option Schema} {shape : Shape} {keys values : Option Schema} {c : Option Value}
    (hdone : ∀ out, J (pure out))
    (hbind : ∀ {j : Job Bindings} {f : Bindings → Job Bindings}, J j → (∀ out, J (f out)) →
      J (j >>= f))
    (hstep : ∀ {step : Step} (out),
      step.Of (.typed src test es shape keys values c) value → J (step.run value out))
    (out) :
    J (bindInto (.typed src test es shape keys values c) value out) := by
  have hrun : ∀ steps out,
      (∀ step ∈ steps, step.Of (.typed src test es shape keys values c) value) →
      J (runSteps value steps out) := by
    intro steps
    induction steps with
    | nil => exact fun out _ => hdone out
    | cons step rest ih =>
      intro out h
      obtain ⟨hf, hr⟩ := List.forall_mem_cons.mp h
      exact hbind (hstep out hf) fun out => ih out hr
  rw [bindInto_typed]
  exact hrun _ out (of_steps _ value)

end Schema

end TreeCode
