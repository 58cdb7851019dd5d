import TreeCode.Proofs.Alternatives

/-!
# What a record leaves over

The rest of a record takes the properties under the keys that the shape does not mention. If the
match succeeds, the name of the rest is bound to them, in the order of the value, and each of them
matches the schema of the rest (`Schema.rest_collects_unmentioned`).

The key under which the rest itself stands is one that the shape mentions. A property of the value
under that key is described by no entry and is not collected either (`Schema.rest_hides_its_key`).
-/

namespace TreeCode

variable {σ : Type} {runtime : Runtime σ} {state : σ}

namespace Job

variable {α β : Type} {j : Job α}

lemma runOn_bind_ok {f : α → Job β} {b} (h : ((j >>= f).runOn runtime state).1 = .ok b) :
    ∃ a, (j.runOn runtime state).1 = .ok a ∧
      ((f a).runOn runtime (j.runOn runtime state).2).1 = .ok b := by
  cases hj : (j.runOn runtime state).1 with
  | ok a => exact ⟨a, rfl, runOn_bind_of_ok hj ▸ h⟩
  | error e =>
    rw [runOn_bind_of_error hj] at h
    cases h

lemma runOn_mapError_ok {f a}
    (h : ((j.mapError f).runOn runtime state).1 = .ok a) : (j.runOn runtime state).1 = .ok a := by
  rw [mapError, runOn_andThen] at h
  cases hj : (j.runOn runtime state).1 with
  | ok a' => rwa [hj] at h
  | error e =>
    rw [hj] at h
    cases h

end Job

namespace Schema

variable {s : Schema} {src value : Value} {properties : Entries Value} {key : String}
  {name : Option String}

/-- If checks succeed, each of them has succeeded in some state. -/
lemma matched_of_checks {out b : Bindings} :
    ∀ {properties : Entries Value} {state},
    ((runSteps value (propertyChecks s properties) out).runOn runtime state).1 = .ok b →
    ∀ p ∈ properties, ∃ state' b', ((bindInto s p.2 []).runOn runtime state').1 = .ok b'
  | [], _, _ => List.forall_mem_nil _
  | p :: properties, state, h => by
    obtain ⟨mid, hf, hr⟩ := Job.runOn_bind_ok h
    obtain ⟨b', hmatch, hmid⟩ := Job.runOn_bind_ok hf
    rw [Job.runOn_holding] at hmatch
    cases hmid
    exact List.forall_mem_cons.mpr ⟨⟨state, b', Job.runOn_mapError_ok hmatch⟩, matched_of_checks hr⟩

/-- Where one rest has been seen and nothing is refused, there is no other. -/
lemma rest_not_mem : ∀ es : List (String × ShapeEntry),
    (∀ e, .refuse e ∉ recordSteps es src value properties true) → (key, .rest s name) ∉ es
  | [], _ => List.not_mem_nil
  | (_, .rest _ _) :: _, h => absurd List.mem_cons_self (h _)
  | (other, .required _) :: later, h => by
    rw [recordSteps] at h
    split at h
    · simpa using rest_not_mem later fun e he => h e (.tail _ he)
    · exact absurd List.mem_cons_self (h _)
  | (_, .optional _ _) :: later, h => by simpa using rest_not_mem later fun e he => h e (.tail _ he)

/-- **The steps of the rest of a record**, wherever it stands. -/
theorem restSteps_of_mem {mentioned} : ∀ es : List (String × ShapeEntry),
    (∀ e, .refuse e ∉ recordSteps es src value properties false) → (key, .rest s name) ∈ es →
    restSteps es mentioned properties = propertyChecks s (leftover mentioned properties)
      ++ name.toList.map fun name => .keep name (.object (leftover mentioned properties))
  | (_, .rest _ _) :: later, h, hmem => by
    rcases List.mem_cons.mp hmem with hmem | hmem
    · cases hmem
      rfl
    · exact absurd hmem (rest_not_mem later h)
  | (other, .required _) :: later, h, hmem => by
    rw [recordSteps] at h
    split at h
    · exact restSteps_of_mem later (fun e he => h e (.tail _ he)) (by simpa using hmem)
    · exact absurd List.mem_cons_self (h _)
  | (_, .optional _ _) :: later, h, hmem =>
    restSteps_of_mem later (fun e he => h e (.tail _ he)) (by simpa using hmem)

/-- **The rest of a record collects what the shape does not mention**: all of it, in order, and each
property matches the schema of the rest. -/
theorem rest_collects_unmentioned {fields shape properties : Entries Value} {type key name : String}
    {test : TypeTest} {entry schema : Value} (htype : Decisive fields "type" (.string type))
    (htest : TypeTest.ofName? type = some test)
    (hshape : Entries.get? fields "shape" = some (.object shape)) (hentry : (key, entry) ∈ shape)
    (hrest : entry.get? "rest" = some schema) (has : entry.get? "as" = some (.string name))
    (runtime : Runtime σ) (state : σ) {bindings : Bindings}
    (h : matched runtime state (.object properties) (.object fields) = .ok bindings) :
    Entries.get? bindings name
      = some (.object (properties.filter fun p => p.1 ∉ Entries.keys shape)) ∧
    ∀ p ∈ properties, p.1 ∉ Entries.keys shape →
      ∃ state' b, matched runtime state' p.2 schema = .ok b := by
  have hmem : (key, .rest (ofValue schema) (some name)) ∈ recordOf shape := by
    rw [recordOf_eq_map]
    refine List.mem_map.mpr ⟨_, hentry, ?_⟩
    simp only [entryOf_eq_match, hrest, has]
    rfl
  have hleft : leftover (Entries.keys (recordOf shape)) properties
      = properties.filter fun p => p.1 ∉ Entries.keys shape := by
    rw [leftover, keys_recordOf]
    exact List.filter_congr fun p _ => by simp
  rw [matched, bindValue, ofValue_typed htype htest, bindInto, shapeOf_eq, hshape] at h
  obtain ⟨_, -, h⟩ := Job.runOn_bind_ok h
  obtain ⟨_, -, h⟩ := Job.runOn_bind_ok h
  obtain ⟨_, hbound, h⟩ := Job.runOn_bind_ok h
  obtain ⟨_, -, h⟩ := Job.runOn_bind_ok h
  cases h
  rw [bindShape_eq] at hbound
  -- A match that succeeds has refused nothing, so the rest is the only one.
  have hno :=
    ((runSteps_adds (t := .typed (.object fields) test none (.record (recordOf shape)) none
    none none) (fun _ s _ => bindInto_adds s) _ [] fun step hstep =>
      of_steps _ _ step (by simp [steps, hstep])).of_runOn runtime hbound).1
  rw [shapeSteps, runSteps_append] at hbound
  obtain ⟨_, -, hbound⟩ := Job.runOn_bind_ok hbound
  rw [restSteps_of_mem _ (fun e he => hno e (List.mem_append_left _ he)) hmem, hleft,
    runSteps_append] at hbound
  obtain ⟨_, hchecks, hkeep⟩ := Job.runOn_bind_ok hbound
  cases hkeep
  refine ⟨Entries.get?_insert_self .., fun p hp hp' => ?_⟩
  exact matched_of_checks hchecks p (List.mem_filter.mpr ⟨hp, by simpa using hp'⟩)

/-! ### A property under the key of the rest -/

/-- Anything goes, and all of it is collected. -/
def gathering : Value :=
  .object [("type", .string "object"),
    ("shape", .object [("others", .object [("rest", .string "any"), ("as", .string "others")])])]

lemma ofValue_gathering : ofValue gathering = .typed gathering (.exactly .object) none
    (.record [("others", .rest (.type .any) (some "others"))]) none none none := by
  simp [gathering, ofValue, field, shapeOf, recordOf, entryOf, Value.get?, Value.asObject?,
    Value.asString?, Entries.get?, Entries.contains, TypeTest.ofName?, Kind.ofName?, Kind.all,
      Kind.name]

/-- Two properties are collected. -/
theorem rest_collects_unmentioned_gathering : ∃ bindings,
    matched refusing () (.object [("y", .ofNat 1), ("x", .ofNat 2)]) gathering = .ok bindings
      ∧ Entries.get? bindings "others" = some (.object [("y", .ofNat 1), ("x", .ofNat 2)]) := by
  have hruns : ∃ bindings,
      matched refusing () (.object [("y", .ofNat 1), ("x", .ofNat 2)]) gathering
        = .ok bindings := by
    rw [matched, bindValue, ofValue_gathering]
    exact ⟨_, rfl⟩
  obtain ⟨bindings, h⟩ := hruns
  exact ⟨bindings, h, (rest_collects_unmentioned ⟨rfl, by decide⟩
    (show TypeTest.ofName? "object" = some
      (.exactly .object) by decide) rfl List.mem_cons_self rfl rfl refusing () h).1⟩

/-- **A property is lost**: no entry but the rest stands under its key, and it is not collected. -/
theorem rest_hides_its_key :
    matched refusing () (.object [("others", .ofNat 1), ("x", .ofNat 2)]) gathering
      = .ok [("others", .object [("x", .ofNat 2)])] := by
  rw [matched, bindValue, ofValue_gathering]
  rfl

end Schema

end TreeCode
