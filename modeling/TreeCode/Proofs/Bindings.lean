import Mathlib.Data.List.Forall2
import TreeCode.Proofs.Reentry

/-!
# What a match binds

A match that succeeds binds every name of its schema and no other, whatever the conditions of the
schema answer (`Schema.bindings_are_the_names`).

`Adds out names b` says what a match has done to the bindings `out`. Each function of the match adds
the names that its part of the schema mentions. Alternatives are the one place where names are bound
in another way: a branch that failed has no bindings, and its failure is bound to the names that it
declares.
-/

namespace TreeCode

open Entries List

/-- **A runtime**: it answers the requests of a job, from a state of its own. -/
structure Runtime (σ : Type) where
  respond : (request : Request) → σ → request.Response × σ

namespace Job

variable {α β σ : Type} {Q : α → Prop} {R : β → Prop}

/-- What a job comes to on a runtime, and the state that it leaves. -/
def runOn (rt : Runtime σ) : Job α → σ → Except ErrorValue α × σ
  | .done r, st => (r, st)
  | .ask _ q next, st =>
    let (resp, st) := rt.respond q st
    (next resp).runOn rt st

namespace Yields

/-- Whatever a job yields, it yields on a runtime. -/
lemma of_runOn (rt : Runtime σ) {a} :
    ∀ {j : Job α} {st}, j.Yields Q → (j.runOn rt st).1 = .ok a → Q a
  | .done _, _, hj, h => by
    cases h
    exact hj
  | .ask _ _ _, _, hj, h => of_runOn rt (hj _) h

/-- The continuation may rely on what the job yields. -/
lemma follow {f} (h : ∀ a, Q a → (f a).Yields R) :
    ∀ {j : Job α}, j.Yields Q → (j >>= f).Yields R
  | .done (.ok a), hj => h a hj
  | .done (.error _), _ => trivial
  | .ask _ _ _, hj => fun r => follow h (hj r)

lemma mapError (f) :
    ∀ {j : Job α}, j.Yields Q → (j.mapError f).Yields Q
  | .done (.ok _), hj => hj
  | .done (.error _), _ => trivial
  | .ask _ _ _, hj => fun r => mapError f (hj r)

/-- An attempt yields a result that is as it should be, or an error. -/
lemma attempt : ∀ {j : Job α}, j.Yields Q → j.attempt.Yields fun r => ∀ a, r = .ok a → Q a
  | .done (.ok _), hj => by
    rintro a ⟨⟩
    exact hj
  | .done (.error _), _ => nofun
  | .ask _ _ _, hj => fun resp => attempt (hj resp)

end Yields

end Job

namespace Schema

/-! ## Names -/

variable {name : String}

lemma mem_names {s : Schema} : name ∈ s.names ↔ name ∈ s.mentioned := mem_eraseDups

/-- Erasing duplicates leaves none. -/
lemma nodup_eraseDups (names : List String) : names.eraseDups.Nodup := by
  cases names with
  | nil => simp
  | cons name rest =>
    rw [eraseDups_cons, nodup_cons]
    exact ⟨by simp [mem_eraseDups], nodup_eraseDups _⟩
termination_by names.length
decreasing_by
  -- The tail is filtered before its own duplicates go.
  exact Nat.lt_succ_of_le (length_filter_le _ rest)

/-- **What a match adds to bindings**: the names, and nothing else. Each name stays bound once. -/
structure Adds (out : Bindings) (names : List String) (b : Bindings) : Prop where
  mem : ∀ name, name ∈ keys b ↔ name ∈ keys out ∨ name ∈ names
  nodup : (keys out).Nodup → (keys b).Nodup

lemma adds_nothing (out) : Adds out [] out := ⟨by simp, id⟩

variable {out b : Bindings}

lemma Adds.trans {mid names more} (h : Adds out names mid)
    (h' : Adds mid more b) : Adds out (names ++ more) b where
  mem name := by rw [h'.mem name, h.mem name, mem_append, or_assoc]
  nodup hout := h'.nodup (h.nodup hout)

lemma Adds.insert {names} (h : Adds out names b) (name value) :
    Adds out (names ++ [name]) (insert b name value) where
  mem other := by rw [mem_keys_insert, h.mem other, mem_append, mem_singleton, or_assoc]
  nodup hout := nodup_keys_insert (h.nodup hout) name value

/-! ## Alternatives -/

lemma mem_keys_addMissing {offers} : ∀ {out name},
    name ∈ keys (addMissing out offers) ↔ name ∈ keys out ∨ name ∈ keys offers := by
  induction offers with
  | nil => simp [addMissing, Entries.keys]
  | cons pair rest ih =>
    intro out name
    have hstep : addMissing out (pair :: rest) =
        addMissing (if contains out pair.1 then out
          else insert out pair.1 pair.2) rest := rfl
    have hks : name ∈ keys (pair :: rest) ↔ name = pair.1 ∨ name ∈ keys rest := by
      simp [Entries.keys]
    rw [hstep, ih, hks]
    split
    · next hbound =>
      rw [contains_iff_mem_keys] at hbound
      constructor
      · rintro (h | h)
        · exact .inl h
        · exact .inr (.inr h)
      · rintro (h | rfl | h)
        · exact .inl h
        · exact .inl hbound
        · exact .inr h
    · rw [mem_keys_insert, or_assoc]

lemma nodup_keys_addMissing {offers : Bindings} : ∀ {out : Bindings}, (keys out).Nodup →
    (keys (addMissing out offers)).Nodup := by
  induction offers with
  | nil => exact id
  | cons pair rest ih =>
    intro out hout
    refine ih ?_
    dsimp only
    split
    · exact hout
    · exact nodup_keys_insert hout _ _

/-- What a branch gave is right: it declares the names of its schema, and binds them if it
matched. -/
structure BranchOutcome.Of (s : Schema) (o : BranchOutcome) : Prop where
  names : o.names = s.names
  bound : ∀ b, o.result = .ok b → Adds [] s.mentioned b

/-- Whether it matched or not, a branch offers something for each of its names. -/
lemma BranchOutcome.Of.mem_keys_offers {s : Schema} {o : BranchOutcome} (h : o.Of s)
    : name ∈ keys o.offers ↔ name ∈ s.mentioned := by
  obtain ⟨names, r⟩ := o
  obtain rfl := h.names
  cases r with
  | ok b =>
    show name ∈ keys b ↔ _
    rw [(h.bound b rfl).mem name]
    simp [Entries.keys]
  | error e =>
    have hks : keys (s.names.map fun name => (name, e.toValue)) = s.names := by
      simp [Entries.keys, Function.comp_def]
    show name ∈ keys (s.names.map fun name => (name, e.toValue)) ↔ _
    rw [hks, mem_names]

variable {bs : List Schema} {outcomes : List BranchOutcome}

section

variable (h : Forall₂ (fun s o => BranchOutcome.Of s o) bs outcomes)

include h

/-- Filling in what branches offer adds all their names. -/
lemma mem_keys_fillIn :
    ∀ {out name},
      name ∈ keys (outcomes.foldl (fun acc o => addMissing acc o.offers) out) ↔
        name ∈ keys out ∨ name ∈ mentionedInAll bs := by
  induction h with
  | nil => simp [mentionedInAll]
  | cons ho _ ih =>
    intro out name
    rw [foldl_cons, ih, mem_keys_addMissing, ho.mem_keys_offers, mentionedInAll,
      mem_append, or_assoc]

omit h in
lemma nodup_keys_fillIn (outcomes : List BranchOutcome) : ∀ {out}, (keys out).Nodup →
    (keys (outcomes.foldl (fun acc o => addMissing acc o.offers) out)).Nodup := by
  induction outcomes with
  | nil => exact id
  | cons o outcomes ih => exact fun hout => ih (nodup_keys_addMissing hout)

/-- The bindings of the branch that decides are among the names of the branches. -/
lemma mem_mentionedInAll_of_findSome? (hb : outcomes.findSome? (·.bindings?) = some b)
    (hname : name ∈ keys b) : name ∈ mentionedInAll bs := by
  induction h with
  | nil => cases hb
  | @cons s o _ _ ho _ ih =>
    rw [mentionedInAll, mem_append]
    rw [findSome?_cons] at hb
    split at hb
    · next b' hb' =>
      cases hb
      left
      have hr : o.result = .ok b := by
        unfold BranchOutcome.bindings? at hb'
        split at hb'
        · next b' hr => cases hb'; exact hr
        · cases hb'
      have hadds := ((ho.bound b hr).mem name).mp hname
      simpa [Entries.keys] using hadds
    · exact .inr (ih hb)

/-- **An alternative binds the names of all its branches**, those that failed included. -/
theorem joinBranches_adds {value}
    (hjoin : joinBranches value outcomes out = .ok b) : Adds out (mentionedInAll bs) b := by
  unfold joinBranches at hjoin
  split at hjoin
  · next first hf =>
    cases hjoin
    refine ⟨fun name => ?_, fun hout => ?_⟩
    · rw [mem_keys_fillIn h, mem_keys_merge]
      constructor
      · rintro ((hname | hname) | hname)
        · exact .inl hname
        · exact .inr (mem_mentionedInAll_of_findSome? h hf hname)
        · exact .inr hname
      · rintro (hname | hname)
        · exact .inl (.inl hname)
        · exact .inr hname
    · exact nodup_keys_fillIn outcomes (nodup_keys_merge hout)
  · dsimp only at hjoin
    split at hjoin <;> cases hjoin

end

/-! ## Steps -/

/-- The names that a step binds. -/
def Step.names : Step → List String
  | .bind _ s _ => s.mentioned
  | .keep name _ => [name]
  | .refuse _ | .check _ _ _ | .ask _ => []

/-- **Steps that bind exactly some names**, unless one of them refuses the value. -/
def Binding (steps : List Step) (names : List String) : Prop :=
  (∀ e, .refuse e ∉ steps) → ∀ name, name ∈ steps.flatMap Step.names ↔ name ∈ names

lemma binding_refuse (e names) : Binding [.refuse e] names := fun h => absurd mem_cons_self (h e)

variable {src value : Value} {ps : Entries Value} {mentioned : List String}

lemma Binding.cons {place s v steps names} (h : Binding steps names) :
    Binding (.bind place s v :: steps) (s.mentioned ++ names) := by
  intro hno name
  have hr := h (fun e he => hno e (.tail _ he)) name
  rw [flatMap_cons, mem_append, mem_append, hr, Step.names]

lemma binding_tupleSteps : ∀ xs i es, Binding (tupleSteps xs src value i es) (mentionedInTuple xs)
  | [], _, _ => fun _ _ => Iff.rfl
  | .rest s name :: later, _, _ => by
    rw [tupleSteps]
    split
    · next hlater =>
      obtain rfl := isEmpty_iff.mp hlater
      intro _ other
      cases name <;> simp [elementChecks, Step.names, mentionedInTuple, mentionedInEntry]
    · exact binding_refuse _ _
  | .required _ :: _, _, [] => binding_refuse _ _
  | .required _ :: later, i, _ :: es => (binding_tupleSteps later (i + 1) es).cons
  | .optional _ _ :: later, i, es => (binding_tupleSteps later (i + 1) es.tail).cons

/-- Where one rest has been seen and nothing is refused, there is no other. -/
lemma restSteps_eq_nil : ∀ es : List (String × ShapeEntry),
    (∀ e, .refuse e ∉ recordSteps es src value ps true) →
    restSteps es mentioned ps = []
  | [], _ => rfl
  | (_, .rest _ _) :: _, h => absurd mem_cons_self (h _)
  | (key, .required _) :: later, h => by
    rw [recordSteps] at h
    split at h
    · exact restSteps_eq_nil later fun e he => h e (.tail _ he)
    · exact absurd mem_cons_self (h _)
  | (_, .optional _ _) :: later, h => restSteps_eq_nil later fun e he => h e (.tail _ he)

lemma binding_recordSteps (es restSeen) :
    Binding (recordSteps es src value ps restSeen
      ++ restSteps es mentioned ps) (mentionedInRecord es) := by
  induction es generalizing restSeen with
  | nil => exact fun _ _ => Iff.rfl
  | cons entry later ih =>
    obtain ⟨key, entry⟩ := entry
    cases entry with
    | rest s name =>
      rw [recordSteps]
      split
      · exact fun h => absurd mem_cons_self (h _)
      · rw [restSteps]
        intro hno other
        have hfixed := fun e he => hno e (mem_append_left _ he)
        have hlater := ih true
        rw [restSteps_eq_nil later hfixed, append_nil] at hlater
        rw [flatMap_append, mem_append, hlater hfixed other, or_comm]
        cases name <;> simp [propertyChecks, Step.names, mentionedInRecord, mentionedInEntry]
    | required s =>
      rw [recordSteps]
      split
      · exact (ih restSeen).cons
      · exact fun h => absurd mem_cons_self (h _)
    | optional s default => exact (ih restSeen).cons

/-- **A shape mentions the names that its steps bind.** -/
theorem binding_shapeSteps (shape : Shape) (src value : Value) :
    Binding (shapeSteps shape src value) (mentionedInShape shape) := by
  rw [mentionedInShape.eq_def]
  unfold shapeSteps
  split
  · exact fun _ _ => Iff.rfl
  · exact binding_refuse _ _
  · exact binding_tupleSteps _ 1 _
  · exact binding_refuse _ _
  · exact binding_recordSteps _ false
  · exact binding_refuse _ _

/-! ## The match -/

/-- A match adds the names that the schema mentions. -/
def Binds (s : Schema) : Prop := ∀ value out, (bindInto s value out).Yields (Adds out s.mentioned)

lemma Step.Of.adds {t : Schema} (ht : ∀ place s, t.Holds place s → s.Binds) {step : Step}
    (h : step.Of t value) (out) :
    (step.run value out).Yields fun b => (∀ e, step ≠ .refuse e) ∧ Adds out step.names b := by
  cases h with
  | wrongType | missing | broken => trivial
  | check | ask =>
    refine Job.Yields.bind (fun _ => ?_) _
    exact ⟨nofun, adds_nothing out⟩
  | bind hold v => exact ((ht _ _ hold v out).mapError _).mono fun _ hb => ⟨nofun, hb⟩
  | keep name v => exact ⟨nofun, (adds_nothing out).insert name v⟩

lemma runSteps_adds {t : Schema} (ht : ∀ place s, t.Holds place s → s.Binds) :
    ∀ steps out, (∀ step ∈ steps, step.Of t value) →
    (runSteps value steps out).Yields fun b =>
      (∀ e, .refuse e ∉ steps) ∧ Adds out (steps.flatMap Step.names) b
  | [], out, _ => ⟨fun _ => not_mem_nil, adds_nothing out⟩
  | step :: rest, out, h => by
    obtain ⟨hf, hr⟩ := forall_mem_cons.mp h
    refine Job.Yields.follow (fun mid hmid => ?_) (hf.adds ht out)
    refine (runSteps_adds ht rest mid hr).mono fun b hb => ⟨fun e he => ?_, hmid.2.trans hb.2⟩
    rcases mem_cons.mp he with he | he
    · exact hmid.1 e he.symm
    · exact hb.1 e he

/-- Every branch declares its names, and binds them if it matched. -/
lemma tryBranches_outcomes (value) : ∀ bs tried,
    (∀ s ∈ bs, s.Binds) → (tryBranches bs value tried).Yields fun outcomes =>
      ∃ found, outcomes = tried.reverse ++ found
        ∧ Forall₂ (fun s o => BranchOutcome.Of s o) bs found
  | [], tried, _ => by
    rw [tryBranches]
    exact ⟨[], by simp, .nil⟩
  | s :: rest, tried, h => by
    obtain ⟨hs, hrest⟩ := forall_mem_cons.mp h
    rw [tryBranches]
    refine Job.Yields.follow (fun r hr => ?_) ((hs value []).holding _).attempt
    have hrest : (tryBranches rest value (⟨s.names, r⟩ :: tried)).Yields fun outcomes =>
        ∃ found, outcomes = tried.reverse ++ found
          ∧ Forall₂ (fun s o => BranchOutcome.Of s o) (s :: rest) found := by
      refine (tryBranches_outcomes value rest (⟨s.names, r⟩ :: tried) hrest).mono ?_
      rintro outcomes ⟨found, rfl, hf⟩
      exact ⟨⟨s.names, r⟩ :: found, by simp, .cons ⟨rfl, hr⟩ hf⟩
    cases r with
    | ok b => exact hrest
    | error e =>
      dsimp only
      split
      · trivial
      · exact hrest

/-- **A match adds the names that its schema mentions.** -/
theorem bindInto_adds (s : Schema) : s.Binds := by
  induction s using Holds.induction with
  | step s ih =>
  intro value out
  cases s with
  | type test =>
    rw [bindInto, mentioned]
    refine Job.Yields.bind (fun _ => ?_) _
    exact adds_nothing out
  | either bs =>
    rw [bindInto, mentioned]
    refine Job.Yields.follow (fun outcomes houtcomes => ?_)
      ((tryBranches_outcomes value bs [] fun s hs => ih none s (.branch hs)).holding _)
    obtain ⟨found, heq, hf⟩ := houtcomes
    obtain rfl : outcomes = found := heq
    show (Job.done (joinBranches value outcomes out)).Yields _
    cases hjoin : joinBranches value outcomes out with
    | error e => trivial
    | ok b => exact joinBranches_adds hf hjoin
  | oneOf options =>
    rw [bindInto, mentioned]
    split
    · exact adds_nothing out
    · trivial
  | bind inner name =>
    rw [bindInto, mentioned]
    exact Job.Yields.follow (fun b hb => hb.insert name value)
      (ih none inner (.bind inner name) value out)
  | typed src test es shape keys values c =>
    rw [bindInto, mentioned]
    refine Job.Yields.bind (fun _ => Job.Yields.bind (fun _ => ?_) _) _
    rw [bindShape_eq]
    refine Job.Yields.follow (fun b hb => ?_) (runSteps_adds ih _ out fun step hstep =>
      of_steps _ value step (by simp [steps, hstep]))
    refine Job.Yields.bind (fun _ => ?_) _
    exact ⟨fun name => by rw [hb.2.mem, binding_shapeSteps shape src value hb.1], hb.2.nodup⟩
  | invalid src names =>
    rw [bindInto]
    trivial

/-- **A match binds exactly the names of its schema**, each listed once, for every value, every
schema and every runtime. -/
theorem bindings_are_the_names {σ : Type} (runtime : Runtime σ) (state : σ) (value schema : Value) :
    (∀ bindings, ((bindValue value schema).runOn runtime state).1 = .ok bindings →
      ∀ name, name ∈ Entries.keys bindings ↔ name ∈ (ofValue schema).names) ∧
    (ofValue schema).names.Nodup := by
  refine ⟨fun bindings h name => ?_, nodup_eraseDups _⟩
  have hadds := (bindInto_adds (ofValue schema) value []).of_runOn runtime h
  rw [hadds.mem name, mem_names]
  simp [Entries.keys]

/-! ### A branch that fails -/

/-- A runtime that knows no function and no stream. -/
def refusing : Runtime Unit where
  respond q _ := match q with
    | .call f _ _ => (.error (.of "notCallable" [("value", f)]), ())
    | .force _ | .collect _ | .settle _ => (.error (.of "noStreams" []), ())
    | .allocate _ => (0, ())
    | .text _ => ("", ())

/-- A number under one name, or a string under another. -/
def numberOrText : Value :=
  .object [("either", .array [.object [("bind", .string "number"), ("as", .string "n")],
    .object [("bind", .string "string"), ("as", .string "s")]])]

lemma ofValue_numberOrText :
    ofValue numberOrText = .either [.bind (.type (.exactly .number)) "n",
      .bind (.type (.exactly .string)) "s"] := by
  simp [numberOrText, ofValue, ofList, get?, TypeTest.ofName?, Kind.ofName?, Kind.all, Kind.name]

/-- A string is bound to its name, and the failure of the other branch to the other name. -/
theorem bindings_are_the_names_numberOrText :
    ∃ bindings, ((bindValue (.string "x") numberOrText).runOn refusing ()).1 = .ok bindings
      ∧ ∀ name, name ∈ Entries.keys bindings ↔ name ∈ ["n", "s"] := by
  have hruns : ∃ bindings, ((bindValue (.string "x") numberOrText).runOn refusing ()).1
      = .ok bindings := by
    rw [bindValue, ofValue_numberOrText]
    exact ⟨_, rfl⟩
  obtain ⟨bindings, hbindings⟩ := hruns
  refine ⟨bindings, hbindings, fun name => ?_⟩
  have hnames :=
    (bindings_are_the_names refusing () (.string "x") numberOrText).1 bindings hbindings name
  rwa [ofValue_numberOrText] at hnames

end Schema

end TreeCode
