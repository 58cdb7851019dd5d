import TreeCode.Proofs.Refusals

/-!
# Alternatives

A match with alternatives tries every branch, one after the other, on a runtime that may change in
between. Where the runtime settles conditions, by a function of the condition and the value, what a
branch comes to does not depend on that, and the whole is put together from what each branch comes
to by itself (`Schema.either_runOn`).

* Names are bound to what the first branch that matched binds them to, and otherwise to the first
  offer among the branches in order; a branch that failed offers its failure for every name that it
  declares (`Schema.alternatives_bind_first_offers`). So a failure may stand under a name that a
  later branch would have bound.
* A broken branch decides; otherwise one branch that matches is enough; otherwise the failure tells
  the types that the branches expected, if that was all, or lists what they reported
  (`Schema.alternatives_law`).
-/

namespace TreeCode

open Entries

/-! ## Conditions that are settled -/

/-- The runtime settles conditions, which are called with one value, by a function of the condition
and the value: what they return, or the error that they raise. -/
def Runtime.Settles {σ : Type} (runtime : Runtime σ)
    (outcome : Value → Value → Except ErrorValue Value) : Prop :=
  ∀ c value st, (runtime.respond (.call c [value] []) st).1 = outcome c value

variable {C : Value → Prop} {ans : Value → Value → Value}
  {outcome : Value → Value → Except ErrorValue Value} {e : ErrorValue} {σ : Type}

namespace Job

variable {α β : Type} {runtime : Runtime σ} {j : Job α}

/-- **What a job comes to that only asks conditions** does not depend on the state. -/
theorem Asks.runOn_eq (hrt : runtime.SettlesFor C outcome) (h : j.Asks (Request.OfCondition C)) :
    ∀ st state', (j.runOn runtime st).1 = (j.runOn runtime state').1 := by
  induction h with
  | done _ => exact fun _ _ => rfl
  | ask allowed _ ih =>
    obtain ⟨c, value, hc, rfl⟩ := allowed
    intro st state'
    rw [runOn.eq_def, runOn.eq_def]
    dsimp only
    rw [hrt c hc, hrt c hc]
    exact ih _ _ _

/-- Nothing is raised where conditions always return. -/
lemma Asks.raised_eq_nil (hrt : runtime.Answers C ans) (h : j.Asks (Request.OfCondition C)) :
    ∀ st, j.raised runtime st = [] := by
  induction h with
  | done _ => exact fun _ => rfl
  | ask allowed _ ih =>
    obtain ⟨c, value, hc, rfl⟩ := allowed
    intro st
    rw [raised.eq_def]
    dsimp only
    rw [hrt c hc, ih]
    rfl

lemma runOn_andThen (f : Except ErrorValue α → Job β) : ∀ (j : Job α) (st),
    (j.andThen f).runOn runtime st
      = (f (j.runOn runtime st).1).runOn runtime (j.runOn runtime st).2
  | .done _, _ => rfl
  | .ask _ _ next, _ => runOn_andThen f (next _) _

lemma runOn_attempt (j : Job α) (st) :
    j.attempt.runOn runtime st = (.ok (j.runOn runtime st).1, (j.runOn runtime st).2) :=
  runOn_andThen _ j st

lemma runOn_bind_of_ok {f : α → Job β} {st a} (h : (j.runOn runtime st).1 = .ok a) :
    (j >>= f).runOn runtime st = (f a).runOn runtime (j.runOn runtime st).2 := by
  refine (runOn_andThen _ j st).trans ?_
  rw [h]

lemma runOn_bind_of_error {f : α → Job β} {st}
    (h : (j.runOn runtime st).1 = .error e) : ((j >>= f).runOn runtime st).1 = .error e := by
  refine (congrArg Prod.fst (runOn_andThen _ j st)).trans ?_
  rw [h]
  rfl

lemma runOn_holding (values) : ∀ (j : Job α) (st),
    (j.holding values).runOn runtime st = j.runOn runtime st
  | .done _, _ => rfl
  | .ask _ _ next, _ => runOn_holding values (next _) _

end Job

namespace Schema

/-! ## Branches one by one -/

variable {o : BranchOutcome}

section Branches

variable {runtime : Runtime σ}

/-- What a branch comes to by itself. -/
def outcomeOf (runtime : Runtime σ) (st : σ) (v : Value) (s : Schema) : BranchOutcome :=
  ⟨s.names, ((bindInto s v []).runOn runtime st).1⟩

/-- The error of a branch that is no schema. -/
def BranchOutcome.broken? (o : BranchOutcome) : Option ErrorValue :=
  o.error?.filter (·.kind = "invalidSchema")

lemma BranchOutcome.broken?_eq_some :
    o.broken? = some e ↔ o.result = .error e ∧ e.kind = "invalidSchema" := by
  obtain ⟨names, r⟩ := o
  cases r with
  | ok bs => simp [broken?, error?]
  | error e' =>
    simp only [broken?, error?, Option.filter_eq_some_iff, Option.some.injEq, Except.error.injEq,
      decide_eq_true_eq]

lemma tryBranches_runOn (v start) : ∀ (bs : List Schema),
    (∀ s ∈ bs, runtime.SettlesFor s.HasCondition outcome) → ∀ tried st,
      ((tryBranches bs v tried).runOn runtime st).1
        = match (bs.map (outcomeOf runtime start v)).findSome? (·.broken?) with
          | some e => .error e
          | none => .ok (tried.reverse ++ bs.map (outcomeOf runtime start v))
  | [], _, tried, st => by
    rw [tryBranches]
    simp [Job.runOn, pure, Job.pure]
  | s :: rest, hrt, tried, st => by
    rw [List.forall_mem_cons] at hrt
    have hattempt : (((bindInto s v []).holding (tried.map BranchOutcome.toValue)).attempt.runOn
        runtime st).1 = .ok (outcomeOf runtime start v s).result := by
      rw [Job.runOn_attempt, Job.runOn_holding]
      exact congrArg Except.ok ((bindInto_asks s v).runOn_eq hrt.1 st start)
    have hrest : ∀ st, ((tryBranches rest v
        (⟨s.names, (outcomeOf runtime start v s).result⟩ :: tried)).runOn runtime st).1
          = match (rest.map (outcomeOf runtime start v)).findSome? (·.broken?) with
            | some e => .error e
            | none => .ok (tried.reverse ++ outcomeOf runtime start v s
              :: rest.map (outcomeOf runtime start v)) := by
      intro st
      rw [tryBranches_runOn v start rest hrt.2, List.reverse_cons, List.append_assoc]
      rfl
    rw [tryBranches, Job.runOn_bind_of_ok hattempt, List.map_cons, List.findSome?_cons]
    cases hr : (outcomeOf runtime start v s).result with
    | ok binds =>
      have hbroken : (outcomeOf runtime start v s).broken? = none := by
        simp [BranchOutcome.broken?, BranchOutcome.error?, hr]
      rw [hr] at hrest
      rw [hbroken]
      exact hrest _
    | error e =>
      by_cases hkind : e.kind = "invalidSchema"
      · have hbroken : (outcomeOf runtime start v s).broken? = some e := by
          simp [BranchOutcome.broken?, BranchOutcome.error?, hr, hkind]
        rw [hbroken]
        dsimp only
        rw [if_pos hkind]
        rfl
      · have hbroken : (outcomeOf runtime start v s).broken? = none := by
          simp [BranchOutcome.broken?, BranchOutcome.error?, hr, hkind]
        rw [hr] at hrest
        rw [hbroken]
        dsimp only
        rw [if_neg hkind]
        exact hrest _

/-- **A match with alternatives**, by what each branch comes to by itself. -/
theorem either_runOn {bs}
    (hrt : runtime.SettlesFor (Schema.either bs).HasCondition outcome) (v : Value) (st : σ)
    (out) : ((bindInto (.either bs) v out).runOn runtime st).1
      = match (bs.map (outcomeOf runtime st v)).findSome? (·.broken?) with
        | some e => .error e
        | none => joinBranches v (bs.map (outcomeOf runtime st v)) out := by
  have htried := tryBranches_runOn v st bs (fun s hs c hc => hrt c (hc.of_holds (.branch hs))) [] st
  rw [bindInto]
  refine (congrArg Prod.fst (Job.runOn_andThen _ _ st)).trans ?_
  rw [Job.runOn_holding, htried]
  cases (bs.map (outcomeOf runtime st v)).findSome? (·.broken?) with
  | some e => rfl
  | none => rfl

end Branches

/-! ## What is bound -/

lemma get?_addMissing (name offers) : ∀ out,
    get? (addMissing out offers) name
      = (get? out name).or (get? offers name) := by
  induction offers with
  | nil => exact fun out => (Option.or_none).symm
  | cons pair rest ih =>
    intro out
    obtain ⟨key, value⟩ := pair
    have hstep : addMissing out ((key, value) :: rest) = addMissing
        (if contains out key then out else insert out key value) rest := rfl
    rw [hstep, ih, get?]
    by_cases hkey : name = key
    · subst hkey
      rw [if_pos rfl]
      split
      · next hbound =>
        obtain ⟨w, hw⟩ := Option.isSome_iff_exists.mp hbound
        rw [hw]
        rfl
      · next hfree =>
        rw [get?_insert_self, Option.not_isSome_iff_eq_none.mp hfree]
        rfl
    · rw [if_neg (Ne.symm hkey)]
      split
      · rfl
      · rw [get?_insert_of_ne hkey]

/-- What branches fill in under a name: the first offer, if the name is free. -/
lemma get?_fillIn (name) (outcomes : List BranchOutcome) : ∀ out,
    get? (outcomes.foldl (fun acc o => addMissing acc o.offers) out) name
      = (get? out name).or (outcomes.findSome? fun o => get? o.offers name) := by
  induction outcomes with
  | nil => exact fun out => (Option.or_none).symm
  | cons o outcomes ih =>
    intro out
    rw [List.foldl_cons, ih, get?_addMissing, Option.or_assoc, List.findSome?_cons]
    cases get? o.offers name <;> rfl

lemma BranchOutcome.bindings?_eq_some {bs} :
    o.bindings? = some bs ↔ o.result = .ok bs := by
  obtain ⟨names, r⟩ := o
  cases r <;> simp [bindings?]

lemma BranchOutcome.bindings?_eq_none : o.bindings? = none ↔ ∃ e, o.result = .error e := by
  obtain ⟨names, r⟩ := o
  cases r <;> simp [bindings?]

/-- **What a branch offers for a name**: the value that it binds, if it matches, and its failure for
the names that it declares, if not. -/
def offered (schema : Value) (r : Except ErrorValue Bindings) (name : String) : Option Value :=
  match r with
  | .ok bs => get? bs name
  | .error e => if name ∈ (ofValue schema).names then some e.toValue else none

lemma get?_offers (schema r name) :
    get? (BranchOutcome.offers ⟨(ofValue schema).names, r⟩) name
      = offered schema r name := by
  cases r with
  | ok bs => rfl
  | error e =>
    show get? ((ofValue schema).names.map fun name => (name, e.toValue)) name
      = if name ∈ (ofValue schema).names then some e.toValue else none
    induction (ofValue schema).names with
    | nil => rfl
    | cons key rest ih =>
      rw [List.map_cons, get?, ih]
      by_cases hkey : key = name
      · simp [hkey]
      · simp [hkey, Ne.symm hkey]

lemma ofList_eq_map (list : List Value) : ofList list = list.map ofValue := by
  induction list with
  | nil => rw [ofList]; rfl
  | cons v vs ih => rw [ofList, ih, List.map_cons]

section Alternatives

variable {runtime : Runtime σ}

/-- What the match of a value with a schema comes to on a runtime. -/
def matched (runtime : Runtime σ) (st : σ) (v schema : Value) : Except ErrorValue Bindings :=
  ((bindValue v schema).runOn runtime st).1

/-- What a branch comes to, as the alternatives see it. -/
def branchOf (runtime : Runtime σ) (st : σ) (v branch : Value) : BranchOutcome :=
  ⟨(ofValue branch).names, matched runtime st v branch⟩

lemma matched_either {fs}
    (hrt : runtime.SettlesFor (ofValue (.object fs)).HasCondition outcome) (v st)
    {bs} (hfields : get? fs "either" = some (.array bs)) :
    matched runtime st v (.object fs)
      = match (bs.map (branchOf runtime st v)).findSome? (·.broken?) with
        | some e => .error e
        | none => joinBranches v (bs.map (branchOf runtime st v)) [] := by
  have hmap : (bs.map ofValue).map (outcomeOf runtime st v)
      = bs.map (branchOf runtime st v) := List.map_map
  rw [ofValue_either ⟨hfields, by simp [decidingKeys]⟩, ofList_eq_map] at hrt
  rw [matched, bindValue, ofValue_either ⟨hfields, by simp [decidingKeys]⟩, ofList_eq_map,
    either_runOn hrt, hmap]

/-- **Names are bound to the first offer.** If a match with alternatives succeeds, there is a first
branch that matches, which decides. Names are bound as it binds them, and all others to the first
offer among the branches in order, whether that is a value or a failure. -/
theorem alternatives_bind_first_offers {outcome : Value → Value → Except ErrorValue Value}
    (hruntime : runtime.Settles outcome) (v : Value) (state : σ) {fields : Entries Value}
    {branches : List Value} (hfields : Entries.get? fields "either" = some (.array branches))
    {bound : Bindings} (hbound : matched runtime state v (.object fields) = .ok bound) :
    ∃ before decisive after bindings, branches = before ++ decisive :: after
      ∧ (∀ b ∈ before, ∃ e, matched runtime state v b = .error e)
      ∧ matched runtime state v decisive = .ok bindings
      ∧ ∀ name, Entries.get? bound name = (Entries.get? bindings name).or
          (branches.findSome? fun b => offered b (matched runtime state v b) name) := by
  rw [matched_either (fun c _ => hruntime c) v state hfields] at hbound
  cases hbroken : (branches.map (branchOf runtime state v)).findSome? (·.broken?) with
  | some e =>
    rw [hbroken] at hbound
    cases hbound
  | none =>
    rw [hbroken] at hbound
    dsimp only at hbound
    unfold joinBranches at hbound
    split at hbound
    · next bindings hfound =>
      cases hbound
      rw [List.findSome?_map] at hfound
      obtain ⟨before, decisive, after, rfl, hdecisive, hbefore⟩ :=
        List.findSome?_eq_some_iff.mp hfound
      have hmatched : matched runtime state v decisive = .ok bindings :=
        BranchOutcome.bindings?_eq_some.mp hdecisive
      have hnodup : (Entries.keys bindings).Nodup :=
        ((bindInto_adds (ofValue decisive) v []).of_runOn runtime hmatched).nodup .nil
      refine ⟨before, decisive, after, bindings, rfl,
        fun b hb => BranchOutcome.bindings?_eq_none.mp (hbefore b hb), hmatched, fun name => ?_⟩
      rw [get?_fillIn, Entries.merge_of_nodup (by simpa using hnodup), List.findSome?_map]
      simp only [Function.comp_def, branchOf, get?_offers, List.nil_append]
    · dsimp only at hbound
      split at hbound <;> cases hbound

end Alternatives

/-- A string or a number under one name, with a number under another in between. -/
def shadowed : Value :=
  .object [("either", .array [.object [("bind", .string "string"), ("as", .string "a")],
    .object [("bind", .string "number"), ("as", .string "b")],
    .object [("bind", .string "number"), ("as", .string "a")]])]

lemma ofValue_shadowed : ofValue shadowed = .either [.bind (.type (.exactly .string)) "a",
    .bind (.type (.exactly .number)) "b", .bind (.type (.exactly .number)) "a"] := by
  simp [shadowed, ofValue, ofList, get?, TypeTest.ofName?, Kind.ofName?, Kind.all, Kind.name]

/-- The first branch fails and offers its failure, before the last one offers the number. -/
theorem alternatives_bind_first_offers_shadowed :
    ∃ bound, matched refusing () (.ofNat 1) shadowed = .ok bound ∧
      ∃ before decisive after bindings, [.object [("bind", .string "string"), ("as", .string "a")],
        .object [("bind", .string "number"), ("as", .string "b")],
        .object [("bind", .string "number"), ("as", .string "a")]] = before ++ decisive :: after
      ∧ (∀ b ∈ before, ∃ e, matched refusing () (.ofNat 1) b = .error e)
      ∧ matched refusing () (.ofNat 1) decisive = .ok bindings
      ∧ ∀ name, Entries.get? bound name = (Entries.get? bindings name).or
          ((before ++ decisive :: after).findSome? fun b =>
            offered b (matched refusing () (.ofNat 1) b) name) := by
  have hsettles : refusing.Settles fun callee _ => .error (.of "notCallable" [("value", callee)]) :=
    fun _ _ _ => rfl
  have hruns : ∃ bound, matched refusing () (.ofNat 1) shadowed = .ok bound := by
    rw [matched, bindValue, ofValue_shadowed]
    exact ⟨_, rfl⟩
  obtain ⟨bound, hbound⟩ := hruns
  obtain ⟨before, decisive, after, bindings, heq, hbefore, hdecisive, hnames⟩ :=
    alternatives_bind_first_offers hsettles (.ofNat 1) () rfl hbound
  exact ⟨bound, hbound, before, decisive, after, bindings, heq, hbefore, hdecisive, heq ▸ hnames⟩

/-- **A failure hides a value**: the last branch matches and binds the number to its name, and yet
the name is bound to the failure of the first branch. -/
theorem failure_hides_value :
    matched refusing () (.ofNat 1) (.object [("bind", .string "number"), ("as", .string "a")])
      = .ok [("a", .ofNat 1)] ∧
    matched refusing () (.ofNat 1) shadowed = .ok [("b", .ofNat 1),
      ("a", (Mismatch.notOfType (.ofNat 1) "string").toValue)] := by
  have hlast : ofValue (.object [("bind", .string "number"), ("as", .string "a")])
      = .bind (.type (.exactly .number)) "a" := by
    simp [ofValue, Entries.get?, TypeTest.ofName?, Kind.ofName?, Kind.all, Kind.name]
  rw [matched, matched, bindValue, bindValue, hlast, ofValue_shadowed]
  exact ⟨rfl, rfl⟩

end Schema

end TreeCode
