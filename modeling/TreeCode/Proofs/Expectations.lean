import TreeCode.Proofs.Alternatives

/-!
# What alternatives expected

If no branch of an alternative matches and all fail on types, the failure tells the types: those of
the branches in order, those of alternatives among the branches in their place. The types are read
off the failures of the branches, which are errors like any other. So it has to be shown that a
match reports a wrong type in two forms only, one for a type and one for alternatives
(`Schema.Expects`), and that follows from how each part of a match fails (`Job.Fails`).

`Schema.alternatives_law` is the law of alternatives as a whole.
-/

namespace TreeCode

open List

/-! ## How jobs fail -/

namespace Job

variable {α β σ : Type} {R : ErrorValue → Prop}

/-- **How a job fails** where none of its calls raises an error. -/
def Fails (R : ErrorValue → Prop) (j : Job α) : Prop :=
  j.Hears fun heard r => heard = [] → ∀ e, r = .error e → R e

lemma fails_pure (a : α) : (pure a).Fails R := fun _ => nofun

lemma fails_fail {e} (h : R e) : (Job.fail e : Job α).Fails R := by
  rintro - _ ⟨⟩
  exact h

lemma Fails.bind {j : Job α} (hj : j.Fails R) {f : α → Job β} (hf : ∀ a, (f a).Fails R) :
    (j >>= f).Fails R := by
  refine Hears.andThen hj fun heard r hr => ?_
  cases r with
  | ok a => exact (hf a).mono fun later _ h hquiet => h (append_eq_nil_iff.mp hquiet).2
  | error e =>
    rintro hquiet _ ⟨⟩
    exact hr (append_eq_nil_iff.mp hquiet).1 e rfl

/-- Whatever happens in a job, its failure is blamed on something else. -/
lemma fails_mapError {blame} (h : ∀ e, R (blame e)) :
    ∀ j : Job α, (j.mapError blame).Fails R
  | .done (.ok a) => fails_pure a
  | .done (.error e) => fails_fail (h e)
  | .ask _ _ next => fun r =>
    (fails_mapError h (next r)).mono fun _ _ hr hquiet => hr (append_eq_nil_iff.mp hquiet).2

lemma Fails.of_runOn {runtime : Runtime σ} {st : σ} {j : Job α} {e}
    (h : j.Fails R) (hquiet : j.raised runtime st = [])
    (he : (j.runOn runtime st).1 = .error e) : R e :=
  Hears.of_runOn runtime j st h hquiet e he

end Job

namespace Schema

open Job

/-! ## Types that are told by name -/

/-- If the error is that the value is of a wrong type, it names one type. -/
def NamesType (v : Value) (e : ErrorValue) : Prop :=
  e.kind = "wrongType" → ∃ name, e = Mismatch.notOfType v name

variable {v : Value}

lemma namesType_of {kind} (h : kind ≠ "wrongType") (details) :
    NamesType v (.of kind details) := fun hkind => absurd hkind h

/-- What is inside a value is blamed on its place. -/
lemma namesType_blame (place : Place) (e) : NamesType v (place.blame v e) := by
  cases place <;> exact namesType_of (by decide) _

lemma checkCondition_fails (cond) :
    (checkCondition cond v).Fails (NamesType v) := by
  cases cond with
  | none => exact fails_pure ()
  | some c =>
    intro r
    cases r with
    | error e => exact nofun
    | ok answer =>
      show Job.Fails (NamesType v) (if answer.equals (.boolean true) = true then Job.pure ()
        else Job.fail (Mismatch.conditionFailed v c) : Job Unit)
      split
      · exact fails_pure ()
      · exact fails_fail (namesType_of (by decide) _)

/-- **A typed schema reports a wrong type by its name.** -/
theorem typed_fails (src : Value) (test : TypeTest) (es : Option Schema) (shape : Shape)
    (keys values : Option Schema) (c : Option Value) (out) :
    (bindInto (.typed src test es shape keys values c) v out).Fails (NamesType v) := by
  refine typed_of_steps (J := fun j => j.Fails (NamesType v)) fails_pure
    (fun hj hf => hj.bind hf) ?_ out
  intro step out hstep
  cases hstep with
  | wrongType test => exact fails_fail fun _ => ⟨test.name, rfl⟩
  | @missing place => cases place <;> exact fails_fail (namesType_of (by decide) _)
  | broken => exact fails_fail (namesType_of (by decide) _)
  | check =>
    exact Fails.bind (Hears.holding _ (fails_mapError (namesType_blame _) _)) fun _ =>
      fails_pure out
  | bind => exact fails_mapError (namesType_blame _) _
  | keep => exact fails_pure _
  | ask => exact Fails.bind (Hears.holding _ (checkCondition_fails _)) fun _ => fails_pure out

/-! ## Types of alternatives -/

/-- The mismatch of a value that is of none of the types. -/
def ofNoType (v : Value) (names : List String) : ErrorValue :=
  Mismatch.wrongType v (.object [("either", .array (names.map .string))])

/-- **The types that a failure tells**: the one that it names, or those of alternatives. -/
inductive Expects (v) : ErrorValue → List String → Prop where
  | type (name) : Expects v (Mismatch.notOfType v name) [name]
  | either (names) : Expects v (ofNoType v names) names

lemma expectedTypes_eq {errors names}
    (h : Forall₂ (Expects v) errors names) :
    expectedTypes errors = names.flatten.map .string := by
  induction h with
  | nil => rfl
  | @cons e types errors names he _ ih =>
    rw [expectedTypes, flatMap_cons, flatten_cons, map_append]
    refine congrArg₂ (· ++ ·) ?_ ih
    cases he with
    | type name => rfl
    | either types => rfl

mutual
/-- **The types of a schema that is made of types**, names and alternatives only, from left to
right. -/
def leaves? : Schema → Option (List String)
  | .type test => some [test.name]
  | .either bs => leavesInAll? bs
  | .bind inner _ => inner.leaves?
  | .oneOf _ | .typed .. | .invalid .. => none
def leavesInAll? : List Schema → Option (List String)
  | [] => some []
  | s :: rest => do return (← s.leaves?) ++ (← leavesInAll? rest)
end

section Types

variable {σ : Type} {runtime : Runtime σ} {answer : Value → Value → Value}

/-- Alternatives are of a wrong type only if every branch is, and then tell the types of all. -/
lemma either_wrongType {outcome bs}
    (hrt : runtime.SettlesFor (Schema.either bs).HasCondition outcome) {st e}
      (he : ((bindInto (.either bs) v []).runOn runtime st).1 = .error e)
    (hkind : e.kind = "wrongType") :
    let outcomes := bs.map (outcomeOf runtime st v)
    outcomes.findSome? (·.bindings?) = none
      ∧ (∀ e ∈ outcomes.filterMap (·.error?), e.kind = "wrongType")
      ∧ e = Mismatch.wrongType v
        (.object [("either", .array (expectedTypes (outcomes.filterMap (·.error?))))]) := by
  rw [either_runOn hrt] at he
  split at he
  · next hbroken =>
    cases he
    obtain ⟨o, -, ho⟩ := exists_of_findSome?_eq_some hbroken
    have hinvalid := (BranchOutcome.broken?_eq_some.mp ho).2
    exact absurd (hinvalid.symm.trans hkind) (by decide)
  · unfold joinBranches at he
    split at he
    · cases he
    next hn =>
      dsimp only at he
      split at he
      · next hall =>
        cases he
        rw [Bool.and_eq_true, all_eq_true] at hall
        exact ⟨hn, fun e he => by simpa using hall.2 e he, rfl⟩
      · cases he
        exact absurd hkind (show "badValue" ≠ "wrongType" by decide)

/-- The conditions of branches are conditions of the alternatives. -/
lemma answers_branches {bs} (h : runtime.Answers (Schema.either bs).HasCondition answer) :
    ∀ s ∈ bs, runtime.Answers s.HasCondition answer :=
  fun _ hs c hc => h c (hc.of_holds (.branch hs))

mutual
/-- **A match reports a wrong type in two forms only**, and tells the types of the schema, if it is
made of types. -/
theorem bindInto_expects (v st) : ∀ (s : Schema) {e},
    runtime.Answers s.HasCondition answer → ((bindInto s v []).runOn runtime st).1 = .error e →
    e.kind = "wrongType" →
    ∃ names, Expects v e names ∧ ∀ leaves, s.leaves? = some leaves → leaves = names
  | .type test, e, _, he, hkind => by
    rw [bindInto, checkType] at he
    split at he
    · cases he
    · cases he
      exact ⟨_, .type _, by simp [leaves?, eq_comm]⟩
  | .either bs, e, hrt, he, hkind => by
    obtain ⟨hn, hkinds, rfl⟩ := either_wrongType hrt he hkind
    obtain ⟨names, hns, hleaves⟩ := branches_expect v st bs (answers_branches hrt) hn hkinds
    rw [expectedTypes_eq hns]
    exact ⟨names.flatten, .either _, hleaves⟩
  | .oneOf options, e, _, he, hkind => by
    rw [bindInto] at he
    split at he
    · cases he
    · cases he
      exact absurd hkind (show "badValue" ≠ "wrongType" by decide)
  | .bind inner name, e, hrt, he, hkind => by
    rw [bindInto] at he
    refine bindInto_expects v st inner (fun c hc => hrt c (hc.of_holds (.bind inner name))) ?_ hkind
    cases hi : ((bindInto inner v []).runOn runtime st).1 with
    | ok binds =>
      rw [Job.runOn_bind_of_ok hi] at he
      cases he
    | error e' =>
      rw [Job.runOn_bind_of_error hi] at he
      exact he
  | .typed src test es shape keys values c, e, hrt, he, hkind => by
    obtain ⟨name, rfl⟩ := (typed_fails src test es shape keys values c []).of_runOn
      ((bindInto_asks _ v).raised_eq_nil hrt st) he hkind
    exact ⟨_, .type name, nofun⟩
  | .invalid src names, e, _, he, hkind => by
    rw [bindInto] at he
    cases he
    exact absurd hkind (show "invalidSchema" ≠ "wrongType" by decide)

lemma branches_expect (v st) : ∀ bs,
    (∀ s ∈ bs, runtime.Answers s.HasCondition answer) → (bs.map (outcomeOf runtime st v)).findSome?
      (·.bindings?) = none →
    (∀ e ∈ (bs.map (outcomeOf runtime st v)).filterMap (·.error?), e.kind = "wrongType") →
    ∃ names, Forall₂ (Expects v) ((bs.map (outcomeOf runtime st v)).filterMap (·.error?)) names
      ∧ ∀ leaves, leavesInAll? bs = some leaves → leaves = names.flatten
  | [], _, _, _ => ⟨[], .nil, by simp [leavesInAll?, eq_comm]⟩
  | s :: rest, hrt, hn, hkinds => by
    rw [forall_mem_cons] at hrt
    rw [map_cons] at hn hkinds ⊢
    rw [findSome?_cons] at hn
    split at hn
    · cases hn
    next hs =>
      obtain ⟨e, he⟩ := BranchOutcome.bindings?_eq_none.mp hs
      have herror : (outcomeOf runtime st v s).error? = some e := by simp [BranchOutcome.error?, he]
      rw [filterMap_cons_some herror, forall_mem_cons] at hkinds
      obtain ⟨names, hns, hleaves⟩ := bindInto_expects v st s hrt.1 he hkinds.1
      obtain ⟨more, hmore, hr⟩ := branches_expect v st rest hrt.2 hn hkinds.2
      rw [filterMap_cons_some herror]
      refine ⟨names :: more, .cons hns hmore, fun leaves h => ?_⟩
      simp only [leavesInAll?, Option.bind_eq_bind, Option.bind_eq_some_iff, Option.pure_def,
        Option.some.injEq] at h
      obtain ⟨first, hf, later, hlater, rfl⟩ := h
      rw [hleaves first hf, hr later hlater, flatten_cons]
end

/-- One branch that matches is enough. -/
lemma joinBranches_succeeds {outcomes out} :
    (∃ bs, joinBranches v outcomes out = .ok bs)
      ↔ ∃ o ∈ outcomes, ∃ bs, o.result = .ok bs := by
  unfold joinBranches
  split
  · next bs hf =>
    obtain ⟨o, ho, hbindings⟩ := exists_of_findSome?_eq_some hf
    exact ⟨fun _ => ⟨o, ho, bs, BranchOutcome.bindings?_eq_some.mp hbindings⟩, fun _ => ⟨_, rfl⟩⟩
  · next hn =>
    constructor
    · rintro ⟨bs, hbindings⟩
      dsimp only at hbindings
      split at hbindings <;> cases hbindings
    · rintro ⟨o, ho, bs, hbindings⟩
      have hfailed := findSome?_eq_none_iff.mp hn o ho
      rw [BranchOutcome.bindings?_eq_some.mpr hbindings] at hfailed
      cases hfailed

/-- Branches that all failed, by their errors. -/
lemma branches_failed {st} : ∀ {bs : List Value}
    {errors}, bs.map (matched runtime st v) = errors.map .error →
    (bs.map (branchOf runtime st v)).findSome? (·.bindings?) = none
      ∧ (bs.map (branchOf runtime st v)).filterMap (·.error?) = errors
  | [], [], _ => ⟨rfl, rfl⟩
  | b :: bs, e :: errors, h => by
    obtain ⟨hb, hr⟩ := cons.inj h
    obtain ⟨hn, herrors⟩ := branches_failed hr
    have hfailed : (branchOf runtime st v b).result = .error e := hb
    have herror : (branchOf runtime st v b).error? = some e := by
      simp [BranchOutcome.error?, hfailed]
    rw [map_cons, findSome?_cons, BranchOutcome.bindings?_eq_none.mpr ⟨e, hfailed⟩,
      filterMap_cons_some herror, herrors]
    exact ⟨hn, rfl⟩

/-- **The law of alternatives.** A first branch that is no schema decides. Otherwise the match
succeeds if some branch matches; if all branches failed, and on types only, it tells the types that
they expected, in order, and in every other case it lists their errors. If the alternatives are made
of types, the types that are told are theirs from left to right. -/
theorem alternatives_law {fields : Entries Value} {branches : List Value}
    (hruntime : runtime.Answers (ofValue (.object fields)).HasCondition answer) (v : Value)
      (state : σ)
    (hfields : Entries.get? fields "either" = some (.array branches)) :
    (∀ before b after e, branches = before ++ b :: after →
      (∀ c ∈ before, ∀ e', matched runtime state v c = .error e' → e'.kind ≠ "invalidSchema") →
      matched runtime state v b = .error e → e.kind = "invalidSchema" →
      matched runtime state v (.object fields) = .error e) ∧
    ((∀ b ∈ branches, ∀ e, matched runtime state v b = .error e → e.kind ≠ "invalidSchema") →
      ((∃ bindings, matched runtime state v (.object fields) = .ok bindings) ↔
        ∃ b ∈ branches, ∃ bindings, matched runtime state v b = .ok bindings) ∧
      ∀ errors : List ErrorValue, branches.map (matched runtime state v) = errors.map .error →
        (errors ≠ [] ∧ (∀ e ∈ errors, e.kind = "wrongType") → ∃ names,
          List.Forall₂ (Expects v) errors names ∧
          matched runtime state v (.object fields) = .error (ofNoType v names.flatten)) ∧
        (errors = [] ∨ (∃ e ∈ errors, e.kind ≠ "wrongType") →
          matched runtime state v (.object fields) = .error (Mismatch.noAlternative v errors))) ∧
    ∀ leaves, (ofValue (.object fields)).leaves? = some leaves → ∀ e,
      matched runtime state v (.object fields) = .error e → e.kind = "wrongType" →
      e = ofNoType v leaves := by
  have heither := matched_either hruntime v state hfields
  have hschema : ofValue (.object fields) = .either (branches.map ofValue) := by
    rw [ofValue_either ⟨hfields, by simp [decidingKeys]⟩, ofList_eq_map]
  rw [hschema] at hruntime
  have hbranches := answers_branches hruntime
  have hmap : (branches.map ofValue).map (outcomeOf runtime state v)
      = branches.map (branchOf runtime state v) := List.map_map
  refine ⟨fun before b after e hbranches hbefore hb hkind => ?_, fun hsound => ?_,
    fun leaves hleaves e he hkind => ?_⟩
  · -- the first branch that is no schema
    have hbroken : (branches.map (branchOf runtime state v)).findSome? (·.broken?) = some e := by
      rw [List.findSome?_map]
      refine List.findSome?_eq_some_iff.mpr ⟨before, b, after, hbranches,
        BranchOutcome.broken?_eq_some.mpr ⟨hb, hkind⟩, fun c hc => ?_⟩
      refine Option.eq_none_iff_forall_ne_some.mpr fun e' he' => ?_
      obtain ⟨herror, hinvalid⟩ := BranchOutcome.broken?_eq_some.mp he'
      exact hbefore c hc e' herror hinvalid
    rw [heither, hbroken]
  · have hbroken : (branches.map (branchOf runtime state v)).findSome? (·.broken?) = none := by
      rw [List.findSome?_map]
      refine List.findSome?_eq_none_iff.mpr fun b hb => ?_
      refine Option.eq_none_iff_forall_ne_some.mpr fun e he => ?_
      obtain ⟨herror, hinvalid⟩ := BranchOutcome.broken?_eq_some.mp he
      exact hsound b hb e herror hinvalid
    rw [hbroken] at heither
    dsimp only at heither
    rw [heither]
    refine ⟨?_, fun errors herrors => ⟨?_, ?_⟩⟩
    · simp only [joinBranches_succeeds, List.mem_map, exists_exists_and_eq_and]
      rfl
    · rintro ⟨hsome, hkinds⟩
      obtain ⟨hnone, hfailed⟩ := branches_failed herrors
      have hexpect := branches_expect v state (branches.map ofValue) hbranches
      rw [hmap, hfailed] at hexpect
      obtain ⟨names, hnames, -⟩ := hexpect hnone hkinds
      refine ⟨names, hnames, ?_⟩
      rw [joinBranches, hnone]
      dsimp only
      rw [hfailed, if_pos (by simpa [hsome] using hkinds), expectedTypes_eq hnames]
      rfl
    · intro hother
      obtain ⟨hnone, hfailed⟩ := branches_failed herrors
      rw [joinBranches, hnone]
      dsimp only
      rw [hfailed, if_neg ?_]
      intro hall
      simp only [Bool.and_eq_true, List.all_eq_true, beq_iff_eq, Bool.not_eq_true',
        List.isEmpty_eq_false_iff] at hall
      obtain hempty | ⟨e, he, hkind⟩ := hother
      · exact hall.1 hempty
      · exact hkind (hall.2 e he)
  · rw [matched, bindValue, hschema] at he
    rw [hschema, leaves?] at hleaves
    obtain ⟨hnone, hkinds, rfl⟩ := either_wrongType hruntime he hkind
    obtain ⟨names, hnames, hall⟩ := branches_expect v state _ hbranches hnone hkinds
    rw [expectedTypes_eq hnames, hall leaves hleaves]
    rfl

end Types

lemma leavesInAll?_eq_none {s} (h : s.leaves? = none) : ∀ {bs}, s ∈ bs → leavesInAll? bs = none
  | t :: rest, hs => by
    rw [leavesInAll?]
    rcases mem_cons.mp hs with rfl | hs
    · rw [h]
      rfl
    · rw [leavesInAll?_eq_none h hs]
      cases t.leaves? <;> rfl

/-- A schema that is made of types has no conditions. -/
lemma HasCondition.leaves?_eq_none {s : Schema} {c} (hc : s.HasCondition c) :
    s.leaves? = none := by
  obtain ⟨places, src, test, elements, shape, keys, values, hin⟩ := hc
  generalize ht : Schema.typed src test elements shape keys values (some c) = t at hin
  induction hin with
  | here =>
    cases ht
    rfl
  | step h _ ih =>
    cases h with
    | bind => exact ih ht
    | branch hs => exact leavesInAll?_eq_none (ih ht) hs
    | _ => rfl

/-- A string, or a boolean or an array under a name. -/
def grouped : Value :=
  .object [("either", .array [.string "string", .object [("either", .array [.string "boolean",
    .object [("bind", .string "array"), ("as", .string "items")]])]])]

lemma ofValue_grouped : ofValue grouped = .either [.type (.exactly .string),
    .either [.type (.exactly .boolean), .bind (.type (.exactly .array)) "items"]] := by
  simp [grouped, ofValue, ofList, Entries.get?, TypeTest.ofName?, Kind.ofName?, Kind.all, Kind.name]

/-- A number is none of these, and is told all three types, on a runtime that can call nothing. -/
theorem alternatives_law_grouped :
    refusing.Answers (ofValue grouped).HasCondition (fun _ _ => .null) ∧
    matched refusing () (.ofNat 1) grouped
      = .error (ofNoType (.ofNat 1) ["string", "boolean", "array"]) := by
  have hanswers : refusing.Answers (ofValue grouped).HasCondition fun _ _ => .null := by
    intro c hc
    rw [ofValue_grouped] at hc
    cases hc.leaves?_eq_none
  refine ⟨hanswers, ?_⟩
  have hfails : ∃ e, matched refusing () (.ofNat 1) grouped = .error e ∧ e.kind = "wrongType" := by
    rw [matched, bindValue, ofValue_grouped]
    exact ⟨_, rfl, rfl⟩
  have hleaves : (ofValue grouped).leaves? = some ["string", "boolean", "array"] := by
    rw [ofValue_grouped]
    rfl
  obtain ⟨e, he, hkind⟩ := hfails
  rw [he, (alternatives_law hanswers (.ofNat 1) () rfl).2.2 _ hleaves e he hkind]

end Schema

end TreeCode
