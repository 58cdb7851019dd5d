import TreeCode.Proofs.StepLimit
import TreeCode.Proofs.Surfacing

/-!
# How the step limit is reported

The step that is one too many raises an error that tells the limit, in the loop that makes it. No
catch gets this error; but if the loop was entered by the host, the host gets it, and the outer
loops get what the host makes of it.

A job relays the error if it ends with it as soon as a request is answered with it (`Job.Relays`).
The work that the machine has of its own does: streams, indexing, the elements of a sequence, and
the completion of instructions. So whether a run ends with the error is up to the functions of the
host and to the checks of values, which are what an activity entrusts to the host
(`Activity.Entrusts`).
-/

namespace TreeCode

open Machine

/-! ## The error of the limit -/

/-- The error tells that the limit on the steps has been exceeded. -/
def ErrorValue.TellsLimit (limit : Nat) (e : ErrorValue) : Prop :=
  e.kind = "stepLimitExceeded" ∧ e.details = [("stepLimit", .ofNat limit)]

/-- The work failed with the error of the limit. -/
def TellsLimit {α : Type} (limit : Nat) : Except ErrorValue α → Prop
  | .error e => e.TellsLimit limit
  | .ok _ => False

/-- The request is answered with the error of the limit. -/
def Request.TellsLimit (limit : Nat) : (q : Request) → q.Response → Prop
  | .call .., x => TreeCode.TellsLimit limit x
  | .force _, x => TreeCode.TellsLimit limit x
  | .collect _, x => TreeCode.TellsLimit limit x
  | .settle _, x => TreeCode.TellsLimit limit x
  | .allocate _, _ | .text _, _ => False

/-- A job for the purpose ends with the error of the limit. To complete an instruction, it may also
give an action that raises the error. -/
def Purpose.TellsLimit (limit : Nat) : (purpose : Purpose) → Except ErrorValue purpose.Result → Prop
  | .call, x => TreeCode.TellsLimit limit x
  | .produce, x => TreeCode.TellsLimit limit x
  | .resume, .error e => e.TellsLimit limit
  | .resume, .ok act => ∃ e : ErrorValue, e.TellsLimit limit ∧
      ∀ m : Machine, m.fault = none → act m = .error (.raised e) m

/-- The task ends with the error of the limit. -/
def Task.TellsLimit {ρ : Type} (limit : Nat) : Task ρ → ρ → Prop
  | .loop _, x | .enter .., x => ∃ e : ErrorValue, x = .error (.raised e) ∧ e.TellsLimit limit
  | .perform purpose _ _, x => purpose.TellsLimit limit x
  | .respond q _, x => q.TellsLimit limit x
  | .apply .., x => TreeCode.TellsLimit limit x
  | .force .., x => TreeCode.TellsLimit limit x
  | .produce .., x => TreeCode.TellsLimit limit x
  | .collect .., x => TreeCode.TellsLimit limit x
  | .settle .., x => TreeCode.TellsLimit limit x

/-- The error stays as it is where a value does not match. -/
lemma ErrorValue.TellsLimit.mismatch {limit e} (h : e.TellsLimit limit)
    (p m) : Machine.mismatch p m e = e := by
  have hkinds : e.isMismatch = false := by
    rw [ErrorValue.isMismatch, h.1]
    decide
  unfold Machine.mismatch
  split
  · rw [ErrorValue.forArgument, if_neg (by rw [h.1]; decide), hkinds]
    rfl
  · rfl

variable {m : Machine}

/-- With the budget spent, the error ends the loop that gets it. -/
lemma ErrorValue.TellsLimit.recover {limit e} (h : e.TellsLimit limit)
    (hm : m.exhausted = true) : ∃ m' e', m.recover e = (m', some e') ∧ e'.TellsLimit limit := by
  unfold Machine.recover openCatch
  rw [if_pos hm]
  exact ⟨_, _, rfl, h⟩

/-! ## Jobs that relay the error -/

variable {limit : Nat}

namespace Job

variable {α β : Type} {R : Except ErrorValue α → Prop} {R' : Except ErrorValue β → Prop}

/-- **The job relays the error of the limit**: as soon as a request is answered with it, the job
ends, with a result of which `R` holds. -/
inductive Relays (limit) (R : Except ErrorValue α → Prop) : Job α → Prop where
  | done (result) : Relays limit R (.done result)
  | ask {held request next}
      (ends : ∀ x, request.TellsLimit limit x → ∃ r, next x = .done r ∧ R r)
      (h : ∀ x, Relays limit R (next x)) : Relays limit R (.ask held request next)

/-- The job ends with the error itself. -/
abbrev Passes (limit : Nat) (j : Job α) : Prop := j.Relays limit (TellsLimit limit)

variable {j : Job α}

lemma Relays.andThen (hj : j.Relays limit R) {f}
    (hR : ∀ r, R r → ∃ r', f r = .done r' ∧ R' r') (hf : ∀ r, (f r).Relays limit R') :
    (j.andThen f).Relays limit R' := by
  induction hj with
  | done res => exact hf res
  | ask ends _ ih =>
    refine .ask (fun x hx => ?_) ih
    obtain ⟨r, hnext, hr⟩ := ends x hx
    rw [hnext]
    exact hR r hr

lemma Relays.holding (hj : j.Relays limit R) (values) :
    (j.holding values).Relays limit R := by
  induction hj with
  | done res => exact .done res
  | ask ends _ ih =>
    refine .ask (fun x hx => ?_) ih
    obtain ⟨r, hnext, hr⟩ := ends x hx
    exact ⟨r, by rw [hnext]; rfl, hr⟩

lemma Relays.mono (hj : j.Relays limit R) {Q}
    (h : ∀ r, R r → Q r) : j.Relays limit Q := by
  induction hj with
  | done res => exact .done res
  | ask ends _ ih => exact .ask (fun x hx => (ends x hx).imp fun r hr => hr.imp_right (h r)) ih

lemma passes_pure (a : α) : Passes limit (pure a) := .done _

lemma passes_fail (e) : Passes limit (Job.fail e : Job α) := .done _

lemma Passes.bind (hj : j.Passes limit) {f : α → Job β}
    (hf : ∀ a, (f a).Passes limit) : (j >>= f).Passes limit := by
  refine hj.andThen (fun r hr => ?_) fun r => ?_
  · cases r with
    | error e => exact ⟨.error e, rfl, hr⟩
    | ok a => exact hr.elim
  · cases r with
    | error e => exact passes_fail e
    | ok a => exact hf a

lemma passes_invoke (f args named) :
    (invoke f args named).Passes limit := .ask (fun x hx => ⟨x, rfl, hx⟩) .done

lemma passes_node (id) : (node id).Passes limit := .ask (fun x hx => ⟨x, rfl, hx⟩) .done

lemma passes_elements (id) : (elements id).Passes limit := .ask (fun x hx => ⟨x, rfl, hx⟩) .done

lemma passes_suspend (s) : (suspend s).Passes limit := .ask nofun fun _ => .done _

end Job

/-! ### The machine's own work -/

section Own

open Job

lemma Suspension.passes_consLater (head : Value) (rest : Suspension) :
    (consLater head rest).Passes limit := (passes_suspend rest).bind fun _ => passes_pure _

lemma Suspension.passes_produce (s : Suspension) : s.produce.Passes limit := by
  unfold produce
  split
  · refine ((passes_invoke ..).bind fun value => ?_).holding _
    exact passes_consLater value _
  · refine ((passes_node _).bind fun n => ?_).holding _
    cases n with
    | empty => exact passes_pure _
    | cons head tail => exact (passes_invoke ..).bind fun value => passes_consLater value _
  · refine ((passes_node _).bind fun n => ?_).holding _
    cases n with
    | empty => exact passes_pure _
    | cons head tail =>
      refine (passes_invoke ..).bind fun kept => ?_
      split
      · exact passes_consLater head _
      · exact passes_pure _
      · exact passes_fail _
  · exact passes_consLater _ _
  · exact passes_pure _
  · exact passes_fail _

lemma Value.passes_elements (v : Value) : v.elements.Passes limit := by
  cases v with
  | stream id => exact Job.passes_elements id
  | _ => exact .done _

lemma Stream.passes_nth? : ∀ i id, (nth? i id).Passes limit
  | 0, id => by
    refine (passes_node id).bind fun n => ?_
    cases n <;> exact passes_pure _
  | i + 1, id => by
    refine Passes.bind ((passes_node id).bind fun n => ?_) fun tail => ?_
    · cases n <;> exact passes_pure _
    · cases tail with
      | none => exact passes_pure _
      | some tail => exact passes_nth? i tail

lemma Value.passes_index (coll key : Value) : (coll.index key).Passes limit := by
  unfold index
  split
  case h_3 id =>
    have hmissing : Passes limit
        (Job.elements id >>= fun es => .ofExcept (elementAt (.stream id) key es)) :=
      (Job.passes_elements id).bind fun _ => .done _
    refine Passes.bind (.done _) fun i => ?_
    dsimp only
    split
    · refine (Stream.passes_nth? _ id).bind fun found => ?_
      cases found with
      | some v => exact passes_pure v
      | none => exact hmissing
    · exact hmissing
  all_goals exact .done _

end Own

/-! ## What the host is entrusted with -/

/-- **Work that is not the machine's own**: that of a function of the host, which the host calls
back or an instruction calls, and that of checking a value. -/
inductive Activity.Entrusts (E : Setting) : Activity → {α : Type} → Job α → Prop where
  | callback {ref : NativeRef} {args named} {m : Machine}
      {native : Native} (hnative : E.host.native? ref.code = some native) :
      Entrusts E (.apply (.native ref) args named m) (native.apply args named)
  | call {native : Native} {code base args named}
      {b m : Machine} {live} (hnative : E.host.native? code = some native) :
      Entrusts E
        (.loop b (.waiting ((native.apply args named).andThen fun r =>
          .pure (finishCall base r)) m) live)
        (native.apply args named)
  | check {k value schema b m live}
      (hdecode : Instruction.decode E.program.code m.origin = .ok (.validate k))
      (hget : E.program.constants[k.toNat]? = some schema) :
      Entrusts E (.loop b (.waiting (validateJob E.program value schema) m) live)
        (Schema.validate value schema)

/-- What the activity entrusts to the host relays the error of the limit. -/
def Activity.Trusts (E : Setting) (limit : Nat) (a : Activity) : Prop :=
  ∀ (α : Type) (job : Job α), a.Entrusts E job → job.Passes limit

/-- The work that the activity is about relays the error of the limit. -/
def Activity.Relays (limit : Nat) : Activity → Prop
  | .loop _ (.waiting job _) _ => job.Relays limit (Purpose.TellsLimit limit .resume)
  | .perform purpose job _ => job.Relays limit (purpose.TellsLimit limit)
  | _ => True

variable {E : Setting}

section Relays

variable {a c : Activity}

/-- **What a loop waits for relays the error**, if what it entrusts to the host does. -/
theorem Progress.Delegated.relays {b : Machine} {p : Progress} {live : List Machine}
    (h : p.Delegated E) (htrusts : (Activity.loop b p live).Trusts E limit) :
    (Activity.loop b p live).Relays limit := by
  have hplain : ∀ {j : Job (Exec Unit)}, j.Passes limit →
      j.Relays limit (Purpose.TellsLimit limit .resume) := by
    intro j hj
    refine hj.mono fun r hr => ?_
    cases r with
    | error e => exact hr
    | ok x => exact hr.elim
  cases p with
  | running m => trivial
  | finished r m => trivial
  | waiting job m =>
    obtain ⟨i, hd, hdelegates⟩ := h
    cases hdelegates with
    | extend _ =>
      exact hplain (((Value.passes_elements _).bind fun _ => Job.passes_pure _).holding _)
    | index _ _ =>
      exact hplain (((Value.passes_index _ _).bind fun _ => Job.passes_pure _).holding _)
    | call hnative _ _ =>
      refine (htrusts _ _ (.call hnative)).andThen (fun r hr => ⟨_, rfl, ?_⟩) fun _ => .done _
      cases r with
      | error e => exact ⟨e, hr, fun m hm => finishCall_error hm _ e⟩
      | ok v => exact hr.elim
    | validate hget _ =>
      refine ((htrusts _ _ (.check hd hget)).holding _).andThen (fun r hr => ?_) fun r => ?_
      · cases r with
        | error e =>
          refine ⟨_, rfl, e, hr, fun m hm => ?_⟩
          rw [reportMismatch_eq hm, hr.mismatch]
        | ok _ => exact hr.elim
      · cases r <;> exact .done _

/-- **Whatever is reached relays the error**, if what is entrusted to the host does. -/
theorem Leads.relays (h : Leads E a c) (ha : a.Relays limit) (htrusts : a.Trusts E limit)
    (htrusts' : c.Trusts E limit) : c.Relays limit := by
  cases h with
  | step => exact (Progress.fault_advance _ _).2.relays htrusts'
  | await => exact ha
  | @resume b m m' live job fuel answer _ =>
    rcases Progress.resume_cases m' answer with ⟨_, heq⟩ | ⟨_, _, heq⟩
    · rw [heq]
      trivial
    · rw [heq]
      trivial
  | native hnative => exact htrusts _ _ (.callback hnative)
  | answer _ =>
    cases ha with
    | ask _ hnext => exact hnext _
  | suspension => exact Suspension.passes_produce _
  | _ => trivial

lemma Reaches.relays (h : Reaches E a c) (ha : a.Relays limit)
    (htrusts : ∀ c, Reaches E a c → c.Trusts E limit) : c.Relays limit := by
  induction h with
  | refl => exact ha
  | tail hreaches hleads ih =>
    exact hleads.relays ih (htrusts _ hreaches) (htrusts _ (hreaches.tail hleads))

end Relays

/-! ## The error on its way out -/

namespace Task

variable {ρ : Type}

/-- The task is over, and ends with the error of the limit. -/
def Over (E : Setting) (limit : Nat) (t : Task ρ) : Prop :=
  ∃ x, t.move E = .now (.ends x t.machine) ∧ t.TellsLimit limit x

/-- The error of what is left to do is that of the task. -/
def Rest.Passes (limit : Nat) (t : Task ρ) : Rest ρ → Prop
  | .ends _ _ => True
  | .goesOn t' => ∀ x, t'.TellsLimit limit x → t.TellsLimit limit x

/-- Nothing is left to do but to end with the error. -/
def Rest.Stops (E : Setting) (limit : Nat) (t : Task ρ) : Rest ρ → Prop
  | .ends x _ => t.TellsLimit limit x
  | .goesOn t' => t'.Over E limit

/-- **A move passes the error on**: that of the task that goes on, and that of the task which is
waited for. -/
def Move.Reports (E : Setting) (limit : Nat) (t : Task ρ) : Move ρ → Prop
  | .now rest => rest.Passes limit t
  | .waits sub next => ∀ fuel y m, sub.run E fuel = some (y, m) → (next y m).Passes limit t ∧
      (m.exhausted = true → sub.TellsLimit limit y → (next y m).Stops E limit t)

/-- A loop that is resumed with the error after the budget is spent is over. -/
lemma over_resume {r} (hm : m.exhausted = true)
    (hfault : m.fault = none) (h : Purpose.TellsLimit limit .resume r) :
    (Task.loop (.resume m r)).Over E limit := by
  have hraised : ∀ {e}, e.TellsLimit limit →
      (Task.loop (.ofResult (.error (.raised e) m))).Over E limit := by
    intro e he
    obtain ⟨m', e', hrec, he'⟩ := he.recover hm
    rw [Progress.ofResult, hrec]
    exact ⟨.error (.raised e'), rfl, e', rfl, he'⟩
  cases r with
  | error e => exact hraised h
  | ok x =>
    obtain ⟨e, he, haction⟩ := h
    rw [Progress.resume, thenNext_error (haction m hfault)]
    exact hraised he

/-- **Every move passes the error on**, if the work that it is about does. -/
theorem reports_of_does {S : Parts} (hS : S.Closed) (hp : E.program = S.program)
    (hh : E.host.Honest) {a : Activity} {t : Task ρ} (ha : a.Does t) (hs : a.Sound S)
    (hrelays : a.Relays limit) : (t.move E).Reports E limit t := by
  cases ha with
  | @loop b p live =>
    cases p with
    | finished res m => trivial
    | running m => exact fun _ => id
    | waiting job m =>
      intro fuel ans m' hrun
      refine ⟨fun _ => id, fun hm htells => over_resume hm ?_ htells⟩
      obtain ⟨hunwinds, hops, hjob⟩ := hs
      rw [run_eq] at hrun
      exact ((safeguards hS hp hh fuel).perform (hunwinds.sound hops) hjob hrun).2.fault
  | @enter tgt f args named m =>
    rw [move]
    split
    · trivial
    · exact fun _ _ _ _ => ⟨trivial, fun _ => id⟩
  | @apply f args named m =>
    cases f with
    | closure c =>
      refine fun _ res m' _ => ⟨trivial, fun _ htells => ?_⟩
      obtain ⟨e, rfl, he⟩ := htells
      exact he
    | native ref =>
      simp only [move]
      split
      · exact fun _ => id
      · trivial
    | _ => trivial
  | @perform purpose job m =>
    cases hrelays with
    | done res => trivial
    | ask ends _ =>
      refine fun _ resp m' _ => ⟨fun _ => id, fun _ htells => ?_⟩
      obtain ⟨r, hnext, hr⟩ := ends resp htells
      show (Task.perform _ _ _).Over E limit
      rw [hnext]
      exact ⟨r, rfl, hr⟩
  | @respond q m =>
    cases q with
    | allocate cell => trivial
    | text value => trivial
    | _ => exact fun _ => id
  | @force stream m =>
    simp only [move]
    split
    · trivial
    · trivial
    · trivial
    · exact fun _ => id
  | @produce stream s m =>
    intro _ produced m' _
    cases produced with
    | error e => exact ⟨trivial, fun _ => id⟩
    | ok produced =>
      refine ⟨?_, fun _ => False.elim⟩
      cases produced with
      | node node => trivial
      | again rest => exact fun _ => id
  | @collect stream found m =>
    intro _ node m' _
    cases node with
    | error e => exact ⟨trivial, fun _ => id⟩
    | ok node =>
      refine ⟨?_, fun _ => False.elim⟩
      cases node with
      | empty => trivial
      | cons head tail => exact fun _ => id
  | @settle values m =>
    cases values with
    | nil => trivial
    | cons v rest =>
      cases v with
      | stream _ =>
        intro _ es m' _
        cases es with
        | error e => exact ⟨trivial, fun _ => id⟩
        | ok es => exact ⟨fun _ => id, fun _ => False.elim⟩
      | _ => exact fun _ => id

/-- **A task that spends the budget ends with the error of the limit**, and at once. -/
def reporting (E : Setting) (limit : Nat) (main : Activity) : Contract where
  pre t := (∃ a, Reaches E main a ∧ a.Does t) ∧
    (t.machine.exhausted = true → t.machine.steps = limit + 1 ∧ t.Over E limit)
  post := fun _ {_} t x m => m.exhausted = true → m.steps = limit + 1 ∧ t.TellsLimit limit x

end Task

section Reported

variable {depth : Nat} (hl : E.limits = { steps := some limit, depth })
include hl

/-- **The step that is one too many** ends its loop with the error that tells the limit. -/
theorem advance_over (hm : m.Sane limit) (hbefore : m.exhausted ≠ true)
    (h : (m.advance E).machine.exhausted = true) : (m.advance E).machine.steps = limit + 1 ∧
      (Task.loop (m.advance E)).Over E limit := by
  have hrefused : ¬m.Counts E.limits := fun hcs =>
    hbefore ((congrArg Prod.snd (clock_advance hcs).1).symm.trans h)
  have hlimit : m.steps = limit := by
    rw [hl, counts_iff] at hrefused
    have hwithin : ¬limit < m.steps := fun hlt => hbefore (hm.mpr hlt)
    omega
  refine ⟨by rw [steps_advance, hlimit], ?_⟩
  have hn : countStep E.limits m
      = .error (.raised (.of "stepLimitExceeded" [("stepLimit", .ofNat limit)]))
          { m.counted with exhausted := true } := by
    have hbind : ∀ k : Machine → Exec Unit,
        ((modify fun m => { m with steps := m.steps + 1 }) >>= fun _ => get >>= k) m
          = k m.counted m.counted := fun _ => rfl
    rw [hl, countStep, hbind]
    dsimp only
    rw [if_pos (show limit < m.counted.steps from hlimit ▸ Nat.lt_succ_self _)]
    rfl
  have hstep := step_exhausted hn
  obtain ⟨m', e', hrec, he'⟩ :=
    (show ErrorValue.TellsLimit limit (.of _ _) from ⟨rfl, rfl⟩).recover (m :=
      { m.counted with exhausted := true }) rfl
  rw [advance, hstep, Progress.ofResult, hrec]
  exact ⟨.error (.raised e'), rfl, e', rfl, he'⟩

/-- **Every run of a task keeps to reporting.** -/
theorem Task.reporting_kept {S : Parts} (hS : S.Closed) (hp : E.program = S.program)
    (hh : E.host.Honest) {main}
    (hmain : ∀ a, Reaches E main a → a.Sound S ∧ a.Timed limit ∧ a.Relays limit) (fuel : Nat)
    {ρ : Type} (t : Task ρ) (ht : (reporting E limit main).pre t) :
    (reporting E limit main).Kept E fuel t (t.move E) := by
  obtain ⟨⟨a, hreaches, ha⟩, hover⟩ := ht
  obtain ⟨hs, htimed, hrelays⟩ := hmain a hreaches
  have hbr : t.Brief := ha.brief htimed
  have hsane : t.machine.Sane limit := ha.machine ▸ htimed.sane
  have hled : (t.move E).Led E a := ha.led
  have hreports := reports_of_does hS hp hh ha hs hrelays
  have hsame : ∀ {m m' : Machine}, m'.clock = m.clock → m.exhausted ≠ true → m'.exhausted ≠ true :=
    fun hc hm hspent => hm ((congrArg Prod.snd hc).symm.trans hspent)
  by_cases hspent : t.machine.exhausted = true
  · obtain ⟨hsteps, x, hmv, htells⟩ := hover hspent
    rw [hmv]
    exact fun _ => ⟨hsteps, htells⟩
  -- What follows a task that was waited for, by whether that spent the budget.
  have hr : ∀ {rest : Rest ρ} {m : Machine}, rest.Led E a → rest.At m.clock →
      rest.Passes limit t → (m.exhausted = true → m.steps = limit + 1 ∧ rest.Stops E limit t) →
      (reporting E limit main).Meets E fuel t rest := by
    intro rest m hled hat hpasses hstops
    cases rest with
    | ends x m' =>
      intro hm'
      obtain ⟨hsteps, htells⟩ := hstops ((congrArg Prod.snd hat).symm.trans hm')
      exact ⟨(steps_of_clock hat).trans hsteps, htells⟩
    | goesOn t' =>
      obtain ⟨c, hleads, hdoes⟩ := hled
      refine ⟨⟨⟨c, hreaches.tail hleads, hdoes⟩, fun ht' => ?_⟩, fun x m' _ hpost hm' => ?_⟩
      · obtain ⟨hsteps, hover⟩ := hstops ((congrArg Prod.snd hat.1).symm.trans ht')
        exact ⟨(steps_of_clock hat.1).trans hsteps, hover⟩
      · exact (hpost hm').imp_right (hpasses x)
  cases hmv : t.move E with
  | waits sub next =>
    rw [hmv] at hled hreports
    obtain ⟨⟨c, hleads, hdoes⟩, hnext⟩ := hled
    obtain ⟨-, hc, -, -⟩ := clock_of_waits hbr hmv
    refine ⟨⟨⟨c, hreaches.tail hleads, hdoes⟩, fun h => absurd h (hsame hc hspent)⟩, ?_⟩
    intro y m hsub hpost
    obtain ⟨hpasses, hstops⟩ := hreports fuel y m hsub
    refine hr (hnext fuel y m hsub) (rest_at hbr hmv (ran_of_run hsub)) hpasses fun hm => ?_
    exact (hpost hm).imp_right (hstops hm)
  | now rest =>
    rw [hmv] at hled hreports
    cases rest with
    | ends x m => exact fun hm => absurd hm (hsame (clock_of_ends hbr hmv).2 hspent)
    | goesOn t' =>
      obtain ⟨c, hleads, hdoes⟩ := hled
      refine ⟨⟨⟨c, hreaches.tail hleads, hdoes⟩, fun ht' => ?_⟩, fun x m' _ hpost hm' => ?_⟩
      · obtain ⟨-, ⟨-, hc⟩ | ⟨hsome, -⟩⟩ := clock_of_goesOn hbr hmv
        · exact absurd ht' (hsame hc hspent)
        · cases t with
          | loop p =>
            cases p with
            | running m =>
              cases hmv
              exact advance_over hl hsane hspent ht'
            | _ => cases hsome
          | _ => cases hsome
      · exact (hpost hm').imp_right (hreports x)

end Reported

/-! ## The outcome of a run -/

namespace Session

/-- **How exceeding the step limit is reported.** If a run of a program that was lowered from a tree
exceeds its limit, then it ends with an error that nothing caught. If what the host is entrusted
with in this run relays the error of the limit, then this is the error that it ends with, in its own
words and at once: no loop has counted another step. -/
theorem step_limit_reported {env : Environment} {e : Expr} {p : Program} {host : Host} {heap : Heap}
    {given : Closure → Prop} (henv : env.Gives Value.ClosureFree)
    (he : ∀ v ∈ e.literals, v.ClosureFree) (hhost : host.Honest) (hlower : e.lower env = .ok p)
    (hsize : p.code.size < UInt32.size) (hsession : Session p host heap given)
    {limit depth fuel : Nat} {outcome : Outcome} {m : Machine} :
    let limited : Setting := ⟨p, host, { steps := some limit, depth }⟩
    (Machine.start heap).run limited fuel = some (outcome, m) → limit < m.steps →
      (∃ raised, outcome = .uncaught raised) ∧
      ((∀ a, Reaches limited (.main heap) a → a.Trusts limited limit) →
        ∃ raised, outcome = .uncaught raised ∧ raised.TellsLimit limit ∧ m.steps = limit + 1) := by
  intro limited hrun hover
  obtain ⟨S, rfl, hS, hmain⟩ := Expr.lower_parts henv he hlower hsize
  obtain ⟨hheap, -⟩ := hsession.sound hS hmain hhost
  have hsafe := (Machine.run_safe hS rfl hhost (.start hheap) hmain hrun).1.1
  obtain ⟨result, m₁, htask, rfl, rfl⟩ := Machine.run_eq_some.mp hrun
  have hsane : (Machine.start heap).started.Sane limit := ⟨nofun, nofun⟩
  have hspent : m₁.exhausted = true := ((Task.ran_of_run htask).sane rfl trivial hsane).mpr hover
  refine ⟨?_, fun htrusts => ?_⟩
  · cases result with
    | ok v =>
      rcases enter_eq_some htask with ⟨-, _, herror⟩ | ⟨_, m₂, -, -, rfl, hdrive⟩
      · cases herror
      · have hvalue :=
          drive_value (p := .running ((Machine.start heap).started.opened 0 .null [] []))
          (rfl : limited.limits = _) trivial hsane nofun hdrive
        exact absurd hspent hvalue
    | error t =>
      cases t with
      | raised raised => exact ⟨raised, rfl⟩
      | fault f => exact absurd rfl (hsafe f)
  · have hreached : ∀ a, Reaches limited (.main heap) a →
        a.Sound S ∧ a.Timed limit ∧ a.Relays limit := by
      intro a hreaches
      exact ⟨Reachable.sound hS hmain rfl hhost ⟨_, .run hsession, hreaches⟩,
        hreaches.timed rfl hsane, hreaches.relays trivial htrusts⟩
    have hbegins : (Task.reporting limited limit (.main heap)).pre
        (.enter 0 .null [] [] (Machine.start heap).started) := ⟨⟨_, .refl, .enter⟩, nofun⟩
    obtain ⟨hsteps, raised, rfl, htells⟩ := Task.Contract.of_run
      (Task.reporting_kept rfl hS rfl hhost hreached) hbegins htask hspent
    exact ⟨raised, rfl, htells, hsteps⟩

/-! ### A run that exceeds its limit in a call by the host -/

lemma selfApplication_apply (f args named) : selfApplication.apply (f :: args) named
    = (Job.invoke f [f] []).holding [.object [("function", f)]] := by
  simp only [Native.apply, selfApplication, Params.bindArguments, Params.bindInOrder,
    Params.bindPositional, Param.value, List.head?, Param.check_any]
  rfl

lemma selfApplication_passes (args named) : (selfApplication.apply args named).Passes limit := by
  cases args with
  | nil => exact .done _
  | cons f args =>
    rw [selfApplication_apply]
    exact .holding (.ask (fun x hx => ⟨x, rfl, hx⟩) fun _ => .done _) _

/-- The host is given a function, which it calls. -/
def callingBack : Expr :=
  .calling (.name "apply" none) [.item (.given [] [] (.array []))] []

def callingBackProgram : Program where
  code := #[2, 0, 32, 64, 12, 33, 48, 24, 3, 67, 25, 68, 32, 68]
  diagnostics := #[none, none, none, none, none, none, none, none, none, some ⟨"apply", false⟩,
    none, none, none, none]
  platform := #[⟨"apply", .native ⟨"apply", 0, 0⟩⟩]
  functions := #[⟨"$main", 0⟩, ⟨"<anonymous>", 12⟩]

lemma lower_callingBack : callingBack.lower handingOverTo = .ok callingBackProgram := by
  with_unfolding_all rfl

lemma callingBack_calls {offset i}
    (h : Instruction.decode callingBackProgram.code offset = .ok i) : i.onlyCalls = true := by
  have hall : (List.range 14).all (fun offset =>
      (Instruction.decode callingBackProgram.code offset).toOption.all (·.onlyCalls)) = true := by
    decide +kernel
  by_cases hlt : offset < 14
  · have hoffset := List.all_eq_true.mp hall offset (List.mem_range.mpr hlt)
    rw [h] at hoffset
    exact hoffset
  · rw [Instruction.decode, Array.getElem?_eq_none (Nat.le_of_not_lt hlt)] at h
    cases h

/-- The seventh step is the call, and the eighth the first of the function that the host calls. -/
lemma callingBack_limited :
    (drive ⟨callingBackProgram, selfApplying, { steps := some 7 }⟩ 39
      (.running ((start {}).started.opened 0 .null [] []))).any (7 < ·.2.steps) = true := by
  obtain ⟨closure, rest, m, hcall, hends⟩ : ∃ closure rest m,
      drive ⟨callingBackProgram, selfApplying, { steps := some 7 }⟩ 39
          (.running ((start {}).started.opened 0 .null [] []))
        = drive ⟨callingBackProgram, selfApplying, { steps := some 7 }⟩ 32
          (.waiting ((selfApplication.apply [.closure closure] []).andThen rest) m)
      ∧ (drive ⟨callingBackProgram, selfApplying, { steps := some 7 }⟩ 32
          (.waiting (((Job.invoke (.closure closure) [.closure closure] []).holding
            [.object [("function", .closure closure)]]).andThen rest) m)).any
          (7 < ·.2.steps) = true :=
    ⟨_, _, _, rfl, by decide +kernel⟩
  rwa [hcall, selfApplication_apply]

/-- The limit that a function exceeds which the host calls is reported. -/
theorem step_limit_reported_callingBack : ∃ m raised,
    callingBack.lower handingOverTo = .ok callingBackProgram
    ∧ (Machine.start {}).run ⟨callingBackProgram, selfApplying, { steps := some 7 }⟩ 40
      = some (.uncaught raised, m) ∧ raised.TellsLimit 7 ∧ m.steps = 8 := by
  obtain ⟨⟨r, m₀⟩, hdrive, hover⟩ := (Option.any_eq_true _ _).mp callingBack_limited
  obtain ⟨m, hrun, hsame⟩ := Machine.run_of_drive (by decide) hdrive
  have hreported := step_limit_reported handingOverTo_gives (List.forall_mem_nil _)
    selfApplying_honest lower_callingBack (by decide) .new hrun (hsame ▸ of_decide_eq_true hover)
  obtain ⟨raised, houtcome, htells, hsteps⟩ := hreported.2 fun a _ α job h => by
    cases h with
    | callback hnative =>
      obtain rfl := eq_selfApplication hnative
      exact selfApplication_passes _ _
    | call hnative =>
      obtain rfl := eq_selfApplication hnative
      exact selfApplication_passes _ _
    | check hdecode _ => cases callingBack_calls hdecode
  exact ⟨m, raised, lower_callingBack, houtcome ▸ hrun, htells, hsteps⟩

end Session

namespace Schema

def accepting : Closure := { id := 0, name := "accept", target := 5, upvalues := [] }

/-- Numbers that a function has to accept. -/
def acceptedNumbers : Value :=
  .object [("type", .string "array"),
    ("elements", .object [("type", .string "number"), ("where", .closure accepting)])]

lemma ofValue_acceptedNumbers : ofValue acceptedNumbers = .typed acceptedNumbers
    (.exactly .array)
      (some (.typed (.object [("type", .string "number"), ("where", .closure accepting)])
      (.exactly .number) none .absent none none
        (some (.closure accepting)))) .absent none none none := by
  simp [acceptedNumbers, ofValue, field, shapeOf, Entries.get?, Entries.contains, TypeTest.ofName?,
    Kind.ofName?, Kind.all, Kind.name]

/-- A program that checks an array of numbers, with the function that has to accept them at the
end. -/
def checkingNumbers : Program where
  code := #[1, 0, 0x62, 1, 68, 1, 2, 68]
  constants := #[.array [.ofNat 1], acceptedNumbers, .boolean true]

/-- The loop has ended in its third step, with an error that does not tell of the limit. -/
def hidesLimit : Except Trap Value × Machine → Bool
  | (.error (.raised e), m) => m.steps == 3 && e.kind != "stepLimitExceeded"
  | _ => false

/-- **A check inside a container does not relay the error of the limit**: it blames the element, and
the run ends with that. -/
theorem check_hides_limit : ∃ raised m,
    (Machine.start {}).run ⟨checkingNumbers, {}, { steps := some 2 }⟩ 20 = some
      (.uncaught raised, m)
      ∧ m.steps = 3 ∧ ¬raised.TellsLimit 2 := by
  have hends : (drive ⟨checkingNumbers, {}, { steps := some 2 }⟩ 19
      (.running ((Machine.start {}).started.opened 0 .null [] []))).any hidesLimit = true := by
    show (drive _ 17
      (.waiting (((validate (.array [.ofNat 1]) acceptedNumbers).holding _).andThen _)
      _)).any _ = _
    rw [validate, bindValue, ofValue_acceptedNumbers]
    decide +kernel
  obtain ⟨⟨r, m⟩, hdrive, htest⟩ := (Option.any_eq_true _ _).mp hends
  unfold hidesLimit at htest
  split at htest
  · next e _ heq =>
    cases heq
    obtain ⟨hsteps, hkind⟩ := Bool.and_eq_true_iff.mp htest
    obtain ⟨m', hrun, hsame⟩ := Machine.run_of_drive (by decide) hdrive
    exact ⟨e, m', hrun, hsame.trans (beq_iff_eq.mp hsteps),
      fun htells => bne_iff_ne.mp hkind htells.1⟩
  · cases htest

end Schema

end TreeCode
