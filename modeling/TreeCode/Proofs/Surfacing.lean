import TreeCode.Proofs.Landing
import TreeCode.Proofs.Tasks

/-!
# Faults of nested loops

A function of the host may call closures back, each in a loop of its own. If such a loop stops with
a fault, the host function gets an error for it, and the machine keeps the fault for the instruction
that the host is working for. Whether the run ends with the fault is up to that instruction: a call
of a host function always takes the fault that is kept, a validation takes it if it fails, and the
two instructions that read streams never do.

`Task.lastFault` is the last fault with which a nested loop stopped. It is never lost: `Task.ledger`
says that it is still kept afterwards, or that the loop took it and stopped with it.
-/

namespace TreeCode

open Machine

/-! ## What instructions do with the fault that is kept -/

/-- The action leaves the fault that is kept alone, however it ends. -/
def Exec.Discreet {α : Type} (x : Exec α) : Prop := ∀ m, (Exec.ending x m).fault = m.fault

variable {m : Machine} {f : Fault} {setting : Setting} {job : Job (Exec Unit)} {i : Instruction}
  {fuel offset : Nat}

namespace Machine

lemma confined_all (m : Machine) : m.Confined (fun _ => True) (· = m.fault) :=
  ⟨fun _ _ _ _ => trivial, fun _ _ _ _ => trivial, fun _ _ _ _ => trivial,
    m.heap.only_of_forall fun _ => trivial, rfl⟩

lemma discreet_of_stays (p) {x : Exec Unit}
    (h : ∀ J o pc, Stays (fun _ => True) J p o pc x) :
    Exec.Discreet x := by
  intro m
  have hx := h (· = m.fault) m.origin m.pc m m.confined_all.stands
  unfold Exec.ending
  cases hr : x m with
  | ok _ m' =>
    rw [hr] at hx
    exact hx.1.fault
  | error t m' =>
    rw [hr] at hx
    cases t with
    | raised e => exact hx.1.fault
    | fault f => exact hx.1.fault

lemma fault_recover (m : Machine) (e) : (m.recover e).1.fault = m.fault := by
  unfold recover
  split <;> rfl

/-- An action that takes the fault first stops with it. -/
lemma takeFault_stops (h : m.fault = some f) (x) :
    Progress.resume m (.ok (do takeFault; x))
      = .finished (.error (.fault f)) { m with fault := none } := by
  have haction : (do takeFault; x : Exec Unit) m = .error (.fault f) { m with fault := none } :=
    Exec.bind_error (takeFault_kept h)
  show Progress.ofResult (thenNext (do takeFault; x) m) = _
  rw [thenNext_error haction]
  rfl

end Machine

variable {ans : Except ErrorValue (Exec Unit)}

namespace Progress

/-- **The loop waits for work of an instruction** if it waits. -/
def Delegated (setting : Setting) : Progress → Prop
  | .waiting job m => ∃ i, Instruction.decode setting.program.code m.origin = .ok i
      ∧ Delegates setting.program setting.host (fun _ => True) i job
  | _ => True

/-- A step leaves the fault that is kept alone. -/
lemma fault_advance (setting) (m : Machine) :
    (m.advance setting).machine.fault = m.fault ∧ (m.advance setting).Delegated setting := by
  have h := confined_advance setting.program.route_all m.confined_all trivial
  refine ⟨h.machine.fault, ?_⟩
  cases hp : m.advance setting with
  | waiting job m' =>
    rw [hp] at h
    exact h.2.2.2
  | running m' => trivial
  | finished r m' => trivial

/-- So does an instruction that is completed by a discreet action, or by an error. -/
lemma fault_resume (h : ∀ x, ans = .ok x → (Exec.ending x m).fault = m.fault) :
    (resume m ans).machine.fault = m.fault ∧ (resume m ans).Delegated setting := by
  have hraised : ∀ m' e, m'.fault = m.fault →
      (ofResult (.error (.raised e) m')).machine.fault = m.fault
        ∧ (ofResult (.error (.raised e) m')).Delegated setting := by
    intro m' e hfault
    have hrec := (fault_recover m' e).trans hfault
    unfold ofResult
    dsimp only
    split
    · next heq =>
      rw [heq] at hrec
      exact ⟨hrec, trivial⟩
    · next heq =>
      rw [heq] at hrec
      exact ⟨hrec, trivial⟩
  cases ans with
  | error e => exact hraised m e rfl
  | ok x =>
    have hfault := h x rfl
    show (ofResult (thenNext x m)).machine.fault = m.fault
      ∧ (ofResult (thenNext x m)).Delegated setting
    unfold Exec.ending at hfault
    cases hr : x m with
    | ok _ m' =>
      rw [hr] at hfault
      rw [thenNext_ok hr]
      exact ⟨hfault, trivial⟩
    | error t m' =>
      rw [hr] at hfault
      rw [thenNext_error hr]
      cases t with
      | raised e => exact hraised m' e hfault
      | fault f => exact ⟨hfault, trivial⟩

end Progress

/-- **The instructions that report the fault of a nested loop**: the call of a host function, and a
validation that fails. -/
def Instruction.Reports (p : Program) (i : Instruction)
    (ans : Except ErrorValue (Exec Unit)) : Prop :=
  i = .call ∨ ∃ k e, i = .validate k ∧ ans = .ok (reportMismatch p e)

/-- The instruction leaves no work to the host, but for calls. -/
def Instruction.onlyCalls : Instruction → Bool
  | .arrayExtend | .index | .validate _ => false
  | _ => true

/-- What a job gives that ends with an action, whatever another gives before. -/
lemma Machine.answer_of_perform {α : Type} {Q : Exec Unit → Prop}
    {f : Except ErrorValue α → Job (Exec Unit)} (hf : ∀ r, ∃ x, f r = .done (.ok x) ∧ Q x) :
    ∀ {fuel : Nat} {job : Job α} {m m' ans},
      perform setting fuel .resume (job.andThen f) m = some (ans, m') →
      ∃ x, ans = .ok x ∧ Q x
  | 0, _, _, _, _, h => by simp [perform] at h
  | fuel + 1, .done r, m, m', ans, h => by
    obtain ⟨x, haction, hQ⟩ := hf r
    rw [Job.andThen, haction, perform] at h
    cases h
    exact ⟨x, rfl, hQ⟩
  | fuel + 1, .ask held q next, m, m', ans, h => by
    rw [Job.andThen, perform] at h
    split at h
    · cases h
    · exact answer_of_perform hf h

variable {m' : Machine}

/-- **What happens to the fault that is kept when an instruction is completed.** An instruction that
reports it stops the loop, whatever catches are open. Every other one leaves it alone, and so do all
of them if there is none. -/
theorem Machine.Delegates.completed
    (h : Delegates setting.program setting.host (fun _ => True) i job)
    (hp : perform setting fuel .resume job m = some (ans, m')) :
    (i.Reports setting.program ans → ∀ f, m'.fault = some f →
      Progress.resume m' ans = .finished (.error (.fault f)) { m' with fault := none }) ∧
    (¬i.Reports setting.program ans ∨ m'.fault = none →
      (Progress.resume m' ans).machine.fault = m'.fault
        ∧ (Progress.resume m' ans).Delegated setting) := by
  -- What leaves the fault alone needs no case for one that is kept.
  have hdiscreet : ∀ {j : Job (Exec Unit)}, j.Yields Exec.Discreet →
      perform setting fuel .resume j m = some (ans, m') →
      (Progress.resume m' ans).machine.fault = m'.fault
        ∧ (Progress.resume m' ans).Delegated setting := by
    intro j hj hp
    refine Progress.fault_resume fun x haction => ?_
    subst haction
    exact yields_of_perform hj hp m'
  cases h with
  | @extend sequence _ =>
    refine ⟨?_, fun _ => hdiscreet (Job.Yields.holding _ (Job.Yields.bind (fun es => ?_) _)) hp⟩
    · rintro (hcall | ⟨_, _, hvalidate, _⟩)
      · cases hcall
      · cases hvalidate
    · exact discreet_of_stays setting.program fun _ _ _ => stays_appendElements fun _ _ _ _ =>
        trivial
  | @index coll key _ _ =>
    refine ⟨?_, fun _ => hdiscreet (Job.Yields.holding _ (Job.Yields.bind (fun v => ?_) _)) hp⟩
    · rintro (hcall | ⟨_, _, hvalidate, _⟩)
      · cases hcall
      · cases hvalidate
    · exact discreet_of_stays setting.program fun _ _ _ => stays_push fun _ _ => trivial
  | @call native code base args named _ _ _ =>
    obtain ⟨_, rfl, r, rfl⟩ := answer_of_perform (Q := fun x => ∃ r, x = finishCall base r)
      (fun r => ⟨_, rfl, r, rfl⟩) hp
    refine ⟨fun _ f hf => takeFault_stops hf _, fun h => ?_⟩
    have hn : m'.fault = none := h.resolve_left fun hnot => hnot (.inl rfl)
    refine Progress.fault_resume fun x haction => ?_
    cases haction
    unfold Exec.ending
    cases r with
    | ok v => rw [finishCall_ok hn]; rfl
    | error e => rw [finishCall_error hn]
  | @validate k schema value _ _ =>
    obtain ⟨_, rfl, haction⟩ := answer_of_perform
      (Q := fun x => x = pure () ∨ ∃ e, x = reportMismatch setting.program e)
      (fun r => by
        cases r with
        | ok _ => exact ⟨_, rfl, .inl rfl⟩
        | error e => exact ⟨_, rfl, .inr ⟨e, rfl⟩⟩) hp
    constructor
    · rintro (hcall | ⟨_, e, _, hreport⟩) f hf
      · cases hcall
      · rw [hreport]
        exact takeFault_stops hf _
    · intro h
      refine Progress.fault_resume fun x heq => ?_
      cases heq
      rcases haction with rfl | ⟨e, rfl⟩
      · rfl
      · have hn : m'.fault = none := h.resolve_left fun hnot => hnot (.inr ⟨k, e, rfl, rfl⟩)
        unfold Exec.ending
        rw [reportMismatch_eq hn]

/-! ## The last fault of nested loops -/

namespace Task

variable {ρ σ : Type}

/-- The fault that a loop has stopped with. -/
def fault? : Task ρ → ρ → Option Fault
  | .enter .., .error (.fault f) => some f
  | _, _ => none

def Rest.lastFault (last : Task ρ → Option Fault) : Rest ρ → Option Fault
  | .ends _ _ => none
  | .goesOn task => last task

/-- **The last fault with which a nested loop stopped** while the task ran on so much fuel. -/
def lastFault (setting : Setting) : Nat → {ρ : Type} → Task ρ → Option Fault
  | 0, _, _ => none
  | fuel + 1, _, t =>
    match t.move setting with
    | .now rest => rest.lastFault (lastFault setting fuel)
    | .waits sub next =>
      match sub.run setting fuel with
      | none => lastFault setting fuel sub
      | some (y, m) => ((next y m).lastFault (lastFault setting fuel)).or
          ((sub.fault? y).or (lastFault setting fuel sub))

lemma lastFault_now {t : Task ρ} {rest} (h : t.move setting = .now rest) (fuel) :
    t.lastFault setting (fuel + 1) = rest.lastFault (lastFault setting fuel) := by
  rw [lastFault, h]

lemma lastFault_waited {t : Task ρ} {sub : Task σ} {next y}
    (h : t.move setting = .waits sub next) (hrun : sub.run setting fuel = some (y, m)) :
    t.lastFault setting (fuel + 1) = ((next y m).lastFault (lastFault setting fuel)).or
      ((sub.fault? y).or (sub.lastFault setting fuel)) := by
  rw [lastFault, h]
  dsimp only
  rw [hrun]

/-- **What becomes of the fault `kept`**: it is the one that is left, or the loop has stopped with
it. -/
def Disposes : Task ρ → ρ → (kept left : Option Fault) → Prop
  | .loop _, r, kept, left | .enter .., r, kept, left =>
      left = kept ∨ left = none ∧ ∃ f, kept = some f ∧ r = .error (.fault f)
  | _, _, kept, left => left = kept

/-- The fault that is kept after a task is the last that was left to it, or the loop has stopped
with that one. -/
def ledger (setting : Setting) : Contract where
  pre
    | .loop p => p.Delegated setting
    | _ => True
  post fuel _ t x m := t.Disposes x ((t.lastFault setting fuel).or t.machine.fault) m.fault

/-- The task is work of the host. -/
def OfHost : Task ρ → Prop
  | .loop _ | .enter .. => False
  | _ => True

lemma disposes_ofHost {t : Task ρ} (h : t.OfHost) {x kept left} :
    t.Disposes x kept left ↔ left = kept := by
  cases t with
  | loop p => exact h.elim
  | enter tgt f args named m => exact h.elim
  | _ => exact Iff.rfl

/-- What is left to do begins with the fault `kept`, and is work of the host. -/
def Rest.Has (kept : Option Fault) : Rest ρ → Prop
  | .ends _ m => m.fault = kept
  | .goesOn t => t.machine.fault = kept ∧ t.OfHost

/-- The move leaves the fault that is kept to other work of the host. -/
def Move.Has (kept : Option Fault) : Move ρ → Prop
  | .now rest => rest.Has kept
  | .waits sub next => sub.machine.fault = kept ∧ sub.OfHost ∧ ∀ y m, (next y m).Has m.fault

lemma ledger_pre_ofHost {t : Task ρ} (h : t.OfHost) : (ledger setting).pre t := by
  cases t with
  | loop p => exact h.elim
  | _ => trivial

/-- Work of the host that does no more than other work of the host. -/
lemma ledger_kept_of_has {t : Task ρ} (ht : t.OfHost)
    (h : (t.move setting).Has t.machine.fault) : (ledger setting).Kept setting fuel t
      (t.move setting) := by
  have hr : ∀ {kept last : Option Fault} {rest : Rest ρ}, rest.Has kept →
      t.lastFault setting (fuel + 1) = (rest.lastFault (lastFault setting fuel)).or last →
      last.or t.machine.fault = kept → (ledger setting).Meets setting fuel t rest := by
    intro kept last rest hhas hl hk
    cases rest with
    | ends x m =>
      refine (disposes_ofHost ht).mpr ?_
      rw [hl, hhas]
      exact hk.symm
    | goesOn t' =>
      refine ⟨ledger_pre_ofHost hhas.2, fun x m _ hpost => (disposes_ofHost ht).mpr ?_⟩
      rw [(disposes_ofHost hhas.2).mp hpost, hhas.1, hl, Option.or_assoc, hk]
      rfl
  cases hm : t.move setting with
  | now rest =>
    rw [hm] at h
    exact hr h ((lastFault_now hm fuel).trans (Option.or_none).symm) rfl
  | waits sub next =>
    rw [hm] at h
    obtain ⟨hsub, hh, hnext⟩ := h
    refine ⟨ledger_pre_ofHost hh, fun y m hrun hpost => ?_⟩
    have hn : sub.fault? y = none := by
      cases sub with
      | enter tgt f args named m => exact hh.elim
      | _ => rfl
    refine hr (hnext y m) (lastFault_waited hm hrun) ?_
    rw [hn, Option.none_or, ← hsub]
    exact ((disposes_ofHost hh).mp hpost).symm

/-- Running a loop that has ended. -/
lemma run_finished {r x}
    (h : (Task.loop (.finished r m)).run setting fuel = some (x, m')) :
    x = r ∧ m' = m ∧ (Task.loop (.finished r m)).lastFault setting fuel = none := by
  cases fuel with
  | zero => cases h
  | succ fuel =>
    cases h
    exact ⟨rfl, rfl, rfl⟩

/-- **Every move keeps the ledger.** -/
theorem ledger_kept (fuel) (t : Task ρ) (h : (ledger setting).pre t) :
    (ledger setting).Kept setting fuel t (t.move setting) := by
  cases t with
  | loop p =>
    cases p with
    | finished r m => exact .inl rfl
    | running m =>
      obtain ⟨hfault, hdelegated⟩ := Progress.fault_advance setting m
      refine ⟨hdelegated, fun x m' _ hpost => ?_⟩
      have hk : ((Task.loop (m.advance setting)).lastFault setting fuel).or
          (m.advance setting).machine.fault
            = ((Task.loop (.running m)).lastFault setting (fuel + 1)).or m.fault := by
        rw [hfault]
        rfl
      show Disposes (.loop (.running m)) x _ _
      exact hk ▸ hpost
    | waiting job m =>
      obtain ⟨i, -, hdelegates⟩ := h
      refine ⟨trivial, fun ans m' hrun hpost => ?_⟩
      obtain ⟨hreports, hleaves⟩ := hdelegates.completed ((run_eq ..).symm.trans hrun)
      have hl : (Task.loop (.waiting job m)).lastFault setting (fuel + 1)
          = ((Task.loop (.resume m' ans)).lastFault setting fuel).or
            ((Task.perform .resume job m).lastFault setting fuel) :=
        lastFault_waited (t := Task.loop (.waiting job m)) rfl hrun
      have hk : m'.fault = ((Task.perform .resume job m).lastFault setting fuel).or m.fault := hpost
      by_cases hstops : i.Reports setting.program ans ∧ m'.fault ≠ none
      · obtain ⟨f, hf⟩ := Option.ne_none_iff_exists'.mp hstops.2
        have hr := hreports hstops.1 f hf
        show (ledger setting).Meets setting fuel _ (.goesOn (.loop (.resume m' ans)))
        rw [hr] at hl ⊢
        refine ⟨trivial, fun x m'' hends _ => .inr ?_⟩
        obtain ⟨rfl, rfl, hn⟩ := run_finished hends
        refine ⟨rfl, f, ?_, rfl⟩
        rw [hl, hn, Option.none_or, ← hf, hk]
        rfl
      · obtain ⟨hfault, hdelegated⟩ := hleaves ((not_and_or.mp hstops).imp_right not_not.mp)
        refine ⟨hdelegated, fun x m'' _ hends => ?_⟩
        have hsame : ((Task.loop (.resume m' ans)).lastFault setting fuel).or
            (Progress.resume m' ans).machine.fault
              = ((Task.loop (.waiting job m)).lastFault setting (fuel + 1)).or m.fault := by
          rw [hl, Option.or_assoc, ← hk, hfault]
        show Disposes (.loop (.waiting job m)) x _ _
        exact hsame ▸ hends
  | enter tgt fn args named m =>
    by_cases hdeep : setting.limits.depth ≤ m.depth
    · have hm : (Task.enter tgt fn args named m).move setting
          = .now (.ends (.error (.raised (tooDeep setting.limits.depth))) m) := if_pos hdeep
      rw [hm]
      refine .inl ?_
      rw [lastFault_now hm]
      rfl
    · have hm : (Task.enter tgt fn args named m).move setting
          = .waits (.loop (.running (m.opened tgt fn args named))) fun r m' =>
            .ends r (m'.closed m.suspended) := if_neg hdeep
      rw [hm]
      refine ⟨trivial, fun r m' hrun hpost => ?_⟩
      have hl := lastFault_waited hm hrun
      show Disposes (.enter tgt fn args named m) r
        (((Task.enter tgt fn args named m).lastFault setting (fuel + 1)).or m.fault) m'.fault
      rw [hl]
      exact hpost
  | apply fn args named m =>
    cases fn with
    | closure c =>
      refine ⟨trivial, fun r m' hrun hpost => ?_⟩
      have hl := lastFault_waited (t := Task.apply (.closure c) args named m) rfl hrun
      show (answerOf (r, m')).2.fault
        = ((Task.apply (.closure c) args named m).lastFault setting (fuel + 1)).or m.fault
      rw [hl]
      -- A loop that has not stopped with a fault has left the one that was kept.
      rcases hpost with hleft | ⟨-, f, -, rfl⟩
      · cases r with
        | ok v => exact hleft
        | error t =>
          cases t with
          | raised e => exact hleft
          | fault f => rfl
      · rfl
    | native ref =>
      refine ledger_kept_of_has trivial ?_
      simp only [move]
      split
      · exact ⟨rfl, trivial⟩
      · rfl
    | _ => exact ledger_kept_of_has trivial rfl
  | perform purpose job m =>
    cases job with
    | done res => exact ledger_kept_of_has trivial rfl
    | ask held q next => exact ledger_kept_of_has trivial ⟨rfl, trivial, fun _ _ => ⟨rfl, trivial⟩⟩
  | respond q m =>
    cases q with
    | allocate cell => exact ledger_kept_of_has trivial rfl
    | text value => exact ledger_kept_of_has trivial rfl
    | _ => exact ledger_kept_of_has trivial ⟨rfl, trivial⟩
  | force id m =>
    refine ledger_kept_of_has trivial ?_
    simp only [move]
    split
    · rfl
    · rfl
    · rfl
    · exact ⟨rfl, trivial⟩
  | produce id s m =>
    refine ledger_kept_of_has trivial ⟨rfl, trivial, fun r m' => ?_⟩
    cases r with
    | error e => rfl
    | ok produced =>
      cases produced with
      | node node => rfl
      | again rest => exact ⟨rfl, trivial⟩
  | collect id found m =>
    refine ledger_kept_of_has trivial ⟨rfl, trivial, fun r m' => ?_⟩
    cases r with
    | error e => rfl
    | ok node =>
      cases node with
      | empty => rfl
      | cons head tail => exact ⟨rfl, trivial⟩
  | settle values m =>
    cases values with
    | nil => exact ledger_kept_of_has trivial rfl
    | cons v rest =>
      cases v with
      | stream id =>
        refine ledger_kept_of_has trivial ⟨rfl, trivial, fun r m' => ?_⟩
        cases r with
        | error e => rfl
        | ok es => exact ⟨rfl, trivial⟩
      | _ => exact ledger_kept_of_has trivial ⟨rfl, trivial⟩

/-- **The last fault of nested loops is never lost.** -/
theorem disposes_of_run {t : Task ρ} {x}
    (h : (ledger setting).pre t) (hrun : t.run setting fuel = some (x, m)) :
    t.Disposes x ((t.lastFault setting fuel).or t.machine.fault) m.fault :=
  (ledger setting).of_run (fun fuel _ t => ledger_kept fuel t) h hrun

end Task

/-! ## Loops whose instructions report -/

namespace Progress

/-- **What a loop comes by**: it steps, and resumes after work of the host. -/
inductive Passes (setting) : Progress → Progress → Prop where
  | refl (p) : Passes setting p p
  | step {m q} (h : Passes setting (m.advance setting) q) :
      Passes setting (.running m) q
  | resume {m m' job fuel ans q}
      (hperform : perform setting fuel .resume job m = some (ans, m'))
      (h : Passes setting (.resume m' ans) q) : Passes setting (.waiting job m) q

/-- **Wherever nested loops leave a fault to the loop**, they do it at an instruction that
reports. -/
def Reported (setting : Setting) (p : Progress) : Prop :=
  ∀ {job m fuel ans m'}, Passes setting p (.waiting job m) →
    perform setting fuel .resume job m = some (ans, m') → m'.fault ≠ none →
    ∃ i, Instruction.decode setting.program.code m.origin = .ok i ∧ i.Reports setting.program ans

lemma delegated_resume (h : (waiting job m).Delegated setting)
    (hp : perform setting fuel .resume job m = some (ans, m')) :
    (resume m' ans).Delegated setting := by
  obtain ⟨i, -, hdelegates⟩ := h
  obtain ⟨hreports, hleaves⟩ := hdelegates.completed hp
  by_cases hstops : i.Reports setting.program ans ∧ m'.fault ≠ none
  · obtain ⟨f, hf⟩ := Option.ne_none_iff_exists'.mp hstops.2
    rw [hreports hstops.1 f hf]
    trivial
  · exact (hleaves ((not_and_or.mp hstops).imp_right not_not.mp)).2

/-- In code whose only work for the host are calls every fault is reported. -/
lemma reported_of_calls (hc : ∀ offset i, Instruction.decode setting.program.code offset = .ok i →
    i.onlyCalls = true) {p : Progress} (h : p.Delegated setting) : p.Reported setting := by
  intro job m fuel ans m' hpasses hp hfault
  generalize hq : waiting job m = q at hpasses
  induction hpasses with
  | refl p =>
    subst hq
    obtain ⟨i, hd, hdelegates⟩ := h
    have honly := hc _ _ hd
    refine ⟨i, hd, ?_⟩
    cases hdelegates with
    | extend _ => cases honly
    | index _ _ => cases honly
    | validate _ _ => cases honly
    | call _ _ _ => exact .inl rfl
  | step _ ih => exact ih (fault_advance setting _).2 hq
  | resume hbefore _ ih => exact ih (delegated_resume h hbefore) hq

/-- **A loop whose instructions report stops with the last fault that was left to it.** -/
theorem stops_of_reported : ∀ {fuel} {p : Progress} {r} {m : Machine},
    p.Delegated setting → p.machine.fault = none → p.Reported setting →
    (Task.loop p).run setting fuel = some (r, m) →
    m.fault = none ∧ ∀ f, (Task.loop p).lastFault setting fuel = some f → r = .error (.fault f)
  | 0, p, r, m, _, _, _, hrun => by cases hrun
  | fuel + 1, .finished r' m', r, m, _, hn, _, hrun => by
    cases hrun
    exact ⟨hn, nofun⟩
  | fuel + 1, .running m', r, m, _, hn, hreported, hrun => by
    obtain ⟨hfault, hdelegated⟩ := fault_advance setting m'
    exact @stops_of_reported fuel _ _ _ hdelegated (hfault.trans hn)
      (fun hpasses => hreported (.step hpasses)) hrun
  | fuel + 1, .waiting job m', r, m, hdelegated, hn, hreported, hrun => by
    rw [Task.run] at hrun
    simp only [Task.move] at hrun
    split at hrun
    · cases hrun
    · next ans m₁ hsub =>
      have hp : perform setting fuel .resume job m' = some (ans, m₁) :=
        (Task.run_eq ..).symm.trans hsub
      have hl := Task.lastFault_waited (t := Task.loop (.waiting job m')) rfl hsub
      have hk : m₁.fault
          = ((Task.perform .resume job m').lastFault setting fuel).or m'.fault :=
        Task.disposes_of_run (t := .perform .resume job m') trivial hsub
      have hbefore : m'.fault = none := hn
      rw [hbefore, Option.or_none] at hk
      obtain ⟨i, hd, hdelegates⟩ := hdelegated
      obtain ⟨hreports, hleaves⟩ := hdelegates.completed hp
      by_cases hf : m₁.fault = none
      · obtain ⟨hfault, hnext⟩ := hleaves (.inr hf)
        have hlater := @stops_of_reported fuel _ _ _ hnext (hfault.trans hf)
          (fun hpasses => hreported (.resume hp hpasses)) hrun
        refine ⟨hlater.1, fun f hlastf => hlater.2 f ?_⟩
        rw [hl, ← hk, hf] at hlastf
        exact (Option.or_none).symm.trans hlastf
      · obtain ⟨f, hf'⟩ := Option.ne_none_iff_exists'.mp hf
        obtain ⟨j, hj, hreport⟩ := hreported (.refl _) hp hf
        obtain rfl : i = j := Except.ok.inj (hd.symm.trans hj)
        have hr := hreports hreport f hf'
        rw [hr] at hl
        have hends :
          (Task.loop (.finished (.error (.fault f)) { m₁ with fault := none })).run setting fuel
            = some (r, m) := hr ▸ hrun
        obtain ⟨rfl, rfl, hend⟩ := Task.run_finished hends
        refine ⟨rfl, fun f' hlastf => ?_⟩
        have hsome : (Task.loop (.waiting job m')).lastFault setting (fuel + 1) = m₁.fault := by
          have hnothing : Task.Rest.lastFault (Task.lastFault setting fuel) (.goesOn (.loop
              (.finished (.error (.fault f)) { m₁ with fault := none }))) = none := hend
          rw [hl, hnothing, hk]
          rfl
        rw [hsome, hf'] at hlastf
        cases hlastf
        rfl

end Progress

/-! ## Runs and calls by the host -/

lemma Machine.outcomeOfCall_eq_fault {r} :
    outcomeOfCall r m = .fault f ↔ m.fault = some f := by
  unfold outcomeOfCall
  split
  · next g hg => rw [hg, Outcome.fault.injEq, Option.some.injEq]
  · next hn => simp [hn]
  · next hn => simp [hn]

/-- **Faults of nested loops surface**, or are still kept after the run. They surface if the
instructions of the run that they were left to report them, and always in a call by the host, which
leaves none behind. -/
theorem Machine.nested_faults_surface (setting : Setting) (m₀ : Machine) :
    (∀ fuel outcome m, m₀.run setting fuel = some (outcome, m) →
      ∀ last, (Task.enter 0 .null [] [] m₀.started).lastFault setting fuel = last →
        (m.fault = last.or m₀.fault
          ∨ m.fault = none ∧ ∃ f, last.or m₀.fault = some f ∧ outcome = .fault f)
        ∧ (m₀.fault = none →
            (Progress.running (m₀.started.opened 0 .null [] [])).Reported setting →
            m.fault = none ∧ ∀ f, last = some f → outcome = .fault f))
    ∧ ∀ callee args named fuel outcome m, m₀.invoke setting callee args named fuel = some
      (outcome, m) →
        m.fault = none ∧ ∀ f, outcome = .fault f
          ↔ ((Task.apply callee args named m₀.started).lastFault setting fuel).or m₀.fault
            = some f := by
  constructor
  · rintro fuel outcome m h last rfl
    obtain ⟨⟨r, m₁⟩, henter, hdone⟩ := Option.bind_eq_some_iff.mp h
    cases hdone
    have hrun : (Task.enter 0 .null [] [] m₀.started).run setting fuel = some (r, m₁) :=
      (Task.run_eq ..).trans henter
    constructor
    · rcases Task.disposes_of_run (t := .enter 0 .null [] [] m₀.started) trivial hrun with
        hleft | ⟨hnone, f, hf, rfl⟩
      · exact .inl hleft
      · exact .inr ⟨hnone, f, hf, rfl⟩
    · intro hnone hreported
      cases fuel with
      | zero => cases hrun
      | succ fuel =>
        by_cases hdeep : setting.limits.depth ≤ m₀.depth
        · have hmove : (Task.enter 0 .null [] [] m₀.started).move setting
              = .now (.ends (.error (.raised (tooDeep setting.limits.depth))) m₀.started) :=
                if_pos hdeep
          rw [Task.run, hmove] at hrun
          cases hrun
          rw [Task.lastFault_now hmove]
          exact ⟨hnone, fun f hf => by cases hf⟩
        · have hmove : (Task.enter 0 .null [] [] m₀.started).move setting
              = .waits (.loop (.running (m₀.started.opened 0 .null [] []))) fun r m' =>
                .ends r (m'.closed m₀.started.suspended) := if_neg hdeep
          rw [Task.run, hmove] at hrun
          dsimp only at hrun
          split at hrun
          · cases hrun
          · next r' m' hloop =>
            cases hrun
            have hdelegated :
              (Progress.running (m₀.started.opened 0 .null [] [])).Delegated setting :=
              trivial
            obtain ⟨hleft, hstops⟩ := Progress.stops_of_reported hdelegated hnone hreported hloop
            rw [Task.lastFault_waited hmove hloop]
            exact ⟨hleft, fun f hf => congrArg Outcome.ofResult (hstops f hf)⟩
  · intro callee args named fuel outcome m h
    obtain ⟨⟨r, m₁⟩, happly, hdone⟩ := Option.bind_eq_some_iff.mp h
    cases hdone
    have hrun : (Task.apply callee args named m₀.started).run setting fuel = some (r, m₁) :=
      (Task.run_eq ..).trans happly
    have hkept : m₁.fault
        = ((Task.apply callee args named m₀.started).lastFault setting fuel).or m₀.fault :=
      Task.disposes_of_run (t := .apply callee args named m₀.started) trivial hrun
    refine ⟨rfl, fun f => ?_⟩
    rw [← hkept]
    exact outcomeOfCall_eq_fault

/-! ### Callbacks that fault -/

namespace Program

/-- A function at an offset, for the host to call back. -/
def callbackAt (target : Nat) : Value := .closure { id := 0, name := "callback", target, upvalues :=
    [] }

/-- A catch around the call of a host function, and a function that takes its named arguments for an
array. -/
def callingHost : Program where
  code := #[0x18, 0, 0x60, 9, 0x02, 0, 0x20, 0x30, 0x18, 3, 0x43, 0x19, 0x61, 0x19, 0x44, 0x23,
    0x44]
  platform := #[⟨"apply", .native ⟨"apply", 0, 0⟩⟩]

/-- The same, with the first element of what the host function returns. -/
def indexingResult : Program where
  code := #[0x18, 0, 0x60, 12, 0x02, 0, 0x20, 0x30, 0x18, 3, 0x43, 0x19, 0x01, 0, 0x50, 0x61, 0x19,
    0x44, 0x23, 0x44]
  constants := #[.ofNat 1]
  platform := #[⟨"generate", .native ⟨"generate", 0, 0⟩⟩]

/-- The host function calls the function of `callingHost` back. -/
def callingBack : Host :=
  { natives := #[{ params := {}, body := fun _ => Job.invoke (callbackAt 15) [] [] }] }

/-- The host function returns a stream that is made by the function of `indexingResult`. -/
def generating : Host :=
  { natives := #[{ params := {}, body := fun _ => do
      return .stream (← Job.suspend (.successors .null (callbackAt 18))) }] }

lemma onlyCalls_callingHost
    (h : Instruction.decode callingHost.code offset = .ok i) : i.onlyCalls = true := by
  have hall : ∀ k : Fin 17, (Instruction.decode callingHost.code k).toOption.all (·.onlyCalls)
    = true := by
    decide
  by_cases hlt : offset < 17
  · have hk := hall ⟨offset, hlt⟩
    rw [h] at hk
    exact hk
  · rw [Instruction.decode, Array.getElem?_eq_none (Nat.le_of_not_lt hlt)] at h
    cases h

end Program

open Program

/-- The fault of a callback is what the run comes to, and the catch around the call does not get
it. -/
theorem Machine.nested_faults_surface_callingHost : ∃ outcome m,
    (start {}).run ⟨callingHost, callingBack, {}⟩ 40 = some (outcome, m)
      ∧ outcome = .fault (.notAnArray 15) ∧ m.fault = none := by
  have hruns : ((start {}).run ⟨callingHost, callingBack, {}⟩ 40).isSome = true := by decide +kernel
  obtain ⟨⟨outcome, m⟩, hrun⟩ := Option.isSome_iff_exists.mp hruns
  have hlast : (Task.enter 0 .null [] [] (start {}).started).lastFault
    ⟨callingHost, callingBack, {}⟩ 40
      = some (.notAnArray 15) := by decide +kernel
  have hdelegated : (Progress.running ((start {}).started.opened 0 .null [] [])).Delegated
      ⟨callingHost, callingBack, {}⟩ := trivial
  have hreported : Progress.Reported ⟨callingHost, callingBack, {}⟩ _ :=
    Progress.reported_of_calls (fun _ _ => onlyCalls_callingHost) hdelegated
  obtain ⟨hnone, hfault⟩ :=
    ((nested_faults_surface _ (start {})).1 40 outcome m hrun _ hlast).2 rfl hreported
  exact ⟨outcome, m, hrun, hfault _ rfl, hnone⟩

def gaveValueDespite (f : Fault) : Outcome × Machine → Bool
  | (.value _, m) => m.fault = some f
  | _ => false

/-- **The fault of a nested loop is caught** where an element of a stream is read: the run comes to
a value, and the machine still keeps the fault. -/
theorem Machine.nested_fault_caught : ∃ v m,
    (start {}).run ⟨indexingResult, generating, {}⟩ 40 = some (.value v, m)
      ∧ (Task.enter 0 .null [] [] (start {}).started).lastFault ⟨indexingResult, generating, {}⟩ 40
          = some (.notAnArray 18)
      ∧ m.fault = some (.notAnArray 18) := by
  have hruns : ((start {}).run ⟨indexingResult, generating, {}⟩ 40).any
      (gaveValueDespite (.notAnArray 18)) = true := by decide +kernel
  obtain ⟨result, hrun, hfault⟩ := (Option.any_eq_true _ _).mp hruns
  unfold gaveValueDespite at hfault
  split at hfault
  · next v m => exact ⟨v, m, hrun, by decide +kernel, of_decide_eq_true hfault⟩
  · cases hfault

end TreeCode
