import TreeCode.Proofs.Reachable

/-!
# The clock of a machine

The clock shows how many steps have been counted and whether a budget is spent. Counting is the
first thing that a step does, and the only thing that ever moves the clock: the instruction that
follows, the work of the host that completes it and recovery from an error are ordinary changes,
which take no time (`Exec.Ordinary`).
-/

namespace TreeCode

lemma Machine.steps_of_clock {m m' : Machine} (h : m'.clock = m.clock) : m'.steps = m.steps :=
  congrArg Prod.fst h

namespace Machine

open Exec

variable (p : Program)

/-! ## Steps -/

/-- What a step does once it has been counted. -/
def uncounted (p : Program) (host : Host) : Exec Signal := do
  let i ← fetch p
  unless keepsFresh i do modify fun m => { m with fresh := none }
  execute p host i

lemma step_eq_bind (S : Setting) :
    step S = countStep S.limits >>= fun _ => uncounted S.program S.host := rfl

lemma brief_uncounted (host : Host) : Brief (uncounted p host) := by
  refine .bind (takes_fetch (n := 0) p).ordinary fun i => ?_
  dsimp only
  split
  · exact brief_execute p host i
  · exact .bind (fun _ => touches_stack rfl (fun _ _ _ => rfl) rfl rfl) fun _ =>
      brief_execute p host i

/-- Recovery leaves calls and scopes, cuts the stack and puts the error there. -/
lemma touches_recover (height : Nat) (m : Machine) (e) :
    Touches height m (m.recover e).1 := by
  have hcut : ∀ scopes base,
      Touches height m ({ (m.leaveCalls base e).1 with scopes }.truncate base) := by
    intro _ base
    refine touches_truncate ?_ ?_ ?_ ?_ base <;> rfl
  unfold recover
  split
  · refine (hcut _ _).trans (touches_stack rfl (fun i _ hi => ?_) rfl rfl)
    exact (Array.getElem?_push_lt hi).trans (Array.getElem?_eq_getElem hi).symm
  · exact hcut _ _

/-- Recovery takes no time. -/
lemma clock_recover (m : Machine) (e) : (m.recover e).1.clock = m.clock :=
  (touches_recover 0 m e).clock

end Machine

variable {m : Machine}

namespace Progress

open Machine

/-- The work that the loop waits for is completed by ordinary changes. -/
def Brief : Progress → Prop
  | .waiting job _ => job.Yields Exec.Ordinary
  | _ => True

/-- What is left to the host comes from the instruction. -/
lemma brief_ofResult {x} (hx : Machine.Brief x) (m) :
    (ofResult (x m)).Brief := by
  cases hr : x m with
  | ok signal m' =>
    cases signal with
    | «await» job => exact hx.signal hr
    | _ => trivial
  | error trap m' =>
    cases trap with
    | fault f => trivial
    | raised e =>
      unfold ofResult
      dsimp only
      split <;> trivial

/-- **Where a loop stands after an instruction**: where the instruction left it, or where recovery
from its error did. -/
theorem touches_ofResult {height x}
    (h : Touches height m (Exec.ending x m)) : Touches height m (ofResult (x m)).machine := by
  unfold Exec.ending at h
  cases hr : x m with
  | ok signal m' =>
    rw [hr] at h
    cases signal <;> exact h
  | error trap m' =>
    rw [hr] at h
    cases trap with
    | fault f => exact h
    | raised e =>
      have hrec := h.trans (touches_recover height m' e)
      unfold ofResult
      dsimp only
      split
      · next heq => rw [heq] at hrec; exact hrec
      · next heq => rw [heq] at hrec; exact hrec

lemma ordinary_resume {r}
    (h : ∀ act, r = .ok act → Exec.Ordinary act) :
    Touches 0 m (resume m r).machine ∧ (resume m r).Brief := by
  have hr : ∀ {x}, Machine.Brief x →
      Touches 0 m (ofResult (x m)).machine ∧ (ofResult (x m)).Brief :=
    fun hx => ⟨touches_ofResult (hx.ordinary m), brief_ofResult hx m⟩
  cases r with
  | ok act => exact hr (.thenNext (h act rfl))
  | error e => exact hr (.raise e)

lemma clock_resume {r} (h : ∀ x, r = .ok x → Exec.Ordinary x) :
    (resume m r).machine.clock = m.clock ∧ (resume m r).Brief :=
  (ordinary_resume h).imp_left Touches.clock

end Progress

namespace Machine

/-- The step is counted, and no budget stands against it. -/
def Counts (limits : Limits) (m : Machine) : Prop := countStep limits m = .ok () m.counted

variable {S : Setting}

lemma advance_counts (h : m.Counts S.limits) :
    m.advance S = .ofResult (uncounted S.program S.host m.counted) := by
  rw [advance, step_eq_bind, Exec.bind_ok h]

/-- The clock after a step that is counted. -/
lemma clock_advance (h : m.Counts S.limits) :
    (m.advance S).machine.clock = (m.steps + 1, m.exhausted) ∧ (m.advance S).Brief := by
  rw [advance_counts h]
  have hbr := brief_uncounted S.program S.host
  exact ⟨(Progress.touches_ofResult (hbr.ordinary m.counted)).clock,
    Progress.brief_ofResult hbr m.counted⟩

/-- With a budget spent, an error ends its loop. -/
lemma recover_exhausted (h : m.exhausted = true) (e) :
    ∃ m' e', m.recover e = (m', some e') := by
  unfold recover openCatch
  rw [if_pos h]
  exact ⟨_, _, rfl⟩

/-- A step that is refused ends its loop: nothing is executed and nothing catches the error. -/
lemma advance_refused (h : ¬m.Counts S.limits) :
    ∃ e e' m', step S m = .error (.raised e) { m.counted with exhausted := true } ∧
      m.advance S = .finished (.error (.raised e')) m' ∧ m'.clock = (m.steps + 1, true) := by
  obtain hcs | ⟨e, hrefused, -⟩ := countStep_cases m S.limits
  · exact absurd hcs h
  · have hstep := step_exhausted hrefused
    obtain ⟨m', e', hrec⟩ := @recover_exhausted { m.counted with exhausted := true } rfl e
    refine ⟨e, e', m', hstep, ?_, ?_⟩
    · rw [advance, hstep, Progress.ofResult, hrec]
    · have hc := clock_recover { m.counted with exhausted := true } e
      rw [hrec] at hc
      exact hc

lemma steps_advance (S) (m : Machine) : (m.advance S).machine.steps = m.steps + 1 := by
  by_cases h : m.Counts S.limits
  · exact congrArg Prod.fst (clock_advance h).1
  · obtain ⟨_, _, _, _, hadvance, hc⟩ := advance_refused h
    rw [hadvance]
    exact congrArg Prod.fst hc

lemma brief_advance (S) (m : Machine) : (m.advance S).Brief := by
  by_cases h : m.Counts S.limits
  · exact (clock_advance h).2
  · obtain ⟨_, _, _, _, hadvance, _⟩ := advance_refused h
    rw [hadvance]
    trivial

end Machine

end TreeCode
