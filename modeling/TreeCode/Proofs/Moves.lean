import TreeCode.Proofs.Alone
import TreeCode.Proofs.Tasks

/-!
# Moves of a dispatch loop

A dispatch loop goes from machine to machine by moves: steps, with the work of the host that they
wait for. `Goes setting n p q` says that `n` moves lead from `p` to `q`, and what a loop comes to
can be read off the moves (`Goes.drive`). A step executes the item of the code that lies where the
loop stands (`advance_at`).
-/

namespace TreeCode

open Machine

/-! ## Moves -/

/-- **A loop moves on**: by a step, and by what the host does alone where the step waits for it. -/
inductive Moves (setting) (m : Machine) : Progress → Prop where
  | step {p} (h : m.advance setting = p) : Moves setting m p
  | work {job m'} (h : m.advance setting = .waiting job m')
      (alone : ∃ least, ∀ fuel, least ≤ fuel →
        perform setting fuel .resume job m' = some (job.alone, m')) :
      Moves setting m (.resume m' job.alone)

/-- **So many moves lead from one place to another.** -/
inductive Goes (setting : Setting) : Nat → Progress → Progress → Prop where
  | refl (p : Progress) : Goes setting 0 p p
  | next {m p q n} (first : Moves setting m p)
      (rest : Goes setting n p q) : Goes setting (n + 1) (.running m) q

namespace Goes

variable {setting : Setting}

lemma trans {n k p q r} (h : Goes setting n p q) (h' : Goes setting k q r) :
    Goes setting (n + k) p r := by
  induction h with
  | refl p => rwa [Nat.zero_add]
  | next first _ ih =>
    rw [Nat.add_right_comm]
    exact .next first (ih h')

lemma one {m p} (h : Moves setting m p) :
    Goes setting 1 (.running m) p := .next h (.refl p)

/-- **What a loop comes to** is what it comes to after some moves. -/
theorem drive {n p q} (h : Goes setting n p q) {x}
    (hq : ∃ least, ∀ fuel, least ≤ fuel → Machine.drive setting fuel q = some x) :
    ∃ least, ∀ fuel, least ≤ fuel → Machine.drive setting fuel p = some x := by
  induction h with
  | refl p => exact hq
  | next first _ ih =>
    obtain ⟨least, hleast⟩ := ih hq
    cases first with
    | step hadvance =>
      refine ⟨least + 1, fun fuel hfuel => ?_⟩
      obtain ⟨fuel, rfl⟩ : ∃ k, fuel = k + 1 := ⟨fuel - 1, by omega⟩
      rw [Machine.drive, hadvance]
      exact hleast fuel (by omega)
    | work hadvance alone =>
      obtain ⟨enough, henough⟩ := alone
      refine ⟨least + enough + 2, fun fuel hfuel => ?_⟩
      obtain ⟨fuel, rfl⟩ : ∃ k, fuel = k + 2 := ⟨fuel - 2, by omega⟩
      rw [Machine.drive, hadvance, Machine.drive, henough fuel (by omega)]
      exact hleast fuel (by omega)

end Goes

/-- A run of the program without limits of steps and time. -/
def Parts.setting (S : Parts) (host : Host) (depth : Nat) : Setting :=
  { program := S.program, host, limits := { depth } }

/-! ## Reading code -/

section Reading

variable {S : Parts} {host : Host} {depth pc : Nat} {m : Machine} {code : Code}

/-- **A step executes the item that lies at `pc`.** -/
theorem advance_at (hpc : m.pc = pc) {item i}
    (hat : Code.At S.functions pc (item :: code))
    (hi : item.instruction (Code.offsetsFrom 0 S.functions) = i) :
    m.advance (S.setting host depth)
      = .ofResult (execute S.program host i (m.fetched i)) := by
  have hd : Instruction.decode S.program.code m.pc = .ok i := by
    rw [hpc, ← hi]
    exact Code.decode_at hat
  have hstep : Machine.step (S.setting host depth) m
      = execute S.program host i (m.fetched i) := step_eq rfl hd
  rw [Machine.advance, hstep]

/-- The name for reports of the instruction that has been read. -/
lemma diagnostic_at_fetched (hpc : m.pc = pc) {i diagnostic}
    (hat : Code.At S.functions pc (.plain i diagnostic :: code)) :
    S.program.diagnostic? (m.fetched i).origin = diagnostic := by
  show S.program.diagnostic? m.pc = diagnostic
  rw [hpc]
  exact Code.diagnostic_at hat

end Reading

end TreeCode
