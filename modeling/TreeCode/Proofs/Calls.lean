import TreeCode.Proofs.Stepping

/-!
# The calls of a loop

Code is executed in calls: the loop has at least the call with which the host entered it, as long as
it runs (`Machine.Runs.calls_lt`). What a machine finds when its next instruction calls, returns or
captures is read off from the layout. A loop ends by a return of its first call, if not by an error
(`Machine.goesOn_execute`).
-/

namespace TreeCode

variable {S : Parts} {V : Slots}

/-- Some scope of the layout is that of a call. -/
def Layout.Called (L : Layout) : Prop := ∃ level ∈ L, level.entry ≠ .block

lemma Layout.Called.replace {ks places' cs catches' entry L} (h : Called (⟨ks, cs, entry⟩ :: L)) :
    Called (⟨places', catches', entry⟩ :: L) := by
  obtain ⟨level, hmem, he⟩ := h
  rcases List.mem_cons.mp hmem with rfl | hmem
  · exact ⟨_, List.mem_cons_self, he⟩
  · exact ⟨level, List.mem_cons_of_mem _ hmem, he⟩

lemma Layout.Called.outside {ks cs L}
    (h : Called (⟨ks, cs, .block⟩ :: L)) : Called L := by
  obtain ⟨level, hmem, he⟩ := h
  rcases List.mem_cons.mp hmem with rfl | hmem
  · exact absurd rfl he
  · exact ⟨level, hmem, he⟩

/-- **Code is always that of a call.** -/
theorem Safe.called {T code L} (h : Safe T code L) : L.Called := by
  induction h with
  | forget _ _ ih | step _ _ ih | writeLocal _ _ _ ih | makeFunction _ _ _ _ _ _ ih
  | arrayPopOrDefault _ _ _ ih | objectPopOrDefault _ _ _ _ ih | leaveCatch _ ih => exact ih.replace
  | openScope _ ih => exact ih.outside
  | openCall _ _ ih => exact ih.outside.replace
  | closeScope _ _ ih =>
    obtain ⟨level, hmem, he⟩ := ih.replace
    exact ⟨level, List.mem_cons_of_mem _ hmem, he⟩
  | enterCatch _ _ _ ih | call _ ih =>
    obtain ⟨level, hmem, he⟩ := ih.outside
    exact ⟨level, List.mem_cons_of_mem _ hmem, he⟩
  | ret _ he => exact ⟨_, List.mem_cons_self, he⟩

lemma Stacked.calls_lt {b : Machine} {L ops scopes calls live}
    (h : Stacked S b L ops scopes calls live)
    (hcalled : L.Called) : b.calls.size < calls.length := by
  induction h with
  | base _ =>
    obtain ⟨level, hmem, -⟩ := hcalled
    cases hmem
  | block _ _ _ ih => exact ih hcalled.outside
  | call outer _ _ _ =>
    obtain ⟨own, hcs, -⟩ := outer.calls_eq
    rw [hcs, List.length_cons, List.length_append, Machine.length_callList]
    omega

namespace Machine

variable {b m : Machine} {live : List Machine} {code : Code} {L : Layout}

/-- **A loop has a call of its own.** -/
theorem Runs.calls_lt (h : Runs S V b live m) : b.calls.size < m.calls.size := by
  rw [← length_callList m]
  cases h with
  | safe fits _ safe => exact fits.stacked.calls_lt safe.called
  | constructs h => exact h.fits.stacked.calls_lt h.safe.called.replace

section Next

variable {i : Instruction}

lemma eq_of_decode {j d pc}
    (hat : Code.At S.functions pc (.plain j d :: code))
    (hd : Instruction.decode S.program.code pc = .ok i) : j = i :=
  Except.ok.inj ((decode_plain hat).symm.trans hd)

/-- Code that is safe captures nothing but for a closure that it makes. -/
lemma Safe.keepsFresh (h : Safe S.tables code L) {pc} (hp : Code.At S.functions pc code)
    (hd : Instruction.decode S.program.code pc = .ok i) : keepsFresh i = false := by
  induction h with
  | forget _ _ ih => exact ih hp
  | step effect _ =>
    cases eq_of_decode hp hd
    cases effect <;> rfl
  | makeFunction =>
    cases (Code.decode_at hp).symm.trans hd
    rfl
  | _ =>
    cases eq_of_decode hp hd
    rfl

/-- **A capture is for the closure under construction.** -/
theorem Runs.fresh (h : Runs S V b live m) (hd : Instruction.decode S.program.code m.pc = .ok i)
    (hkeeps : Machine.keepsFresh i = true) :
    ∃ c ops, m.operands = some (.closure c) :: ops ∧ m.fresh = some c.id := by
  cases h with
  | safe _ place safe =>
    rw [Safe.keepsFresh safe place hd] at hkeeps
    cases hkeeps
  | constructs h => exact ⟨_, _, h.operands, h.fresh⟩

/-- What the next instruction is if it neither makes nor completes a closure. -/
lemma Runs.next (h : Runs S V b live m) (hd : Instruction.decode S.program.code m.pc = .ok i)
    (hfresh : Machine.keepsFresh i = false) :
    ∃ L code, Fits S V b L live m ∧ Code.At S.functions m.pc code ∧ Safe S.tables code L := by
  cases h with
  | safe fits place safe => exact ⟨_, _, fits, place, safe⟩
  | @constructs ks cs entry L captures code ops c index f h =>
    cases captures with
    | nil => exact absurd rfl h.more
    | cons j captures =>
      have hi := h.capturable j List.mem_cons_self
      cases eq_of_decode h.place hd
      cases hi <;> cases hfresh

/-- **A machine that is about to return** the value `v` from its innermost call, whose callee lies
at `base`. The first call of the loop returns to the host, and then no catch is open; any other one
returns to code of the loop. -/
structure Returning (b : Machine) (live : List Machine) (m : Machine) (v : Value)
    (ops : List (Option Value)) (base : Nat) (returnTo : Option Nat) (rest : List Call) : Prop where
  operands : m.operands = some v :: ops
  floor : m.floor.stack ≤ ops.length
  calls : m.callList = ⟨base, returnTo⟩ :: rest
  floor_calls : m.floor.calls ≤ rest.length
  host : returnTo = none → base = b.stack.size ∧ rest = b.callList
    ∧ m.scopeList = ⟨b.stack.size, []⟩ :: b.scopeList ∧ live = []
  code : returnTo ≠ none → b.calls.size < rest.length

/-- **How a call returns.** -/
theorem Runs.returns (h : Runs S V b live m)
    (hd : Instruction.decode S.program.code m.pc = .ok .ret) :
    ∃ v ops base returnTo rest, Returning b live m v ops base returnTo rest := by
  obtain ⟨L, code, hf, hp, hs⟩ := h.next hd rfl
  induction hs with
  | forget hk _ ih => exact ih (hf.forget hk) hp
  | @ret d code k ks entry L hk he =>
    obtain ⟨seg, ops, hops, hseg, hfl⟩ := Fits.split (a := [k]) hf
    obtain ⟨x, rfl, hx⟩ := Content.holds_one hseg
    obtain ⟨v, rfl, -⟩ := hx.full hk
    obtain ⟨seg, below, outer, rest, returnTo, -, hsc, hcs, -, entered, hstacked⟩ :=
      hf.stacked.of_call he
    have hfloorCalls : m.floor.calls ≤ rest.length := by
      obtain ⟨own, rfl, -⟩ := hstacked.calls_eq
      rw [hf.floor, List.length_append, length_callList]
      exact Nat.le_add_left ..
    refine ⟨v, ops, _, returnTo, rest, hops, hfl, hcs, hfloorCalls, ?_, ?_⟩
    · rintro rfl
      cases entered
      generalize hL : ([] : Layout) = L at hstacked
      cases hstacked with
      | block => cases hL
      | call => cases hL
      | base _ =>
        rw [length_operands] at hsc ⊢
        exact ⟨rfl, rfl, hsc, rfl⟩
    · intro hsome
      cases entered with
      | host => exact absurd rfl hsome
      | call _ safe => exact hstacked.calls_lt safe.called.outside
  | step effect _ =>
    cases eq_of_decode hp hd
    cases effect
  | makeFunction => cases (Code.decode_at hp).symm.trans hd
  | _ => cases eq_of_decode hp hd

/-- **What a call finds**: its arguments, in a scope of their own. -/
theorem Runs.calls (h : Runs S V b live m)
    (hd : Instruction.decode S.program.code m.pc = .ok .call) :
    ∃ L, Fits S V b (⟨[.object, .array, .value], [], .block⟩ :: L) live m := by
  obtain ⟨L, code, hf, hp, hs⟩ := h.next hd rfl
  induction hs with
  | forget hk _ ih => exact ih (hf.forget hk) hp
  | call => exact ⟨_, hf⟩
  | step effect _ =>
    cases eq_of_decode hp hd
    cases effect
  | makeFunction => cases (Code.decode_at hp).symm.trans hd
  | _ => cases eq_of_decode hp hd

end Next

/-! ## The end of a loop -/

/-- The action does not end the loop. -/
def GoesOn (x : Exec Signal) : Prop := ∀ m v m', x m ≠ .ok (.yield v) m'

lemma GoesOn.bind {α : Type} {x : Exec α} {f} (hf : ∀ a, GoesOn (f a)) :
    GoesOn (x >>= f) := by
  intro m v m' h
  cases hr : x m with
  | ok a m₁ => exact hf a m₁ v m' ((Exec.bind_ok hr).symm.trans h)
  | error t m₁ => cases (Exec.bind_error hr).symm.trans h

lemma goesOn_next : GoesOn (pure .next) := fun _ _ _ h => by cases h

lemma goesOn_await (job) : GoesOn (pure (.await job)) := fun _ _ _ h => by cases h

lemma goesOn_raise (e) : GoesOn (raise e) := fun _ _ _ h => by cases h

lemma goesOn_fail (fault) : GoesOn (fail fault) := fun _ _ _ h => by cases h

lemma goesOn_thenNext (x) : GoesOn (thenNext x) := .bind fun _ => goesOn_next

lemma goesOn_callNative (host : Host) (ref base) :
    GoesOn (callNative host ref base) := by
  rw [callNative_eq]
  refine .bind fun v => ?_
  split
  · refine .bind fun w => ?_
    split
    · split
      · exact goesOn_await _
      · exact goesOn_raise _
    · exact goesOn_fail _
  · exact goesOn_fail _

lemma goesOn_call (host : Host) : GoesOn (call host) := by
  refine .bind fun s => .bind fun f => ?_
  split
  · exact .bind fun _ => goesOn_next
  · exact goesOn_callNative host _ _
  · exact goesOn_raise _

/-- **Only a return ends a loop.** -/
theorem goesOn_execute (p) (host : Host) {i} (hi : i ≠ .ret) :
    GoesOn (execute p host i) := by
  cases i with
  | ret => exact absurd rfl hi
  | call => exact goesOn_call host
  | arrayExtend => exact .bind fun _ => goesOn_await _
  | index => exact .bind fun _ => .bind fun _ => goesOn_await _
  | validate schema => exact .bind fun _ => .bind fun _ => goesOn_await _
  | _ => exact goesOn_thenNext _

end Machine

end TreeCode
