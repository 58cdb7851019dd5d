import TreeCode.Proofs.Reachable

/-!
# Errors and their catches

Where an error goes that is raised in a loop of a program, be it by an instruction, by the host in
completing one, or inside a callback. The catches of a loop that are open are those that it has
executed and neither left nor recovered at, and the innermost of them receives the error.
-/

namespace TreeCode

open Machine

/-- **An error is raised in a loop** by an instruction, or when the host has worked for one: with
the machine that entered the loop, the open catches, the error, the machine that it is raised on,
and where the loop stands afterwards. -/
inductive Raises (setting) :
    Activity → Machine → List Machine → ErrorValue → Machine → Progress → Prop where
  | step {b m raised live e}
      (h : Machine.step setting m = .error (.raised e) raised) :
      Raises setting (.loop b (.running m) live) b (liveAfterStep setting m live) e raised
        (m.advance setting)
  | answer {b m m' raised live e job fuel answer}
      (hperform : Machine.perform setting fuel .resume job m = some (answer, m'))
      (h : m'.answered answer = .error (.raised e) raised) :
      Raises setting (.loop b (.waiting job m) live) b live e raised (.resume m' answer)

/-- What raises an error leaves a machine that can be unwound, and the error goes to recovery. -/
lemma Raises.unwinds {S : Parts} (hS : S.Closed) {setting : Setting}
    (hprogram : setting.program = S.program) (hh : setting.host.Honest) {a b m live e next}
    (h : Raises setting a b live e m next) (ha : a.Sound S) :
    e.Only S.Owns ∧ Unwinds S .all b live m ∧ next = .ofResult (.error (.raised e) m) := by
  cases h with
  | @step b m₀ raised live e hstep =>
    have hlands := Runs.step hS hprogram hh ha fun _ _ => reserves_all
    rw [hstep] at hlands
    exact ⟨hlands.1, hlands.2, by rw [advance, hstep]⟩
  | @answer b m₀ m' raised live e job fuel answer hperform hanswered =>
    obtain ⟨hunwinds, hops, hjob⟩ := ha
    obtain ⟨hanswer, hk⟩ := (safeguards hS hprogram hh fuel).perform (hunwinds.sound hops) hjob
      hperform
    have hlands := hunwinds.answered hk hanswer
    rw [hanswered] at hlands
    exact ⟨hlands.1, hlands.2, by rw [resume_eq, hanswered]⟩

/-- **An error goes to the innermost open catch**, and the machine goes on as the catch left it,
with the error on top. If no catch is open, the loop ends with the error and the stacks are those
that it was entered with. Either way the trace has grown by the names of the calls that were
left. -/
theorem Session.error_reaches_innermost_catch {env : Environment} {e : Expr} {setting : Setting}
    (henv : env.Gives Value.ClosureFree) (he : ∀ v ∈ e.literals, v.ClosureFree)
    (hhost : setting.host.Honest) (hlower : e.lower env = .ok setting.program)
    (hsize : setting.program.code.size < UInt32.size) {a : Activity}
    (hreach : Session.Reachable setting a) {b m : Machine} {live : List Machine}
    {error : ErrorValue} {next : Progress} (hraises : Raises setting a b live error m next)
    (hlimit : m.exhausted = false) : (∀ point rest, live = point :: rest →
      ∃ m' left, next = .running m' ∧ Resumes setting.program point error m m' left) ∧
    (live = [] → ∃ m' error' left, next = .finished (.error (.raised error')) m'
      ∧ Abandons b error m m' error' left) := by
  obtain ⟨S, hprogram, hS, hmain⟩ := Expr.lower_parts henv he hlower hsize
  obtain ⟨herror, hunwinds, rfl⟩ :=
    hraises.unwinds hS hprogram hhost (hreach.sound hS hmain hprogram hhost)
  constructor
  · rintro point rest rfl
    obtain ⟨m', left, hrecover, -, hresumes⟩ := hunwinds.recover_caught hlimit herror
    exact ⟨m', left, by rw [Progress.ofResult, hrecover], hprogram ▸ hresumes⟩
  · intro hnone
    obtain ⟨m', error', left, hrecover, -, -, habandons⟩ :=
      hunwinds.recover_uncaught (.inr hnone) herror
    exact ⟨m', error', left, by rw [Progress.ofResult, hrecover], habandons⟩

/-! ### An error in a definition -/

namespace Session

/-- So many steps of a loop that goes on, with its open catches. -/
def stepped (S : Setting) : Nat → Machine → List Machine → Option (Machine × List Machine)
  | 0, m, live => some (m, live)
  | n + 1, m, live =>
    match Machine.step S m with
    | .ok .next m' => stepped S n m' (liveAfterStep S m live)
    | _ => none

lemma reaches_stepped {S b m' live'} :
    ∀ {n m live}, stepped S n m live = some (m', live') →
      Reaches S (.loop b (.running m) live) (.loop b (.running m') live')
  | 0, m, live, h => by
    cases h
    exact .refl
  | n + 1, m, live, h => by
    rw [stepped] at h
    split at h
    · next m₁ hstep =>
      have hl : Leads S (.loop b (.running m) live) _ := .step
      rw [advance, hstep] at hl
      exact (reaches_stepped h).head hl
    · cases h

/-- A tree whose program is tested after so many steps. -/
lemma reachable_of_any {e : Expr} {n : Nat} {t : Program → Machine × List Machine → Bool}
    (h : (e.lower {}).toOption.any (fun p => decide (p.code.size < UInt32.size)
      && (stepped ⟨p, {}, {}⟩ n ((start {}).started.opened 0 .null [] []) []).any (t p)) = true) :
    ∃ p m live, e.lower {} = .ok p ∧ p.code.size < UInt32.size
      ∧ Reachable ⟨p, {}, {}⟩ (.loop (start {}).started (.running m) live)
      ∧ t p (m, live) = true := by
  obtain ⟨p, hl, htest⟩ := Expr.lowers_of_any h
  obtain ⟨hs, htest⟩ := Bool.and_eq_true_iff.mp htest
  obtain ⟨⟨m, live⟩, hstepped, htest⟩ := (Option.any_eq_true _ _).mp htest
  exact ⟨p, m, live, hl, of_decide_eq_true hs,
    ⟨_, .run .new, (reaches_stepped hstepped).head (.enter (Nat.zero_lt_succ _))⟩, htest⟩

/-- A variable is read by its own definition, inside a catch. -/
def readingTooEarly : Expr := .catching (.defining [(.name "x", .name "x" none)] (.name "x" none))

def raisesInCatch (p : Program) (s : Machine × List Machine) : Bool :=
  match liveAfterStep ⟨p, {}, {}⟩ s.1 s.2, Machine.step ⟨p, {}, {}⟩ s.1 with
  | [_], .error (.raised e) raised => e.kind = "nameUsedBeforeAssignment" ∧ raised.exhausted = false
  | _, _ => false

/-- The fifth instruction of the program raises an error while a catch is open. -/
lemma readingTooEarly_raises : ∃ p b m live point e raised,
    readingTooEarly.lower {} = .ok p ∧ p.code.size < UInt32.size
      ∧ Reachable ⟨p, {}, {}⟩ (.loop b (.running m) live)
      ∧ liveAfterStep ⟨p, {}, {}⟩ m live = [point]
      ∧ Machine.step ⟨p, {}, {}⟩ m = .error (.raised e) raised
      ∧ e.kind = "nameUsedBeforeAssignment" ∧ raised.exhausted = false := by
  obtain ⟨p, m, live, hl, hs, hr, htest⟩ :=
    reachable_of_any (e := readingTooEarly) (n := 4) (t := raisesInCatch) (by decide +kernel)
  unfold raisesInCatch at htest
  split at htest
  · next point e raised hlive hstep =>
    obtain ⟨hkind, hlimit⟩ := of_decide_eq_true htest
    exact ⟨p, _, m, live, point, e, raised, hl, hs, hr, hlive, hstep, hkind, hlimit⟩
  · cases htest

lemma empty_gives : ({} : Environment).Gives Value.ClosureFree where
  names _ _ h := by cases h
  modules _ _ _ _ h := by cases h
  library _ _ h := by cases h
  sources _ _ h := by cases h

/-- The catch receives the error of the variable that is not assigned yet. -/
theorem error_reaches_innermost_catch_readingTooEarly :
    ∃ p point e m m' left, readingTooEarly.lower {} = .ok p
      ∧ e.kind = "nameUsedBeforeAssignment" ∧ Resumes p point e m m' left := by
  obtain ⟨p, b, m, live, point, e, raised, hlower, hsize, hreach, hlive, hstep, hkind, hlimit⟩ :=
    readingTooEarly_raises
  have hhost : ({} : Host).Honest := fun code n hn => by cases hn
  obtain ⟨hcaught, -⟩ := error_reaches_innermost_catch empty_gives
    (show ∀ v ∈ readingTooEarly.literals,
      v.ClosureFree from List.forall_mem_nil _) hhost hlower hsize
    hreach (.step hstep) hlimit
  obtain ⟨m', left, -, hresumes⟩ := hcaught point [] hlive
  exact ⟨p, point, e, raised, m', left, hlower, hkind, hresumes⟩

end Session

end TreeCode
