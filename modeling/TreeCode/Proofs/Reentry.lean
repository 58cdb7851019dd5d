import TreeCode.Proofs.Regime
import TreeCode.Proofs.Touches

/-!
# Re-entry

Whatever the program is, a dispatch loop that a host function starts leaves the scopes and calls of
the outer loop alone and ends at the height at which it began: no instruction reaches below the
floor, nor does recovery (`Machine.Above`). So each step of the loop stays above the machine that
entered it, and the nested loops restore what they found (`Machine.Restored`).

Nor does anything that runs change a node of a stream that is not pending (`Heap.Spares`): such a
node is resolved or has failed for good, or it is being forced, and then it is left to the one who
is forcing it.
-/

namespace TreeCode

/-! ## Streams that are spared -/

/-- **Nodes that are not pending stay as they are.** -/
def Heap.Spares (h h' : Heap) : Prop :=
  ∀ (id : StreamId) (cell : StreamCell), h.streams[id]? = some cell → (∀ s, cell ≠ .pending s) →
    h'.streams[id]? = some cell

namespace Heap.Spares

variable {h h' : Heap}

lemma of_streams (heq : h'.streams = h.streams) : h.Spares h' := by
  intro id cell hc _
  rw [heq]
  exact hc

lemma trans {h''} (h₁ : h.Spares h') (h₂ : h'.Spares h'') : h.Spares h'' :=
  fun id cell hc hn => h₂ id cell (h₁ id cell hc hn) hn

lemma addStream (h : Heap) (cell) : h.Spares (h.addStream cell).2 := by
  intro id c hc _
  obtain ⟨hlt, heq⟩ := Array.getElem?_eq_some_iff.mp hc
  show (h.streams.push cell)[id]? = some c
  rw [Array.getElem?_push_lt hlt, heq]

/-- A pending node is marked as being forced, and gets what it comes to. -/
lemma settled {id s} (hp : h.streamCell id = .pending s)
    (hk : (h.setStream id .forcing).Spares h') (cell) :
    h.Spares (h'.setStream id cell) := by
  intro other c hc hn
  have hne : id ≠ other := by
    rintro rfl
    rw [streamCell, hc] at hp
    exact hn s hp
  rw [setStream, Array.getElem?_setIfInBounds_ne hne]
  refine hk other c ?_ hn
  rw [setStream, Array.getElem?_setIfInBounds_ne hne]
  exact hc

end Heap.Spares

variable {n : Nat} {m : Machine}

namespace Machine

variable {b : Machine}

/-! ## Recovery -/

lemma catchAmong_spec {scopes floor} :
    ∀ {count index s}, catchAmong scopes floor count = some (index, s) →
      floor ≤ index ∧ index < count ∧ scopes[index]? = some s
  | 0, _, _, h => by cases h
  | count + 1, index, s, h => by
    rw [catchAmong] at h
    split at h
    · cases h
    · next hfl =>
      split at h
      · next t ht =>
        split at h
        · obtain ⟨h1, h2, h3⟩ := catchAmong_spec h
          exact ⟨h1, by omega, h3⟩
        · cases h
          exact ⟨by omega, by omega, ht⟩
      · obtain ⟨h1, h2, h3⟩ := catchAmong_spec h
        exact ⟨h1, by omega, h3⟩

lemma length_callsAmong (calls floor base) :
    ∀ count, (callsAmong calls floor base count).length ≤ count - floor
  | 0 => by simp [callsAmong]
  | count + 1 => by
    have ih := length_callsAmong calls floor base count
    rw [callsAmong]
    split
    · simp
    · split
      · split
        · rw [List.length_cons]
          omega
        · simp
      · simp

lemma Above.leaveCalls (h : Above b m) (base e) :
    Above b (m.leaveCalls base e).1 := by
  have hlen := length_callsAmong m.calls m.floor.calls base m.calls.size
  have hle : m.floor.calls ≤ m.calls.size := by
    obtain ⟨above, heq, -⟩ := h.calls
    rw [h.floor_calls, ← length_callList, heq, List.length_append]
    omega
  refine h.dropCalls ?_ hle
  show m.floor.calls ≤ m.calls.size - (m.callsFrom base).length
  unfold callsFrom
  omega

/-- Recovery cuts the stacks at or above the floor. -/
lemma Above.recover (h : Above b m) (e) : Above b (m.recover e).1 := by
  have hle : m.floor.scopes ≤ m.scopes.size := by
    obtain ⟨above, heq, -⟩ := h.scopes
    rw [h.floor_scopes, ← length_scopeList, heq, List.length_append]
    omega
  unfold Machine.recover
  split
  · next index base t os hcatch =>
    have hc : catchAmong m.scopes m.floor.scopes m.scopes.size = some (index, ⟨base, t :: os⟩) := by
      unfold openCatch at hcatch
      split at hcatch
      · cases hcatch
      · exact hcatch
    obtain ⟨hfl, -, hget⟩ := catchAmong_spec hc
    have hbase : b.stack.size ≤ base := by
      rw [h.floor_scopes] at hfl
      exact h.scopes.getElem (i := index) (by simpa [scopeList] using hget) hfl
    have hcut : Above b { (m.leaveCalls base e).1 with scopes := m.scopes.shrink index } :=
      (h.leaveCalls base e).dropScopes hfl hle
    have hput := hcut.pushScope (s := ⟨base, os⟩) hbase
    refine (hput.truncate hbase).congr rfl rfl ?_ rfl rfl
    have := (hput.truncate hbase).stack
    simp only [Array.size_push]
    exact Nat.le_succ_of_le this
  · have hcut : Above b { (m.leaveCalls m.floor.stack e).1 with
        scopes := m.scopes.shrink m.floor.scopes } :=
      (h.leaveCalls m.floor.stack e).dropScopes (Nat.le_refl _) hle
    exact hcut.truncate (Nat.le_of_eq h.floor_stack.symm)

lemma streams_recover (m : Machine) (e) :
    (m.recover e).1.heap.streams = m.heap.streams := by
  unfold Machine.recover
  split
  · exact m.heap.streams_closeCells _
  · exact m.heap.streams_closeCells _

end Machine

/-- Any job handles closures of which nothing is asked. -/
lemma Job.Yields.handles {α : Type} {Q P} (hP : ∀ c, P c) :
    ∀ {j : Job α}, j.Yields Q → j.Handles P Q
  | .done (.ok _), h => .done h
  | .done (.error _), _ => .done fun _ _ c _ => hP c
  | .ask _ q _, h => .ask (q.only_of_forall hP) fun x _ => handles hP (h x)

lemma Job.handles_of_forall {α : Type} {Q P} (hP : ∀ c, P c)
    (hQ : ∀ a, Q a) : ∀ j : Job α, j.Handles P Q
  | .done (.ok a) => .done (hQ a)
  | .done (.error _) => .done fun _ _ c _ => hP c
  | .ask _ q next => .ask (q.only_of_forall hP) fun x _ => handles_of_forall hP hQ (next x)

/-! ## Steps -/

namespace Machine

open Exec

variable (b : Machine)

/-- The machine works above the one that entered the loop, and has spared its streams. -/
structure Upholds (b m : Machine) : Prop extends Above b m where
  streams : b.heap.Spares m.heap

/-- What an instruction leaves: a machine above the floor, and work whose completion keeps it
there. -/
def Signal.Stays : Signal → Machine → Prop
  | .await job, m => Upholds b m ∧ job.Yields (Keeps (Upholds b))
  | _, m => Upholds b m

lemma stays_thenNext {x} (h : Keeps (Upholds b) x) :
    Triple (Upholds b) (Upholds b) (thenNext x) (Signal.Stays b) :=
  h.bind fun _ => triple_pure fun _ hm => hm

variable {b}

lemma poised_of_above (h : Above b m) : m.Poised (some b) 0 n :=
  ⟨margin_at_bottom n m, fun _ hb => Option.mem_some.mp hb ▸ h⟩

lemma Upholds.passes {m'} (h : Upholds b m) (hp : Passes (some b) 0 m m') :
    Upholds b m' :=
  ⟨hp.aloft (poised_of_above (n := 0) h.toAbove).aloft b rfl,
    h.streams.trans (.of_streams hp.streams)⟩

lemma keeps_of_takes {α : Type} {x : Exec α} {k} (h : Takes (some b) n k x) :
    Keeps (Upholds b) x := by
  intro m hm
  have habove := hm.passes (h 0 m (poised_of_above hm.toAbove)).1
  unfold ending at habove
  cases hr : x m <;> rw [hr] at habove <;> exact habove

/-- **No instruction reaches below the floor.** -/
theorem stays_execute (p : Program) (host : Host) (i : Instruction) :
    Triple (Upholds b) (Upholds b) (execute p host i) (Signal.Stays b) := by
  intro m hm
  obtain ⟨hpasses, hsignal⟩ := passes_execute p host i m (poised_of_above hm.toAbove)
  have habove := hm.passes hpasses
  unfold ending at habove
  cases hr : execute p host i m with
  | error t m' =>
    rw [hr] at habove
    exact habove
  | ok signal m' =>
    rw [hr] at habove
    cases signal with
    | «await» job =>
      obtain ⟨k, -, hjob⟩ := hsignal hr
      exact ⟨habove, hjob.mono fun _ haction => keeps_of_takes haction⟩
    | _ => exact habove

lemma stays_step (S : Setting) :
    Triple (Upholds b) (Upholds b) (step S) (Signal.Stays b) := by
  refine Triple.bind (Q := fun _ => Upholds b) (fun m hm => ?_) fun _ =>
    (keeps_of_takes (takes_fetch (n := 0) S.program)).bind fun i => ?_
  · rcases countStep_cases m S.limits with h | ⟨e, h, -⟩ <;> rw [h]
    · exact ⟨hm.congr rfl rfl hm.stack rfl rfl, hm.streams⟩
    · exact ⟨hm.congr rfl rfl hm.stack rfl rfl, hm.streams⟩
  dsimp only
  split
  · exact stays_execute S.program S.host i
  · refine Triple.bind (triple_modify fun m hm => ?_) fun _ => stays_execute S.program S.host i
    exact ⟨hm.congr rfl rfl hm.stack rfl rfl, hm.streams⟩

end Machine

namespace Progress

/-- The loop aloft above the floor, and the work that it waits for will leave it there. -/
def Above (b : Machine) : Progress → Prop
  | .running m => Machine.Upholds b m
  | .waiting job m => Machine.Upholds b m ∧ job.Yields (Exec.Keeps (Machine.Upholds b))
  | .finished _ m => Machine.Upholds b m

variable {b : Machine}

lemma above_raised (e) (h : Machine.Upholds b m) :
    (ofResult (.error (.raised e) m)).Above b := by
  have hr : Machine.Upholds b (m.recover e).1 :=
    ⟨h.toAbove.recover e, h.streams.trans (.of_streams (m.streams_recover e))⟩
  rw [ofResult]
  generalize m.recover e = recovered at hr
  obtain ⟨m', e'⟩ := recovered
  cases e' <;> exact hr

lemma above_ofResult {x}
    (hx : Exec.Triple (Machine.Upholds b) (Machine.Upholds b) x (Machine.Signal.Stays b))
    (hm : Machine.Upholds b m) : (ofResult (x m)).Above b := by
  have h := hx m hm
  cases hr : x m with
  | ok signal m' =>
    rw [hr] at h
    cases signal with
    | next => exact h
    | «yield» v => exact h
    | «await» job => exact h
  | error trap m' =>
    rw [hr] at h
    cases trap with
    | raised e => exact above_raised e h
    | fault f => exact h

lemma above_resume (hm : Machine.Upholds b m) {r}
    (h : ∀ x, r = .ok x → Exec.Keeps (Machine.Upholds b) x) : (resume m r).Above b := by
  cases r with
  | ok x => exact above_ofResult (Machine.stays_thenNext b (h x rfl)) hm
  | error e => exact above_raised e hm

end Progress

/-! ## Nested loops restore what they found -/

namespace Machine

/-- **A machine as it was**, but for its operands, its heap and its budgets: the scopes with their
open catches, the calls, the height of the operand stack, the place in the code, the floor and the
depth. -/
structure Restored (m m' : Machine) : Prop where
  scopes : m'.scopes = m.scopes
  calls : m'.calls = m.calls
  height : m'.stack.size = m.stack.size
  pc : m'.pc = m.pc
  origin : m'.origin = m.origin
  floor : m'.floor = m.floor
  depth : m'.depth = m.depth

namespace Restored

lemma refl (m) : Restored m m := ⟨rfl, rfl, rfl, rfl, rfl, rfl, rfl⟩

lemma trans {m₁ m₂ m₃} (h : Restored m₁ m₂) (h' : Restored m₂ m₃) : Restored m₁ m₃ :=
  ⟨h'.scopes.trans h.scopes, h'.calls.trans h.calls, h'.height.trans h.height, h'.pc.trans h.pc,
    h'.origin.trans h.origin, h'.floor.trans h.floor, h'.depth.trans h.depth⟩

lemma above {b m'} (h : Restored m m') (hm : Above b m) : Above b m' :=
  hm.congr h.scopes h.calls (by rw [h.height]; exact hm.stack) h.floor h.depth

end Restored

lemma upholds_opened (m : Machine) (t f args named) : Upholds m (m.opened t f args named) where
  scopes := ⟨[{ base := m.stack.size }], by simp [opened, scopeList, heights], by simp⟩
  calls := ⟨[{ base := m.stack.size, returnTo := none }], by simp [opened, callList, heights],
    by simp⟩
  stack := by simp [opened]
  floor := rfl
  depth := rfl
  streams := .of_streams rfl

/-- Cutting the stacks at the floor gives back those of the machine that entered. -/
lemma Above.closed {b} (h : Above b m) : Restored b (m.closed b.suspended) where
  scopes := by
    obtain ⟨above, heq, -⟩ := h.scopes
    show m.scopes.shrink m.floor.scopes = b.scopes
    rw [h.floor_scopes, shrink_eq heq, scopeList, List.reverse_reverse]
  calls := by
    obtain ⟨above, heq, -⟩ := h.calls
    show m.calls.shrink m.floor.calls = b.calls
    rw [h.floor_calls, shrink_eq heq, callList, List.reverse_reverse]
  height := by
    show (m.stack.shrink m.floor.stack).size = b.stack.size
    have := h.stack
    rw [Array.size_shrink, h.floor_stack]
    omega
  pc := rfl
  origin := rfl
  floor := rfl
  depth := rfl

lemma restored_setStream (m : Machine) (id cell) :
    Restored m (m.setStream id cell) := ⟨rfl, rfl, rfl, rfl, rfl, rfl, rfl⟩

lemma restored_holding (m : Machine) (held : List Value) : Restored m (m.holding held) :=
  ⟨rfl, rfl, rfl, rfl, rfl, rfl, rfl⟩

lemma restored_answerOf (ended) :
    Restored ended.2 (answerOf ended).2 := by
  obtain ⟨r, m⟩ := ended
  cases r with
  | ok v => exact .refl m
  | error t =>
    cases t with
    | raised e => exact .refl m
    | fault f => exact ⟨rfl, rfl, rfl, rfl, rfl, rfl, rfl⟩

lemma streams_answerOf (ended) :
    (answerOf ended).2.heap.streams = ended.2.heap.streams := by
  obtain ⟨r, m⟩ := ended
  cases r with
  | ok v => rfl
  | error t => cases t <;> rfl

/-- **A machine as it was**, also in the nodes of streams that were not pending. -/
structure Spared (m m' : Machine) : Prop extends Restored m m' where
  streams : m.heap.Spares m'.heap

lemma Spared.trans {m₁ m₂ m₃} (h : Spared m₁ m₂) (h' : Spared m₂ m₃) : Spared m₁ m₃ :=
  ⟨h.toRestored.trans h'.toRestored, h.streams.trans h'.streams⟩

lemma Spared.upholds {b m'} (h : Spared m m') (hm : Upholds b m) : Upholds b m' :=
  ⟨h.above hm.toAbove, hm.streams.trans h.streams⟩

/-- Nested loops restore the machine, and spare its streams. -/
def restoring (S : Setting) : Regime S where
  Owns _ := True
  Holds _ := True
  Keeps := Spared
  Enters _ _ := True
  Loop b p := p.Above b
  Ends _ _ := True
  refl _ := ⟨.refl _, .of_streams rfl⟩
  trans := .trans
  holds _ _ := trivial
  cell _ _ := StreamCell.only_of_forall (fun _ => trivial) _
  holding _ _ := ⟨restored_holding _ _, .of_streams rfl⟩
  forcing _ _ := trivial
  settled _ hp h _ :=
    ⟨(restored_setStream _ _ _).trans (h.toRestored.trans (restored_setStream _ _ _)),
    .settled hp h.streams _⟩
  allocate _ _ _ := ⟨⟨rfl, rfl, rfl, rfl, rfl, rfl, rfl⟩, .addStream _ _⟩
  host _ _ _ _ _ _ _ := Job.handles_of_forall (fun _ => trivial) (fun _ _ _ => trivial) _
  closure _ := trivial
  opened _ _ _ _ := upholds_opened ..
  step hp := Progress.above_ofResult (stays_step S) hp
  waiting := by
    intro b job m hp
    refine ⟨trivial, _, hp.2.handles fun _ => trivial, fun hrestored hr => ?_⟩
    refine Progress.above_resume (hrestored.upholds hp.1) ?_
    rintro x rfl
    exact hr
  closed _ _ hp := ⟨trivial, hp.toAbove.closed,
    hp.streams.trans (.of_streams (Heap.streams_closeCells _ _))⟩
  tooDeep _ := trivial
  answered := by
    intro m ended _ hrestored
    refine ⟨?_, hrestored.trans ⟨restored_answerOf ended, .of_streams (streams_answerOf ended)⟩⟩
    cases (answerOf ended).1 with
    | ok v => exact fun _ _ => trivial
    | error e => exact fun _ _ _ _ => trivial

lemma restores (S fuel) : (restoring S).Governs fuel := Regime.governs _ fuel

/-- The result of a job for a purpose is one that the job yields. -/
lemma yields_of_perform {S} {purpose : Purpose} {Q fuel} {job : Job purpose.Result} {m m' a}
    (hjob : job.Yields Q) (h : perform S fuel purpose job m = some (.ok a, m')) : Q a :=
  ((restores S fuel).perform trivial (hjob.handles fun _ => trivial) h).1

end Machine

end TreeCode
