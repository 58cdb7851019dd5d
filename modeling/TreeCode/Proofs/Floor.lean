import TreeCode.Proofs.Actions

/-!
# Above the floor

A host function that calls back starts a dispatch loop inside the one that called it. The scopes and
calls of the outer loop lie below the floor of the inner one. `Machine.Above b m` says that `m`
works above the machine `b` that entered the loop.

An action keeps an invariant if it does so however it ends (`Exec.Keeps`). Actions that find
something out keep every invariant.
-/

namespace TreeCode

/-! ## Actions that keep an invariant -/

variable {α β : Type} {I : Machine → Prop}

namespace Exec

variable {P : Machine → Prop}

/-- From a machine with `P` the action ends in a result with `Q`, or in a trap that leaves `I`. -/
def Triple (I P : Machine → Prop) (x : Exec α) (Q : α → Machine → Prop) : Prop :=
  ∀ m, P m → match x m with
    | .ok a m' => Q a m'
    | .error _ m' => I m'

/-- The action keeps `I`, however it ends. -/
abbrev Keeps (I : Machine → Prop) (x : Exec α) : Prop := Triple I I x fun _ => I

variable {Q : α → Machine → Prop}

lemma Triple.bind {x : Exec α} {f : α → Exec β}
    {R} (hx : Triple I P x Q) (hf : ∀ a, Triple I (Q a) (f a) R) :
    Triple I P (x >>= f) R := by
  intro m hm
  have h := hx m hm
  show match EStateM.bind x f m with
    | .ok a m' => R a m'
    | .error _ m' => I m'
  unfold EStateM.bind
  cases hr : x m with
  | ok a m' =>
    rw [hr] at h
    exact hf a m' h
  | error t m' =>
    rw [hr] at h
    exact h

lemma Triple.weaken {x R} (hx : Triple I P x Q)
    (h : ∀ a m, Q a m → R a m) : Triple I P x R := by
  intro m hm
  have hr := hx m hm
  cases hx : x m with
  | ok a m' =>
    rw [hx] at hr
    exact h a m' hr
  | error t m' =>
    rw [hx] at hr
    exact hr

lemma triple_pure {a} (h : ∀ m, P m → Q a m) : Triple I P (pure a) Q := h

lemma triple_throw {t} (h : ∀ m, P m → I m) : Triple I P (throw t) Q := h

lemma triple_get : Triple I P (get) fun a m => a = m ∧ P m := fun _ hm => ⟨rfl, hm⟩

lemma triple_modify {f Q}
    (h : ∀ m, P m → Q () (f m)) : Triple I P (modify f) Q := h

lemma triple_raise {e} (h : ∀ m, P m → I m) :
    Triple I P (Machine.raise e : Exec α) Q := triple_throw h

lemma triple_fail {fault} (h : ∀ m, P m → I m) :
    Triple I P (Machine.fail fault : Exec α) Q :=
  triple_get.bind fun _ => triple_throw fun m hm => h m hm.2

end Exec

/-! ## Above the floor -/

/-- A stack, the top first, that extends another one by items whose bases are `height` or more. -/
def Extends {α : Type} (base : α → Nat) (height : Nat) (below stack : List α) : Prop :=
  ∃ above, stack = above ++ below ∧ ∀ x ∈ above, height ≤ base x

variable {n : Nat}

namespace Extends

variable {base : α → Nat} {height : Nat} {below stack : List α} {x : α}

variable (h : Extends base height below stack)

include h

lemma cons (hx : height ≤ base x) :
    Extends base height below (x :: stack) := by
  obtain ⟨above, rfl, hall⟩ := h
  exact ⟨x :: above, rfl, by simpa using ⟨hx, hall⟩⟩

lemma drop (hn : n + below.length ≤ stack.length) :
    Extends base height below (stack.drop n) := by
  obtain ⟨above, rfl, hall⟩ := h
  rw [List.length_append] at hn
  refine ⟨above.drop n, List.drop_append_of_le_length (by omega), ?_⟩
  intro x hx
  exact hall x (List.mem_of_mem_drop hx)

lemma head (hx : stack.head? = some x)
    (hlen : below.length < stack.length) : height ≤ base x := by
  obtain ⟨above, rfl, hall⟩ := h
  cases above with
  | nil => exact absurd hlen (by simp)
  | cons y above =>
    simp only [List.cons_append, List.head?_cons, Option.some.injEq] at hx
    exact hx ▸ hall y List.mem_cons_self

lemma getElem {i} (hx : stack.reverse[i]? = some x)
    (hi : below.length ≤ i) : height ≤ base x := by
  obtain ⟨above, rfl, hall⟩ := h
  rw [List.reverse_append, List.getElem?_append_right (by simpa using hi)] at hx
  exact hall x (List.mem_reverse.mp (List.mem_of_getElem? hx))

end Extends

namespace Machine

/-- **The machine works above another one**, which entered the present loop: the scopes and calls of
that one lie below its own, its own begin no lower than the floor, and the operands have not been
popped below the floor. -/
structure Above (b m : Machine) : Prop where
  scopes : Extends Scope.base b.stack.size b.scopeList m.scopeList
  calls : Extends Call.base b.stack.size b.callList m.callList
  stack : b.stack.size ≤ m.stack.size
  floor : m.floor = b.heights
  depth : m.depth = b.depth + 1

variable {b m : Machine}

section

variable (h : Above b m)

include h

/-- Only the three stacks, the floor and the depth matter. -/
lemma Above.congr {m'} (hs : m'.scopes = m.scopes)
    (hc : m'.calls = m.calls) (hst : b.stack.size ≤ m'.stack.size) (hf : m'.floor = m.floor)
    (hd : m'.depth = m.depth) : Above b m' where
  scopes := by simpa only [scopeList, hs] using h.scopes
  calls := by simpa only [callList, hc] using h.calls
  stack := hst
  floor := hf.trans h.floor
  depth := hd.trans h.depth

lemma Above.floor_stack : m.floor.stack = b.stack.size := by rw [h.floor]; rfl

lemma Above.floor_scopes : m.floor.scopes = b.scopeList.length := by rw [h.floor]; simp [heights]

lemma Above.floor_calls : m.floor.calls = b.callList.length := by rw [h.floor]; simp [heights]

/-- Scopes may be pushed at or above the floor. -/
lemma Above.pushScope {s} (hs : b.stack.size ≤ s.base) :
    Above b { m with scopes := m.scopes.push s } :=
  { h with scopes := by simpa [scopeList] using h.scopes.cons hs }

/-- Scopes may be taken off down to the floor. -/
lemma Above.dropScopes (hn : m.floor.scopes ≤ n)
    (hle : m.floor.scopes ≤ m.scopes.size) : Above b { m with scopes := m.scopes.shrink n } := by
  refine { h with scopes := ?_ }
  rw [h.floor_scopes] at hn hle
  show Extends _ _ _ (m.scopes.shrink n).toList.reverse
  rw [reverse_toList_shrink]
  exact h.scopes.drop (by rw [length_scopeList m]; omega)

lemma Above.popScope (hle : m.floor.scopes < m.scopes.size) :
    Above b { m with scopes := m.scopes.pop } := by
  refine { h with scopes := ?_ }
  rw [h.floor_scopes] at hle
  show Extends _ _ _ m.scopes.pop.toList.reverse
  rw [reverse_toList_pop, ← List.drop_one]
  exact h.scopes.drop (by rw [length_scopeList m]; omega)

/-- Calls may be pushed at or above the floor. -/
lemma Above.pushCall {c} (hc : b.stack.size ≤ c.base) :
    Above b { m with calls := m.calls.push c } :=
  { h with calls := by simpa [callList] using h.calls.cons hc }

/-- Calls may be taken off down to the floor. -/
lemma Above.dropCalls (hn : m.floor.calls ≤ n)
    (hle : m.floor.calls ≤ m.calls.size) : Above b { m with calls := m.calls.shrink n } := by
  refine { h with calls := ?_ }
  rw [h.floor_calls] at hn hle
  show Extends _ _ _ (m.calls.shrink n).toList.reverse
  rw [reverse_toList_shrink]
  exact h.calls.drop (by rw [length_callList m]; omega)

lemma Above.popCall (hle : m.floor.calls < m.calls.size) :
    Above b { m with calls := m.calls.pop } := by
  refine { h with calls := ?_ }
  rw [h.floor_calls] at hle
  show Extends _ _ _ m.calls.pop.toList.reverse
  rw [reverse_toList_pop, ← List.drop_one]
  exact h.calls.drop (by rw [length_callList m]; omega)

/-- The operand stack may be cut down to the floor. -/
lemma Above.truncate {height} (hh : b.stack.size ≤ height) :
    Above b (m.truncate height) := by
  refine h.congr rfl rfl ?_ rfl rfl
  have hs := h.stack
  simp only [Machine.truncate, detachFrom, Array.size_shrink]
  omega

lemma Above.scope_base {s} (hfl : ¬m.scopes.size ≤ m.floor.scopes)
    (hs : m.scopes.back? = some s) : b.stack.size ≤ s.base := by
  rw [back?_eq_head?] at hs
  rw [h.floor_scopes] at hfl
  exact h.scopes.head hs (by rw [length_scopeList m]; omega)

lemma Above.call_base {c} (hfl : ¬m.calls.size ≤ m.floor.calls)
    (hc : m.calls.back? = some c) : b.stack.size ≤ c.base := by
  rw [back?_eq_head?] at hc
  rw [h.floor_calls] at hfl
  exact h.calls.head hc (by rw [length_callList m]; omega)

end

/-! ## Actions that find something out -/

section Readers

open Exec

variable (p : Program)

lemma keeps_top : Keeps I top := by
  refine triple_get.bind fun m => ?_
  split
  · exact triple_pure fun _ h => h.2
  · exact triple_fail fun _ h => h.2

lemma keeps_topArray : Keeps I topArray := by
  refine keeps_top.bind fun v => ?_
  split
  · exact triple_pure fun _ h => h
  · exact triple_fail fun _ h => h

lemma keeps_topObject : Keeps I topObject := by
  refine keeps_top.bind fun v => ?_
  split
  · exact triple_pure fun _ h => h
  · exact triple_fail fun _ h => h

lemma keeps_scope : Keeps I scope := by
  refine triple_get.bind fun m => ?_
  split
  · exact triple_fail fun _ h => h.2
  · split
    · exact triple_pure fun _ h => h.2
    · exact triple_fail fun _ h => h.2

lemma keeps_slotIndex (depth slot : Word) : Keeps I (slotIndex depth slot) := by
  refine triple_get.bind fun m => ?_
  split
  · exact triple_fail fun _ h => h.2
  · split
    · dsimp only
      split
      · exact triple_pure fun _ h => h.2
      · exact triple_fail fun _ h => h.2
    · exact triple_fail fun _ h => h.2

lemma keeps_runningUpvalue (index : Word) : Keeps I (runningUpvalue index) := by
  have hf : Keeps I runningCallee := by
    refine triple_get.bind fun m => ?_
    split
    · exact triple_fail fun _ h => h.2
    · split
      · exact triple_pure fun _ h => h.2
      · exact triple_fail fun _ h => h.2
  refine hf.bind fun v => ?_
  split
  · split
    · exact triple_pure fun _ h => h
    · exact triple_fail fun _ h => h
  · exact triple_fail fun _ h => h

lemma keeps_unsharedClosure : Keeps I unsharedClosure := by
  refine keeps_top.bind fun v => ?_
  split
  · refine triple_get.bind fun m => ?_
    split
    · exact triple_pure fun _ h => h.2
    · exact triple_fail fun _ h => h.2
  · exact triple_fail fun _ h => h

lemma keeps_constant (index) : Keeps I (constant p index) := by
  unfold constant
  split
  · exact triple_pure fun _ h => h
  · exact triple_fail fun _ h => h

lemma keeps_propertyKey (index : Word) : Keeps I (propertyKey p index) := by
  refine (keeps_constant p index).bind fun v => ?_
  split
  · exact triple_pure fun _ h => h
  · exact triple_fail fun _ h => h

lemma keeps_platformValue (index) : Keeps I (platformValue p index) := by
  unfold platformValue
  split
  · exact triple_pure fun _ h => h
  · exact triple_fail fun _ h => h

lemma keeps_bundle (base offset : Nat) : Keeps I (bundle base offset) := by
  refine triple_get.bind fun m => ?_
  split
  · exact triple_pure fun _ h => h.2
  · exact triple_fail fun _ h => h.2

end Readers

end Machine

/-! ## What jobs yield -/

/-- Every result of the job satisfies `Q`, whatever its requests are answered. -/
def Job.Yields {α : Type} (Q : α → Prop) : Job α → Prop
  | .done (.ok a) => Q a
  | .done (.error _) => True
  | .ask _ _ next => ∀ r, (next r).Yields Q

namespace Job.Yields

variable {Q : α → Prop} {R : β → Prop}

lemma andThen {f} (h : ∀ r, (f r).Yields R) :
    ∀ j : Job α, (j.andThen f).Yields R
  | .done r => h r
  | .ask _ _ next => fun resp => andThen h (next resp)

lemma bind {f} (h : ∀ a, (f a).Yields R) (j : Job α) : (j >>= f).Yields R := by
  refine andThen (fun r => ?_) j
  cases r with
  | ok a => exact h a
  | error e => trivial

lemma holding (values) : ∀ {j : Job α}, j.Yields Q → (j.holding values).Yields Q
  | .done _, h => h
  | .ask _ _ _, h => fun r => (h r).holding values

lemma mono {Q'} (h : ∀ a, Q a → Q' a) :
    ∀ {j : Job α}, j.Yields Q → j.Yields Q'
  | .done (.ok a), hj => h a hj
  | .done (.error _), _ => trivial
  | .ask _ _ _, hj => fun r => (hj r).mono h

end Job.Yields

end TreeCode
