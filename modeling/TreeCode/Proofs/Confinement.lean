import TreeCode.Proofs.Clock

/-!
# Where control can come to

Control moves on to the next instruction, jumps, goes to a catch, enters a closure and returns from
one. All that a machine keeps of places to go to is in its scopes, its calls and the closures that
it holds. `Machine.Confined L J m` says that these places have the property `L`, and that `J` holds
of the fault that is kept.

An instruction adds the places that its operands name (`Instruction.targets`) and no others, and
leaves the kept fault alone; if it ends with a fault, the program has the reason for it at the very
place of the instruction (`Program.Explains`). `Machine.spec_execute` says so for every instruction
of every program, well made or not.
-/

namespace TreeCode

open Value Array ErrorValue List Progress

/-! ## Actions that end as specified -/

variable {e : ErrorValue}
  {f : Machine → Machine} {fault : Nat → Fault} {α : Type} {v : Value} {value : Option Value}
  {β : Type}

namespace Exec

variable {T : Trap → Machine → Prop} {P : Machine → Prop}

/-- From a machine with `P` the action ends in a result with `Q`, or in a trap with `T`. -/
def Spec (T : Trap → Machine → Prop) (P : Machine → Prop) (x : Exec α) (Q : α → Machine → Prop) :
    Prop :=
  ∀ m, P m → match x m with
    | .ok a m' => Q a m'
    | .error t m' => T t m'

namespace Spec

variable {Q : α → Machine → Prop}

lemma bind {x : Exec α} {f : α → Exec β} {R}
    (hx : Spec T P x Q) (hf : ∀ a, Spec T (Q a) (f a) R) : Spec T P (x >>= f) R := by
  intro m hm
  have h := hx m hm
  cases hr : x m with
  | ok a m' =>
    rw [hr] at h
    rw [bind_ok hr]
    exact hf a m' h
  | error t m' =>
    rw [hr] at h
    rw [bind_error hr]
    exact h

lemma pure {a} (h : ∀ m, P m → Q a m) : Spec T P (Pure.pure a) Q := h

lemma modify {Q} (h : ∀ m, P m → Q () (f m)) :
    Spec T P (modify f) Q := h

lemma raise (h : ∀ m, P m → T (.raised e) m) : Spec T P (Machine.raise e : Exec α) Q := h

lemma fail
    (h : ∀ m, P m → T (.fault (fault m.origin)) m) : Spec T P (Machine.fail fault : Exec α) Q := h

lemma weaken {T' x R}
    (hx : Spec T P x Q) (hT : ∀ t m, T t m → T' t m) (h : ∀ a m, Q a m → R a m) :
    Spec T' P x R := by
  intro m hm
  have hr := hx m hm
  cases hx : x m with
  | ok a m' =>
    rw [hx] at hr
    exact h a m' hr
  | error t m' =>
    rw [hx] at hr
    exact hT t m' hr

end Spec

end Exec

/-! ## Reasons for faults -/

/-- Where the fault occurred. -/
def Fault.offset : Fault → Nat
  | .stackUnderflow offset | .invalidOpcode offset | .missingOperand offset | .unexpectedEnd offset
  | .noScope offset | .noCall offset | .notAnArray offset | .notAnObject offset
  | .notAClosure offset | .constantOutOfRange offset _ | .platformOutOfRange offset _
  | .slotOutOfRange offset _ | .upvalueOutOfRange offset _ => offset

namespace Instruction

/-- The operand that refers to a constant. -/
def constant? : Instruction → Option Word
  | .value k | .validate k | .objectPop k | .objectPopOrDefault k _ => some k
  | _ => none

/-- The constant is the key of a property. -/
def takesKey : Instruction → Bool
  | .objectPop _ | .objectPopOrDefault .. => true
  | _ => false

/-- **The places that an instruction can send control to**, besides that of the next one, which is
`next`. -/
def targets (next : Nat) : Instruction → List Nat
  | .arrayPopOrDefault d | .objectPopOrDefault _ d | .enterCatch d => [next + d.toNat]
  | .function t => [t.toNat]
  | _ => []

end Instruction

/-- The value is a string. -/
def Value.IsString (v : Value) : Prop := ∃ s, v = .string s

namespace Program

/-- **The program has a reason for a fault** that comes of its code or of its tables: at the offset
there is no instruction, or one whose operand refers to nothing, or a key that is no string. Faults
that come of the stacks are none of its business. -/
def Explains (p : Program) : Fault → Prop
  | .invalidOpcode offset => ∃ word, Instruction.decode p.code offset = .error (.unknownOpcode word)
  | .missingOperand offset =>
    offset < p.code.size ∧ ∃ e, Instruction.decode p.code offset = .error (.incomplete e)
  | .constantOutOfRange offset index => ∃ i k, Instruction.decode p.code offset = .ok i ∧
      i.constant? = some k ∧ k.toNat = index ∧
      ∀ v, p.constants[index]? = some v → i.takesKey = true ∧ ¬v.IsString
  | .platformOutOfRange offset index => ∃ k, Instruction.decode p.code offset = .ok (.platform k) ∧
      k.toNat = index ∧ p.platform[index]? = none
  | _ => True

end Program

/-! ## Machines -/

lemma mem_of_mem_shrink {x} {xs : Array α} {n} (h : x ∈ xs.shrink n) :
    x ∈ xs := by
  rw [← mem_toList_iff, toList_shrink] at h
  exact mem_toList_iff.mp (mem_of_mem_take h)

lemma mem_of_mem_pop {x} {xs : Array α} (h : x ∈ xs.pop) : x ∈ xs := by
  rw [← mem_toList_iff, toList_pop] at h
  exact mem_toList_iff.mp ((dropLast_sublist _).mem h)

/-- The closure's function starts at a place with the property. -/
def Closure.Lands (L : Nat → Prop) (c : Closure) : Prop := L c.target

/-- **All places to go to that a machine keeps** have the property `L`, and the fault that it keeps
is as `J` says. -/
structure Machine.Confined (L : Nat → Prop) (J : Option Fault → Prop) (m : Machine) : Prop where
  stack : ∀ v, some v ∈ m.stack → v.Only (Closure.Lands L)
  scopes : ∀ s ∈ m.scopes, ∀ target ∈ s.recovery, L target
  calls : ∀ c ∈ m.calls, ∀ pc, c.returnTo = some pc → L pc
  heap : m.heap.Only (Closure.Lands L)
  fault : J m.fault

/-- A confined machine in the course of the instruction at `origin`, about to go on at `pc`. -/
structure Machine.Stands (L : Nat → Prop) (J : Option Fault → Prop) (o pc : Nat) (m : Machine) :
    Prop extends Machine.Confined L J m where
  origin_eq : m.origin = o
  pc_eq : m.pc = pc

/-- **How the instruction at `origin` may be stopped.** -/
def Trap.From (L : Nat → Prop) (J : Option Fault → Prop) (prog : Program) (o : Nat) :
    Trap → Machine → Prop
  | .raised e, m => m.Confined L J ∧ e.Only (Closure.Lands L)
  | .fault f, m => m.Confined L J ∧ f.offset = o ∧ prog.Explains f

variable {L : Nat → Prop} {J : Option Fault → Prop} {m m' : Machine} {prog : Program}
  {o pc : Nat}

namespace Machine

open Exec

namespace Confined

variable (h : m.Confined L J)

include h

/-- Only the operand stack is changed, and what no place to go to is kept in. -/
lemma withStack (hsc : m'.scopes = m.scopes) (hcs : m'.calls = m.calls)
    (hheap : m'.heap = m.heap) (hfault : m'.fault = m.fault)
    (hs : ∀ v, some v ∈ m'.stack → v.Only (Closure.Lands L)) : m'.Confined L J :=
  ⟨hs, hsc ▸ h.scopes, hcs ▸ h.calls, hheap ▸ h.heap, hfault ▸ h.fault⟩

lemma congr (hs : m'.stack = m.stack) (hsc : m'.scopes = m.scopes)
    (hcs : m'.calls = m.calls) (hheap : m'.heap = m.heap) (hfault : m'.fault = m.fault) :
    m'.Confined L J :=
  h.withStack hsc hcs hheap hfault (hs ▸ h.stack)

lemma push (hv : v.Only (Closure.Lands L)) :
    Machine.Confined L J { m with stack := m.stack.push (some v) } := by
  refine h.withStack rfl rfl rfl rfl fun w hw => ?_
  rcases mem_push.mp hw with hw | hw
  · exact h.stack w hw
  · cases hw
    exact hv

lemma slotContent {slot} (hv : m.slotContent slot = some v) : v.Only (Closure.Lands L) := by
  rw [Machine.slotContent] at hv
  cases hget : m.stack[slot]? with
  | none => rw [hget] at hv; cases hv
  | some x =>
    rw [hget, Option.getD_some] at hv
    exact h.stack v (hv ▸ mem_of_getElem? hget)

lemma contentsOf (cells) :
    ∀ x ∈ m.contentsOf cells, ∀ v, x.2 = some v → v.Only (Closure.Lands L) := by
  intro x hx v hv
  obtain ⟨p, -, rfl⟩ := mem_map.mp hx
  exact h.slotContent hv

lemma truncate (height : Nat) : (m.truncate height).Confined L J where
  stack v hv := h.stack v (mem_of_mem_shrink hv)
  scopes := h.scopes
  calls := h.calls
  heap := by
    rw [heap_truncate]
    exact h.heap.closeCells (h.contentsOf _)
  fault := h.fault

lemma closeSlot (slot) : (m.closeSlot slot).Confined L J := by
  unfold Machine.closeSlot
  split
  · exact ⟨h.stack, h.scopes, h.calls, h.heap.closeCells (h.contentsOf _), h.fault⟩
  · exact h

lemma readCell {cell} (hv : m.readCell cell = some v) :
    v.Only (Closure.Lands L) := by
  unfold Machine.readCell at hv
  split at hv
  · exact h.slotContent hv
  · next content hc =>
    subst hv
    rw [Heap.cell] at hc
    cases hget : m.heap.cells[cell]? with
    | none =>
      rw [hget] at hc
      cases hc
    | some u =>
      rw [hget, Option.getD_some] at hc
      have honly := h.heap.cells u (mem_of_getElem? hget)
      rw [hc] at honly
      exact honly v rfl

end Confined

/-- **An action in the course of an instruction** that ends in a result with `Q`, if it is not
stopped. -/
abbrev During {α : Type} (L : Nat → Prop) (J : Option Fault → Prop) (prog : Program)
    (o pc : Nat) (x : Exec α) (Q : α → Machine → Prop) : Prop :=
  Spec (Trap.From L J prog o) (Stands L J o pc) x Q

/-- An action that keeps the machine confined, and where it is, and has a result with `V`. -/
abbrev Stays {α : Type} (L : Nat → Prop) (J : Option Fault → Prop) (prog : Program)
    (o pc : Nat) (x : Exec α) (V : α → Prop := fun _ => True) : Prop :=
  During L J prog o pc x fun a m => Stands L J o pc m ∧ V a

section Actions

lemma Stays.bind {x : Exec α} {f : α → Exec β} {V : α → Prop} {Q}
    (hx : Stays L J prog o pc x V) (hf : ∀ a, V a → During L J prog o pc (f a) Q) :
    During L J prog o pc (x >>= f) Q :=
  Spec.bind hx fun a m hm => hf a hm.2 m hm.1

lemma stays_pure {a : α} {V} (h : V a) : Stays L J prog o pc (pure a) V :=
  .pure fun _ hm => ⟨hm, h⟩

lemma stays_get : Stays L J prog o pc get (Stands L J o pc) := fun _ hm => ⟨hm, hm⟩

lemma stays_set (h : m.Stands L J o pc) :
    Stays L J prog o pc (set m) := fun _ _ => ⟨h, trivial⟩

lemma stays_modify (h : ∀ m, m.Stands L J o pc → (f m).Stands L J o pc) :
    Stays L J prog o pc (modify f) := fun m hm => ⟨h m hm, trivial⟩

lemma stays_raise {Q : α → Machine → Prop} (he : e.Only (Closure.Lands L)) :
    During L J prog o pc (raise e) Q :=
  .raise fun _ hm => ⟨hm.toConfined, he⟩

/-- A fault for which the program has the reason. -/
lemma stays_fail {Q : α → Machine → Prop}
    (hoffset : (fault o).offset = o) (h : prog.Explains (fault o)) :
    During L J prog o pc (fail fault) Q := by
  refine .fail fun m hm => ?_
  rw [hm.origin_eq]
  exact ⟨hm.toConfined, hoffset, h⟩

/-! ### The operand stack -/

lemma stays_push (hv : v.Only (Closure.Lands L)) :
    Stays L J prog o pc (push v) :=
  stays_modify fun _ hm => ⟨hm.push hv, hm.origin_eq, hm.pc_eq⟩

lemma stays_pop : Stays L J prog o pc pop (Only (Closure.Lands L)) := by
  refine stays_get.bind fun m hm => ?_
  split
  · exact stays_fail rfl trivial
  · split
    · next v hback =>
      refine (stays_set ?_).bind fun _ _ => stays_pure (hm.stack v (mem_of_back? hback))
      exact ⟨hm.withStack rfl rfl rfl rfl fun w hw => hm.stack w (mem_of_mem_pop hw), hm.origin_eq,
        hm.pc_eq⟩
    · exact stays_fail rfl trivial

lemma stays_top : Stays L J prog o pc top (Only (Closure.Lands L)) := by
  refine stays_get.bind fun m hm => ?_
  split
  · next v hback => exact stays_pure (hm.stack v (mem_of_back? hback))
  · exact stays_fail rfl trivial

lemma stays_replaceTop (hv : v.Only (Closure.Lands L)) :
    Stays L J prog o pc (replaceTop v) := by
  refine stays_modify fun m hm => ⟨?_, hm.origin_eq, hm.pc_eq⟩
  have hpop : Confined L J { m with stack := m.stack.pop } :=
    hm.withStack rfl rfl rfl rfl fun w hw => hm.stack w (mem_of_mem_pop hw)
  exact hpop.push hv

lemma stays_topArray : Stays L J prog o pc topArray fun es =>
    ∀ v ∈ es, v.Only (Closure.Lands L) := by
  refine stays_top.bind fun v hv => ?_
  split
  · exact stays_pure (only_array.mp hv)
  · exact stays_fail rfl trivial

lemma stays_topObject : Stays L J prog o pc topObject (Entries.Only (Closure.Lands L)) := by
  refine stays_top.bind fun v hv => ?_
  split
  · exact stays_pure (only_object.mp hv)
  · exact stays_fail rfl trivial

/-! ### Scopes and calls -/

lemma stays_scope : Stays L J prog o pc scope fun s => ∀ t ∈ s.recovery, L t := by
  refine stays_get.bind fun m hm => ?_
  split
  · exact stays_fail rfl trivial
  · split
    · next s hback => exact stays_pure (hm.scopes s (mem_of_back? hback))
    · exact stays_fail rfl trivial

lemma stays_modifyScope {f : Scope → Scope} (hf : ∀ s, (∀ t ∈ s.recovery, L t) →
    ∀ t ∈ (f s).recovery, L t) :
    Stays L J prog o pc (modifyScope f) := by
  refine stays_scope.bind fun s hs => stays_modify fun m hm => ?_
  refine ⟨⟨hm.stack, fun s' hs' => ?_, hm.calls, hm.heap, hm.fault⟩, hm.origin_eq, hm.pc_eq⟩
  rcases mem_push.mp hs' with hs' | rfl
  · exact hm.scopes s' (mem_of_mem_pop hs')
  · exact hf s hs

lemma stays_slotIndex (depth slot) :
    Stays L J prog o pc (slotIndex depth slot) := by
  refine stays_get.bind fun m hm => ?_
  split
  · exact stays_fail rfl trivial
  · split
    · dsimp only
      split
      · exact stays_pure trivial
      · exact stays_fail rfl trivial
    · exact stays_fail rfl trivial

lemma stays_runningUpvalue (index) :
    Stays L J prog o pc (runningUpvalue index) := by
  have hf : Stays L J prog o pc runningCallee := by
    refine stays_get.bind fun m hm => ?_
    split
    · exact stays_fail rfl trivial
    · split
      · exact stays_pure trivial
      · exact stays_fail rfl trivial
  refine hf.bind fun v _ => ?_
  split
  · split
    · exact stays_pure trivial
    · exact stays_fail rfl trivial
  · exact stays_fail rfl trivial

lemma stays_captureSlot (slot) : Stays L J prog o pc (captureSlot slot) := by
  refine stays_get.bind fun m hm => ?_
  split
  · exact stays_pure trivial
  · refine (stays_set ?_).bind fun _ _ => stays_pure trivial
    exact ⟨⟨hm.stack, hm.scopes, hm.calls, hm.heap.addCell slot, hm.fault⟩, hm.origin_eq, hm.pc_eq⟩

/-- A closure keeps its place when it captures one more variable. -/
lemma stays_addUpvalue (cell) : Stays L J prog o pc (addUpvalue cell) := by
  have hcl : Stays L J prog o pc unsharedClosure (Closure.Lands L) := by
    refine stays_top.bind fun v hv => ?_
    split
    · refine stays_get.bind fun m hm => ?_
      split
      · exact stays_pure (only_closure.mp hv)
      · exact stays_fail rfl trivial
    · exact stays_fail rfl trivial
  exact hcl.bind fun c hc => stays_replaceTop (only_closure.mpr hc)

lemma stays_diagnostic? : Stays L J prog o pc (diagnostic? prog) :=
  stays_get.bind fun _ _ => stays_pure trivial

lemma stays_boundArgument? : Stays L J prog o pc (boundArgument? prog) :=
  stays_diagnostic?.bind fun _ _ => stays_pure trivial

/-! ### Variables and containers -/

lemma stays_pushVariable (h : ∀ v, value = some v → v.Only (Closure.Lands L)) :
    Stays L J prog o pc (pushVariable prog value) := by
  cases value with
  | some v => exact stays_push (h v rfl)
  | none =>
    refine stays_diagnostic?.bind fun _ _ => stays_raise (only_of ?_)
    simp

lemma stays_writeLocal (depth slot) :
    Stays L J prog o pc (writeLocal depth slot) := by
  refine stays_pop.bind fun v hv => (stays_slotIndex depth slot).bind fun index _ => ?_
  refine stays_modify fun m hm => ⟨hm.withStack rfl rfl rfl rfl fun w hw => ?_, hm.origin_eq,
    hm.pc_eq⟩
  rcases mem_or_eq_of_mem_setIfInBounds hw with hw | hw
  · exact hm.stack w hw
  · cases hw
    exact hv

lemma stays_readLocal (depth slot) :
    Stays L J prog o pc (readLocal prog depth slot) :=
  (stays_slotIndex depth slot).bind fun _ _ => stays_get.bind fun _ hm =>
    stays_pushVariable fun _ hv => hm.slotContent hv

lemma stays_reserve (count) : Stays L J prog o pc (reserve count) := by
  refine stays_modify fun m hm => ⟨hm.withStack rfl rfl rfl rfl fun w hw => ?_, hm.origin_eq,
    hm.pc_eq⟩
  rcases mem_append.mp hw with hw | hw
  · exact hm.stack w hw
  · cases (mem_replicate.mp hw).2

lemma stays_pushScope (size) : Stays L J prog o pc (pushScope size) := by
  refine stays_get.bind fun m hm => ?_
  split
  · exact stays_fail rfl trivial
  · refine stays_set ⟨⟨hm.stack, fun s hs => ?_, hm.calls, hm.heap, hm.fault⟩, hm.origin_eq,
      hm.pc_eq⟩
    rcases mem_push.mp hs with hs | rfl
    · exact hm.scopes s hs
    · nofun

lemma stays_popScope : Stays L J prog o pc popScope := by
  refine stays_pop.bind fun v hv => stays_scope.bind fun s _ => ?_
  refine (stays_modify fun m hm => ?_).bind fun _ _ => stays_push hv
  have hpop : Confined L J { m with scopes := m.scopes.pop } :=
    ⟨hm.stack, fun s hs => hm.scopes s (mem_of_mem_pop hs), hm.calls, hm.heap, hm.fault⟩
  exact ⟨hpop.truncate _, hm.origin_eq, hm.pc_eq⟩

lemma stays_appendElements {es} (h : ∀ v ∈ es, v.Only (Closure.Lands L)) :
    Stays L J prog o pc (appendElements es) := by
  refine stays_topArray.bind fun pre hbefore => stays_replaceTop (only_array.mpr fun v hv => ?_)
  rcases mem_append.mp hv with hv | hv
  · exact hbefore v hv
  · exact h v hv

lemma stays_arrayPush : Stays L J prog o pc arrayPush :=
  stays_pop.bind fun _ hv => stays_appendElements (forall_mem_singleton.mpr hv)

lemma stays_arrayReverse : Stays L J prog o pc (do replaceTop (.array (← topArray).reverse)) :=
  stays_topArray.bind fun _ h => stays_replaceTop (only_array.mpr fun v hv =>
    h v (mem_reverse.mp hv))

lemma stays_arrayCut (count) : Stays L J prog o pc (arrayCut count) := by
  refine stays_pop.bind fun v hv => ?_
  split
  · have hes := only_array.mp hv
    refine (stays_push (only_array.mpr fun w hw => ?_)).bind fun _ _ =>
      stays_push (only_array.mpr fun w hw => ?_)
    · exact hes w (mem_of_mem_take hw)
    · exact hes w (mem_of_mem_drop hw)
  · exact stays_fail rfl trivial

lemma stays_takeLast? : Stays L J prog o pc takeLast? fun value =>
    ∀ v, value = some v → v.Only (Closure.Lands L) := by
  refine stays_topArray.bind fun es h => ?_
  refine (stays_replaceTop (only_array.mpr fun v hv => h v ((dropLast_sublist _).mem hv))).bind
    fun _ _ => stays_pure fun v hv => h v (mem_of_getLast? hv)

lemma stays_takeProperty? (key) : Stays L J prog o pc (takeProperty? key)
    fun value => ∀ v, value = some v → v.Only (Closure.Lands L) :=
  stays_topObject.bind fun _ h => (stays_replaceTop (only_object.mpr (h.erase key))).bind
    fun _ _ => stays_pure fun _ hv => h.get? hv

lemma stays_reportMissing {other : ErrorValue} (h : other.Only (Closure.Lands L)) :
    Stays L J prog o pc (reportMissing prog other) := by
  refine stays_boundArgument?.bind fun name _ => ?_
  split
  · exact stays_raise (only_of (by simp))
  · exact stays_raise h

lemma stays_arrayPop (i) :
    Stays L J prog o pc (arrayPop prog i) := by
  refine stays_takeLast?.bind fun value hv => ?_
  split
  · exact stays_push (hv _ rfl)
  · exact stays_reportMissing (only_of (by simp))

lemma stays_objectPush : Stays L J prog o pc objectPush := by
  refine stays_pop.bind fun v hv => stays_pop.bind fun key hkey => ?_
  split
  · exact stays_topObject.bind fun _ h => stays_replaceTop (only_object.mpr (h.insert _ hv))
  · exact stays_raise (only_of (by simpa using hkey))

lemma stays_objectMerge : Stays L J prog o pc objectMerge := by
  refine stays_pop.bind fun v hv => ?_
  split
  · exact stays_topObject.bind fun _ h =>
      stays_replaceTop (only_object.mpr (h.merge (only_object.mp hv)))
  · exact stays_raise (only_of (by simpa using hv))

lemma stays_makeClosure {t} (h : L t) :
    Stays L J prog o pc (makeClosure prog t) := by
  refine stays_get.bind fun m hm => (stays_set ?_).bind fun _ _ => stays_push (only_closure.mpr h)
  exact ⟨⟨hm.stack, hm.scopes, hm.calls, ⟨hm.heap.cells, hm.heap.streams⟩, hm.fault⟩, hm.origin_eq,
    hm.pc_eq⟩

lemma stays_bundle (base offset) :
    Stays L J prog o pc (bundle base offset) (Only (Closure.Lands L)) := by
  refine stays_get.bind fun m hm => ?_
  split
  · next v hv => exact stays_pure (hm.slotContent hv)
  · exact stays_fail rfl trivial

lemma stays_capture (slot) : Stays L J prog o pc (capture slot) := by
  refine stays_scope.bind fun s _ => stays_modify fun m hm => ?_
  refine ⟨hm.closeSlot _, ?_, ?_⟩
  · unfold closeSlot
    split <;> exact hm.origin_eq
  · unfold closeSlot
    split <;> exact hm.pc_eq

end Actions

/-! ## Instructions -/

end Machine

/-- **Control stays within `L`** when it is in there: the places that an instruction can send it to
are in `L` if the instruction is, and the closures in the tables start there. -/
structure Program.Route (p : Program) (L : Nat → Prop) : Prop where
  start : L 0
  next : ∀ {offset i}, L offset → Instruction.decode p.code offset = .ok i → L (offset + i.width)
  target : ∀ {offset i}, L offset → Instruction.decode p.code offset = .ok i →
    ∀ place ∈ i.targets (offset + i.width), L place
  constants : ∀ v ∈ p.constants, v.Only (Closure.Lands L)
  platform : ∀ entry ∈ p.platform, entry.value.Only (Closure.Lands L)

namespace Machine

open Exec

/-- **What an instruction leaves to the host**: the work, and how it completes the instruction. -/
inductive Delegates (prog : Program) (host : Host) (L : Nat → Prop) :
    Instruction → Job (Exec Unit) → Prop where
  | extend {sequence : Value} (h : sequence.Only (Closure.Lands L)) :
      Delegates prog host L .arrayExtend
        (Job.holding [sequence] do return appendElements (← sequence.elements))
  | call {native : Native} {code base args named}
      (hnative : host.native? code = some native) (hargs : ∀ v ∈ args, v.Only (Closure.Lands L))
      (hnamed : Entries.Only (Closure.Lands L) named) :
      Delegates prog host L .call
        ((native.apply args named).andThen fun r => .pure (finishCall base r))
  | index {collection key : Value} (h : collection.Only (Closure.Lands L))
      (hkey : key.Only (Closure.Lands L)) :
      Delegates prog host L .index
        (Job.holding [collection, key] do return push (← collection.index key))
  | validate {k schema value} (hget : prog.constants[k.toNat]? = some schema)
      (hvalue : value.Only (Closure.Lands L)) :
      Delegates prog host L (.validate k)
        (((Schema.validate value schema).holding [value]).andThen fun
          | .ok () => .pure (pure ())
          | .error e => .pure (reportMismatch prog e))

/-- **How the instruction `i` at `origin` ends**, if it is not stopped. -/
def Signal.Goes (prog : Program) (host : Host) (L : Nat → Prop) (J : Option Fault → Prop)
    (o : Nat) (i : Instruction) : Signal → Machine → Prop
  | .next, m => m.Confined L J ∧ L m.pc
  | .yield v, m => m.Confined L J ∧ v.Only (Closure.Lands L)
  | .await job, m => m.Confined L J ∧ L m.pc ∧ m.origin = o ∧ Delegates prog host L i job

section Execution

variable {host : Host} {i : Instruction} (hroute : prog.Route L) (horigin : L o)
  (hd : Instruction.decode prog.code o = .ok i) {k d : Word}

include hd in
/-- A constant is there, or the program has the reason for the fault. -/
lemma stays_constant (hroute : prog.Route L) (hk : i.constant? = some k) :
    Stays L J prog o pc (constant prog k) fun v =>
      prog.constants[k.toNat]? = some v ∧ v.Only (Closure.Lands L) := by
  unfold constant
  split
  · next v hv => exact stays_pure ⟨hv, hroute.constants v (mem_of_getElem? hv)⟩
  · next hn =>
    refine stays_fail rfl ⟨i, k, hd, hk, rfl, fun v hv => ?_⟩
    rw [hn] at hv
    cases hv

include hd in
lemma stays_propertyKey (hroute : prog.Route L) (hk : i.constant? = some k)
    (hkey : i.takesKey = true) :
    Stays L J prog o pc (propertyKey prog k) := by
  refine (stays_constant hd hroute hk).bind fun v hv => ?_
  split
  · exact stays_pure trivial
  · next hnot =>
    refine stays_fail rfl ⟨i, k, hd, hk, rfl, fun w hw => ⟨hkey, ?_⟩⟩
    rintro ⟨s, rfl⟩
    rw [hv.1] at hw
    cases hw
    exact hnot s rfl

lemma stays_platformValue (hroute : prog.Route L)
    (hd : Instruction.decode prog.code o = .ok (.platform k)) :
    Stays L J prog o pc (platformValue prog k) (Only (Closure.Lands L)) := by
  unfold platformValue
  split
  · next entry he => exact stays_pure (hroute.platform entry (mem_of_getElem? he))
  · next hn => exact stays_fail rfl ⟨k, hd, rfl, hn⟩

/-- An action after which the machine goes on with the next instruction. -/
lemma goes_thenNext (hpc : L pc) {x} (h : Stays L J prog o pc x) :
    During L J prog o pc (thenNext x) (Signal.Goes prog host L J o i) := by
  refine h.bind fun _ _ => .pure fun m hm => ⟨hm.toConfined, ?_⟩
  rw [hm.pc_eq]
  exact hpc

lemma spec_pushAndSkip (hpc : L pc) (ht : L (pc + d.toNat))
    (h : ∀ v, value = some v → v.Only (Closure.Lands L)) :
    During L J prog o pc (pushAndSkip d value)
      fun _ m => m.Confined L J ∧ L m.pc := by
  cases value with
  | some v =>
    refine (stays_push (h v rfl)).bind fun _ _ => .modify fun m hm => ⟨?_, ?_⟩
    · exact hm.congr rfl rfl rfl rfl rfl
    · show L (m.pc + d.toNat)
      rw [hm.pc_eq]
      exact ht
  | none =>
    refine .pure fun m hm => ⟨hm.toConfined, ?_⟩
    rw [hm.pc_eq]
    exact hpc

/-- The callers that a machine returns to are places that it keeps. -/
lemma goes_ret : During L J prog o pc ret (Signal.Goes prog host L J o i) := by
  refine stays_pop.bind fun r hr => stays_get.bind fun m hm => ?_
  split
  · exact stays_fail rfl trivial
  · split
    · exact stays_fail rfl trivial
    · next base returnTo hback =>
      have hreturn : ∀ pc, returnTo = some pc → L pc := hm.calls _ (mem_of_back? hback)
      refine (stays_modify fun m hm => ?_).bind fun _ _ => ?_
      · exact ⟨⟨hm.stack, hm.scopes, fun c hc => hm.calls c (mem_of_mem_pop hc), hm.heap, hm.fault⟩,
          hm.origin_eq, hm.pc_eq⟩
      · cases returnTo with
        | some t =>
          refine (stays_modify fun m hm => ?_).bind fun _ _ => (stays_push hr).bind fun _ _ => ?_
          · exact ⟨hm.truncate base, hm.origin_eq, hm.pc_eq⟩
          refine Spec.bind (Q := fun _ m => m.Confined L J ∧ L m.pc) ?_ fun _ => .pure fun _ h => h
          exact .modify fun m hm => ⟨hm.congr rfl rfl rfl rfl rfl, hreturn t rfl⟩
        | none => exact .pure fun m hm => ⟨hm.toConfined, hr⟩

lemma goes_arrayExtend (hpc : L pc) :
    During L J prog o pc arrayExtend (Signal.Goes prog host L J o .arrayExtend) := by
  refine stays_pop.bind fun sequence h => .pure fun m hm => ⟨hm.toConfined, ?_, hm.origin_eq,
    .extend h⟩
  rw [hm.pc_eq]
  exact hpc

lemma goes_indexTop (hpc : L pc) :
    During L J prog o pc indexTop (Signal.Goes prog host L J o .index) := by
  refine stays_pop.bind fun key hkey => stays_pop.bind fun coll h =>
    .pure fun m hm => ⟨hm.toConfined, ?_, hm.origin_eq, .index h hkey⟩
  rw [hm.pc_eq]
  exact hpc

lemma goes_validateTop (hroute : prog.Route L) (hpc : L pc)
    (hd : Instruction.decode prog.code o = .ok (.validate k)) :
    During L J prog o pc (validateTop prog k) (Signal.Goes prog host L J o (.validate k)) := by
  refine (stays_constant hd hroute rfl).bind fun schema hs => stays_top.bind fun value hv =>
    .pure fun m hm => ⟨hm.toConfined, ?_, hm.origin_eq, .validate hs.1 hv⟩
  rw [hm.pc_eq]
  exact hpc

lemma goes_callNative (hpc : L pc) (ref base) :
    During L J prog o pc (callNative host ref base) (Signal.Goes prog host L J o .call) := by
  rw [callNative_eq]
  refine (stays_bundle base 1).bind fun v hv => ?_
  split
  · refine (stays_bundle base 2).bind fun w hw => ?_
    split
    · split
      · next native hnative =>
        refine .pure fun m hm => ⟨hm.toConfined, ?_, hm.origin_eq,
          .call hnative (only_array.mp hv) (only_object.mp hw)⟩
        rw [hm.pc_eq]
        exact hpc
      · exact stays_raise (only_of (by simp))
    · exact stays_fail rfl trivial
  · exact stays_fail rfl trivial

lemma goes_call (hpc : L pc) :
    During L J prog o pc (call host) (Signal.Goes prog host L J o .call) := by
  refine stays_scope.bind fun s _ => (stays_bundle s.base 0).bind fun v hv => ?_
  split
  · next c =>
    refine Spec.bind (Q := fun _ m => m.Confined L J ∧ L m.pc) ?_ fun _ => .pure fun _ h => h
    refine .modify fun m hm => ⟨⟨hm.stack, hm.scopes, fun call hcall => ?_, hm.heap, hm.fault⟩,
      only_closure.mp hv⟩
    rcases mem_push.mp hcall with hcall | rfl
    · exact hm.calls call hcall
    · rintro _ ⟨⟩
      rw [hm.pc_eq]
      exact hpc
  · exact goes_callNative hpc _ _
  · exact stays_raise (only_of (by simpa using hv))

include hroute horigin hd in
/-- **Every instruction keeps the machine confined.** It leaves the fault that is kept alone, and it
stops with a fault only for a reason. -/
theorem spec_execute : During L J prog o (o + i.width)
    (execute prog host i) (Signal.Goes prog host L J o i) := by
  have hpc : L (o + i.width) := hroute.next horigin hd
  have ht := hroute.target horigin hd
  cases i with
  | value k =>
    exact goes_thenNext hpc ((stays_constant hd hroute rfl).bind fun _ hv => stays_push hv.2)
  | platform k =>
    exact goes_thenNext hpc ((stays_platformValue hroute hd).bind fun _ hv => stays_push hv)
  | discard => exact goes_thenNext hpc (stays_pop.bind fun _ _ => stays_pure trivial)
  | reserve count => exact goes_thenNext hpc (stays_reserve count.toNat)
  | writeLocal depth slot => exact goes_thenNext hpc (stays_writeLocal depth slot)
  | readLocal depth slot => exact goes_thenNext hpc (stays_readLocal depth slot)
  | pushScope size => exact goes_thenNext hpc (stays_pushScope size.toNat)
  | popScope => exact goes_thenNext hpc stays_popScope
  | array => exact goes_thenNext hpc (stays_push (only_array.mpr (forall_mem_nil _)))
  | arrayPush => exact goes_thenNext hpc stays_arrayPush
  | arrayExtend => exact goes_arrayExtend hpc
  | arrayReverse => exact goes_thenNext hpc stays_arrayReverse
  | arrayCopy => exact goes_thenNext hpc (stays_topArray.bind fun _ _ => stays_pure trivial)
  | arrayCut count => exact goes_thenNext hpc (stays_arrayCut count.toNat)
  | arrayPop pos => exact goes_thenNext hpc (stays_arrayPop pos)
  | arrayPopOrDefault d =>
    refine Spec.bind (stays_takeLast?.bind fun value hvalue => ?_) fun _ => .pure fun _ h => h
    exact spec_pushAndSkip hpc (ht _ mem_cons_self) hvalue
  | object => exact goes_thenNext hpc (stays_push (only_object.mpr Entries.only_nil))
  | objectPush => exact goes_thenNext hpc stays_objectPush
  | objectMerge => exact goes_thenNext hpc stays_objectMerge
  | objectCopy => exact goes_thenNext hpc (stays_topObject.bind fun _ _ => stays_pure trivial)
  | objectPop k =>
    refine goes_thenNext hpc ((stays_propertyKey hd hroute rfl rfl).bind fun key _ =>
      (stays_takeProperty? key).bind fun value hvalue => ?_)
    split
    · exact stays_push (hvalue _ rfl)
    · exact stays_reportMissing (only_of (by simp))
  | objectPopOrDefault k d =>
    refine Spec.bind ((stays_propertyKey hd hroute rfl rfl).bind fun key _ =>
      (stays_takeProperty? key).bind fun value hvalue => ?_) fun _ => .pure fun _ h => h
    exact spec_pushAndSkip hpc (ht _ mem_cons_self) hvalue
  | function t => exact goes_thenNext hpc (stays_makeClosure (ht _ mem_cons_self))
  | closure depth slot =>
    exact goes_thenNext hpc ((stays_slotIndex depth slot).bind fun index _ =>
      (stays_captureSlot index).bind fun cell _ => stays_addUpvalue cell)
  | closureUpvalue upvalue =>
    exact goes_thenNext hpc ((stays_runningUpvalue upvalue).bind fun cell _ =>
      stays_addUpvalue cell)
  | call => exact goes_call hpc
  | ret => exact goes_ret
  | readUpvalue upvalue =>
    exact goes_thenNext hpc ((stays_runningUpvalue upvalue).bind fun cell _ =>
      stays_get.bind fun m hm => stays_pushVariable fun _ hv => hm.readCell hv)
  | capture slot => exact goes_thenNext hpc (stays_capture slot)
  | index => exact goes_indexTop hpc
  | enterCatch d =>
    refine goes_thenNext hpc (stays_get.bind fun m hm => stays_modifyScope fun s hs t h => ?_)
    rcases mem_cons.mp h with rfl | h
    · rw [hm.pc_eq]
      exact ht _ mem_cons_self
    · exact hs t h
  | leaveCatch =>
    exact goes_thenNext hpc (stays_modifyScope fun s hs t h => hs t (mem_of_mem_tail h))
  | validate k => exact goes_validateTop hroute hpc hd

end Execution

/-! ## Steps -/

/-- A recovery goes to a catch that the machine keeps, or ends the loop. -/
lemma Confined.recover (h : m.Confined L J) (he : e.Only (Closure.Lands L)) :
    (m.recover e).1.Confined L J ∧ ((m.recover e).2 = none → L (m.recover e).1.pc)
      ∧ ∀ e', (m.recover e).2 = some e' → e'.Only (Closure.Lands L) := by
  have hleave : ∀ base, (m.leaveCalls base e).1.Confined L J := fun base =>
    ⟨h.stack, h.scopes, fun c hc => h.calls c (mem_of_mem_shrink hc), h.heap, h.fault⟩
  unfold Machine.recover
  split
  · next index base t os hcatch =>
    have hscope : ∀ place ∈ t :: os, L place := by
      unfold openCatch at hcatch
      split at hcatch
      · cases hcatch
      · obtain ⟨-, -, hget⟩ := catchAmong_spec hcatch
        exact h.scopes _ (mem_of_getElem? hget)
    refine ⟨?_, fun _ => hscope t mem_cons_self, nofun⟩
    have hcut : Confined L J { (m.leaveCalls base e).1 with
        scopes := (m.scopes.shrink index).push ⟨base, os⟩ } := by
      refine ⟨h.stack, fun s hs => ?_, (hleave base).calls, h.heap, h.fault⟩
      rcases mem_push.mp hs with hs | rfl
      · exact h.scopes s (mem_of_mem_shrink hs)
      · exact fun place hp => hscope place (mem_cons_of_mem _ hp)
    have herror : (toValue (m.leaveCalls base e).2).Only (Closure.Lands L) := only_toValue.mpr he
    exact ((hcut.truncate base).push herror).congr rfl rfl rfl rfl rfl
  · refine ⟨?_, nofun, ?_⟩
    · have hcut : Confined L J { (m.leaveCalls m.floor.stack e).1 with
          scopes := m.scopes.shrink m.floor.scopes } :=
        ⟨h.stack, fun s hs => h.scopes s (mem_of_mem_shrink hs), (hleave _).calls, h.heap, h.fault⟩
      exact hcut.truncate _
    · rintro _ ⟨⟩
      exact he

end Machine

open Machine

/-- **A loop that stays within `L`**, where it stands. -/
def Progress.Confined (S : Setting) (L : Nat → Prop) (J : Option Fault → Prop) :
    Progress → Prop
  | .running m => m.Confined L J ∧ L m.pc
  | .waiting job m => m.Confined L J ∧ L m.pc ∧ L m.origin ∧ ∃ i,
      Instruction.decode S.program.code m.origin = .ok i
        ∧ Delegates S.program S.host L i job
  | .finished (.ok v) m => m.Confined L J ∧ v.Only (Closure.Lands L)
  | .finished (.error (.raised e)) m => m.Confined L J ∧ e.Only (Closure.Lands L)
  | .finished (.error (.fault f)) m => m.Confined L J ∧ L f.offset ∧ S.program.Explains f

/-- **How a loop may be stopped**, at an instruction within `L`. -/
def Trap.Within (L : Nat → Prop) (J : Option Fault → Prop) (prog : Program) (t : Trap)
    (m : Machine) : Prop :=
  ∃ o, L o ∧ t.From L J prog o m

section Advance

variable {S : Setting}

lemma Progress.confined_trap {t} (h : t.Within L J S.program m) :
    (ofResult (.error t m)).Confined S L J := by
  obtain ⟨o, horigin, hfrom⟩ := h
  cases t with
  | fault f =>
    obtain ⟨hm, rfl, hexplains⟩ := hfrom
    exact ⟨hm, horigin, hexplains⟩
  | raised e =>
    obtain ⟨hm, he⟩ := hfrom
    obtain ⟨hrec, hpc, herror⟩ := hm.recover he
    unfold ofResult
    dsimp only
    split
    · next heq =>
      rw [heq] at hrec hpc
      exact ⟨hrec, hpc rfl⟩
    · next heq =>
      rw [heq] at hrec herror
      exact ⟨hrec, herror _ rfl⟩

/-- Where a loop stands after the instruction at `origin`. -/
lemma Progress.confined_ofResult {i} (horigin : L o)
    (hd : Instruction.decode S.program.code o = .ok i) {x P} (hx :
      Exec.Spec (Trap.From L J S.program o) P x
      (Signal.Goes S.program S.host L J o i)) (hm : P m) : (ofResult (x m)).Confined S L J := by
  have h := hx m hm
  cases hr : x m with
  | error t m' =>
    rw [hr] at h
    exact confined_trap ⟨o, horigin, h⟩
  | ok signal m' =>
    rw [hr] at h
    cases signal with
    | next => exact h
    | «yield» v => exact h
    | «await» job =>
      obtain ⟨hm, hpc, rfl, hdelegates⟩ := h
      exact ⟨hm, hpc, horigin, i, hd, hdelegates⟩

/-- Where there is no instruction, the program has the reason for the fault. -/
lemma Machine.step_undecoded {e}
    (hn : countStep S.limits m = .ok () m.counted)
    (hd : Instruction.decode S.program.code m.pc = .error e) :
    ∃ f, step S m = .error (.fault f) { m.counted with origin := m.pc } ∧ f.offset = m.pc ∧
      S.program.Explains f := by
  have hstep : ∀ {f},
      fetch S.program m.counted = .error (.fault f) { m.counted with origin := m.pc } →
      step S m = .error (.fault f) { m.counted with origin := m.pc } :=
    fun h => (Exec.bind_ok hn).trans (Exec.bind_error h)
  have hfetch : fetch S.program m.counted = _ := (Exec.bind_ok rfl).trans (Exec.get_bind _ _)
  dsimp only at hfetch
  rw [show Instruction.decode S.program.code m.counted.pc = .error e from hd] at hfetch
  cases e with
  | unknownOpcode word => exact ⟨.invalidOpcode m.pc, hstep hfetch, rfl, word, hd⟩
  | incomplete place =>
    dsimp only at hfetch
    by_cases hs : S.program.code.size ≤ m.counted.pc
    · rw [if_pos hs] at hfetch
      exact ⟨.unexpectedEnd m.pc, hstep hfetch, rfl, trivial⟩
    · rw [if_neg hs] at hfetch
      exact ⟨.missingOperand m.pc, hstep hfetch, rfl, Nat.lt_of_not_le hs, place, hd⟩

/-- **A step keeps a loop within `L`**, and leaves the fault that is kept alone. -/
theorem Machine.confined_advance (hroute : S.program.Route L) (hm : m.Confined L J)
    (hpc : L m.pc) : (m.advance S).Confined S L J := by
  unfold advance
  rcases m.countStep_cases S.limits with hn | ⟨e, hn, hdata⟩
  · cases hd : Instruction.decode S.program.code m.pc with
    | ok i =>
      rw [step_eq hn hd]
      exact confined_ofResult hpc hd (spec_execute hroute hpc hd)
        ⟨hm.congr rfl rfl rfl rfl rfl, rfl, rfl⟩
    | error e =>
      obtain ⟨f, hstep, hoffset, hexplains⟩ := step_undecoded hn hd
      rw [hstep]
      exact confined_trap
        ⟨m.pc, hpc, hm.congr rfl rfl rfl rfl rfl, hoffset, hexplains⟩
  · rw [step_exhausted hn]
    exact confined_trap ⟨m.pc, hpc, hm.congr rfl rfl rfl rfl rfl,
      fun x hx => only_of_isData (hdata x hx)⟩

end Advance

end TreeCode
