import Mathlib.Tactic.Lemma
import TreeCode.Machine.Run

/-!
# The machine's actions, as equations

The stacks of a machine are arrays that grow at their ends. Reasoning about them is easier from the
top down, so `Machine.operands`, `Machine.scopeList` and `Machine.callList` are the three stacks as
lists with the top first, and `withOperands`, `withScopeList` and `withCallList` put a list in a
stack's place. Each action on a stack is an equation between lists then, and so is each instruction
that finds on the stacks what it needs.
-/

namespace TreeCode

open List Entries

variable {α : Type} {m' : Machine}

namespace Exec

variable {β : Type} {x : Exec α} {f : α → Exec β} {m : Machine}

lemma bind_ok {a} (h : x m = .ok a m') : (x >>= f) m = f a m' := by
  show EStateM.bind x f m = _
  simp only [EStateM.bind, h]

lemma bind_error {t} (h : x m = .error t m') : (x >>= f) m = .error t m' := by
  show EStateM.bind x f m = _
  simp only [EStateM.bind, h]

lemma get_bind (k : Machine → Exec β) (m) : (get >>= k) m = k m m := rfl

end Exec

namespace Machine

variable (m : Machine)

/-! ## The stacks from the top down -/

/-- The operand stack, the top first. -/
def operands : List (Option Value) := m.stack.toList.reverse

/-- The scopes, the innermost first. -/
def scopeList : List Scope := m.scopes.toList.reverse

/-- The calls, the innermost first. -/
def callList : List Call := m.calls.toList.reverse

/-- The machine with other operands. -/
def withOperands (l : List (Option Value)) : Machine := { m with stack := l.reverse.toArray }

/-- The machine with other scopes. -/
def withScopeList (l : List Scope) : Machine := { m with scopes := l.reverse.toArray }

/-- The machine with other calls. -/
def withCallList (l : List Call) : Machine := { m with calls := l.reverse.toArray }

section Arrays

variable (a : Array α)

lemma reverse_toList_pop : a.pop.toList.reverse = a.toList.reverse.tail := by simp

lemma back?_eq_head? : a.back? = a.toList.reverse.head? := by simp

lemma reverse_toList_shrink (n) :
    (a.shrink n).toList.reverse = a.toList.reverse.drop (a.size - n) := by
  simp [reverse_take]

lemma back?_of_cons {a : Array α} {x l} (h : a.toList.reverse = x :: l) :
    a.back? = some x := by rw [back?_eq_head?, h, head?_cons]

/-- Shrinking leaves the lower items. -/
lemma shrink_eq {a : Array α} {above below} (h : a.toList.reverse = above ++ below) :
    a.shrink below.length = below.reverse.toArray := by
  have hs : a.size = above.length + below.length := by
    rw [← Array.length_toList, ← length_reverse, h, length_append]
  apply Array.toList_inj.mp
  apply reverse_inj.mp
  rw [reverse_toList_shrink, h, hs, Nat.add_sub_cancel, drop_left, reverse_reverse]

end Arrays

@[simp]
lemma length_operands : m.operands.length = m.stack.size := by simp [operands]

@[simp]
lemma length_scopeList : m.scopeList.length = m.scopes.size := by simp [scopeList]

@[simp]
lemma length_callList : m.callList.length = m.calls.size := by simp [callList]

@[simp]
lemma operands_withOperands (l) : (m.withOperands l).operands = l := by
  simp [operands, withOperands]

@[simp]
lemma withOperands_operands : m.withOperands m.operands = m := by simp [operands, withOperands]

@[simp]
lemma scopeList_withScopeList (l) : (m.withScopeList l).scopeList = l := by
  simp [scopeList, withScopeList]

@[simp]
lemma callList_withCallList (l) : (m.withCallList l).callList = l := by
  simp [callList, withCallList]

@[simp]
lemma withOperands_withOperands (l l') :
    (m.withOperands l).withOperands l' = m.withOperands l' := rfl

lemma stack_eq {l} (h : m.operands = l) : m.stack = l.reverse.toArray := by simp [← h, operands]

lemma scopes_eq {l} (h : m.scopeList = l) : m.scopes = l.reverse.toArray := by
  simp [← h, scopeList]

lemma calls_eq {l} (h : m.callList = l) : m.calls = l.reverse.toArray := by simp [← h, callList]

lemma slotContent_eq (slot) : m.slotContent slot = (m.operands.reverse[slot]?).getD none := by
  simp [slotContent, operands]

/-- What lies at a place below the top does not depend on what lies above it. -/
lemma slotContent_append {above below} (h : m.operands = above ++ below)
    {slot} (hslot : slot < below.length) :
    m.slotContent slot = (below.reverse[slot]?).getD none := by
  rw [slotContent_eq, h, reverse_append, getElem?_append_left (by simpa using hslot)]

/-! ## Operands -/

variable {v : Value} {ops : List (Option Value)}

section Operands

variable {m} {x : Option Value}

lemma push_eq (m : Machine) (v) :
    push v m = .ok () (m.withOperands (some v :: m.operands)) := by
  have hpush : m.stack.push (some v) = (some v :: m.operands).reverse.toArray := by
    apply Array.toList_inj.mp
    simp [operands]
  rw [withOperands, ← hpush]
  rfl

lemma pop_eq (h : m.operands = some v :: ops) (hf : m.floor.stack ≤ ops.length) :
    pop m = .ok v (m.withOperands ops) := by
  have hs : ¬ m.stack.size ≤ m.floor.stack := by
    rw [← length_operands, h, length_cons]
    omega
  have hpop : { m with stack := m.stack.pop } = m.withOperands ops := by
    simp [withOperands, m.stack_eq h]
  rw [pop, Exec.get_bind, if_neg hs, back?_of_cons h, ← hpop]
  rfl

lemma top_eq (h : m.operands = some v :: ops) : top m = .ok v m := by
  rw [top, Exec.get_bind, back?_of_cons h]
  rfl

lemma replaceTop_eq (h : m.operands = x :: ops) (v) :
    replaceTop v m = .ok () (m.withOperands (some v :: ops)) := by
  show EStateM.Result.ok () { m with stack := m.stack.pop.push (some v) } = _
  simp [withOperands, m.stack_eq h]

lemma topArray_eq {es} (h : m.operands = some (.array es) :: ops) :
    topArray m = .ok es m := Exec.bind_ok (top_eq h)

lemma topObject_eq {es} (h : m.operands = some (.object es) :: ops) :
    topObject m = .ok es m := Exec.bind_ok (top_eq h)

end Operands

/-! ## Scopes, calls and variables -/

variable {s : Scope} {ss : List Scope} {cs : List Call}

section Scopes

variable {m}

lemma scope_eq (h : m.scopeList = s :: ss) (hf : m.floor.scopes ≤ ss.length) :
    scope m = .ok s m := by
  have hs : ¬ m.scopes.size ≤ m.floor.scopes := by
    rw [← length_scopeList, h, length_cons]
    omega
  rw [scope, Exec.get_bind, if_neg hs, back?_of_cons h]
  rfl

lemma modifyScope_eq (h : m.scopeList = s :: ss) (hf : m.floor.scopes ≤ ss.length)
    (f) : modifyScope f m = .ok () (m.withScopeList (f s :: ss)) := by
  refine (Exec.bind_ok (scope_eq h hf)).trans ?_
  show EStateM.Result.ok () { m with scopes := m.scopes.pop.push (f s) } = _
  simp [withScopeList, m.scopes_eq h]

lemma slotIndex_eq {depth slot} (h : m.scopeList[depth.toNat]? = some s)
    (hslot : s.base + slot.toNat < m.stack.size) :
    slotIndex depth slot m = .ok (s.base + slot.toNat) m := by
  obtain ⟨hlt, -⟩ := List.getElem?_eq_some_iff.mp h
  rw [length_scopeList] at hlt
  have hget : m.scopes[m.scopes.size - 1 - depth.toNat]? = some s := by
    rw [← h, scopeList, List.getElem?_reverse (by simpa using hlt)]
    simp
  rw [slotIndex, Exec.get_bind, if_neg (by omega), hget]
  dsimp only
  rw [if_pos hslot]
  rfl

variable {c : Call}

lemma runningUpvalue_eq (h : m.callList = c :: cs) {f : Closure}
    (hf : m.operands.reverse[c.base]? = some (some (.closure f))) {index : Word} {cell}
    (hcell : f.upvalues[index.toNat]? = some cell) : runningUpvalue index m = .ok cell m := by
  have hget : m.stack[c.base]? = some (some (.closure f)) := by
    rw [← hf]
    simp [operands]
  have hfn : runningCallee m = .ok (.closure f) m := by
    rw [runningCallee, Exec.get_bind, back?_of_cons h]
    dsimp only
    rw [hget]
    rfl
  refine (Exec.bind_ok hfn).trans ?_
  dsimp only
  rw [hcell]
  rfl

end Scopes

/-! ## Cutting the stack -/

section Truncate

@[simp]
lemma operands_truncate (height : Nat) :
    (m.truncate height).operands = m.operands.drop (m.stack.size - height) :=
  reverse_toList_shrink m.stack height

lemma operands_truncate_append {above below}
    (h : m.operands = above ++ below) : (m.truncate below.length).operands = below := by
  rw [operands_truncate, ← length_operands, h, length_append, Nat.add_sub_cancel, drop_left]

end Truncate

/-! ## Counting and fetching -/

/-- The machine that has counted one more step. -/
def counted : Machine := { m with steps := m.steps + 1 }

lemma exhaust_eq (e) : exhaust e m = .error (.raised e) { m with exhausted := true } := rfl

lemma count_bind (k : Machine → Exec Unit) :
    ((modify fun m => { m with steps := m.steps + 1 }) >>= fun _ => get >>= k) m
      = k m.counted m.counted := rfl

/-- A step is counted, or a budget is spent. -/
lemma countStep_cases (limits : Limits) :
    countStep limits m = .ok () m.counted ∨
      ∃ e, countStep limits m = .error (.raised e) { m.counted with exhausted := true }
        ∧ ∀ x ∈ e.details, x.2.isData = true := by
  obtain ⟨steps, nanoseconds, depth⟩ := limits
  have hdata : ∀ kind key n,
      ∀ x ∈ (ErrorValue.of kind [(key, .number n)]).details, x.2.isData = true := by
    intro kind key n x hx
    cases mem_singleton.mp hx
    rfl
  rw [countStep, count_bind]
  cases steps with
  | none =>
    cases nanoseconds with
    | none => exact .inl rfl
    | some k =>
      dsimp only
      split
      · exact .inr ⟨_, exhaust_eq _ _, hdata _ _ _⟩
      · exact .inl rfl
  | some most =>
    dsimp only
    split
    · exact .inr ⟨_, Exec.bind_error (exhaust_eq _ _), hdata _ _ _⟩
    · cases nanoseconds with
      | none => exact .inl rfl
      | some k =>
        dsimp only
        split
        · exact .inr ⟨_, exhaust_eq _ _, hdata _ _ _⟩
        · exact .inl rfl

/-! ## Instructions -/

section Instructions

variable {m} {p : Program} {host : Host}
  {x : Exec Unit} {k slot n index : Word} {other schema : Value} {S : Setting}

lemma thenNext_ok (h : x m = .ok () m') :
    thenNext x m = .ok .next m' := Exec.bind_ok h

lemma thenNext_error {t} (h : x m = .error t m') :
    thenNext x m = .error t m' := Exec.bind_error h

lemma constant_eq (h : p.constants[k.toNat]? = some v) :
    constant p k m = .ok v m := by
  rw [constant, h]
  rfl

lemma propertyKey_eq {key}
    (h : p.constants[k.toNat]? = some (.string key)) : propertyKey p k m = .ok key m :=
  Exec.bind_ok (constant_eq h)

lemma execute_value (h : p.constants[k.toNat]? = some v) :
    execute p host (.value k) m = .ok .next (m.withOperands (some v :: m.operands)) :=
  thenNext_ok ((Exec.bind_ok (constant_eq h)).trans (push_eq m v))

lemma execute_platform {entry} (h : p.platform[k.toNat]? = some entry) :
    execute p host (.platform k) m
      = .ok .next (m.withOperands (some entry.value :: m.operands)) := by
  have hv : platformValue p k m = .ok entry.value m := by
    rw [platformValue, h]
    rfl
  exact thenNext_ok ((Exec.bind_ok hv).trans (push_eq m _))

lemma execute_discard (h : m.operands = some v :: ops) (hf : m.floor.stack ≤ ops.length) :
    execute p host .discard m = .ok .next (m.withOperands ops) :=
  thenNext_ok (Exec.bind_ok (pop_eq h hf))

lemma execute_reserve (n : Word) :
    execute p host (.reserve n) m
      = .ok .next (m.withOperands (replicate n.toNat none ++ m.operands)) := by
  have hs : m.stack ++ Array.replicate n.toNat none
      = (replicate n.toNat none ++ m.operands).reverse.toArray := by
    apply Array.toList_inj.mp
    simp [operands]
  refine thenNext_ok ?_
  rw [withOperands, ← hs]
  rfl

/-! ### Variables -/

/-- What is raised where an unassigned variable is read. -/
def unassigned (p : Program) (m : Machine) : ErrorValue :=
  .of "nameUsedBeforeAssignment"
    [("name", .string (((p.diagnostic? m.origin).map (·.name)).getD "<unknown>"))]

lemma execute_writeLocal {depth} (h : m.operands = some v :: ops)
    (hf : m.floor.stack ≤ ops.length) (hs : m.scopeList[depth.toNat]? = some s)
    (hslot : s.base + slot.toNat < ops.length) :
    execute p host (.writeLocal depth slot) m = .ok .next
      (m.withOperands (ops.reverse.set (s.base + slot.toNat) (some v)).reverse) := by
  refine thenNext_ok ((Exec.bind_ok (pop_eq h hf)).trans ?_)
  have hi : slotIndex depth slot (m.withOperands ops)
      = .ok (s.base + slot.toNat) (m.withOperands ops) :=
    slotIndex_eq hs (by simpa [withOperands] using hslot)
  refine (Exec.bind_ok hi).trans ?_
  have hset : (m.withOperands ops).stack.setIfInBounds (s.base + slot.toNat) (some v)
      = (ops.reverse.set (s.base + slot.toNat) (some v)).reverse.reverse.toArray := by
    apply Array.toList_inj.mp
    simp [withOperands]
  show EStateM.Result.ok () { m.withOperands ops with
    stack := (m.withOperands ops).stack.setIfInBounds (s.base + slot.toNat) (some v) } = _
  rw [hset]
  rfl

section Read

variable {depth : Word} (hs : m.scopeList[depth.toNat]? = some s)
  (hslot : s.base + slot.toNat < m.stack.size)

include hs hslot

lemma execute_readLocal_some (hv : m.slotContent (s.base + slot.toNat) = some v) :
    execute p host (.readLocal depth slot) m
      = .ok .next (m.withOperands (some v :: m.operands)) := by
  refine thenNext_ok ((Exec.bind_ok (slotIndex_eq hs hslot)).trans ?_)
  show pushVariable p (m.slotContent (s.base + slot.toNat)) m = _
  rw [hv]
  exact push_eq m v

lemma execute_readLocal_none (hv : m.slotContent (s.base + slot.toNat) = none) :
    execute p host (.readLocal depth slot) m
      = .error (.raised (unassigned p m)) m := by
  refine thenNext_error ((Exec.bind_ok (slotIndex_eq hs hslot)).trans ?_)
  show pushVariable p (m.slotContent (s.base + slot.toNat)) m = _
  rw [hv]
  rfl

end Read

section ReadUpvalue

variable {c : Call} (hc : m.callList = c :: cs) {f : Closure}
  (hf : m.operands.reverse[c.base]? = some (some (.closure f))) {cell : CellId}
  (hcell : f.upvalues[index.toNat]? = some cell)

include hc hf hcell

lemma execute_readUpvalue_some (hv : m.readCell cell = some v) :
    execute p host (.readUpvalue index) m
      = .ok .next (m.withOperands (some v :: m.operands)) := by
  refine thenNext_ok ((Exec.bind_ok (runningUpvalue_eq hc hf hcell)).trans ?_)
  show pushVariable p (m.readCell cell) m = _
  rw [hv]
  exact push_eq m v

lemma execute_readUpvalue_none (hv : m.readCell cell = none) :
    execute p host (.readUpvalue index) m
      = .error (.raised (unassigned p m)) m := by
  refine thenNext_error ((Exec.bind_ok (runningUpvalue_eq hc hf hcell)).trans ?_)
  show pushVariable p (m.readCell cell) m = _
  rw [hv]
  rfl

end ReadUpvalue

/-! ### Scopes -/

lemma execute_pushScope (h : n.toNat ≤ m.stack.size - m.floor.stack) :
    execute p host (.pushScope n) m
      = .ok .next (m.withScopeList ({ base := m.stack.size - n.toNat } :: m.scopeList)) := by
  have hpush : m.scopes.push { base := m.stack.size - n.toNat }
      = ({ base := m.stack.size - n.toNat } :: m.scopeList).reverse.toArray := by
    apply Array.toList_inj.mp
    simp [scopeList]
  refine thenNext_ok ((Exec.get_bind _ _).trans ?_)
  rw [if_neg (by omega), withScopeList, ← hpush]
  rfl

section PopScope

lemma execute_popScope (h : m.operands = some v :: ops) (hf : m.floor.stack ≤ ops.length)
    (hs : m.scopeList = s :: ss) (hfs : m.floor.scopes ≤ ss.length) :
    execute p host .popScope m = .ok .next
      ((((m.withOperands ops).withScopeList ss).truncate s.base).withOperands
        (some v :: (((m.withOperands ops).withScopeList ss).truncate s.base).operands)) := by
  refine thenNext_ok ((Exec.bind_ok (pop_eq h hf)).trans ?_)
  have hscope : scope (m.withOperands ops) = .ok s (m.withOperands ops) := scope_eq hs hfs
  have hpop : { m.withOperands ops with scopes := m.scopes.pop }
      = (m.withOperands ops).withScopeList ss := by
    simp [withScopeList, m.scopes_eq hs]
  refine (Exec.bind_ok hscope).trans ?_
  rw [← hpop]
  exact push_eq _ v

variable (hs : m.scopeList = s :: ss)

include hs

variable (hfs : m.floor.scopes ≤ ss.length)

include hfs

lemma execute_enterCatch :
    execute p host (.enterCatch n) m = .ok .next
      (m.withScopeList (⟨s.base, (m.pc + n.toNat) :: s.recovery⟩ :: ss)) :=
  thenNext_ok (modifyScope_eq hs hfs fun s => { s with recovery := (m.pc + n.toNat) :: s.recovery })

lemma execute_leaveCatch :
    execute p host .leaveCatch m = .ok .next (m.withScopeList (⟨s.base, s.recovery.tail⟩ :: ss)) :=
  thenNext_ok (modifyScope_eq hs hfs fun s => { s with recovery := s.recovery.tail })

lemma execute_capture :
    execute p host (.capture slot) m = .ok .next (m.closeSlot (s.base + slot.toNat)) :=
  thenNext_ok (Exec.bind_ok (scope_eq hs hfs))

end PopScope

/-! ### Arrays -/

section Arrays

variable {es : List Value}

lemma execute_array : execute p host .array m
    = .ok .next (m.withOperands (some (.array []) :: m.operands)) :=
  thenNext_ok (push_eq m _)

lemma execute_arrayPush (h : m.operands = some v :: some (.array es) :: ops)
    (hf : m.floor.stack ≤ ops.length) :
    execute p host .arrayPush m
      = .ok .next (m.withOperands (some (.array (es ++ [v])) :: ops)) := by
  have hpop := pop_eq h (by rw [length_cons]; omega)
  have htop : (m.withOperands (some (.array es) :: ops)).operands = some
    (.array es) :: ops := by simp
  exact thenNext_ok ((Exec.bind_ok hpop).trans
    ((Exec.bind_ok (topArray_eq htop)).trans (replaceTop_eq htop _)))

lemma execute_arrayExtend (h : m.operands = some v :: ops) (hf : m.floor.stack ≤ ops.length) :
    execute p host .arrayExtend m = .ok
      (.await (Job.holding [v] do return appendElements (← v.elements))) (m.withOperands ops) :=
  Exec.bind_ok (pop_eq h hf)

section

variable (h : m.operands = some (.array es) :: ops)

include h

lemma appendElements_eq (more) :
    appendElements more m = .ok () (m.withOperands (some (.array (es ++ more)) :: ops)) :=
  (Exec.bind_ok (topArray_eq h)).trans (replaceTop_eq h _)

lemma execute_arrayReverse :
    execute p host .arrayReverse m
      = .ok .next (m.withOperands (some (.array es.reverse) :: ops)) :=
  thenNext_ok ((Exec.bind_ok (topArray_eq h)).trans (replaceTop_eq h _))

lemma execute_arrayCopy :
    execute p host .arrayCopy m = .ok .next m :=
  thenNext_ok (Exec.bind_ok (topArray_eq h))

lemma execute_arrayCut (hf : m.floor.stack ≤ ops.length) :
    execute p host (.arrayCut n) m = .ok .next (m.withOperands
      (some (.array (es.drop n.toNat)) :: some (.array (es.take n.toNat)) :: ops)) := by
  refine thenNext_ok ((Exec.bind_ok (pop_eq h hf)).trans ?_)
  refine (Exec.bind_ok (push_eq _ _)).trans ((push_eq _ _).trans ?_)
  simp

lemma takeLast?_eq :
    takeLast? m = .ok es.getLast? (m.withOperands (some (.array es.dropLast) :: ops)) :=
  (Exec.bind_ok (topArray_eq h)).trans (Exec.bind_ok (replaceTop_eq h _))

end

lemma boundArgument?_eq (p : Program) : boundArgument? p m
    = .ok (((p.diagnostic? m.origin).filter (·.isArgument)).map (·.name)) m := rfl

/-- What is raised where a value that was to be taken is missing. -/
def missing (p : Program) (m : Machine) (other : ErrorValue) : ErrorValue :=
  match ((p.diagnostic? m.origin).filter (·.isArgument)).map (·.name) with
  | some name => Mismatch.missingArgument name
  | none => other

lemma reportMissing_eq (other) :
    reportMissing p other m = .error (.raised (missing p m other)) m := by
  refine (Exec.bind_ok (boundArgument?_eq _)).trans ?_
  unfold missing
  cases ((p.diagnostic? m.origin).filter (·.isArgument)).map (·.name) <;> rfl

variable (h : m.operands = some (.array es) :: ops)

include h

lemma execute_arrayPop_some (hv : es.getLast? = some v) : execute p host (.arrayPop n) m
      = .ok .next (m.withOperands (some v :: some (.array es.dropLast) :: ops)) := by
  refine thenNext_ok ((Exec.bind_ok (takeLast?_eq h)).trans ?_)
  rw [hv]
  refine (push_eq _ v).trans ?_
  simp

lemma execute_arrayPop_none (hv : es.getLast? = none) :
    execute p host (.arrayPop n) m
      = .error (.raised (missing p m (.of "missingElement" [("index", .ofNat n.toNat)])))
          (m.withOperands (some (.array es.dropLast) :: ops)) := by
  refine thenNext_error ((Exec.bind_ok (takeLast?_eq h)).trans ?_)
  rw [hv]
  exact reportMissing_eq _

lemma execute_arrayPopOrDefault_some
    (hv : es.getLast? = some v) : execute p host (.arrayPopOrDefault n) m = .ok .next
      { m.withOperands (some v :: some (.array es.dropLast) :: ops) with pc :=
        m.pc + n.toNat } := by
  refine thenNext_ok ((Exec.bind_ok (takeLast?_eq h)).trans ?_)
  rw [hv]
  refine (Exec.bind_ok (push_eq _ v)).trans ?_
  rw [operands_withOperands]
  rfl

lemma execute_arrayPopOrDefault_none
    (hv : es.getLast? = none) : execute p host (.arrayPopOrDefault n) m
      = .ok .next (m.withOperands (some (.array es.dropLast) :: ops)) := by
  refine thenNext_ok ((Exec.bind_ok (takeLast?_eq h)).trans ?_)
  rw [hv]
  rfl

end Arrays

/-! ### Objects -/

section Objects

variable {xs : Entries Value} {key : String}

lemma execute_object : execute p host .object m
    = .ok .next (m.withOperands (some (.object []) :: m.operands)) :=
  thenNext_ok (push_eq m _)

lemma execute_objectPush (h : m.operands = some v :: some (.string key) :: some (.object xs) :: ops)
    (hf : m.floor.stack ≤ ops.length) :
    execute p host .objectPush m
      = .ok .next (m.withOperands (some (.object (insert xs key v)) :: ops)) := by
  have hpop := pop_eq h (by simp only [length_cons]; omega)
  have hkey := pop_eq (m := m.withOperands (some (.string key) :: some (.object xs) :: ops))
    (operands_withOperands ..) (by simp only [length_cons, withOperands]; omega)
  have htop : ((m.withOperands (some (.string key) :: some (.object xs) :: ops)).withOperands
      (some (.object xs) :: ops)).operands = some (.object xs) :: ops := by simp
  exact thenNext_ok ((Exec.bind_ok hpop).trans ((Exec.bind_ok hkey).trans
    ((Exec.bind_ok (topObject_eq htop)).trans (replaceTop_eq htop _))))

lemma execute_objectPush_other (hother : ∀ key, other ≠ .string key)
    {x} (h : m.operands = some v :: some other :: x :: ops)
    (hf : m.floor.stack ≤ ops.length) :
    execute p host .objectPush m
      = .error (.raised (Mismatch.notOfType other "string")) (m.withOperands (x :: ops)) := by
  have hpop := pop_eq h (by simp only [length_cons]; omega)
  have hkey := pop_eq (m := m.withOperands (some other :: x :: ops))
    (operands_withOperands ..) (by simp only [length_cons, withOperands]; omega)
  refine thenNext_error ((Exec.bind_ok hpop).trans ((Exec.bind_ok hkey).trans ?_))
  cases other with
  | string key => exact absurd rfl (hother key)
  | _ => rfl

lemma execute_objectMerge {os}
    (h : m.operands = some (.object os) :: some (.object xs) :: ops)
    (hf : m.floor.stack ≤ ops.length) :
    execute p host .objectMerge m
      = .ok .next (m.withOperands (some (.object (merge xs os)) :: ops)) := by
  have hpop := pop_eq h (by rw [length_cons]; omega)
  have htop : (m.withOperands (some (.object xs) :: ops)).operands = some (.object xs) :: ops := by
    simp
  exact thenNext_ok ((Exec.bind_ok hpop).trans
    ((Exec.bind_ok (topObject_eq htop)).trans (replaceTop_eq htop _)))

lemma execute_objectMerge_other (hother : ∀ xs, other ≠ .object xs)
    (h : m.operands = some other :: ops) (hf : m.floor.stack ≤ ops.length) :
    execute p host .objectMerge m
      = .error (.raised (Mismatch.notOfType other "object")) (m.withOperands ops) := by
  refine thenNext_error ((Exec.bind_ok (pop_eq h hf)).trans ?_)
  cases other with
  | object xs => exact absurd rfl (hother xs)
  | _ => rfl

lemma execute_objectCopy (h : m.operands = some (.object xs) :: ops) :
    execute p host .objectCopy m = .ok .next m :=
  thenNext_ok (Exec.bind_ok (topObject_eq h))

lemma takeProperty?_eq (h : m.operands = some (.object xs) :: ops) :
    takeProperty? key m
      = .ok (get? xs key) (m.withOperands (some (.object (erase xs key)) :: ops)) :=
  (Exec.bind_ok (topObject_eq h)).trans (Exec.bind_ok (replaceTop_eq h _))

variable (hk : p.constants[k.toNat]? = some (.string key))
  (h : m.operands = some (.object xs) :: ops)

include hk h

lemma execute_objectPop_some (hv : get? xs key = some v) :
    execute p host (.objectPop k) m
      = .ok .next (m.withOperands (some v :: some (.object (erase xs key)) :: ops)) := by
  refine thenNext_ok ((Exec.bind_ok (propertyKey_eq hk)).trans
    ((Exec.bind_ok (takeProperty?_eq h)).trans ?_))
  rw [hv]
  refine (push_eq _ v).trans ?_
  simp

lemma execute_objectPop_none (hv : get? xs key = none) :
    execute p host (.objectPop k) m
      = .error (.raised (missing p m (.of "missingProperty" [("key", .string key)])))
          (m.withOperands (some (.object (erase xs key)) :: ops)) := by
  refine thenNext_error ((Exec.bind_ok (propertyKey_eq hk)).trans
    ((Exec.bind_ok (takeProperty?_eq h)).trans ?_))
  rw [hv]
  exact reportMissing_eq _

lemma execute_objectPopOrDefault_some (hv : get? xs key = some v) :
    execute p host (.objectPopOrDefault k n) m = .ok .next
      { m.withOperands (some v :: some (.object (erase xs key)) :: ops) with
        pc := m.pc + n.toNat } := by
  refine thenNext_ok ((Exec.bind_ok (propertyKey_eq hk)).trans
    ((Exec.bind_ok (takeProperty?_eq h)).trans ?_))
  rw [hv]
  refine (Exec.bind_ok (push_eq _ v)).trans ?_
  rw [operands_withOperands]
  rfl

lemma execute_objectPopOrDefault_none (hv : get? xs key = none) :
    execute p host (.objectPopOrDefault k n) m
      = .ok .next (m.withOperands (some (.object (erase xs key)) :: ops)) := by
  refine thenNext_ok ((Exec.bind_ok (propertyKey_eq hk)).trans
    ((Exec.bind_ok (takeProperty?_eq h)).trans ?_))
  rw [hv]
  rfl

end Objects

/-! ### Functions -/

/-- The name of the function that starts at an offset. -/
def nameAt (p : Program) (t : Nat) : String := ((p.functionAt? t).map (·.name)).getD "<anonymous>"

/-- The closure that is made of a function next. -/
def newClosure (p : Program) (m : Machine) (target : Nat) : Closure :=
  { id := m.heap.nextClosure, name := nameAt p target, target, upvalues := [] }

lemma execute_function (target) :
    execute p host (.function target) m = .ok .next ({ m with
          heap := { m.heap with nextClosure := m.heap.nextClosure + 1 }
          fresh := some m.heap.nextClosure }.withOperands
        (some (.closure (newClosure p m target.toNat)) :: m.operands)) :=
  thenNext_ok (push_eq { m with
    heap := { m.heap with nextClosure := m.heap.nextClosure + 1 }
    fresh := some m.heap.nextClosure } (.closure (newClosure p m target.toNat)))

/-- The cell of a slot, and the machine that has it. -/
def cellFor (m : Machine) (slot : Nat) : CellId × Machine :=
  match cellAt? slot m.openCells with
  | some cell => (cell, m)
  | none => (m.heap.cells.size, { m with
      heap := (m.heap.addCell (.onStack slot)).2
      openCells := insertCell slot m.heap.cells.size m.openCells })

lemma captureSlot_eq (slot) :
    captureSlot slot m = .ok (m.cellFor slot).1 (m.cellFor slot).2 := by
  rw [captureSlot, Exec.get_bind]
  unfold cellFor
  cases cellAt? slot m.openCells <;> rfl

lemma operands_cellFor (slot) : (m.cellFor slot).2.operands = m.operands := by
  unfold cellFor
  split <;> rfl

lemma fresh_cellFor (slot) : (m.cellFor slot).2.fresh = m.fresh := by
  unfold cellFor
  split <;> rfl

section Capture

variable {c : Closure} (h : m.operands = some (.closure c) :: ops) (hfresh : m.fresh = some c.id)

include h hfresh

lemma addUpvalue_eq (cell) : addUpvalue cell m = .ok ()
    (m.withOperands (some (.closure { c with upvalues := c.upvalues ++ [cell] }) :: ops)) := by
  have hunshared : unsharedClosure m = .ok c m := by
    refine (Exec.bind_ok (top_eq h)).trans ?_
    refine (Exec.get_bind _ _).trans ?_
    rw [if_pos (by simp [hfresh])]
    rfl
  exact (Exec.bind_ok hunshared).trans (replaceTop_eq h _)

lemma execute_closure {depth} (hs : m.scopeList[depth.toNat]? = some s)
    (hslot : s.base + slot.toNat < m.stack.size) :
    execute p host (.closure depth slot) m = .ok .next
      ((m.cellFor (s.base + slot.toNat)).2.withOperands (some (.closure
        { c with upvalues := c.upvalues ++ [(m.cellFor (s.base + slot.toNat)).1] }) :: ops)) :=
  thenNext_ok ((Exec.bind_ok (slotIndex_eq hs hslot)).trans ((Exec.bind_ok (captureSlot_eq _)).trans
    (addUpvalue_eq (by rw [operands_cellFor, h]) (by rw [fresh_cellFor, hfresh]) _)))

lemma execute_closureUpvalue {call} (hc : m.callList = call :: cs)
    {f} (hf : m.operands.reverse[call.base]? = some (some (.closure f)))
    {cell} (hcell : f.upvalues[index.toNat]? = some cell) :
    execute p host (.closureUpvalue index) m = .ok .next (m.withOperands
      (some (.closure { c with upvalues := c.upvalues ++ [cell] }) :: ops)) :=
  thenNext_ok ((Exec.bind_ok (runningUpvalue_eq hc hf hcell)).trans (addUpvalue_eq h hfresh cell))

end Capture

/-! ### Calls -/

section Call

lemma bundle_eq {base offset} (h : m.slotContent (base + offset) = some v) :
    bundle base offset m = .ok v m := by
  rw [bundle, Exec.get_bind, h]
  rfl

/-- A host function is called with the arguments that lie above it. -/
lemma callNative_eq (host : Host) (ref : NativeRef) (base) :
    callNative host ref base = bundle base 1 >>= fun
      | .array args => (bundle base 2 >>= fun
        | .object named => (match host.native? ref.code with
          | some native =>
            pure (.await ((native.apply args named).andThen fun r => .pure (finishCall base r)))
          | none => raise (notCallable (.native ref)))
        | _ => fail .notAnObject)
      | _ => fail .notAnArray := by
  refine congrArg (bundle base 1 >>= ·) (funext fun v => ?_)
  cases v with
  | array args =>
    refine congrArg (bundle base 2 >>= ·) (funext fun w => ?_)
    cases w <;> rfl
  | _ => rfl

section Callee

variable (hs : m.scopeList = s :: ss) (hfs : m.floor.scopes ≤ ss.length)

include hs hfs

lemma execute_call_closure {c} (h : m.slotContent s.base = some (.closure c)) :
    execute p host .call m = .ok .next
      ({ m with pc := c.target }.withCallList (⟨s.base, some m.pc⟩ :: m.callList)) := by
  have hpush : m.calls.push ⟨s.base, some m.pc⟩
      = (⟨s.base, some m.pc⟩ :: m.callList).reverse.toArray := by
    apply Array.toList_inj.mp
    simp [callList]
  refine (Exec.bind_ok (scope_eq hs hfs)).trans ((Exec.bind_ok (bundle_eq h)).trans ?_)
  rw [withCallList, ← hpush]
  rfl

/-- The job of a host function that is called by code. -/
def nativeJob (n : Native) (args : List Value) (named : Entries Value) (base : Nat) :
    Job (Exec Unit) :=
  (n.apply args named).andThen fun r => .pure (finishCall base r)

lemma execute_call_native {ref} (h : m.slotContent s.base = some (.native ref))
    {args named} (hargs : m.slotContent (s.base + 1) = some (.array args))
    (hn : m.slotContent (s.base + 2) = some (.object named)) :
    execute p host .call m = match host.native? ref.code with
      | some n => .ok (.await (nativeJob n args named s.base)) m
      | none => .error (.raised (notCallable (.native ref))) m := by
  refine (Exec.bind_ok (scope_eq hs hfs)).trans ((Exec.bind_ok (bundle_eq h)).trans ?_)
  refine (Exec.bind_ok (bundle_eq hargs)).trans ?_
  refine (Exec.bind_ok (bundle_eq hn)).trans ?_
  dsimp only
  cases host.native? ref.code <;> rfl

lemma execute_call_other (h : m.slotContent s.base = some v) (hcl : ∀ c, v ≠ .closure c)
    (hnative : ∀ ref, v ≠ .native ref) :
    execute p host .call m = .error (.raised (notCallable v)) m := by
  refine (Exec.bind_ok (scope_eq hs hfs)).trans ((Exec.bind_ok (bundle_eq h)).trans ?_)
  cases v with
  | closure c => exact absurd rfl (hcl c)
  | native ref => exact absurd rfl (hnative ref)
  | _ => rfl

end Callee

lemma takeFault_eq (hfault : m.fault = none) : takeFault m = .ok () m := by
  rw [takeFault, Exec.get_bind, hfault]
  rfl

/-- A fault that is kept is taken and stops the loop. -/
lemma takeFault_kept {f} (hfault : m.fault = some f) :
    takeFault m = .error (.fault f) { m with fault := none } := by
  rw [takeFault, Exec.get_bind, hfault]
  rfl

lemma finishCall_ok (hfault : m.fault = none) (base v) :
    finishCall base (.ok v) m
      = .ok () ((m.truncate base).withOperands (some v :: (m.truncate base).operands)) :=
  (Exec.bind_ok (takeFault_eq hfault)).trans (push_eq (m.truncate base) v)

lemma finishCall_error (hfault : m.fault = none) (base e) :
    finishCall base (.error e) m = .error (.raised e) m :=
  Exec.bind_ok (takeFault_eq hfault)

/-- How a call that has been left ends, by where it returns to. -/
def returnWith (v : Value) (base : Nat) : Option Nat → Exec Signal
  | some pc => do
    modify (·.truncate base)
    push v
    modify fun m => { m with pc }
    return .next
  | none => return .yield v

section Return

variable {base : Nat} (h : m.operands = some v :: ops) (hf : m.floor.stack ≤ ops.length)
  (hfc : m.floor.calls ≤ cs.length)

include h hf hfc

lemma execute_ret {ret} (hc : m.callList = ⟨base, ret⟩ :: cs) :
    execute p host .ret m
      = returnWith v base ret ((m.withOperands ops).withCallList cs) := by
  have hs : ¬ (m.withOperands ops).calls.size ≤ (m.withOperands ops).floor.calls := by
    show ¬ m.calls.size ≤ m.floor.calls
    rw [← length_callList, hc, length_cons]
    omega
  have hback : (m.withOperands ops).calls.back? = some ⟨base, ret⟩ := back?_of_cons hc
  have hpop : { m.withOperands ops with calls := m.calls.pop }
      = (m.withOperands ops).withCallList cs := by
    simp [withCallList, m.calls_eq hc]
  refine (Exec.bind_ok (pop_eq h hf)).trans ((Exec.get_bind _ _).trans ?_)
  rw [if_neg hs, hback, ← hpop]
  rfl

lemma execute_ret_code {pc} (hc : m.callList = ⟨base, some pc⟩ :: cs) :
    execute p host .ret m = .ok .next
      { (((m.withOperands ops).withCallList cs).truncate base).withOperands
          (some v ::
            (((m.withOperands ops).withCallList cs).truncate base).operands) with pc } := by
  have hcut : (modify (·.truncate base) : Exec Unit) ((m.withOperands ops).withCallList cs)
      = .ok () (((m.withOperands ops).withCallList cs).truncate base) := rfl
  exact (execute_ret h hf hfc hc).trans ((Exec.bind_ok hcut).trans (Exec.bind_ok (push_eq _ v)))

lemma execute_ret_host (hc : m.callList = ⟨base, none⟩ :: cs) :
    execute p host .ret m = .ok (.yield v) ((m.withOperands ops).withCallList cs) :=
  execute_ret h hf hfc hc

end Return

end Call

/-! ### Indexing and validation -/

lemma execute_index {key coll}
    (h : m.operands = some key :: some coll :: ops) (hf : m.floor.stack ≤ ops.length) :
    execute p host .index m = .ok
      (.await (Job.holding [coll, key] do return push (← coll.index key)))
      (m.withOperands ops) := by
  have hpop := pop_eq h (by rw [length_cons]; omega)
  have hpop' := pop_eq (m := m.withOperands (some coll :: ops)) (operands_withOperands ..) hf
  exact (Exec.bind_ok hpop).trans (Exec.bind_ok hpop')

/-- The job of validating the value on top. -/
def validateJob (p : Program) (value schema : Value) : Job (Exec Unit) :=
  ((Schema.validate value schema).holding [value]).andThen fun
    | .ok () => .pure (pure ())
    | .error e => .pure (reportMismatch p e)

lemma execute_validate (hk : p.constants[k.toNat]? = some schema)
    (h : m.operands = some v :: ops) :
    execute p host (.validate k) m = .ok (.await (validateJob p v schema)) m :=
  (Exec.bind_ok (constant_eq hk)).trans (Exec.bind_ok (top_eq h))

/-- What is raised where a value does not match. -/
def mismatch (p : Program) (m : Machine) (e : ErrorValue) : ErrorValue :=
  match ((p.diagnostic? m.origin).filter (·.isArgument)).map (·.name) with
  | some name => e.forArgument name
  | none => e

lemma reportMismatch_eq (hfault : m.fault = none) (e) :
    reportMismatch p e m = .error (.raised (mismatch p m e)) m := by
  refine (Exec.bind_ok (takeFault_eq hfault)).trans
    ((Exec.bind_ok (boundArgument?_eq p)).trans ?_)
  unfold mismatch
  cases ((p.diagnostic? m.origin).filter (·.isArgument)).map (·.name) <;> rfl

/-! ## Steps -/

/-- The machine that has counted and read an instruction. -/
def fetched (m : Machine) (i : Instruction) : Machine :=
  { m.counted with
    origin := m.pc
    pc := m.pc + i.width
    fresh := if keepsFresh i then m.fresh else none }

lemma step_eq {i} (hn : countStep S.limits m = .ok () m.counted)
    (hd : Instruction.decode S.program.code m.pc = .ok i) :
    step S m = execute S.program S.host i (m.fetched i) := by
  have hfetch : fetch S.program m.counted
      = .ok i { m.counted with origin := m.pc, pc := m.pc + i.width } := by
    refine (Exec.bind_ok rfl).trans ((Exec.get_bind _ _).trans ?_)
    dsimp only
    rw [show Instruction.decode S.program.code m.counted.pc = .ok i from hd]
    rfl
  refine (Exec.bind_ok hn).trans ((Exec.bind_ok hfetch).trans ?_)
  unfold fetched
  cases hfresh : keepsFresh i
  · rfl
  · rfl

lemma step_exhausted {e} (hn : countStep S.limits m = .error (.raised e) m') :
    step S m = .error (.raised e) m' := Exec.bind_error hn

end Instructions

end Machine

end TreeCode
