import Mathlib.Logic.Relation
import TreeCode.Proofs.Cells
import TreeCode.Proofs.Floor

/-!
# What instructions touch

Whatever a program is, what an action does to the captured variables is made of three changes: a
slot is given a cell, the cell of a slot is detached, or the stack is cut and the cells above the
cut are detached (`Machine.Change`).

Nor does an action reach deep into the operand stack. It takes some operands off the top and puts
others there, so that the slots below are as they were as long as they are on the stack
(`Exec.Takes`). How many it takes is known for each instruction (`Instruction.taken`). Nor does an
action reach below the floor of the loop that runs it, or to the streams.

The pass over the instructions is made once, here. That no instruction takes any time, that the
captured variables are never lost and that a loop stays above its floor are read off from it.
-/

namespace TreeCode

open Array

lemma Heap.streams_closeCells (h : Heap) (contents) :
    (h.closeCells contents).streams = h.streams := by
  induction contents generalizing h with
  | nil => rfl
  | cons x contents ih => exact ih (h.setCell x.1 (.closed x.2))

variable {m m' : Machine} {height : Nat} {entry : Option Machine}

namespace Machine

/-- How many steps have been counted, and whether a budget is spent. -/
def clock (m : Machine) : Nat × Bool := (m.steps, m.exhausted)

/-- **A change of a machine**: one of the captured variables on the stack, or one of a kind `K` that
leaves them alone. -/
inductive Change (K : Machine → Machine → Prop) : Machine → Machine → Prop where
  | other {m m' : Machine} (kind : K m m') (openCells : m'.openCells = m.openCells)
      (cells : m'.heap.cells = m.heap.cells) : Change K m m'
  | cut (m : Machine) (height : Nat) : Change K m (m.truncate height)
  | detach (m : Machine) (slot) : Change K m (m.closeSlot slot)
  | attach {m slot} (new : cellAt? slot m.openCells = none) :
      Change K m
        { m with
          heap := (m.heap.addCell (.onStack slot)).2
          openCells := insertCell slot (m.heap.addCell (.onStack slot)).1 m.openCells }

lemma Change.mono {K K'} (hK : ∀ {m m'}, K m m' → K' m m')
    (h : Change K m m') : Change K' m m' := by
  cases h with
  | other kind openCells cells => exact .other (hK kind) openCells cells
  | cut => exact .cut ..
  | detach => exact .detach ..
  | attach new => exact .attach new

/-- The operands below a height are as they were, and so is the clock. -/
structure Spares (height : Nat) (m m' : Machine) : Prop where
  clock : m'.clock = m.clock
  stack : ∀ i, i < height → i < m.stack.size → m'.stack[i]? = m.stack[i]?

/-- **Changes that touch no operand below a height.** Nothing is said about operands that have been
cut off in between. -/
abbrev Touches (height : Nat) : Machine → Machine → Prop :=
  Relation.ReflTransGen (Change (Spares height))

/-- **Changes of any kind.** -/
abbrev Evolves : Machine → Machine → Prop := Relation.ReflTransGen (Change fun _ _ => True)

lemma Touches.evolves (h : Touches height m m') : Evolves m m' :=
  Relation.ReflTransGen.mono (fun _ _ h => Change.mono (fun _ => trivial) h) _ _ h

lemma Change.clock (h : Change (Spares height) m m') : m'.clock = m.clock := by
  cases h with
  | other kind _ _ => exact kind.clock
  | cut => rfl
  | detach slot =>
    unfold closeSlot
    split <;> rfl
  | attach => rfl

lemma Touches.clock (h : Touches height m m') : m'.clock = m.clock := by
  induction h with
  | refl => rfl
  | tail _ hchange ih => exact hchange.clock.trans ih

/-- The stacks and the place in the code are changed, but no operand below a height. -/
lemma touches_stack (clock : m'.clock = m.clock)
    (stack : ∀ i, i < height → i < m.stack.size → m'.stack[i]? = m.stack[i]?)
    (openCells : m'.openCells = m.openCells) (cells : m'.heap.cells = m.heap.cells) :
    Touches height m m' := .single (.other ⟨clock, stack⟩ openCells cells)

/-- The stack is cut after a change besides the operands. -/
lemma touches_truncate (clock : m'.clock = m.clock)
    (stack : m'.stack = m.stack) (openCells : m'.openCells = m.openCells)
    (cells : m'.heap.cells = m.heap.cells) (low) : Touches height m (m'.truncate low) :=
  (touches_stack clock (fun i _ _ => by rw [stack]) openCells cells).tail (.cut m' low)

/-- **So many operands may be taken off the top** without touching those below a height. -/
def Margin (height n : Nat) (m : Machine) : Prop := min height m.stack.size ≤ m.stack.size - n

lemma Margin.zero (height : Nat) (m) : Margin height 0 m := Nat.min_le_right ..

lemma margin_at_bottom (n m) : Margin 0 n m := by
  unfold Margin
  omega

/-- The machine works above the one that entered the loop, where that is told. -/
def Aloft (entry : Option Machine) (m : Machine) : Prop := ∀ b ∈ entry, Above b m

/-- The scopes, the calls and the floor are as they were, and no operand below the floor is
taken. -/
lemma Aloft.congr (h : Aloft entry m) (scopes : m'.scopes = m.scopes) (calls : m'.calls = m.calls)
    (floor : m'.floor = m.floor) (depth : m'.depth = m.depth)
    (stack : min m.floor.stack m.stack.size ≤ m'.stack.size) : Aloft entry m' := by
  intro b hb
  have habove := h b hb
  have hfl := habove.floor_stack
  have hs := habove.stack
  exact habove.congr scopes calls (by omega) floor depth

/-- **What an action may do**: it touches no operand below a height, it stays above the floor, and
it leaves the streams alone. -/
structure Passes (entry : Option Machine) (height : Nat) (m m' : Machine) : Prop where
  touches : Touches height m m'
  aloft : Aloft entry m → Aloft entry m'
  streams : m'.heap.streams = m.heap.streams

lemma Passes.refl : Passes entry height m m := ⟨.refl, id, rfl⟩

lemma Passes.trans {m''} (h : Passes entry height m m') (h' : Passes entry height m' m'') :
    Passes entry height m m'' :=
  ⟨h.touches.trans h'.touches, fun hm => h'.aloft (h.aloft hm), h'.streams.trans h.streams⟩

/-- Operands are changed, but none below a height. -/
lemma passes_stack {stack} (hfl : min m.floor.stack m.stack.size ≤ stack.size)
    (hs : ∀ i, i < height → i < m.stack.size → stack[i]? = m.stack[i]?) :
    Passes entry height m { m with stack } :=
  ⟨touches_stack rfl hs rfl rfl, fun hm => hm.congr rfl rfl rfl rfl hfl, rfl⟩

/-- What a machine consists of besides the place in the code, the budgets and what it has on
record. -/
def frame (m : Machine) :=
  (m.stack, m.clock, m.openCells, m.heap.cells, m.heap.streams, m.scopes, m.calls, m.floor, m.depth)

lemma passes_still (h : m'.frame = m.frame) : Passes entry height m m' := by
  simp only [frame, Prod.mk.injEq] at h
  obtain ⟨hs, hc, hopen, hcells, hstreams, hsc, hcs, hfl, hd⟩ := h
  refine ⟨touches_stack hc (fun i _ _ => by rw [hs]) hopen hcells, fun hm => ?_, hstreams⟩
  exact hm.congr hsc hcs hfl hd (by rw [hs]; omega)

/-- From here an action may take `n` operands. -/
structure Poised (entry : Option Machine) (height n : Nat) (m : Machine) : Prop where
  margin : m.Margin height n
  aloft : m.Aloft entry

lemma Margin.poised {n} (h : m.Margin height n) : m.Poised none height n := ⟨h, nofun⟩

end Machine

/-! ## Actions that take operands off the top -/

variable {α : Type} {n k : Nat}

namespace Exec

open Machine

variable {β : Type} {l : Nat}

/-- The machine that an action ends with, whether or not it succeeds. -/
def ending (x : Exec α) (m : Machine) : Machine :=
  match x m with
  | .ok _ m' | .error _ m' => m'

/-- **The action changes nothing but the stacks, the captured variables and the place in the code**,
however it ends. In particular it takes no time. -/
def Ordinary (x : Exec α) : Prop := ∀ m, Touches 0 m (ending x m)

variable {f : α → Exec β}

namespace Ordinary

variable {x : Exec α}

lemma bind (hx : Ordinary x) (hf : ∀ a, Ordinary (f a)) : Ordinary (x >>= f) := by
  intro m
  have hm := hx m
  unfold ending at hm ⊢
  cases hr : x m with
  | ok a m' =>
    rw [hr] at hm
    rw [bind_ok hr]
    exact hm.trans (hf a m')
  | error t m' =>
    rw [hr] at hm
    rw [bind_error hr]
    exact hm

end Ordinary

/-- From a machine with `n` operands to take, the action touches none below a height, and there are
`k` operands left to take. -/
def TakesAt (entry : Option Machine) (height n k : Nat) (x : Exec α) (m : Machine) : Prop :=
  m.Poised entry height n →
    Passes entry height m (ending x m) ∧ ∀ {a m'}, x m = .ok a m' → m'.Margin height k

/-- **The action takes operands off the top**, of `n` operands leaving `k`, and touches none
below. -/
def Takes (entry : Option Machine) (n k : Nat) (x : Exec α) : Prop :=
  ∀ height m, TakesAt entry height n k x m

variable {x : Exec α}

/-- An action and what follows it. -/
lemma passes_bind {R : β → Machine → Prop} (hx : TakesAt entry height n k x m)
    (hf : ∀ a m', x m = .ok a m' → m'.Poised entry height k →
      Passes entry height m' (ending (f a) m') ∧ ∀ {b m''}, f a m' = .ok b m'' → R b m'')
    (h : m.Poised entry height n) : Passes entry height m (ending (x >>= f) m)
      ∧ ∀ {b m''}, (x >>= f) m = .ok b m'' → R b m'' := by
  obtain ⟨hpasses, hmargin⟩ := hx h
  cases hr : x m with
  | ok a m' =>
    rw [ending, hr] at hpasses
    obtain ⟨hnext, hres⟩ := hf a m' hr ⟨hmargin hr, hpasses.aloft h.aloft⟩
    rw [ending, bind_ok hr]
    exact ⟨hpasses.trans hnext, hres⟩
  | error t m' =>
    rw [ending, hr] at hpasses
    rw [ending, bind_error hr]
    exact ⟨hpasses, nofun⟩

namespace TakesAt

lemma ok {a} (hx : x m = .ok a m') (hpasses : m.Poised entry height n → Passes entry height m m')
    (hmargin : m.Margin height n → m'.Margin height k) : TakesAt entry height n k x m := by
  intro h
  refine ⟨by rw [ending, hx]; exact hpasses h, fun heq => ?_⟩
  cases hx.symm.trans heq
  exact hmargin h.margin

lemma error {t} (hx : x m = .error t m') (hpasses : Passes entry height m m') :
    TakesAt entry height n k x m := by
  intro _
  exact ⟨by rw [ending, hx]; exact hpasses, fun heq => nomatch hx.symm.trans heq⟩

/-- An action that finds something out. -/
lemma same {a} (hx : x m = .ok a m) : TakesAt entry height n n x m := .ok hx (fun _ => .refl) id

lemma bind (hx : TakesAt entry height n k x m)
    (hf : ∀ a m', x m = .ok a m' → TakesAt entry height k l (f a) m') :
    TakesAt entry height n l (x >>= f) m := passes_bind hx hf

end TakesAt

namespace Takes

lemma bind (hx : Takes entry n k x) (hf : ∀ a, Takes entry k l (f a)) :
    Takes entry n l (x >>= f) := fun height m => (hx height m).bind fun a m' _ => hf a height m'

/-- An action that looks at the machine first. -/
lemma get {f : Machine → Exec α} (h : ∀ height m, TakesAt entry height n k (f m) m) :
    Takes entry n k (MonadState.get >>= f) := h

lemma pure (a : α) : Takes entry n n (Pure.pure a) := fun _ _ => .same rfl

/-- An action that changes nothing. -/
lemma of_keeps (h : ∀ {I}, Keeps I x) : Takes entry n n x := by
  intro height m
  have hm := h (I := (· = m)) m rfl
  cases hr : x m with
  | ok a m' =>
    rw [hr] at hm
    exact .same (hm ▸ hr)
  | error t m' =>
    rw [hr] at hm
    exact .error (hm ▸ hr) .refl

lemma raise (e) : Takes entry n k (Machine.raise e : Exec α) := fun _ _ => .error rfl .refl

lemma fail (fault) : Takes entry n k (Machine.fail fault : Exec α) := fun _ _ => .error rfl .refl

/-- A change besides the stacks. -/
lemma still {f : Machine → Machine} (h : ∀ m, (f m).frame = m.frame) :
    Takes entry n n (modifyGet fun m => ((), f m)) := by
  refine fun height m => .ok rfl (fun _ => passes_still (h m)) fun hmargin => ?_
  unfold Margin at hmargin ⊢
  rwa [show (f m).stack = m.stack from congrArg (·.1) (h m)]

/-- A change after which no operand is to be taken. -/
lemma last {f : Machine → Machine}
    (passes : ∀ height m, Aloft entry m → Passes entry height m (f m)) :
    Takes entry n 0 (modifyGet fun m => ((), f m)) :=
  fun height m => .ok rfl (fun h => passes height m h.aloft) fun _ => .zero ..

lemma ordinary (h : Takes none n k x) : Ordinary x :=
  fun m => (h 0 m (margin_at_bottom n m).poised).1.touches

end Takes

end Exec

namespace Machine

open Exec

variable (p : Program)

/-! ## Operands -/

lemma takes_push (value) : Takes entry n 0 (push value) :=
  .last fun _ m _ => passes_stack (by rw [size_push]; omega) fun i _ hi => by
    rw [getElem?_push_lt hi, getElem?_eq_getElem hi]

lemma takes_pop : Takes entry (n + 1) n pop := by
  refine .get fun height m => ?_
  split
  · exact .error rfl .refl
  · split
    · refine .ok rfl (fun h => ?_) fun h => ?_
      · have hmargin := h.margin
        unfold Margin at hmargin
        refine passes_stack (by rw [size_pop]; omega) fun i hi hlt => ?_
        rw [getElem?_pop, if_pos (by omega)]
      · unfold Margin at h ⊢
        dsimp only
        rw [size_pop]
        omega
    · exact .error rfl .refl

lemma takes_top : Takes entry n n top := .of_keeps keeps_top

lemma takes_replaceTop (value) : Takes entry (n + 1) 0 (replaceTop value) := by
  refine fun height m => .ok rfl (fun h => ?_) fun _ => .zero ..
  have hmargin := h.margin
  unfold Margin at hmargin
  refine passes_stack (by rw [size_push, size_pop]; omega) fun i hi hlt => ?_
  have hpop : i < m.stack.pop.size := by rw [size_pop]; omega
  rw [getElem?_push_lt hpop, getElem_pop, getElem?_eq_getElem hlt]

lemma takes_topArray : Takes entry n n topArray := .of_keeps keeps_topArray

lemma takes_topObject : Takes entry n n topObject := .of_keeps keeps_topObject

/-! ## Scopes and calls -/

lemma takes_scope : Takes entry n n scope := .of_keeps keeps_scope

/-- The scope that an instruction may change lies above the floor. -/
lemma scope_ok {s} (h : scope m = .ok s m') :
    m' = m ∧ ¬m.scopes.size ≤ m.floor.scopes ∧ m.scopes.back? = some s := by
  have hscope : Triple (fun _ => True) (· = m) scope fun s m' =>
      m' = m ∧ ¬m.scopes.size ≤ m.floor.scopes ∧ m.scopes.back? = some s := by
    refine triple_get.bind fun k => ?_
    split
    · exact triple_fail fun _ _ => trivial
    · next hfl =>
      split
      · next hs =>
        refine triple_pure ?_
        rintro _ ⟨rfl, rfl⟩
        exact ⟨rfl, hfl, hs⟩
      · exact triple_fail fun _ _ => trivial
  have hm := hscope m rfl
  rwa [h] at hm

lemma takes_modifyScope {f} (hf : ∀ s, (f s).base = s.base) :
    Takes entry n n (modifyScope f) := by
  refine fun height m => (takes_scope height m).bind fun s m' hs => ?_
  obtain ⟨rfl, hfl, hback⟩ := scope_ok hs
  refine .ok rfl (fun _ => ⟨touches_stack rfl (fun _ _ _ => rfl) rfl rfl, fun hm b hb => ?_,
    rfl⟩) id
  exact ((hm b hb).popScope (by omega)).pushScope (by rw [hf]; exact (hm b hb).scope_base hfl hback)

lemma takes_slotIndex (depth slot) : Takes entry n n (slotIndex depth slot) :=
  .of_keeps (keeps_slotIndex depth slot)

lemma takes_runningUpvalue (index) : Takes entry n n (runningUpvalue index) :=
  .of_keeps (keeps_runningUpvalue index)

lemma takes_captureSlot (slot) : Takes entry n n (captureSlot slot) := by
  refine .get fun height m => ?_
  split
  · exact .same rfl
  · next hnew =>
    exact .ok rfl (fun _ => ⟨.single (.attach hnew),
      fun hm => hm.congr rfl rfl rfl rfl (Nat.min_le_right ..), rfl⟩) id

lemma takes_addUpvalue (cell) : Takes entry (n + 1) 0 (addUpvalue cell) :=
  Takes.bind (.of_keeps keeps_unsharedClosure) fun _ => takes_replaceTop _

lemma takes_truncate {base : Nat} (hbase : ∀ b ∈ entry, b.stack.size ≤ base) :
    Takes entry n 0 (modifyGet fun m => ((), m.truncate base)) :=
  .last fun _ m hm => ⟨.single (.cut m base), fun _ b hb => (hm b hb).truncate (hbase b hb),
    m.heap.streams_closeCells _⟩

/-! ## Tables of the program -/

lemma takes_fetch : Takes entry n n (fetch p) := by
  refine Takes.bind (.still fun _ => rfl) fun _ => .get fun height m => ?_
  dsimp only
  split
  · exact .ok rfl (fun _ => passes_still rfl) id
  · exact .error rfl .refl
  · split
    · exact .error rfl .refl
    · exact .error rfl .refl

lemma takes_boundArgument? : Takes entry n n (boundArgument? p) := fun _ _ => .same rfl

lemma takes_constant (index) : Takes entry n n (constant p index) :=
  .of_keeps (keeps_constant p index)

lemma takes_propertyKey (index) : Takes entry n n (propertyKey p index) :=
  .of_keeps (keeps_propertyKey p index)

lemma takes_platformValue (index) : Takes entry n n (platformValue p index) :=
  .of_keeps (keeps_platformValue p index)

/-! ## Instructions -/

lemma takes_pushVariable (value) : Takes entry n 0 (pushVariable p value) := by
  cases value with
  | some v => exact takes_push v
  | none => exact fun _ _ => .error rfl .refl

lemma takes_readLocal (depth slot) : Takes entry n 0 (readLocal p depth slot) :=
  (takes_slotIndex depth slot).bind fun _ => .get fun height m => takes_pushVariable p _ height m

lemma takes_reserve (count) : Takes entry n 0 (reserve count) :=
  .last fun _ m _ => passes_stack (by rw [size_append]; omega) fun i _ hi => by
    rw [getElem?_append_left hi]

lemma takes_pushScope (size) : Takes entry n n (pushScope size) := by
  refine .get fun height m => ?_
  split
  · exact .error rfl .refl
  · next hs =>
    refine .ok rfl (fun _ => ⟨touches_stack rfl (fun _ _ _ => rfl) rfl rfl, fun hm b hb => ?_,
      rfl⟩) id
    have hfl := (hm b hb).floor_stack
    have hstack := (hm b hb).stack
    exact (hm b hb).pushScope (by show b.stack.size ≤ m.stack.size - size; omega)

lemma takes_popScope : Takes entry 1 0 popScope := by
  refine takes_pop.bind fun _ height m => (takes_scope height m).bind fun s m' hs => ?_
  obtain ⟨rfl, hfl, hback⟩ := scope_ok hs
  refine TakesAt.bind (k := 0) (.ok rfl (fun _ => ⟨?_, fun hm b hb => ?_,
    m'.heap.streams_closeCells _⟩) fun _ => .zero ..) fun _ m' _ => takes_push _ height m'
  · refine touches_truncate ?_ ?_ ?_ ?_ s.base <;> rfl
  · exact ((hm b hb).popScope (by omega)).truncate ((hm b hb).scope_base hfl hback)

lemma takes_appendElements (es) : Takes entry 1 0 (appendElements es) :=
  takes_topArray.bind fun _ => takes_replaceTop _

lemma takes_arrayCut (count) : Takes entry 1 0 (arrayCut count) := by
  refine takes_pop.bind fun v => ?_
  split
  · exact (takes_push _).bind fun _ => takes_push _
  · exact .fail _

lemma takes_takeLast? : Takes entry 1 0 takeLast? :=
  takes_topArray.bind fun _ => (takes_replaceTop _).bind fun _ => .pure _

lemma takes_takeProperty? (key : String) : Takes entry 1 0 (takeProperty? key) :=
  takes_topObject.bind fun _ => (takes_replaceTop _).bind fun _ => .pure _

lemma takes_reportMissing (other) : Takes entry n 0 (reportMissing p other) := by
  refine (takes_boundArgument? p).bind fun name => ?_
  split
  · exact .raise _
  · exact .raise _

lemma takes_arrayPop (i) : Takes entry 1 0 (arrayPop p i) := by
  refine takes_takeLast?.bind fun v => ?_
  split
  · exact takes_push _
  · exact takes_reportMissing p _

lemma takes_objectPop (k) : Takes entry 1 0 (objectPop p k) := by
  refine (takes_propertyKey p k).bind fun key => (takes_takeProperty? key).bind fun v => ?_
  split
  · exact takes_push _
  · exact takes_reportMissing p _

lemma takes_pushAndSkip (d value) :
    Takes entry n 0 (pushAndSkip d value) := by
  cases value with
  | none => exact fun _ _ => .ok rfl (fun _ => .refl) fun _ => .zero ..
  | some v => exact (takes_push v).bind fun _ => .still fun _ => rfl

lemma takes_objectPush : Takes entry 3 0 objectPush := by
  refine takes_pop.bind fun v => takes_pop.bind fun key => ?_
  split
  · exact takes_topObject.bind fun _ => takes_replaceTop _
  · exact .raise _

lemma takes_objectMerge : Takes entry 2 0 objectMerge := by
  refine takes_pop.bind fun v => ?_
  split
  · exact takes_topObject.bind fun _ => takes_replaceTop _
  · exact .raise _

lemma takes_makeClosure (t) : Takes entry n 0 (makeClosure p t) :=
  .get fun height _ => TakesAt.bind (k := n)
    (.ok rfl (fun _ => passes_still rfl) id) fun _ m' _ => takes_push _ height m'

lemma takes_bundle (base offset) : Takes entry n n (bundle base offset) :=
  .of_keeps (keeps_bundle base offset)

lemma takes_takeFault : Takes entry n n takeFault := by
  refine .get fun height m => ?_
  split
  · exact .error rfl (passes_still rfl)
  · exact .same rfl

lemma takes_finishCall {base} (hbase : ∀ b ∈ entry, b.stack.size ≤ base)
    (r) : Takes entry 0 0 (finishCall base r) := by
  refine takes_takeFault.bind fun _ => ?_
  split
  · exact (takes_truncate hbase).bind fun _ => takes_push _
  · exact .raise _

lemma takes_reportMismatch (e) : Takes entry n 0 (reportMismatch p e) := by
  refine takes_takeFault.bind fun _ => (takes_boundArgument? p).bind fun name => ?_
  split
  · exact .raise _
  · exact .raise _

lemma takes_capture (slot) : Takes entry n 0 (capture slot) := by
  refine takes_scope.bind fun _ => .last fun _ m hm => ⟨.single (.detach ..), fun _ => ?_, ?_⟩
  · unfold closeSlot
    split
    · exact hm.congr rfl rfl rfl rfl (Nat.min_le_right ..)
    · exact hm
  · unfold closeSlot
    split
    · exact m.heap.streams_closeCells _
    · rfl

/-- An assignment writes to one slot. -/
lemma takes_writeLocal (depth slot m) :
    TakesAt entry 0 1 0 (writeLocal depth slot) m := by
  refine (takes_pop 0 m).bind fun v m' _ => (takes_slotIndex depth slot 0 m').bind fun i m'' _ => ?_
  refine .ok rfl (fun _ => passes_stack ?_ fun _ hi => absurd hi (Nat.not_lt_zero _)) fun _ =>
    .zero ..
  rw [size_setIfInBounds]
  omega

end Machine

/-! ## Instructions and their completion -/

/-- **How many operands an instruction takes off the top**, with those that it puts back changed. -/
def Instruction.taken : Instruction → Nat
  | .discard | .popScope | .arrayReverse | .arrayCut _ | .arrayPop _ | .arrayPopOrDefault _
  | .objectPop _ | .objectPopOrDefault .. | .closure .. | .closureUpvalue _ | .ret
  | .writeLocal .. => 1
  | .arrayPush | .arrayExtend | .objectMerge | .index => 2
  | .objectPush => 3
  | _ => 0

namespace Machine

open Exec

/-- Work that is left to the host is completed without touching an operand below a height. -/
def Signal.Takes (entry : Option Machine) (height : Nat) : Signal → Machine → Prop
  | .await job, m => ∃ k, m.Margin height k ∧ job.Yields (Exec.Takes entry k 0)
  | _, _ => True

/-- From a machine with `n` operands to take, the instruction and its completion touch none below a
height. -/
def TakesTopAt (entry : Option Machine) (height n : Nat) (x : Exec Signal) (m : Machine) : Prop :=
  m.Poised entry height n → Passes entry height m (ending x m) ∧
    ∀ {signal m'}, x m = .ok signal m' → signal.Takes entry height m'

/-- **The instruction takes `n` operands off the top**, and touches none below. -/
def TakesTop (entry : Option Machine) (n : Nat) (x : Exec Signal) : Prop :=
  ∀ height m, TakesTopAt entry height n x m

variable {x : Exec α} {f : α → Exec Signal}

lemma TakesTopAt.bind (hx : TakesAt entry height n k x m)
    (hf : ∀ a m', x m = .ok a m' → TakesTopAt entry height k (f a) m') :
    TakesTopAt entry height n (x >>= f) m := passes_bind hx hf

namespace TakesTop

lemma bind (hx : Exec.Takes entry n k x) (hf : ∀ a, TakesTop entry k (f a)) :
    TakesTop entry n (x >>= f) :=
  fun height m => .bind (hx height m) fun a m' _ => hf a height m'

/-- An instruction that looks at the machine first. -/
lemma get {f} (h : ∀ height m, TakesTopAt entry height n (f m) m) :
    TakesTop entry n (MonadState.get >>= f) := h

lemma next : TakesTop entry n (Pure.pure .next) := by
  refine fun height m _ => ⟨.refl, ?_⟩
  rintro _ _ ⟨⟩
  trivial

lemma yields (v) : TakesTop entry n (Pure.pure (.yield v)) := by
  refine fun height m _ => ⟨.refl, ?_⟩
  rintro _ _ ⟨⟩
  trivial

lemma awaits {job} (h : job.Yields (Exec.Takes entry n 0)) :
    TakesTop entry n (Pure.pure (.await job)) := by
  refine fun height m hm => ⟨.refl, ?_⟩
  rintro _ _ ⟨⟩
  exact ⟨n, hm.margin, h⟩

lemma raise (e) : TakesTop entry n (Machine.raise e) := fun _ _ _ => ⟨.refl, nofun⟩

lemma fail (fault) : TakesTop entry n (Machine.fail fault) := fun _ _ _ => ⟨.refl, nofun⟩

lemma thenNext {x} (h : Exec.Takes entry n k x) :
    TakesTop entry n (Machine.thenNext x) := .bind h fun _ => next

end TakesTop

lemma takes_arrayExtend : TakesTop entry 2 arrayExtend := by
  refine .bind takes_pop fun sequence => .awaits ?_
  exact Job.Yields.holding _ (Job.Yields.bind takes_appendElements _)

lemma takes_indexTop : TakesTop entry 2 indexTop := by
  refine .bind takes_pop fun key => .bind takes_pop fun coll => .awaits ?_
  exact Job.Yields.holding _ (Job.Yields.bind takes_push _)

lemma takes_validateTop (p : Program) (schema : Word) :
    TakesTop entry 0 (validateTop p schema) := by
  refine .bind (takes_constant p schema) fun s => .bind takes_top fun value => .awaits ?_
  refine Job.Yields.andThen (fun r => ?_) _
  cases r with
  | ok _ => exact Exec.Takes.pure ()
  | error e => exact takes_reportMismatch p e

lemma takes_callNative (host : Host) (ref) {base}
    (hbase : ∀ b ∈ entry, b.stack.size ≤ base) : TakesTop entry 0 (callNative host ref base) := by
  rw [callNative_eq]
  refine .bind (takes_bundle base 1) fun v => ?_
  split
  · refine .bind (takes_bundle base 2) fun w => ?_
    split
    · split
      · refine .awaits (Job.Yields.andThen (fun r => ?_) _)
        exact takes_finishCall hbase r
      · exact .raise _
    · exact .fail _
  · exact .fail _

lemma takes_call (host : Host) : TakesTop entry 0 (call host) := by
  refine fun height m => .bind (takes_scope height m) fun s m' hs h => ?_
  obtain ⟨rfl, hfl, hback⟩ := scope_ok hs
  have hbase : ∀ b ∈ entry, b.stack.size ≤ s.base := fun b hb => (h.aloft b hb).scope_base hfl hback
  refine TakesTop.bind (takes_bundle s.base 0) (fun v => ?_) height m' h
  split
  · refine .bind (k := 0) (fun height m => ?_) fun _ => .next
    refine .ok rfl (fun _ => ⟨touches_stack rfl (fun _ _ _ => rfl) rfl rfl, fun hm b hb => ?_,
      rfl⟩) id
    exact ((hm b hb).pushCall (c := ⟨s.base, some m.pc⟩) (hbase b hb)).congr rfl rfl
      (hm b hb).stack rfl rfl
  · exact takes_callNative host _ hbase
  · exact .raise _

lemma takes_ret : TakesTop entry 1 ret := by
  refine .bind takes_pop fun r => .get fun height m => ?_
  split
  · exact TakesTop.fail _ height m
  · next hfl =>
    split
    · exact TakesTop.fail _ height m
    · next base returnTo hback =>
      intro h
      have hbase : ∀ b ∈ entry, b.stack.size ≤ base :=
        fun b hb => (h.aloft b hb).call_base hfl hback
      refine TakesTopAt.bind (k := 0) (.ok rfl (fun _ => ⟨?_, fun hm b hb => ?_, rfl⟩) id)
        (fun _ m' _ => ?_) h
      · exact touches_stack rfl (fun _ _ _ => rfl) rfl rfl
      · exact (hm b hb).popCall (by omega)
      · cases returnTo with
        | some pc =>
          exact TakesTop.bind (takes_truncate hbase) (fun _ => .bind (takes_push r) fun _ =>
            .bind (.still (f := fun m => { m with pc }) fun _ => rfl) fun _ => .next) height m'
        | none => exact TakesTop.yields _ height m'

/-- **No instruction reaches deeper than the operands that it takes**, but for an assignment. -/
theorem takes_execute (p : Program) (host : Host) (i : Instruction)
    (hi : ∀ depth slot, i ≠ .writeLocal depth slot) : TakesTop entry i.taken
      (execute p host i) := by
  cases i with
  | value k => exact .thenNext ((takes_constant p k).bind fun _ => takes_push _)
  | platform k => exact .thenNext ((takes_platformValue p k).bind fun _ => takes_push _)
  | discard => exact .thenNext (takes_pop.bind fun _ => .pure _)
  | reserve count => exact .thenNext (takes_reserve count.toNat)
  | writeLocal depth slot => exact absurd rfl (hi depth slot)
  | readLocal depth slot => exact .thenNext (takes_readLocal p depth slot)
  | pushScope size => exact .thenNext (takes_pushScope size.toNat)
  | popScope => exact .thenNext takes_popScope
  | array => exact .thenNext (takes_push _)
  | arrayPush => exact .thenNext (takes_pop.bind fun _ => takes_appendElements _)
  | arrayExtend => exact takes_arrayExtend
  | arrayReverse => exact .thenNext (takes_topArray.bind fun _ => takes_replaceTop _)
  | arrayCopy => exact .thenNext (takes_topArray.bind fun _ => .pure _)
  | arrayCut count => exact .thenNext (takes_arrayCut count.toNat)
  | arrayPop pos => exact .thenNext (takes_arrayPop p pos)
  | arrayPopOrDefault n => exact .thenNext (takes_takeLast?.bind fun v => takes_pushAndSkip n v)
  | object => exact .thenNext (takes_push _)
  | objectPush => exact .thenNext takes_objectPush
  | objectMerge => exact .thenNext takes_objectMerge
  | objectCopy => exact .thenNext (takes_topObject.bind fun _ => .pure _)
  | objectPop k => exact .thenNext (takes_objectPop p k)
  | objectPopOrDefault k n =>
    exact .thenNext ((takes_propertyKey p k).bind fun key =>
      (takes_takeProperty? key).bind fun v => takes_pushAndSkip n v)
  | function t => exact .thenNext (takes_makeClosure p t.toNat)
  | closure depth slot =>
    exact .thenNext ((takes_slotIndex depth slot).bind fun i =>
      (takes_captureSlot i).bind fun cell => takes_addUpvalue cell)
  | closureUpvalue upvalue =>
    exact .thenNext ((takes_runningUpvalue upvalue).bind fun cell => takes_addUpvalue cell)
  | call => exact takes_call host
  | ret => exact takes_ret
  | readUpvalue upvalue =>
    exact .thenNext ((takes_runningUpvalue upvalue).bind fun _ =>
      .get fun height m => takes_pushVariable p _ height m)
  | capture slot => exact .thenNext (takes_capture slot)
  | index => exact takes_indexTop
  | enterCatch n =>
    exact .thenNext (.get fun height m => takes_modifyScope
      (f := fun s => { s with recovery := _ :: s.recovery }) (fun _ => rfl) height m)
  | leaveCatch => exact .thenNext (takes_modifyScope fun _ => rfl)
  | validate schema => exact takes_validateTop p schema

/-! ## Every instruction -/

/-- The work that an instruction leaves to the host is completed by ordinary changes. -/
def Signal.Brief : Signal → Prop
  | .await job => job.Yields Ordinary
  | _ => True

/-- **The instruction makes ordinary changes only**, and so does its completion. -/
structure Brief (x : Exec Signal) : Prop where
  ordinary : Ordinary x
  signal : ∀ {m signal m'}, x m = .ok signal m' → signal.Brief

namespace Brief

lemma bind (hx : Ordinary x) (hf : ∀ a, Brief (f a)) : Brief (x >>= f) where
  ordinary := hx.bind fun a => (hf a).ordinary
  signal {m signal m'} h := by
    cases hr : x m with
    | ok a m₁ => exact (hf a).signal ((bind_ok hr).symm.trans h)
    | error t m₁ => cases (bind_error hr).symm.trans h

lemma raise (e) : Brief (Machine.raise e) := ⟨fun _ => .refl, nofun⟩

lemma thenNext {x} (h : Ordinary x) : Brief (Machine.thenNext x) :=
  .bind h fun _ => ⟨fun _ => .refl, by rintro _ _ _ ⟨⟩; trivial⟩

end Brief

lemma brief_of_takes {x} (h : ∀ m, TakesTopAt none 0 n x m) : Brief x where
  ordinary m := (h m (margin_at_bottom n m).poised).1.touches
  signal {m signal m'} hx := by
    have hsignal := (h m (margin_at_bottom n m).poised).2 hx
    cases signal with
    | «await» job =>
      obtain ⟨k, -, hjob⟩ := hsignal
      exact hjob.mono fun _ haction => haction.ordinary
    | _ => trivial

/-- **What every instruction may do.** -/
theorem passes_execute (p) (host : Host) (i : Instruction) (m) :
    TakesTopAt entry 0 i.taken (execute p host i) m := by
  by_cases hi : ∃ depth slot, i = .writeLocal depth slot
  · obtain ⟨depth, slot, rfl⟩ := hi
    exact .bind (takes_writeLocal depth slot m) fun _ m' _ => TakesTop.next 0 m'
  · exact takes_execute p host i (fun depth slot heq => hi ⟨depth, slot, heq⟩) 0 m

/-- **Every instruction makes ordinary changes only.** -/
theorem brief_execute (p) (host : Host) (i) :
    Brief (execute p host i) := brief_of_takes (passes_execute p host i)

end Machine

end TreeCode
