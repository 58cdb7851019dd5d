import TreeCode.Builtin
import TreeCode.Machine.Fault
import TreeCode.Machine.Limits
import TreeCode.Program

/-!
# The machine

A stack machine with three stacks. The operand stack holds locals, temporaries and arguments; a slot
that is reserved but not assigned holds nothing. A scope is a base on the operand stack, with the
targets of the catches that are open in it. A call records where its callee lies on the operand
stack and where to return to.

The machine is entered again for every call that the host makes. Each entry, a dispatch loop, works
above the heights of the three stacks at which it began, its floor: it pops no operand, closes no
scope and leaves no call below it.

A captured variable is shared between the closures that captured it. While its slot is on the stack
the machine knows its cell by the slot; whenever the stack is cut, the cells of the slots cut off
are given what the slots held.

Instructions are actions of `Exec`: they change the machine, and they end by raising an error of the
language or with a fault.
-/

namespace TreeCode

/-- **A scope**: where its slots begin, and where its open catches continue, innermost first. -/
structure Scope where
  base : Nat
  recovery : List Nat := []

/-- **A call in progress.** The callee lies at `base`, its arguments above it. A call by the host
has nowhere to return to. -/
structure Call where
  base : Nat
  returnTo : Option Nat

/-- **The heights of the stacks at which a dispatch loop began.** -/
structure Floor where
  scopes : Nat := 0
  calls : Nat := 0
  stack : Nat := 0

/-- **A machine.** -/
structure Machine where
  stack : Array (Option Value) := #[]
  scopes : Array Scope := #[]
  calls : Array Call := #[]
  /-- The cells of captured variables whose slots are on the stack, by descending slot. -/
  openCells : List (Nat × CellId) := []
  /-- Where the next instruction starts. -/
  pc : Nat := 0
  /-- Where the current instruction starts. -/
  origin : Nat := 0
  /-- How many instructions have been executed. -/
  steps : Nat := 0
  /-- How many had been when the present run began. -/
  startedAt : Nat := 0
  /-- The fault of a nested loop, until the instruction that led to it reports it. -/
  fault : Option Fault := none
  /-- A budget has been spent; nothing is caught any more. -/
  exhausted : Bool := false
  floor : Floor := {}
  /-- How many dispatch loops are running. -/
  depth : Nat := 0
  /-- The closure that the latest instructions made, while nothing else can hold it. -/
  fresh : Option Nat := none
  /-- What the host holds while the present dispatch loop runs. -/
  held : List Value := []
  heap : Heap := {}

/-- **What stops an instruction.** -/
inductive Trap where
  | raised (error : ErrorValue)
  | fault (fault : Fault)

/-- **What a run is carried out in**: the program, the host, and the budgets. -/
structure Setting where
  program : Program
  host : Host
  limits : Limits := {}

/-- **An action of the machine.** -/
abbrev Exec (α : Type) := EStateM Trap Machine α

namespace Machine

/-- Raise an error of the language. -/
def raise {α : Type} (e : ErrorValue) : Exec α := throw (.raised e)

/-- Stop with a fault of the current instruction. -/
def fail {α : Type} (fault : Nat → Fault) : Exec α := do throw (.fault (fault (← get).origin))

/-! ## Captured variables -/

/-- What the slot of a captured variable holds. -/
def slotContent (m : Machine) (slot : Nat) : Option Value := m.stack[slot]?.getD none

/-- Cells, each with what its slot holds. -/
def contentsOf (m : Machine) (cells : List (Nat × CellId)) : List (CellId × Option Value) :=
  cells.map fun (slot, cell) => (cell, m.slotContent slot)

/-- Detach the captured variables of the slots from `height` on: each keeps what its slot holds. -/
def detachFrom (m : Machine) (height : Nat) : Machine :=
  let (closing, remaining) := m.openCells.span (height ≤ ·.1)
  let contents := m.contentsOf closing
  { m with heap := m.heap.closeCells contents, openCells := remaining }

/-- **Cut the operand stack**, detaching the captured variables of the slots cut off. -/
def truncate (m : Machine) (height : Nat) : Machine :=
  let m := m.detachFrom height
  { m with stack := m.stack.shrink height }

/-- The cell of a slot among cells in the order of descending slots. -/
def cellAt? (slot : Nat) : List (Nat × CellId) → Option CellId
  | [] => none
  | (other, cell) :: rest =>
    if other = slot then some cell
    else if other < slot then none
    else cellAt? slot rest

/-- Detach the captured variable of one slot. -/
def closeSlot (m : Machine) (slot : Nat) : Machine :=
  match cellAt? slot m.openCells with
  | some cell =>
    let contents := m.contentsOf [(slot, cell)]
    { m with
      heap := m.heap.closeCells contents
      openCells := m.openCells.eraseP (·.1 == slot) }
  | none => m

/-- Insert a cell in the order of descending slots. -/
def insertCell (slot : Nat) (cell : CellId) : List (Nat × CellId) → List (Nat × CellId)
  | [] => [(slot, cell)]
  | (other, c) :: rest =>
    if other < slot then (slot, cell) :: (other, c) :: rest
    else (other, c) :: insertCell slot cell rest

/-- **The cell of a slot**, the same one for every closure that captures the slot. -/
def captureSlot (slot : Nat) : Exec CellId := do
  let m ← get
  match cellAt? slot m.openCells with
  | some cell => return cell
  | none =>
    let (cell, heap) := m.heap.addCell (.onStack slot)
    set { m with heap, openCells := insertCell slot cell m.openCells }
    return cell

/-! ## The operand stack -/

def push (value : Value) : Exec Unit :=
  modify fun m => { m with stack := m.stack.push (some value) }

/-- The top, which must lie above the floor and be assigned. -/
def pop : Exec Value := do
  let m ← get
  if m.stack.size ≤ m.floor.stack then fail .stackUnderflow
  else
    match m.stack.back? with
    | some (some value) =>
      set { m with stack := m.stack.pop }
      return value
    | _ => fail .stackUnderflow

/-- The top, left in place. -/
def top : Exec Value := do
  match (← get).stack.back? with
  | some (some value) => return value
  | _ => fail .stackUnderflow

/-- Put another value in the place of the top. -/
def replaceTop (value : Value) : Exec Unit :=
  modify fun m => { m with stack := m.stack.pop.push (some value) }

/-- The array on top. -/
def topArray : Exec (List Value) := do
  match ← top with
  | .array elements => return elements
  | _ => fail .notAnArray

/-- The object on top. -/
def topObject : Exec (Entries Value) := do
  match ← top with
  | .object entries => return entries
  | _ => fail .notAnObject

/-! ## Scopes and calls -/

/-- The innermost scope, which must lie above the floor. -/
def scope : Exec Scope := do
  let m ← get
  if m.scopes.size ≤ m.floor.scopes then fail .noScope
  else
    match m.scopes.back? with
    | some s => return s
    | none => fail .noScope

/-- Change the innermost scope. -/
def modifyScope (f : Scope → Scope) : Exec Unit := do
  let s ← scope
  modify fun m => { m with scopes := m.scopes.pop.push (f s) }

/-- The place on the operand stack of a slot of the scope so many frames out. -/
def slotIndex (depth slot : Word) : Exec Nat := do
  let m ← get
  if m.scopes.size ≤ depth.toNat then fail .noScope
  else
    match m.scopes[m.scopes.size - 1 - depth.toNat]? with
    | some s =>
      let index := s.base + slot.toNat
      if index < m.stack.size then return index else fail (.slotOutOfRange · index)
    | none => fail .noScope

/-- The callee of the innermost call. -/
def runningCallee : Exec Value := do
  let m ← get
  match m.calls.back? with
  | none => fail .noCall
  | some call =>
    match m.stack[call.base]? with
    | some (some value) => return value
    | _ => fail .stackUnderflow

/-- The cell of a variable that the running closure captured. -/
def runningUpvalue (index : Word) : Exec CellId := do
  match ← runningCallee with
  | .closure c =>
    match c.upvalues[index.toNat]? with
    | some cell => return cell
    | none => fail (.upvalueOutOfRange · index.toNat)
  | _ => fail .notAClosure

/-- What a captured variable holds. -/
def readCell (m : Machine) (cell : CellId) : Option Value :=
  match m.heap.cell cell with
  | .onStack slot => m.slotContent slot
  | .closed value => value

end Machine

end TreeCode
