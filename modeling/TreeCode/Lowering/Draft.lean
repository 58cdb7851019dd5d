import TreeCode.Code
import TreeCode.Library
import TreeCode.Lowering.Error
import TreeCode.Lowering.Scope

/-!
# Drafts — what lowering accumulates

Lowering a tree gives its code. On the side it fills the tables of the program, finishes the
functions inside the tree, and notes in the static scopes which variables are captured: all that is
the draft, and `Lower` is the monad of computations on it.
-/

namespace TreeCode

/-- **What names can refer to besides the tree's own.** -/
structure Environment where
  library : Library := []
  /-- Names that the host provides. They hide the library's. -/
  names : Entries Value := []
  /-- What modules provide. -/
  modules : Entries (Entries Value) := []

/-- **The program so far, and the scopes around the current place.** -/
structure Draft where
  /-- The functions around the current place, innermost first. -/
  frames : List Frame
  /-- The functions that are complete, in order of completion. -/
  finished : Array CodeFunction := #[]
  constants : Array Value := #[]
  platform : Array PlatformValue := #[]

/-- **A computation of lowering.** -/
abbrev Lower := StateT Draft (Except LoweringError)

namespace Lower

/-- The next index of a table, as an operand. -/
def tableIndex (table : String) (count : Nat) : Lower Word :=
  if count < 0xffffffff then return UInt32.ofNat count else throw (.tableFull table count)

/-- The index of a string among constants. -/
def stringIndex? (constants : Array Value) (s : String) : Option Nat :=
  constants.findIdx? (·.asString? == some s)

/-- **A constant's index.** Equal strings share theirs. -/
def constant (value : Value) : Lower Word := do
  let constants := (← get).constants
  match value.asString?.bind (stringIndex? constants) with
  | some index => return UInt32.ofNat index
  | none =>
    let index ← tableIndex "constants" constants.size
    modify fun d => { d with constants := d.constants.push value }
    return index

/-- **A host value's index.** Equal values of one name share theirs. -/
def platform (name : String) (value : Value) : Lower Word := do
  let table := (← get).platform
  match table.findIdx? (fun p => p.name == name && p.value == value) with
  | some index => return UInt32.ofNat index
  | none =>
    let index ← tableIndex "platform values" table.size
    modify fun d => { d with platform := d.platform.push { name, value } }
    return index

/-- Push a value that the host provides: data as a constant, anything else by name. -/
def hostValue (name : String) (value : Value) : Lower Code := do
  if value.isData then return Code.emit (.value (← constant value))
  else return Code.emit (.platform (← platform name value))

/-! ## Scopes -/

/-- The current function's frame. -/
def frame : Lower Frame := do return ((← get).frames.head?).getD (.ofBlock {})

def setFrame (frame : Frame) : Lower Unit :=
  modify fun d => { d with frames := frame :: d.frames.tail }

/-- The innermost scope. -/
def block : Lower Block := do return ((← frame).blocks.head?).getD {}

/-- Open a scope. -/
def openBlock (block : Block) : Lower Unit := do
  let frame ← frame
  setFrame { frame with blocks := block :: frame.blocks }

/-- Close the innermost scope. -/
def closeBlock : Lower Block := do
  let closed ← block
  let frame ← frame
  setFrame { frame with blocks := frame.blocks.tail }
  return closed

/-- Begin a function. -/
def openFunction (block : Block) : Lower Unit :=
  modify fun d => { d with frames := .ofBlock block :: d.frames }

/-- End the current function. -/
def closeFunction : Lower Frame := do
  let closed ← frame
  modify fun d => { d with frames := d.frames.tail }
  return closed

/-- Keep a complete function. Its index counts from one, since the program's own code comes
first. -/
def finish (f : CodeFunction) : Lower Nat := do
  modify fun d => { d with finished := d.finished.push f }
  return (← get).finished.size

/-- Reserve the slots of a scope. -/
def reserveSlots (b : Block) : Code :=
  if b.reserved = 0 then [] else Code.emit (.reserve (UInt32.ofNat b.reserved))

/-- Detach the captured slots of a scope, the last slot first. -/
def detachSlots (b : Block) : Code :=
  b.captured.flatMap fun slot => Code.emit (.capture (UInt32.ofNat slot))

/-- Leave the innermost scope. -/
def leaveBlock : Lower Code := do
  return detachSlots (← closeBlock) ++ Code.emit .popScope

/-! ## Names -/

/-- Find a name in the scopes. -/
def reach (library : Bool) (name : String) : Lower (Option Capture) := do
  match Frame.reach library name (← get).frames with
  | some (found, frames) =>
    modify fun d => { d with frames }
    return some found
  | none => return none

/-- Push a variable. -/
def variableCode (name : String) : Capture → Code
  | .variable depth slot =>
    Code.emitNamed (.readLocal (UInt32.ofNat depth) (UInt32.ofNat slot)) name
  | .captured index => Code.emitNamed (.readUpvalue (UInt32.ofNat index)) name

/-- The instruction by which the closure on top captures a variable. -/
def captureInstruction : Capture → Instruction
  | .variable depth slot => .closure (UInt32.ofNat depth) (UInt32.ofNat slot)
  | .captured index => .closureUpvalue (UInt32.ofNat index)

/-- Let the closure on top capture a variable. -/
def captureCode (place : Capture) : Code := Code.emit (captureInstruction place)

/-- A name that the library gives a value, when no scope has it. -/
def libraryName (env : Environment) (name : String) : Lower Code := do
  match ← reach true name with
  | some found => return variableCode name found
  | none =>
    match Entries.get? env.library name with
    | some (.value value) => hostValue name value
    | _ => throw (.nameNotDefined name)

/-- **A name**: of a scope, of the host, or of the library, in this order. Code of the library does
not see the names of the host. -/
def nameCode (env : Environment) (name : String) : Lower Code := do
  match ← reach false name with
  | some found => return variableCode name found
  | none =>
    match Entries.get? env.names name with
    | some value => hostValue name value
    | none => libraryName env name

/-- A name that a module provides. -/
def moduleName (env : Environment) (name module : String) : Lower Code := do
  match Entries.get? env.modules module with
  | none => throw (.unknownModule module name)
  | some exports =>
    match Entries.get? exports name with
    | none => throw (.nameNotInModule module name)
    | some value => hostValue name value

/-- A literal: data as a constant, a function by its name. -/
def literalCode (value : Value) : Lower Code := do
  if value.isData then return Code.emit (.value (← constant value))
  else
    match value.functionName? with
    | some name => return Code.emit (.platform (← platform name value))
    | none => throw (.invalidTree (.notALiteral value.kind))

end Lower

end TreeCode
