import TreeCode.Instruction
import TreeCode.Value

/-!
# Programs

A program is its code with four tables: diagnostics (names for error reports, beside the words they
belong to), constants, values of the host by name, and the functions with the offsets at which they
start. Running begins at offset 0.

`Program.validate` checks that the code decodes from its start and that every operand which refers
to a table, to a function or to a place in the code is in range.
-/

namespace TreeCode

/-- What an error report says about an instruction. -/
structure Diagnostic where
  name : String
  /-- The instruction binds an argument of that name. -/
  isArgument : Bool
deriving DecidableEq

/-- A value of the host, and the name it goes by. -/
structure PlatformValue where
  name : String
  value : Value

/-- Where a function starts. -/
structure FunctionEntry where
  name : String
  offset : Nat
deriving DecidableEq

/-- **A program.** -/
structure Program where
  code : Array Word := #[]
  /-- As long as the code. -/
  diagnostics : Array (Option Diagnostic) := #[]
  constants : Array Value := #[]
  platform : Array PlatformValue := #[]
  /-- By ascending offset. -/
  functions : Array FunctionEntry := #[]

/-- The text of a word in hexadecimal, of two digits at least. -/
def hexWord (w : Word) : String :=
  let digits := Nat.toDigits 16 w.toNat
  "0x" ++ String.ofList (if digits.length < 2 then '0' :: digits else digits)

/-- **Why bytes are no program**, or why a program is not valid. -/
inductive DecodeError where
  | unknownOpcode (word : Word)
  | truncated (offset : Nat)
  | badMagic
  | unsupportedVersion (version : Word)
  | invalidUtf8 (offset : Nat)
  | unknownConstantTag (tag : UInt8) (offset : Nat)
  | unknownPlatformValue (name : String)
  | incompleteInstruction (offset : Nat)
  | operandOutOfRange (offset : Nat) (operand : Word) (limit : Nat)
  | malformedSection (name : String) (offset : Nat)
deriving DecidableEq

namespace DecodeError

def message : DecodeError → String
  | .unknownOpcode word => "unknown opcode: " ++ hexWord word
  | .truncated offset => "truncated input at byte " ++ toString offset
  | .badMagic => "not a Kenpali program (bad magic)"
  | .unsupportedVersion version => "unsupported program version " ++ toString version.toNat
  | .invalidUtf8 offset => "invalid UTF-8 at byte " ++ toString offset
  | .unknownConstantTag tag offset =>
    "unknown constant tag " ++ toString tag.toNat ++ " at byte " ++ toString offset
  | .unknownPlatformValue name => "unknown platform value '" ++ name ++ "'"
  | .incompleteInstruction offset => "incomplete instruction at word " ++ toString offset
  | .operandOutOfRange offset operand limit =>
    "operand " ++ toString operand.toNat ++ " out of range (limit " ++ toString limit
      ++ ") at word " ++ toString offset
  | .malformedSection name offset => "malformed " ++ name ++ " section at byte " ++ toString offset

def ofMalformed : Instruction.Malformed → DecodeError
  | .unknownOpcode word => .unknownOpcode word
  | .incomplete offset => .incompleteInstruction offset

end DecodeError

namespace Program

def diagnostic? (p : Program) (offset : Nat) : Option Diagnostic := p.diagnostics[offset]?.getD none

/-- Narrow a range of `size` entries from `base` on to the one entry that can be at `offset`, by
halves. An entry at the offset is kept in the upper half. -/
def narrow (p : Program) (offset : Nat) (base size : Nat) : Nat :=
  if _h : 1 < size then
    let half := size / 2
    let middle := base + half
    let above : Bool := match p.functions[middle]? with
      | some entry => offset < entry.offset
      | none => true
    narrow p offset (if above then base else middle) (size - half)
  else base
termination_by size

/-- **The function that starts at `offset`**, found by halves in the ordered table. -/
def functionAt? (p : Program) (offset : Nat) : Option FunctionEntry :=
  p.functions[p.narrow offset 0 p.functions.size]?.filter (·.offset == offset)

/-- An operand below a limit. -/
def checkOperand (offset : Nat) (operand : Word) (limit : Nat) : Except DecodeError Unit :=
  if operand.toNat < limit then .ok () else .error (.operandOutOfRange offset operand limit)

/-- A jump from `finish`, the end of its instruction. It may lead to the end of the code. -/
def checkJump (p : Program) (offset finish : Nat) (operand : Word) : Except DecodeError Unit :=
  if finish + operand.toNat ≤ p.code.size then .ok ()
  else .error (.operandOutOfRange offset operand (p.code.size - finish))

/-- The operands of one instruction are in range. -/
def checkInstruction (p : Program) (offset : Nat) (i : Instruction) : Except DecodeError Unit :=
  let finish := offset + i.width
  match i with
  | .value k | .validate k | .objectPop k => checkOperand offset k p.constants.size
  | .objectPopOrDefault k jump => do
    checkOperand offset k p.constants.size
    p.checkJump offset finish jump
  | .platform entry => checkOperand offset entry p.platform.size
  | .function target =>
    if (p.functionAt? target.toNat).isSome then .ok ()
    else .error (.operandOutOfRange offset target p.code.size)
  | .arrayPopOrDefault jump | .enterCatch jump => p.checkJump offset finish jump
  | _ => .ok ()

/-- Every item is an instruction with operands in range. -/
def checkItems (p : Program) :
    List (Except Instruction.Malformed (Nat × Instruction)) → Except DecodeError Unit
  | [] => .ok ()
  | .error e :: _ => .error (.ofMalformed e)
  | .ok (offset, i) :: rest => do
    p.checkInstruction offset i
    checkItems p rest

/-- **The program is valid**: the code decodes, and every operand is in range. -/
def validate (p : Program) : Except DecodeError Unit := p.checkItems (Instruction.decodeAll p.code)

end Program

end TreeCode
