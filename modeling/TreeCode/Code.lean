import TreeCode.Lowering.Scope
import TreeCode.Program

/-!
# Symbolic code

Code as it is put together: instructions with what an error report says about them, and places where
a function's closure is made that do not know yet where the function starts. Jumps are relative, so
a piece of code can be placed anywhere; only functions have to be found.

`Code.link` places functions one after another, fills in where each starts, and gives the words, the
diagnostics beside them and the table of functions.
-/

namespace TreeCode

/-- **An item of symbolic code.** -/
inductive CodeItem where
  | plain (instruction : Instruction) (diagnostic : Option Diagnostic)
  /-- Make a closure of the function with an index. -/
  | makeFunction (index : Nat)

/-- **A piece of code.** -/
abbrev Code := List CodeItem

/-- **A function's code**, with its name and where its closures find what they capture. -/
structure CodeFunction where
  name : String
  body : Code
  captures : List Capture := []

namespace CodeItem

/-- How many words the item takes. -/
def width : CodeItem → Nat
  | .plain instruction _ => instruction.width
  | .makeFunction _ => (Instruction.function 0).width

/-- The instruction, given where functions start. -/
def instruction (offsets : List Nat) : CodeItem → Instruction
  | .plain instruction _ => instruction
  | .makeFunction index => .function (UInt32.ofNat (offsets[index]?.getD 0))

def diagnostic? : CodeItem → Option Diagnostic
  | .plain _ diagnostic => diagnostic
  | .makeFunction _ => none

/-- The item's words. -/
def words (offsets : List Nat) (item : CodeItem) : List Word := (item.instruction offsets).words

/-- The diagnostics beside the item's words: its own beside the first, none beside the others. -/
def diagnostics (item : CodeItem) : List (Option Diagnostic) :=
  item.diagnostic? :: List.replicate (item.width - 1) none

end CodeItem

namespace Code

/-- How many words the code takes. -/
def width (code : Code) : Nat := code.foldr (·.width + ·) 0

/-- One instruction. -/
def emit (instruction : Instruction) : Code := [.plain instruction none]

/-- One instruction, with a name for error reports. -/
def emitNamed (instruction : Instruction) (name : String) : Code :=
  [.plain instruction (some { name, isArgument := false })]

/-- One instruction, with the name of the argument that it binds, if it binds one. -/
def emitBinding (instruction : Instruction) (argument : Option String) : Code :=
  [.plain instruction (argument.map fun name => { name, isArgument := true })]

/-- A distance over code, as an operand. -/
def distance (code : Code) : Word := UInt32.ofNat code.width

/-- Where functions start that are placed one after another from `start` on. -/
def offsetsFrom (start : Nat) : List CodeFunction → List Nat
  | [] => []
  | f :: rest => start :: offsetsFrom (start + f.body.width) rest

/-- The program's code and the tables that belong to it. -/
def link (functions : List CodeFunction) : Program :=
  let offsets := offsetsFrom 0 functions
  let items := functions.flatMap (·.body)
  { code := (items.flatMap (·.words offsets)).toArray
    diagnostics := (items.flatMap (·.diagnostics)).toArray
    functions :=
      (List.zipWith (fun f offset => { name := f.name, offset }) functions offsets).toArray }

end Code

end TreeCode
