import TreeCode.Library.Reachable
import TreeCode.Lowering.Draft

/-!
# Lowering — from trees to programs

Each form of expression has code that leaves the expression's value on top of the stack, and each
pattern has code that takes the value on top away and puts its parts into slots. Scopes are resolved
here: every scope of a tree is a scope of the machine, so a variable is a number of scopes and a
slot.

`Expr.lower` gives the whole program. The definitions of the library that the tree can reach come
first, in a scope around the tree; they do not see the names of the host.
-/

namespace TreeCode

/-- **The definitions of the library that a tree takes in.** -/
def Environment.retained (env : Environment) (e : Expr) : List (String × Expr) :=
  Library.reachable env.library (e.freeNames.filter (!Entries.contains env.names ·))

namespace Lower

/-- The name of functions without one. -/
def anonymous : String := "<anonymous>"

/-- The name of a program's own code. -/
def main : String := "$main"

/-- A rest element may only be the last one. -/
def checkRest (isRest : List Bool) : Lower Unit :=
  if isRest.dropLast.contains true then throw (.invalidTree .restNotLast) else return ()

/-- The slot of a name in the innermost scope. -/
def slotOf (name : String) : Lower Word := do
  match Entries.get? (← block).names name with
  | some slot => return UInt32.ofNat slot
  | none => throw (.invalidTree (.undeclared name))

/-- A schema's constant. -/
def schemaConstant (schema : Value) : Lower Word :=
  if schema.isData then constant schema else throw (.invalidTree .schemaNotData)

/-- Check that a value to take apart is of a kind. The arguments of a function always are. -/
def checkKind (arguments : Bool) (kind : String) : Lower Code := do
  if arguments then return [] else return Code.emit (.validate (← constant (.string kind)))

/-- What a positional parameter goes by in error reports: its name, or its position. -/
def positionLabel (arguments : Bool) (position : Nat) (pattern : Pattern) : Option String :=
  if arguments then some (pattern.label?.getD ("#" ++ toString position)) else none

/-- What a named parameter goes by in error reports: its name, or its key. -/
def keyLabel (arguments : Bool) (key : String) (pattern : Pattern) : Option String :=
  if arguments then some (pattern.label?.getD key) else none

/-- The name that a definition gives to a function. -/
def definedName : Pattern → String
  | .name n => n
  | _ => anonymous

/-- A report about a call names what is called. -/
def callCode : Expr → Code
  | .name n _ => Code.emitNamed .call n
  | _ => Code.emit .call

/-- Take an array apart: the rest is cut off first, and the others are taken from the front, by the
given code. -/
def arrayPattern (arguments : Bool) (elements : List ArrayPatternElement)
    (rest fixed : Lower Code) : Lower Code := do
  checkRest (elements.map (·.isRest))
  let check ← checkKind arguments "array"
  return check ++ Code.emit .arrayCopy ++ (← rest) ++ Code.emit .arrayReverse ++ (← fixed)
    ++ Code.emit .discard

/-- Take an object apart, its properties by the given code. -/
def objectPattern (arguments : Bool) (entries : List ObjectPatternElement)
    (properties : Lower Code) : Lower Code := do
  checkRest (entries.map (·.isRest))
  let check ← checkKind arguments "object"
  return check ++ Code.emit .objectCopy ++ (← properties)

/-- Take arguments apart, if the function has parameters for them. -/
def parameters {α : Type} (params : List α) (read : Instruction) (taken : Lower Code) :
    Lower Code :=
  if params.isEmpty then return [] else return Code.emit read ++ (← taken)

variable (env : Environment)

mutual
/-- **The code of an expression.** A function gets the name `label`. -/
def expr (label : String) : Expr → Lower Code
  | .literal value => literalCode value
  | .name n (some module) => moduleName env n module
  | .name n none => nameCode env n
  | .array elements => return Code.emit .array ++ (← arrayElements elements)
  | .object entries => return Code.emit .object ++ (← objectElements entries)
  | .defining definitions result => do
    let scope := Block.declareAll {} (definitions.flatMap fun d => d.1.names)
    openBlock scope
    let body ← defineAll definitions
    let last ← expr anonymous result
    return Code.emit (.pushScope 0) ++ reserveSlots scope ++ body ++ last ++ (← leaveBlock)
  | .given params namedParams result => do
    let scope := Block.ofFunction.declareAll
      (Pattern.elementNames params ++ Pattern.entryNames namedParams)
    openFunction scope
    let positional ← parameters params (.readLocal 0 1)
      (arrayPattern true params (arrayRest 0 params) (arrayFixed true 1 params))
    let named ← parameters namedParams (.readLocal 0 2)
      (objectPattern true namedParams (objectProperties true namedParams))
    let last ← expr anonymous result
    let detach := detachSlots (← block)
    let frame ← closeFunction
    let index ← finish
      { name := label
        body := reserveSlots scope ++ positional ++ named ++ last ++ detach ++ Code.emit .ret
        captures := frame.captures }
    return .makeFunction index :: frame.captures.flatMap captureCode
  | .calling callee args namedArgs => do
    let function ← expr anonymous callee
    let positional ← arrayElements args
    let named ← objectElements namedArgs
    return function ++ Code.emit .array ++ positional ++ Code.emit .object ++ named
      ++ Code.emit (.pushScope 3) ++ callCode callee ++ Code.emit .popScope
  | .indexing collection key =>
    return (← expr anonymous collection) ++ (← expr anonymous key) ++ Code.emit .index
  | .catching inner => do
    openBlock {}
    let guarded := (← expr anonymous inner) ++ Code.emit .leaveCatch
    return Code.emit (.pushScope 0) ++ Code.emit (.enterCatch (Code.distance guarded)) ++ guarded
      ++ (← leaveBlock)

/-- Put elements into the array on top. -/
def arrayElements : List ArrayElement → Lower Code
  | [] => return []
  | .item e :: rest =>
    return (← expr anonymous e) ++ Code.emit .arrayPush ++ (← arrayElements rest)
  | .spread e :: rest =>
    return (← expr anonymous e) ++ Code.emit .arrayExtend ++ (← arrayElements rest)

/-- Put entries into the object on top. -/
def objectElements : List ObjectElement → Lower Code
  | [] => return []
  | .entry key value :: rest =>
    return (← expr anonymous key) ++ (← expr anonymous value) ++ Code.emit .objectPush
      ++ (← objectElements rest)
  | .spread e :: rest =>
    return (← expr anonymous e) ++ Code.emit .objectMerge ++ (← objectElements rest)

/-- The definitions of a block. -/
def defineAll : List (Pattern × Expr) → Lower Code
  | [] => return []
  | (pattern, value) :: rest =>
    return (← expr (definedName pattern) value) ++ (← destructure none pattern)
      ++ (← defineAll rest)

/-- **Take the value on top apart into slots.** `argument` is the parameter that the whole value is
meant for. -/
def destructure (argument : Option String) : Pattern → Lower Code
  | .name n => return Code.emit (.writeLocal 0 (← slotOf n))
  | .checked pattern schema => do
    let check := Code.emitBinding (.validate (← schemaConstant schema)) argument
    return check ++ (← destructure none pattern)
  | .array elements => arrayPattern false elements (arrayRest 0 elements)
      (arrayFixed false 1 elements)
  | .object entries => objectPattern false entries (objectProperties false entries)

/-- Cut the elements after the first ones, `count` of them, off into the rest pattern. -/
def arrayRest (count : Nat) : List ArrayPatternElement → Lower Code
  | [] => return []
  | .rest pattern :: _ =>
    return Code.emit (.arrayCut (UInt32.ofNat count)) ++ (← destructure none pattern)
  | .required _ :: later => arrayRest (count + 1) later
  | .optional _ _ :: later => arrayRest (count + 1) later

/-- Take elements off the end of the reversed array, the first of them at `position`. -/
def arrayFixed (arguments : Bool) (position : Nat) : List ArrayPatternElement → Lower Code
  | [] => return []
  | .rest _ :: _ => return []
  | .required pattern :: later => do
    let label := positionLabel arguments position pattern
    let taken := Code.emitBinding (.arrayPop (UInt32.ofNat position)) label
    return taken ++ (← destructure label pattern) ++ (← arrayFixed arguments (position + 1) later)
  | .optional pattern default :: later => do
    let label := positionLabel arguments position pattern
    let absent ← expr anonymous default
    return Code.emit (.arrayPopOrDefault (Code.distance absent)) ++ absent
      ++ (← destructure label pattern) ++ (← arrayFixed arguments (position + 1) later)

/-- Take properties off the object on top; what they leave goes to the rest, or is dropped. -/
def objectProperties (arguments : Bool) : List ObjectPatternElement → Lower Code
  | [] => return Code.emit .discard
  | .rest pattern :: _ => destructure none pattern
  | .property key pattern none :: later => do
    let k ← constant (.string key)
    let label := keyLabel arguments key pattern
    return Code.emitBinding (.objectPop k) label ++ (← destructure label pattern)
      ++ (← objectProperties arguments later)
  | .property key pattern (some default) :: later => do
    let k ← constant (.string key)
    let label := keyLabel arguments key pattern
    let absent ← expr anonymous default
    return Code.emit (.objectPopOrDefault k (Code.distance absent)) ++ absent
      ++ (← destructure label pattern) ++ (← objectProperties arguments later)
end

/-- The definitions of the library, in the slots from `slot` on. -/
def libraryDefinitions (slot : Nat) : List (String × Expr) → Lower Code
  | [] => return []
  | (name, e) :: rest =>
    return (← expr env name e) ++ Code.emit (.writeLocal 0 (UInt32.ofNat slot))
      ++ (← libraryDefinitions (slot + 1) rest)

/-- A tree in the scope of the library's definitions. -/
def withLibrary (retained : List (String × Expr)) (e : Expr) : Lower Code := do
  let scope := Block.ofLibrary.declareAll (retained.map (·.1))
  openBlock scope
  let definitions ← libraryDefinitions { env with names := [] } 0 retained
  let last ← expr env anonymous e
  return Code.emit (.pushScope 0) ++ reserveSlots scope ++ definitions ++ last ++ (← leaveBlock)

/-- A tree after the definitions of the library that it takes in, if there are any. -/
def afterLibrary (retained : List (String × Expr)) (e : Expr) : Lower Code :=
  if retained.isEmpty then expr env anonymous e else withLibrary env retained e

/-- The program's own code. -/
def mainCode (e : Expr) : Lower Code := do
  return (← afterLibrary env (env.retained e) e) ++ Code.emit .ret

end Lower

/-- **The program of an expression.** -/
def Expr.lower (env : Environment) (e : Expr) : Except LoweringError Program := do
  let (body, draft) ← (Lower.mainCode env e).run { frames := [.ofBlock .ofFunction] }
  let linked := Code.link ({ name := Lower.main, body } :: draft.finished.toList)
  return { linked with constants := draft.constants, platform := draft.platform }

end TreeCode
