/-!
# Instructions

Code is a flat list of words. An instruction is an opcode word followed by the opcode's operands, of
which there are none, one or two. `Instruction` is the typed view: each form carries exactly its
operands, so an instruction and its words determine each other.
-/

namespace TreeCode

/-- A code word. -/
abbrev Word := UInt32

/-- **What an instruction does**, without its operands. -/
inductive Opcode where
  | value | platform | discard | reserve
  | writeLocal | readLocal
  | pushScope | popScope
  | array | arrayPush | arrayExtend | arrayReverse | arrayCopy | arrayCut | arrayPop
  | arrayPopOrDefault
  | object | objectPush | objectMerge | objectCopy | objectPop | objectPopOrDefault
  | function | closure | closureUpvalue | call | ret
  | readUpvalue | capture
  | index
  | enterCatch | leaveCatch | validate
deriving DecidableEq

namespace Opcode

/-- Every opcode, by ascending word. -/
def all : List Opcode :=
  [.value, .platform, .discard, .reserve, .writeLocal, .readLocal, .pushScope, .popScope,
    .array, .arrayPush, .arrayExtend, .arrayReverse, .arrayCopy, .arrayCut, .arrayPop,
    .arrayPopOrDefault, .object, .objectPush, .objectMerge, .objectCopy, .objectPop,
    .objectPopOrDefault, .function, .closure, .closureUpvalue, .call, .ret, .readUpvalue,
    .capture, .index, .enterCatch, .leaveCatch, .validate]

/-- The opcode's word. -/
def word : Opcode → Word
  | .value => 0x01
  | .platform => 0x02
  | .discard => 0x03
  | .reserve => 0x04
  | .writeLocal => 0x10
  | .readLocal => 0x11
  | .pushScope => 0x18
  | .popScope => 0x19
  | .array => 0x20
  | .arrayPush => 0x21
  | .arrayExtend => 0x22
  | .arrayReverse => 0x23
  | .arrayCopy => 0x24
  | .arrayCut => 0x25
  | .arrayPop => 0x26
  | .arrayPopOrDefault => 0x27
  | .object => 0x30
  | .objectPush => 0x31
  | .objectMerge => 0x32
  | .objectCopy => 0x33
  | .objectPop => 0x34
  | .objectPopOrDefault => 0x35
  | .function => 0x40
  | .closure => 0x41
  | .closureUpvalue => 0x42
  | .call => 0x43
  | .ret => 0x44
  | .readUpvalue => 0x48
  | .capture => 0x49
  | .index => 0x50
  | .enterCatch => 0x60
  | .leaveCatch => 0x61
  | .validate => 0x62

/-- The opcode with a given word. -/
def ofWord? (w : Word) : Option Opcode := all.find? (·.word == w)

/-- The opcode's name in listings. -/
def mnemonic : Opcode → String
  | .value => "VALUE"
  | .platform => "PLATFORM"
  | .discard => "DISCARD"
  | .reserve => "RESERVE"
  | .writeLocal => "WRITE_LOCAL"
  | .readLocal => "READ_LOCAL"
  | .pushScope => "PUSH_SCOPE"
  | .popScope => "POP_SCOPE"
  | .array => "ARRAY"
  | .arrayPush => "ARRAY_PUSH"
  | .arrayExtend => "ARRAY_EXTEND"
  | .arrayReverse => "ARRAY_REVERSE"
  | .arrayCopy => "ARRAY_COPY"
  | .arrayCut => "ARRAY_CUT"
  | .arrayPop => "ARRAY_POP"
  | .arrayPopOrDefault => "ARRAY_POP_OR_DEFAULT"
  | .object => "OBJECT"
  | .objectPush => "OBJECT_PUSH"
  | .objectMerge => "OBJECT_MERGE"
  | .objectCopy => "OBJECT_COPY"
  | .objectPop => "OBJECT_POP"
  | .objectPopOrDefault => "OBJECT_POP_OR_DEFAULT"
  | .function => "FUNCTION"
  | .closure => "CLOSURE"
  | .closureUpvalue => "CLOSURE_UPVALUE"
  | .call => "CALL"
  | .ret => "RETURN"
  | .readUpvalue => "READ_UPVALUE"
  | .capture => "CAPTURE"
  | .index => "INDEX"
  | .enterCatch => "CATCH"
  | .leaveCatch => "UNCATCH"
  | .validate => "VALIDATE"

/-- The opcode with a given name. -/
def ofMnemonic? (name : String) : Option Opcode := all.find? (·.mnemonic == name)

/-- How many operands the opcode takes. -/
def arity : Opcode → Nat
  | .discard | .popScope | .array | .arrayPush | .arrayExtend | .arrayReverse | .arrayCopy
  | .object | .objectPush | .objectMerge | .objectCopy | .call | .ret | .index | .leaveCatch => 0
  | .value | .platform | .reserve | .pushScope | .arrayCut | .arrayPop | .arrayPopOrDefault
  | .objectPop | .function | .closureUpvalue | .readUpvalue | .capture | .enterCatch
  | .validate => 1
  | .writeLocal | .readLocal | .objectPopOrDefault | .closure => 2

end Opcode

/-- **An instruction.** Jumps count words from the end of their instruction. -/
inductive Instruction where
  /-- Push a constant. -/
  | value (constant : Word)
  /-- Push a value of the host. -/
  | platform (entry : Word)
  /-- Drop the top. -/
  | discard
  /-- Push unassigned slots. -/
  | reserve (count : Word)
  /-- Pop into a slot, of the scope so many frames out. -/
  | writeLocal (depth slot : Word)
  /-- Push a slot, of the scope so many frames out. -/
  | readLocal (depth slot : Word)
  /-- Open a scope over the topmost values. -/
  | pushScope (size : Word)
  /-- Close a scope and keep only the top. -/
  | popScope
  /-- Push an empty array. -/
  | array
  /-- Pop a value onto the end of the array below it. -/
  | arrayPush
  /-- Pop a sequence and append its elements to the array below it. -/
  | arrayExtend
  | arrayReverse
  | arrayCopy
  /-- Cut the top array in two after so many elements. -/
  | arrayCut (count : Word)
  /-- Move the last element of the top array onto the stack; the operand is its position for
  the report that it is missing. -/
  | arrayPop (position : Word)
  /-- Move the last element of the top array onto the stack and jump, or fall through. -/
  | arrayPopOrDefault (jump : Word)
  /-- Push an empty object. -/
  | object
  /-- Pop a value and a key into the object below them. -/
  | objectPush
  /-- Pop an object and put its entries into the object below it. -/
  | objectMerge
  | objectCopy
  /-- Move a property of the top object onto the stack. -/
  | objectPop (key : Word)
  /-- Move a property of the top object onto the stack and jump, or fall through. -/
  | objectPopOrDefault (key jump : Word)
  /-- Push a new closure of the function that starts at an offset. -/
  | function (target : Word)
  /-- Let the closure on top capture a slot. -/
  | closure (depth slot : Word)
  /-- Let the closure on top capture what the running closure captured. -/
  | closureUpvalue (upvalue : Word)
  /-- Call the callee at the base of the scope with the arguments above it. -/
  | call
  /-- Leave the function with the top as its value. -/
  | ret
  /-- Push a captured variable. -/
  | readUpvalue (upvalue : Word)
  /-- Detach the captured variable of a slot from the stack. -/
  | capture (slot : Word)
  /-- Pop a key and a collection and push the element. -/
  | index
  /-- Until the matching `leaveCatch`, errors continue after a jump, as a value on top. -/
  | enterCatch (jump : Word)
  | leaveCatch
  /-- Check the top against a schema. -/
  | validate (schema : Word)
deriving DecidableEq

namespace Instruction

def opcode : Instruction → Opcode
  | .value _ => .value
  | .platform _ => .platform
  | .discard => .discard
  | .reserve _ => .reserve
  | .writeLocal .. => .writeLocal
  | .readLocal .. => .readLocal
  | .pushScope _ => .pushScope
  | .popScope => .popScope
  | .array => .array
  | .arrayPush => .arrayPush
  | .arrayExtend => .arrayExtend
  | .arrayReverse => .arrayReverse
  | .arrayCopy => .arrayCopy
  | .arrayCut _ => .arrayCut
  | .arrayPop _ => .arrayPop
  | .arrayPopOrDefault _ => .arrayPopOrDefault
  | .object => .object
  | .objectPush => .objectPush
  | .objectMerge => .objectMerge
  | .objectCopy => .objectCopy
  | .objectPop _ => .objectPop
  | .objectPopOrDefault .. => .objectPopOrDefault
  | .function _ => .function
  | .closure .. => .closure
  | .closureUpvalue _ => .closureUpvalue
  | .call => .call
  | .ret => .ret
  | .readUpvalue _ => .readUpvalue
  | .capture _ => .capture
  | .index => .index
  | .enterCatch _ => .enterCatch
  | .leaveCatch => .leaveCatch
  | .validate _ => .validate

def operands : Instruction → List Word
  | .value a | .platform a | .reserve a | .pushScope a | .arrayCut a | .arrayPop a
  | .arrayPopOrDefault a | .objectPop a | .function a | .closureUpvalue a | .readUpvalue a
  | .capture a | .enterCatch a | .validate a => [a]
  | .writeLocal a b | .readLocal a b | .objectPopOrDefault a b | .closure a b => [a, b]
  | _ => []

/-- The instruction with an opcode and operands; operands it does not take are ignored. -/
def assemble (opcode : Opcode) (a b : Word) : Instruction :=
  match opcode with
  | .value => .value a
  | .platform => .platform a
  | .discard => .discard
  | .reserve => .reserve a
  | .writeLocal => .writeLocal a b
  | .readLocal => .readLocal a b
  | .pushScope => .pushScope a
  | .popScope => .popScope
  | .array => .array
  | .arrayPush => .arrayPush
  | .arrayExtend => .arrayExtend
  | .arrayReverse => .arrayReverse
  | .arrayCopy => .arrayCopy
  | .arrayCut => .arrayCut a
  | .arrayPop => .arrayPop a
  | .arrayPopOrDefault => .arrayPopOrDefault a
  | .object => .object
  | .objectPush => .objectPush
  | .objectMerge => .objectMerge
  | .objectCopy => .objectCopy
  | .objectPop => .objectPop a
  | .objectPopOrDefault => .objectPopOrDefault a b
  | .function => .function a
  | .closure => .closure a b
  | .closureUpvalue => .closureUpvalue a
  | .call => .call
  | .ret => .ret
  | .readUpvalue => .readUpvalue a
  | .capture => .capture a
  | .index => .index
  | .enterCatch => .enterCatch a
  | .leaveCatch => .leaveCatch
  | .validate => .validate a

/-- **The words of an instruction.** -/
def words (i : Instruction) : List Word := i.opcode.word :: i.operands

/-- How many words the instruction takes. -/
def width (i : Instruction) : Nat := 1 + i.opcode.arity

theorem length_words (i : Instruction) : i.words.length = i.width := by
  cases i <;> rfl

theorem width_pos (i : Instruction) : 0 < i.width := by
  unfold width
  omega

/-- **Why no instruction starts at an offset.** -/
inductive Malformed where
  /-- The word is not an opcode. -/
  | unknownOpcode (word : Word)
  /-- The code ends before the instruction does. -/
  | incomplete (offset : Nat)
deriving DecidableEq

/-- **The instruction that starts at `offset`.** -/
def decode (code : Array Word) (offset : Nat) : Except Malformed Instruction :=
  match code[offset]? with
  | none => .error (.incomplete offset)
  | some word =>
    match Opcode.ofWord? word with
    | none => .error (.unknownOpcode word)
    | some opcode =>
      if offset + opcode.arity < code.size then
        .ok (assemble opcode (code[offset + 1]?.getD 0) (code[offset + 2]?.getD 0))
      else .error (.incomplete offset)

/-- The instructions from `offset` on, each with its own offset. The first word that starts none
ends the list with the reason. -/
def decodeFrom (code : Array Word) (offset : Nat) : List (Except Malformed (Nat × Instruction)) :=
  if _h : offset < code.size then
    match decode code offset with
    | .ok i =>
      have := i.width_pos
      .ok (offset, i) :: decodeFrom code (offset + i.width)
    | .error e => [.error e]
  else []
termination_by code.size - offset

/-- **The instructions of a code**, read from its start. -/
def decodeAll (code : Array Word) : List (Except Malformed (Nat × Instruction)) := decodeFrom code 0

end Instruction

end TreeCode
