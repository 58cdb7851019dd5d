import TreeCode.Program

/-!
# The program file

A program as bytes, least significant byte first:

* the mark `KPB1` and the version, a word;
* five words, the offsets of the sections: code, constants, values of the host, diagnostics,
  functions;
* the sections. Each begins with the number of its entries. The code's entries are words; every
  other entry is preceded by its length in bytes.

A constant is a tag byte and what the tag calls for. Reading accepts sections anywhere in the file,
checks that each entry takes exactly the length it states, and validates the program it has read.
-/

namespace TreeCode

/-- A string of bytes. -/
abbrev Bytes := List UInt8

/-- **Why a program cannot be written.** -/
inductive EncodeError where
  /-- The constant at `index` holds a value that is not plain data. -/
  | unsupportedConstant (index : Nat) (kind : Kind)
  | tooLarge (size : Nat)
deriving DecidableEq

namespace EncodeError

def message : EncodeError → String
  | .unsupportedConstant index kind =>
    "constant " ++ toString index ++ " is a " ++ kind.name ++ " and cannot be serialized"
  | .tooLarge size => "section too large to encode: " ++ toString size ++ " bytes"

end EncodeError

namespace Container

/-- The mark at the start of every program file: `KPB1`. -/
def magic : Bytes := [0x4b, 0x50, 0x42, 0x31]

def version : Word := 1

/-- The bytes before the first section. -/
def headerLength : Nat := 28

/-! ## Writing -/

/-- A word, least significant byte first. -/
def wordBytes (w : Word) : Bytes :=
  [w.toUInt8, (w >>> 8).toUInt8, (w >>> 16).toUInt8, (w >>> 24).toUInt8]

/-- A number's bits, least significant byte first. -/
def numberBytes (n : Number) : Bytes :=
  [n.bits.toUInt8, (n.bits >>> 8).toUInt8, (n.bits >>> 16).toUInt8, (n.bits >>> 24).toUInt8,
    (n.bits >>> 32).toUInt8, (n.bits >>> 40).toUInt8, (n.bits >>> 48).toUInt8,
    (n.bits >>> 56).toUInt8]

/-- A count or length, which must fit a word. -/
def sizeBytes (size : Nat) : Except EncodeError Bytes :=
  if size < UInt32.size then .ok (wordBytes size.toUInt32) else .error (.tooLarge size)

/-- The bytes of a text. -/
def textBytes (s : String) : Bytes := s.toUTF8.toList

/-- A text after its length. -/
def sizedText (s : String) : Except EncodeError Bytes := do
  let bytes := textBytes s
  return (← sizeBytes bytes.length) ++ bytes

mutual
/-- The bytes of a constant; `index` is for the report that it is not data. -/
def constantBytes (index : Nat) : Value → Except EncodeError Bytes
  | .null => .ok [0]
  | .boolean false => .ok [1]
  | .boolean true => .ok [2]
  | .number n => .ok (3 :: numberBytes n)
  | .string s => return 4 :: (← sizedText s)
  | .array elements =>
    return 5 :: ((← sizeBytes elements.length) ++ (← elementBytes index elements))
  | .object entries => return 6 :: ((← sizeBytes entries.length) ++ (← entryBytes index entries))
  | v@(.closure _) | v@(.native _) | v@(.error ..) | v@(.stream _) =>
    .error (.unsupportedConstant index v.kind)
/-- The bytes of elements. -/
def elementBytes (index : Nat) : List Value → Except EncodeError Bytes
  | [] => .ok []
  | v :: vs => return (← constantBytes index v) ++ (← elementBytes index vs)
/-- The bytes of properties, each after its key. -/
def entryBytes (index : Nat) : List (String × Value) → Except EncodeError Bytes
  | [] => .ok []
  | (key, v) :: rest => do
    let key ← sizedText key
    let value ← constantBytes index v
    return key ++ value ++ (← entryBytes index rest)
end

/-- An entry after its length. -/
def sizedEntry (bytes : Bytes) : Except EncodeError Bytes :=
  return (← sizeBytes bytes.length) ++ bytes

/-- The number of entries, and the entries. -/
def sectionBytes (entries : List Bytes) : Except EncodeError Bytes :=
  return (← sizeBytes entries.length) ++ entries.flatten

/-- Constants from `index` on. -/
def constantEntries : Nat → List Value → Except EncodeError (List Bytes)
  | _, [] => .ok []
  | index, v :: vs => do
    let entry ← sizedEntry (← constantBytes index v)
    return entry :: (← constantEntries (index + 1) vs)

/-- Diagnostics from `offset` on, those that are set. -/
def diagnosticEntries : Nat → List (Option Diagnostic) → Except EncodeError (List Bytes)
  | _, [] => .ok []
  | offset, none :: rest => diagnosticEntries (offset + 1) rest
  | offset, some d :: rest => do
    let start ← sizeBytes offset
    let entry ← sizedEntry (start ++ [if d.isArgument then 1 else 0] ++ textBytes d.name)
    return entry :: (← diagnosticEntries (offset + 1) rest)

def platformEntry (platform : PlatformValue) : Except EncodeError Bytes :=
  sizedEntry (textBytes platform.name)

def functionEntry (function : FunctionEntry) : Except EncodeError Bytes := do
  sizedEntry ((← sizeBytes function.offset) ++ textBytes function.name)

/-- The offsets of sections that follow each other from `start` on. -/
def sectionOffsets : Nat → List Bytes → Except EncodeError Bytes
  | _, [] => .ok []
  | start, bytes :: rest =>
    return (← sizeBytes start) ++ (← sectionOffsets (start + bytes.length) rest)

/-! ## Reading -/

/-- **A reader** goes through the bytes of the whole file from a position on. -/
abbrev Reader (α : Type) := ReaderT Bytes (StateT Nat (Except DecodeError)) α

namespace Reader

def position : Reader Nat := get

def fail {α : Type} (e : DecodeError) : Reader α := throw e

/-- The next `count` bytes. -/
def take (count : Nat) : Reader Bytes := do
  let bytes ← read
  let start ← get
  if start + count ≤ bytes.length then
    set (start + count)
    return (bytes.drop start).take count
  else fail (.truncated start)

def byte : Reader UInt8 := return (← take 1).headD 0

/-- The number that bytes stand for, least significant first. -/
def littleEndian : Bytes → Nat
  | [] => 0
  | b :: bs => b.toNat + 256 * littleEndian bs

def word : Reader Word := return (littleEndian (← take 4)).toUInt32

def size : Reader Nat := return (← word).toNat

def number : Reader Number := return ⟨(littleEndian (← take 8)).toUInt64⟩

/-- A text of `count` bytes. -/
def text (count : Nat) : Reader String := do
  let start ← position
  let bytes ← take count
  match String.fromUTF8? (ByteArray.mk bytes.toArray) with
  | some s => return s
  | none => fail (.invalidUtf8 start)

/-- A text after its length. -/
def sizedText : Reader String := do text (← size)

/-- `count` items, each read with its place among them, counted from `index` on. -/
def items {α : Type} (reader : Nat → Reader α) (index : Nat) : Nat → Reader (List α)
  | 0 => return []
  | count + 1 => do
    let first ← reader index
    return first :: (← items reader (index + 1) count)

/-- A constant whose arrays and objects nest less than `depth` deep. -/
def constant : Nat → Reader Value
  | 0 => do fail (.truncated (← position))
  | depth + 1 => do
    let start ← position
    match (← byte) with
    | 0 => return .null
    | 1 => return .boolean false
    | 2 => return .boolean true
    | 3 => return .number (← number)
    | 4 => return .string (← sizedText)
    | 5 => return .array (← items (fun _ => constant depth) 0 (← size))
    | 6 =>
      let property : Reader (String × Value) := do
        let key ← sizedText
        return (key, ← constant depth)
      return .object (Entries.ofPairs (← items (fun _ => property) 0 (← size)))
    | tag => fail (.unknownConstantTag tag start)

/-- An entry, which must take exactly the length it states. -/
def entry {α : Type} (name : String) (reader : Nat → Reader α) : Reader α := do
  let length ← size
  let start ← position
  let item ← reader length
  if (← position) = start + length then return item else fail (.malformedSection name start)

/-- The entries of the section at an offset. The reader of an entry is given its place in the
section and its length. -/
def entries {α : Type} (name : String) (offset : Nat) (reader : Nat → Nat → Reader α) :
    Reader (List α) := do
  set offset
  items (fun index => entry name (reader index)) 0 (← size)

/-- The code, at its offset. -/
def code (offset : Nat) : Reader (List Word) := do
  set offset
  items (fun _ => word) 0 (← size)

/-- A value of the host. The resolver is given its place in the table and its name. -/
def platform (resolve : Nat → String → Option Value) (index length : Nat) :
    Reader PlatformValue := do
  let name ← text length
  match resolve index name with
  | some value => return ⟨name, value⟩
  | none => fail (.unknownPlatformValue name)

/-- A diagnostic, with the offset it belongs to and where its entry starts. -/
def diagnostic (length : Nat) : Reader (Nat × Nat × Diagnostic) := do
  let start ← position
  let offset ← size
  let flags ← byte
  if length < 5 then fail (.malformedSection "diagnostic" start)
  let name ← text (length - 5)
  return (offset, start, ⟨name, flags % 2 = 1⟩)

def function (length : Nat) : Reader FunctionEntry := do
  let start ← position
  let offset ← size
  if length < 4 then fail (.malformedSection "function" start)
  return ⟨← text (length - 4), offset⟩

/-- Put diagnostics beside the words they belong to. -/
def placeDiagnostics : Array (Option Diagnostic) → List (Nat × Nat × Diagnostic) →
    Reader (Array (Option Diagnostic))
  | table, [] => return table
  | table, (offset, start, d) :: rest =>
    if offset < table.size then placeDiagnostics (table.setIfInBounds offset (some d)) rest
    else fail (.malformedSection "diagnostic" start)

/-- A program, from its version on. Every nesting of a constant takes a byte, so no constant nests
deeper than the file is long. -/
def program (resolve : Nat → String → Option Value) : Reader Program := do
  let stated ← word
  if stated ≠ version then fail (.unsupportedVersion stated)
  let codeAt ← size
  let constantsAt ← size
  let platformAt ← size
  let diagnosticsAt ← size
  let functionsAt ← size
  let depth := (← read).length + 1
  let code ← code codeAt
  let constants ← entries "constant" constantsAt fun _ _ => constant depth
  let platform ← entries "platform value" platformAt (platform resolve)
  let records ← entries "diagnostic" diagnosticsAt fun _ => diagnostic
  let diagnostics ← placeDiagnostics (Array.replicate code.length none) records
  let functions ← entries "function" functionsAt fun _ => function
  return {
    code := code.toArray
    diagnostics := diagnostics
    constants := constants.toArray
    platform := platform.toArray
    functions := functions.toArray }

end Reader

end Container

namespace Program

open Container

/-- **The bytes of a program.** -/
def encode (p : Program) : Except EncodeError Bytes := do
  let code ← sectionBytes (p.code.toList.map wordBytes)
  let constants ← sectionBytes (← constantEntries 0 p.constants.toList)
  let platform ← sectionBytes (← p.platform.toList.mapM platformEntry)
  let diagnostics ← sectionBytes (← diagnosticEntries 0 p.diagnostics.toList)
  let functions ← sectionBytes (← p.functions.toList.mapM functionEntry)
  let sections := [code, constants, platform, diagnostics, functions]
  return magic ++ wordBytes version ++ (← sectionOffsets headerLength sections) ++ sections.flatten

/-- **The program that bytes hold**, validated. The resolver turns names into values of the host; it
is given each name's place in the table as well, so that it can make every entry a value of its
own. -/
def decode (resolve : Nat → String → Option Value) (bytes : Bytes) :
    Except DecodeError Program := do
  if bytes.length < headerLength then throw (.truncated bytes.length)
  if bytes.take 4 ≠ magic then throw .badMagic
  let p ← ((Reader.program resolve).run bytes).run' 4
  p.validate
  return p

end Program

end TreeCode
