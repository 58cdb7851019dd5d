import TreeCode.Heap
import TreeCode.Program

/-!
# Listings

A program as text, one instruction a line: its offset, its name and its operands. Constants are
shown by their text and values of the host by their name. What the diagnostics say follows a
semicolon, and each function is introduced by its name. A word that starts no instruction ends the
listing.
-/

namespace TreeCode.Program

/-- A number in decimal, padded with zeros to four digits. -/
def fourDigits (n : Nat) : String :=
  let digits := toString n
  String.ofList (List.replicate (4 - digits.length) '0') ++ digits

/-- A constant's text, or its index if there is none. -/
def constantText (p : Program) (h : Heap) (index : Word) : String :=
  match p.constants[index.toNat]? with
  | some value => value.text h
  | none => "#" ++ toString index.toNat

/-- The texts of an instruction's operands. -/
def operandTexts (p : Program) (h : Heap) : Instruction → List String
  | .value k | .validate k | .objectPop k => [p.constantText h k]
  | .objectPopOrDefault k jump => [p.constantText h k, toString jump.toNat]
  | .platform entry =>
    match p.platform[entry.toNat]? with
    | some platform => [platform.name]
    | none => ["#" ++ toString entry.toNat]
  | i => i.operands.map (toString ·.toNat)

/-- What the diagnostics add to a line. -/
def diagnosticText (p : Program) (offset : Nat) : String :=
  match p.diagnostic? offset with
  | some d => " ; " ++ d.name ++ (if d.isArgument then " (arg)" else "")
  | none => ""

/-- The lines of one instruction. -/
def itemText (p : Program) (h : Heap) :
    Except Instruction.Malformed (Nat × Instruction) → String
  | .error e => "; " ++ (DecodeError.ofMalformed e).message ++ "\n"
  | .ok (offset, i) =>
    let label := match p.functionAt? offset with
      | some entry => entry.name ++ ":\n"
      | none => ""
    let words := fourDigits offset :: i.opcode.mnemonic :: p.operandTexts h i
    label ++ " ".intercalate words ++ p.diagnosticText offset ++ "\n"

/-- **The listing of a program.** -/
def listing (p : Program) (h : Heap) : String :=
  String.join ((Instruction.decodeAll p.code).map (p.itemText h))

end TreeCode.Program
