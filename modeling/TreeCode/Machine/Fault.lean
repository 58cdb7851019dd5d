/-!
# Faults

A machine stops with a fault when the program itself is at odds with it: code that does not decode,
an operand that refers to nothing, a stack that does not hold what an instruction needs. A fault is
no error of the language and cannot be caught. Each one carries the offset of its instruction.
-/

namespace TreeCode

/-- **Why a machine cannot go on.** -/
inductive Fault where
  | stackUnderflow (offset : Nat)
  | invalidOpcode (offset : Nat)
  | missingOperand (offset : Nat)
  | unexpectedEnd (offset : Nat)
  | noScope (offset : Nat)
  | noCall (offset : Nat)
  | notAnArray (offset : Nat)
  | notAnObject (offset : Nat)
  | notAClosure (offset : Nat)
  | constantOutOfRange (offset index : Nat)
  | platformOutOfRange (offset index : Nat)
  | slotOutOfRange (offset index : Nat)
  | upvalueOutOfRange (offset index : Nat)
deriving DecidableEq

namespace Fault

def message : Fault → String
  | .stackUnderflow offset => "stack underflow at instruction " ++ toString offset
  | .invalidOpcode offset => "invalid opcode at instruction " ++ toString offset
  | .missingOperand offset => "missing operand at instruction " ++ toString offset
  | .unexpectedEnd offset => "unexpected end of program at instruction " ++ toString offset
  | .noScope offset => "no scope frame at instruction " ++ toString offset
  | .noCall offset => "no call frame at instruction " ++ toString offset
  | .notAnArray offset => "expected an array on the stack at instruction " ++ toString offset
  | .notAnObject offset => "expected an object on the stack at instruction " ++ toString offset
  | .notAClosure offset => "expected a closure on the stack at instruction " ++ toString offset
  | .constantOutOfRange offset index =>
    "constant " ++ toString index ++ " out of range at instruction " ++ toString offset
  | .platformOutOfRange offset index =>
    "platform value " ++ toString index ++ " out of range at instruction " ++ toString offset
  | .slotOutOfRange offset index =>
    "slot " ++ toString index ++ " out of range at instruction " ++ toString offset
  | .upvalueOutOfRange offset index =>
    "upvalue " ++ toString index ++ " out of range at instruction " ++ toString offset

end Fault

end TreeCode
