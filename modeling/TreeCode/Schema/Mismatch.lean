import TreeCode.Value

/-!
# Mismatches

The errors that matching a value against a schema raises. A mismatch says what is wrong with the
value; one inside a container names the container, the place, and the mismatch found there as the
reason. `invalidSchema` is no mismatch: it blames the schema.
-/

namespace TreeCode.Mismatch

def wrongType (value expected : Value) : ErrorValue :=
  .of "wrongType" [("value", value), ("expectedType", expected)]

/-- The value is of another type than the one named. -/
def notOfType (value : Value) (expected : String) : ErrorValue := wrongType value (.string expected)

/-- A condition did not return true. -/
def conditionFailed (value condition : Value) : ErrorValue :=
  .of "badValue" [("value", value), ("condition", condition)]

/-- The value is none of the options. -/
def notAnOption (value : Value) (options : List Value) : ErrorValue :=
  .of "badValue" [("value", value), ("options", .array options)]

/-- No alternative matched, and not only because of types. -/
def noAlternative (value : Value) (errors : List ErrorValue) : ErrorValue :=
  .of "badValue" [("value", value), ("errors", .array (errors.map (·.toValue)))]

/-- Positions are counted from one. -/
def missingElement (value : Value) (position : Nat) : ErrorValue :=
  .of "missingElement" [("value", value), ("index", .ofNat position)]

def badElement (value : Value) (position : Nat) (reason : ErrorValue) : ErrorValue :=
  .of "badElement" [("value", value), ("index", .ofNat position), ("reason", reason.toValue)]

def missingProperty (value : Value) (key : String) : ErrorValue :=
  .of "missingProperty" [("value", value), ("key", .string key)]

def badProperty (value : Value) (key : String) (reason : ErrorValue) : ErrorValue :=
  .of "badProperty" [("value", value), ("key", .string key), ("reason", reason.toValue)]

def badKey (value : Value) (key : String) (reason : ErrorValue) : ErrorValue :=
  .of "badKey" [("value", value), ("key", .string key), ("reason", reason.toValue)]

def invalidSchema (schema : Value) : ErrorValue := .of "invalidSchema" [("schema", schema)]

/-! ## Arguments -/

def missingArgument (name : String) : ErrorValue :=
  .of "missingArgument" [("name", .string name)]

def wrongArgumentType (name : String) (value expected : Value) : ErrorValue :=
  .of "wrongArgumentType" [("name", .string name), ("value", value), ("expectedType", expected)]

def badArgumentValue (name : String) (value : Value) (reason : ErrorValue) : ErrorValue :=
  .of "badArgumentValue" [("name", .string name), ("value", value), ("reason", reason.toValue)]

/-- The kinds of error that a value which does not match gives rise to. -/
def kinds : List String :=
  ["wrongType", "badValue", "missingElement", "badElement", "missingProperty", "badProperty",
    "badKey"]

end TreeCode.Mismatch

namespace TreeCode.ErrorValue

/-- The error says that a value does not match. -/
def isMismatch (e : ErrorValue) : Bool := Mismatch.kinds.contains e.kind

/-- **The error restated for the argument `name`**: a wrong type and any other mismatch become
errors about the argument, and other errors stay as they are. -/
def forArgument (name : String) (e : ErrorValue) : ErrorValue :=
  let value := (e.detail? "value").getD .null
  if e.kind = "wrongType" then
    Mismatch.wrongArgumentType name value ((e.detail? "expectedType").getD .null)
  else if e.isMismatch then Mismatch.badArgumentValue name value e
  else e

end TreeCode.ErrorValue
