import TreeCode.Params
import TreeCode.Stream

/-!
# Host functions of the standard library

Arithmetic, comparison, tests of kind, sequences and streams, errors and schemas. Each function has
its parameters and a body on the bound arguments. A body checks what it uses once more, so that it
is right on any bindings.
-/

namespace TreeCode.Builtin

/-! ## Arguments -/

/-- The argument bound to a name. -/
def arg (b : Entries Value) (name : String) : Job Value :=
  match Entries.get? b name with
  | some value => return value
  | none => .fail (Mismatch.missingArgument name)

def asNumber (value : Value) : Job Number :=
  match value with
  | .number n => return n
  | _ => .fail (Mismatch.notOfType value "number")

def asBoolean (value : Value) : Job Bool :=
  match value with
  | .boolean b => return b
  | _ => .fail (Mismatch.notOfType value "boolean")

def asString (value : Value) : Job String :=
  match value with
  | .string s => return s
  | _ => .fail (Mismatch.notOfType value "string")

def asArray (value : Value) : Job (List Value) :=
  match value with
  | .array es => return es
  | _ => .fail (Mismatch.notOfType value "array")

def asObject (value : Value) : Job (Entries Value) :=
  match value with
  | .object es => return es
  | _ => .fail (Mismatch.notOfType value "object")

def number (b : Entries Value) (name : String) : Job Number := do asNumber (← arg b name)

/-- The numbers of an array. -/
def numbers (b : Entries Value) (name : String) : Job (List Number) := do
  (← asArray (← arg b name)).mapM asNumber

/-! ## Parameters -/

/-- A required parameter of a named type. -/
def param (name type : String) : Param := { name, schema := .string type }

/-- A parameter with a default. -/
def optional (name type : String) (default : Value) : Param :=
  { name, schema := .string type, default := some default }

/-- A function of required positional parameters. -/
def native (params : List Param) (body : Entries Value → Job Value) : Native :=
  { params := { positional := params }, body }

/-! ## Arithmetic and comparison -/

def plus : Native where
  params := { rest := some (param "numbers" "number") }
  body b := do return .number ((← numbers b "numbers").foldl Number.add 0)

def minus : Native := native [param "a" "number", param "b" "number"] fun b => do
  let x ← number b "a"
  return .number (x.subtract (← number b "b"))

def times : Native where
  params := { rest := some (param "numbers" "number") }
  body b := do return .number ((← numbers b "numbers").foldl Number.multiply 1)

def dividedBy : Native := native [param "dividend" "number", param "divisor" "number"] fun b => do
  let dividend ← number b "dividend"
  let divisor ← number b "divisor"
  if divisor.isZero then .fail (.of "divisionByZero" [("dividend", .number dividend)])
  else return .number (dividend.divide divisor)

def negative : Native := native [param "x" "number"] fun b => do
  return .number (← number b "x").negate

def equals : Native := native [param "a" "any", param "b" "any"] fun b => do
  let x ← arg b "a"
  return .boolean (x.equals (← arg b "b"))

/-- Numbers and strings can be compared, each with its like. -/
def comparable : Value := .object [("either", .array [.string "number", .string "string"])]

def isLessThan : Native :=
  native [{ name := "a", schema := comparable }, { name := "b", schema := comparable }] fun b => do
    let x ← arg b "a"
    let y ← arg b "b"
    match x, y with
    | .number m, .number n => return .boolean (m.isBelow n)
    | .string s, .string t => return .boolean (s < t)
    | _, _ => .fail (Mismatch.notOfType y x.kind.name)

def not : Native := native [param "x" "boolean"] fun b => do
  return .boolean !(← asBoolean (← arg b "x"))

/-- Calls one of two functions. -/
def ifThenElse : Native where
  params :=
    { positional := [param "condition" "boolean"]
      named := [param "then" "function", param "else" "function"] }
  body b := do
    let branch ← arg b (if ← asBoolean (← arg b "condition") then "then" else "else")
    Job.invoke branch [] []

/-! ## Kinds -/

def typeOf : Native := native [param "value" "any"] fun b => do
  return .string (← arg b "value").kind.name

/-- A test of the value. -/
def test (accepts : Value → Bool) : Native := native [param "value" "any"] fun b => do
  return .boolean (accepts (← arg b "value"))

def isKind (kind : Kind) : Native := test (·.kind == kind)

/-! ## Sequences -/

def length : Native := native [param "sequence" "sequence"] fun b => do
  return .ofNat (← (← arg b "sequence").elements).length

def join : Native where
  params :=
    { positional := [{ name := "strings"
                       schema := .object [("type", .string "array"),
                         ("elements", .string "string")] }]
      named := [optional "on" "string" (.string "")] }
  body b := do
    let strings ← arg b "strings"
    let separator ← asString (← arg b "on")
    return .string (separator.intercalate (← (← asArray strings).mapM asString))

/-- A string is its own text; any other value is shown, with its streams resolved to their ends. -/
def toText : Native := native [param "value" "any"] fun b => do
  match ← arg b "value" with
  | .string s => return .string s
  | value =>
    Job.settle value
    return .string (← Job.text value)

def toArray : Native := native [param "sequence" "sequence"] fun b => do
  return .array (← (← arg b "sequence").elements)

/-- `start`, then `next` of it, then `next` of that, and so on. -/
def build : Native := native [param "start" "any", param "next" "function"] fun b => do
  let start ← arg b "start"
  let next ← arg b "next"
  let tail ← Job.suspend (.successors start next)
  return .stream (← Job.resolved (.cons start tail))

/-- A function applied to each element, after the results in `out`, which are in reverse. -/
def applyToEach (f : Value) (out : List Value) : List Value → Job (List Value)
  | [] => return out.reverse
  | e :: es => do
    let value ← (Job.invoke f [e] []).holding [.array out]
    applyToEach f (value :: out) es

def map : Native := native [param "sequence" "sequence", param "f" "function"] fun b => do
  let f ← arg b "f"
  match ← arg b "sequence" with
  | .stream id => return .stream (← Job.suspend (.mapped id f))
  | other => return .array (← applyToEach f [] (← other.elements))

/-- The elements for which the condition returns true, after those in `out`, which are in
reverse. -/
def keep (condition : Value) (out : List Value) : List Value → Job (List Value)
  | [] => return out.reverse
  | e :: es => do
    if ← asBoolean (← Job.invoke condition [e] []) then keep condition (e :: out) es
    else keep condition out es

def filter : Native := native [param "sequence" "sequence", param "condition" "function"]
    fun b => do
  let condition ← arg b "condition"
  match ← arg b "sequence" with
  | .stream id => return .stream (← Job.suspend (.filtered id condition))
  | other => return .array (← keep condition [] (← other.elements))

def keepFirst : Native := native [param "sequence" "sequence", param "n" "number"] fun b => do
  let count := (← number b "n").toCount
  match ← arg b "sequence" with
  | .stream id => return .array (← Stream.take count id)
  | other => return .array ((← other.elements).take count)

/-! ## Errors and schemas -/

/-- Raises an error. -/
def error : Native where
  params :=
    { positional := [param "kind" "string"]
      named := [optional "details" "object" (.object [])] }
  body b := do
    let kind ← asString (← arg b "kind")
    let details ← asObject (← arg b "details")
    .fail (.of kind details)

def validate : Native := native [param "value" "any", param "schema" "any"] fun b => do
  let value ← arg b "value"
  Schema.validate value (← arg b "schema")
  return value

def accepts : Native := native [param "value" "any", param "schema" "any"] fun b => do
  let value ← arg b "value"
  return .boolean (← Schema.accepts value (← arg b "schema"))

/-! ## The table -/

/-- **Every host function of the standard library**, in order of definition. -/
def natives : List (String × Native) :=
  [("plus", plus),
    ("minus", minus),
    ("times", times),
    ("dividedBy", dividedBy),
    ("negative", negative),
    ("equals", equals),
    ("isLessThan", isLessThan),
    ("not", not),
    ("if", ifThenElse),
    ("typeOf", typeOf),
    ("isNull", isKind .null),
    ("isBoolean", isKind .boolean),
    ("isNumber", isKind .number),
    ("isString", isKind .string),
    ("isArray", isKind .array),
    ("isObject", isKind .object),
    ("isFunction", isKind .function),
    ("isError", isKind .error),
    ("isSequence", test Value.isSequence),
    ("length", length),
    ("join", join),
    ("toString", toText),
    ("toArray", toArray),
    ("build", build),
    ("map", map),
    ("filter", filter),
    ("keepFirst", keepFirst),
    ("error", error),
    ("validate", validate),
    ("matches", accepts)]

end TreeCode.Builtin
