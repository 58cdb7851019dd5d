import TreeCode.Entries
import TreeCode.Number

/-!
# Values

What a program computes with: plain data (null, booleans, numbers, strings, arrays, objects) and the
three kinds of value that are not data: functions, errors and streams.

A function or a stream is a reference. What it refers to (captured cells, stream nodes) lives in the
heap, and what a native function does is known to the host; so a value is a finite tree and equality
of references is equality of identities.

Equality (`Value.equals`) is numeric on numbers, ignores the order of keys, compares functions and
streams by identity, and ignores the traces of errors.
-/

namespace TreeCode

/-- A captured variable's place in the heap. -/
abbrev CellId := Nat

/-- A stream node's place in the heap. -/
abbrev StreamId := Nat

/-- **A function made by running code**: where its code starts and the cells it captured. Each
evaluation of a function literal makes a closure with an identity of its own. -/
structure Closure where
  id : Nat
  name : String
  target : Nat
  upvalues : List CellId
deriving DecidableEq

/-- **A function of the host.** `code` says which one, and `copy` tells apart separate instances of
the same function, which are different values. -/
structure NativeRef where
  name : String
  code : Nat
  copy : Nat
deriving DecidableEq

/-- **A value of the language.** -/
inductive Value where
  | null
  | boolean (b : Bool)
  | number (n : Number)
  | string (s : String)
  | array (elements : List Value)
  | object (entries : List (String × Value))
  | closure (c : Closure)
  | native (ref : NativeRef)
  | error (kind : String) (details : List (String × Value)) (trace : List String)
  | stream (id : StreamId)
deriving Inhabited

/-- **A raised error**: its kind, its details, and the functions it left on its way, innermost
first. -/
structure ErrorValue where
  kind : String
  details : Entries Value
  trace : List String

namespace ErrorValue

/-- A fresh error, which has left no function yet. -/
def of (kind : String) (details : Entries Value) : ErrorValue := ⟨kind, details, []⟩

/-- The error as a value. -/
def toValue (e : ErrorValue) : Value := .error e.kind e.details e.trace

def detail? (e : ErrorValue) (key : String) : Option Value := Entries.get? e.details key

end ErrorValue

/-! ## Kinds -/

/-- **What sort of value it is**, as the language names it. -/
inductive Kind where
  | null | boolean | number | string | array | object | function | error | stream
deriving DecidableEq

namespace Kind

def all : List Kind :=
  [.null, .boolean, .number, .string, .array, .object, .function, .error, .stream]

def name : Kind → String
  | .null => "null"
  | .boolean => "boolean"
  | .number => "number"
  | .string => "string"
  | .array => "array"
  | .object => "object"
  | .function => "function"
  | .error => "error"
  | .stream => "stream"

def ofName? (name : String) : Option Kind := all.find? (·.name == name)

end Kind

namespace Value

def kind : Value → Kind
  | .null => .null
  | .boolean _ => .boolean
  | .number _ => .number
  | .string _ => .string
  | .array _ => .array
  | .object _ => .object
  | .closure _ => .function
  | .native _ => .function
  | .error .. => .error
  | .stream _ => .stream

/-- Strings, arrays and streams are sequences. -/
def isSequence (v : Value) : Bool :=
  match v.kind with
  | .string | .array | .stream => true
  | _ => false

def asNumber? : Value → Option Number
  | .number n => some n
  | _ => none

def asString? : Value → Option String
  | .string s => some s
  | _ => none

def asObject? : Value → Option (Entries Value)
  | .object es => some es
  | _ => none

def asError? : Value → Option ErrorValue
  | .error kind details trace => some ⟨kind, details, trace⟩
  | _ => none

/-- The name of a function. -/
def functionName? : Value → Option String
  | .closure c => some c.name
  | .native ref => some ref.name
  | _ => none

/-- The property `key` of an object. -/
def get? (v : Value) (key : String) : Option Value :=
  v.asObject?.bind (Entries.get? · key)

/-- A property is smaller than its object. -/
theorem sizeOf_get?_lt {v w : Value} {key : String} (h : v.get? key = some w) :
    sizeOf w < sizeOf v := by
  cases v <;> simp only [get?, asObject?, Option.bind_none, reduceCtorEq, Option.bind_some] at h
  have := Entries.sizeOf_get?_lt h
  simp
  omega

def ofNat (n : Nat) : Value := .number (.ofNat n)

/-- The elements of a string, one per character. -/
def characters (s : String) : List Value := s.toList.map fun c => .string (String.singleton c)

/-! ## Plain data -/

mutual
/-- **Plain data**: no function, error or stream anywhere inside. -/
def isData : Value → Bool
  | .null | .boolean _ | .number _ | .string _ => true
  | .array es => allData es
  | .object es => allEntriesData es
  | .closure _ | .native _ | .error .. | .stream _ => false
/-- Every element is plain data. -/
def allData : List Value → Bool
  | [] => true
  | v :: vs => v.isData && allData vs
/-- Every property is plain data. -/
def allEntriesData : List (String × Value) → Bool
  | [] => true
  | (_, v) :: rest => v.isData && allEntriesData rest
end

/-! ## Equality -/

mutual
/-- **Equality of values.** -/
def equals : Value → Value → Bool
  | .null, .null => true
  | .boolean a, .boolean b => a == b
  | .number a, .number b => a.equals b
  | .string a, .string b => a == b
  | .array xs, .array ys => equalsAll xs ys
  | .object xs, .object ys => xs.length == ys.length && equalsWithin xs ys
  | .closure a, .closure b => a.id == b.id
  | .native a, .native b => a.code == b.code && a.copy == b.copy
  | .error kind details _, .error kind' details' _ =>
    kind == kind' && details.length == details'.length && equalsWithin details details'
  | .stream a, .stream b => a == b
  | _, _ => false
/-- Elements are equal one by one. -/
def equalsAll : List Value → List Value → Bool
  | [], [] => true
  | x :: xs, y :: ys => x.equals y && equalsAll xs ys
  | _, _ => false
/-- Every property has an equal one under the same key. -/
def equalsWithin : List (String × Value) → List (String × Value) → Bool
  | [], _ => true
  | (key, x) :: rest, ys =>
    (match Entries.get? ys key with
      | some y => x.equals y
      | none => false) && equalsWithin rest ys
end

instance : BEq Value := ⟨equals⟩

end Value

namespace ErrorValue

/-- The error that an error names as its reason. -/
def reason? (e : ErrorValue) : Option ErrorValue := (e.detail? "reason").bind Value.asError?

end ErrorValue

end TreeCode
