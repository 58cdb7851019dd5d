import TreeCode.Value

/-!
# Schemas

A schema is a value that describes values. `Schema.ofValue` reads any value as a schema: what is not
one becomes `invalid`, and is reported only when matching gets there.

* a string names a type: a kind of value, `any`, or `sequence`;
* `either` lists alternatives, and `oneOf` lists literal values;
* `bind` with `as` binds the matched value to a name;
* `default` with `of` stands for the schema under `of`, and in a shape gives the value of an absent
  entry;
* `type` names a type and may be followed by `elements`, `shape`, `keys`, `values` and `where`.

A shape is an array for tuples or an object for records. One entry of it may be `rest`, which
describes what the other entries leave over and may bind it under `as`.

The first of the keys `either`, `oneOf`, `bind`, `default` and `type` that is present decides.
-/

namespace TreeCode

/-- **A test on the kind of a value.** -/
inductive TypeTest where
  | any
  | sequence
  | exactly (kind : Kind)
deriving DecidableEq

namespace TypeTest

def name : TypeTest → String
  | .any => "any"
  | .sequence => "sequence"
  | .exactly kind => kind.name

def ofName? (name : String) : Option TypeTest :=
  if name = "any" then some .any
  else if name = "sequence" then some .sequence
  else (Kind.ofName? name).map .exactly

def accepts (test : TypeTest) (value : Value) : Bool :=
  match test with
  | .any => true
  | .sequence => value.isSequence
  | .exactly kind => value.kind == kind

end TypeTest

mutual
/-- **A schema.** -/
inductive Schema where
  | type (test : TypeTest)
  | either (branches : List Schema)
  | oneOf (options : List Value)
  | bind (inner : Schema) (name : String)
  /-- A type, and conditions on what is inside the value. `source` is the schema as a value. -/
  | typed (source : Value) (test : TypeTest) (elements : Option Schema) (shape : Shape)
      (keys : Option Schema) (values : Option Schema) (condition : Option Value)
  /-- Not a schema. The names that it mentions all the same are kept. -/
  | invalid (source : Value) (mentioned : List String)
/-- The shape of an array or object. -/
inductive Shape where
  | absent
  | tuple (entries : List ShapeEntry)
  | record (entries : List (String × ShapeEntry))
  | malformed
/-- An entry of a shape. -/
inductive ShapeEntry where
  | required (schema : Schema)
  /-- An entry that may be absent, and its value then. -/
  | optional (schema : Schema) (default : Value)
  /-- What the other entries leave over, and the name that it is bound to. -/
  | rest (schema : Schema) (name : Option String)
end

namespace Schema

/-! ## Names -/

mutual
/-- The names a schema mentions, from left to right. -/
def mentioned : Schema → List String
  | .type _ => []
  | .either branches => mentionedInAll branches
  | .oneOf _ => []
  | .bind inner name => inner.mentioned ++ [name]
  | .typed _ _ _ shape _ _ _ => mentionedInShape shape
  | .invalid _ names => names
def mentionedInAll : List Schema → List String
  | [] => []
  | s :: rest => s.mentioned ++ mentionedInAll rest
def mentionedInShape : Shape → List String
  | .absent | .malformed => []
  | .tuple entries => mentionedInTuple entries
  | .record entries => mentionedInRecord entries
def mentionedInTuple : List ShapeEntry → List String
  | [] => []
  | e :: rest => mentionedInEntry e ++ mentionedInTuple rest
def mentionedInRecord : List (String × ShapeEntry) → List String
  | [] => []
  | (_, e) :: rest => mentionedInEntry e ++ mentionedInRecord rest
def mentionedInEntry : ShapeEntry → List String
  | .required s => s.mentioned
  | .optional s _ => s.mentioned
  | .rest _ name => name.toList
end

/-- **The names that matching binds**, each once, in order of first mention. Names inside
`elements`, `keys`, `values` and rest schemas are not bound. -/
def names (s : Schema) : List String := s.mentioned.eraseDups

/-! ## Reading -/

mutual
/-- **Read a value as a schema.** -/
def ofValue (value : Value) : Schema :=
  match value with
  | .string name =>
    match TypeTest.ofName? name with
    | some test => .type test
    | none => .invalid value []
  | .object fields =>
    match h : Entries.get? fields "either" with
    | some (.array branches) =>
      have : sizeOf branches < sizeOf fields := by
        have := Entries.sizeOf_get?_lt h; simp at this; omega
      .either (ofList branches)
    | some _ => .invalid value (looseNames fields)
    | none =>
    match Entries.get? fields "oneOf" with
    | some (.array options) => .oneOf options
    | some _ => .invalid value []
    | none =>
    match h : Entries.get? fields "bind" with
    | some inner =>
      have := Entries.sizeOf_get?_lt h
      match Entries.get? fields "as" with
      | some (.string name) => .bind (ofValue inner) name
      | _ => .invalid value (looseNames fields)
    | none =>
    if Entries.contains fields "default" then
      match h : Entries.get? fields "of" with
      | some inner =>
        have := Entries.sizeOf_get?_lt h
        ofValue inner
      | none => .invalid value []
    else
    match Entries.get? fields "type" with
    | some (.string name) =>
      match TypeTest.ofName? name with
      | some test =>
        .typed value test (field fields "elements") (shapeOf fields) (field fields "keys")
          (field fields "values") (Entries.get? fields "where")
      | none => .invalid value (looseNames fields)
    | _ => .invalid value (looseNames fields)
  | _ => .invalid value []
termination_by (sizeOf value, 0)

def ofList (list : List Value) : List Schema :=
  match list with
  | [] => []
  | v :: vs => ofValue v :: ofList vs
termination_by (sizeOf list, 0)

/-- The schema under a key, if the key is present. -/
def field (fields : Entries Value) (key : String) : Option Schema :=
  match h : Entries.get? fields key with
  | some inner =>
    have := Entries.sizeOf_get?_lt h
    some (ofValue inner)
  | none => none
termination_by (sizeOf fields, 1)

def shapeOf (fields : Entries Value) : Shape :=
  match h : Entries.get? fields "shape" with
  | some (.array list) =>
    have : sizeOf list < sizeOf fields := by
      have := Entries.sizeOf_get?_lt h; simp at this; omega
    .tuple (tupleOf list)
  | some (.object entries) =>
    have : sizeOf entries < sizeOf fields := by
      have := Entries.sizeOf_get?_lt h; simp at this; omega
    .record (recordOf entries)
  | some _ => .malformed
  | none => .absent
termination_by (sizeOf fields, 1)

def tupleOf (list : List Value) : List ShapeEntry :=
  match list with
  | [] => []
  | v :: vs => entryOf v :: tupleOf vs
termination_by (sizeOf list, 0)

def recordOf (entries : List (String × Value)) : List (String × ShapeEntry) :=
  match entries with
  | [] => []
  | (key, v) :: rest => (key, entryOf v) :: recordOf rest
termination_by (sizeOf entries, 0)

/-- Read an entry of a shape. -/
def entryOf (value : Value) : ShapeEntry :=
  match h : value.get? "rest" with
  | some inner =>
    have := Value.sizeOf_get?_lt h
    .rest (ofValue inner) ((value.get? "as").bind Value.asString?)
  | none =>
  match value.get? "default", h : value.get? "of" with
  | some default, some inner =>
    have := Value.sizeOf_get?_lt h
    .optional (ofValue inner) default
  | _, _ => .required (ofValue value)
termination_by (sizeOf value, 1)

/-- The names that an object mentions although it is no schema: those under the first of `oneOf`,
`bind` and `default` that is present, and otherwise those of its shape. -/
def looseNames (fields : Entries Value) : List String :=
  if Entries.contains fields "oneOf" then []
  else if Entries.contains fields "bind" then
    (match field fields "bind" with
      | some inner => inner.mentioned
      | none => []) ++
    (match Entries.get? fields "as" with
      | some (.string name) => [name]
      | _ => [])
  else if Entries.contains fields "default" then
    match field fields "of" with
    | some inner => inner.mentioned
    | none => []
  else mentionedInShape (shapeOf fields)
termination_by (sizeOf fields, 2)
end

end Schema

end TreeCode
