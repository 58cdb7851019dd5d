import TreeCode.Expr
import TreeCode.Heap

/-!
# Expression trees from data

Programs arrive as plain values. An expression is an object, and the first of these keys that it has
says what it is:

* `literal`, a value;
* `name`, with the module under `from`;
* `array`, with elements or `spread` of a sequence;
* `object`, with pairs of key and value or `spread` of an object;
* `defining`, with pairs of pattern and expression, and `result`;
* `given`, with `params` and `namedParams`, and `result`;
* `calling`, with `args` and `namedArgs`;
* `indexing`, with `at`;
* `catching`.

A pattern is a string, or an object with `arrayPattern`, `objectPattern`, or `checked` and `schema`.

Reading recurs on values found under a key of the value at hand, so it ends by their size.
-/

namespace TreeCode

/-- **Why a value is no tree**, with the value that is at fault. -/
inductive TreeError where
  | notAnExpression (value : Value)
  | notAPattern (value : Value)

namespace TreeError

def message (h : Heap) : TreeError → String
  | .notAnExpression value => "not an expression: " ++ value.text h
  | .notAPattern value => "not a pattern: " ++ value.text h

end TreeError

namespace Reader

/-- A reference by name; the module, if one is given, is a string too. -/
def nameOf? (node : Entries Value) : Option Expr :=
  match Entries.get? node "name", Entries.get? node "from" with
  | some (.string name), none => some (.name name none)
  | some (.string name), some (.string source) => some (.name name (some source))
  | _, _ => none

mutual
/-- Read an expression. -/
def expr (value : Value) : Except TreeError Expr :=
  match value with
  | .object node =>
    match Entries.get? node "literal" with
    | some literal => .ok (.literal literal)
    | none =>
    if Entries.contains node "name" then
      match nameOf? node with
      | some reference => .ok reference
      | none => .error (.notAnExpression value)
    else
    match h : Entries.get? node "array" with
    | some list =>
      have := Entries.sizeOf_get?_lt h
      .array <$> elements list
    | none =>
    match h : Entries.get? node "object" with
    | some list =>
      have := Entries.sizeOf_get?_lt h
      .object <$> entries list
    | none =>
    match h : Entries.get? node "defining" with
    | some (.array items) => do
      have : sizeOf items < sizeOf node := by
        have := Entries.sizeOf_get?_lt h; simp at this; omega
      let items ← definitions items
      return .defining items (← result node)
    | some _ => .error (.notAnExpression value)
    | none =>
    match h : Entries.get? node "given" with
    | some (.object signature) => do
      have : sizeOf signature < sizeOf node := by
        have := Entries.sizeOf_get?_lt h; simp at this; omega
      let params ← positionalParams signature
      let namedParams ← namedParams signature
      return .given params namedParams (← result node)
    | some _ => .error (.notAnExpression value)
    | none =>
    match h : Entries.get? node "calling" with
    | some callee => do
      have := Entries.sizeOf_get?_lt h
      let args ← positionalArgs node
      let namedArgs ← namedArgs node
      return .calling (← expr callee) args namedArgs
    | none =>
    match h : Entries.get? node "indexing" with
    | some collection =>
      have := Entries.sizeOf_get?_lt h
      match h : Entries.get? node "at" with
      | some key => do
        have := Entries.sizeOf_get?_lt h
        let collection ← expr collection
        return .indexing collection (← expr key)
      | none => .error (.notAnExpression value)
    | none =>
    match h : Entries.get? node "catching" with
    | some inner =>
      have := Entries.sizeOf_get?_lt h
      .catching <$> expr inner
    | none => .error (.notAnExpression value)
  | _ => .error (.notAnExpression value)
termination_by (sizeOf value, 0)

/-- Read the result of a block or function. -/
def result (node : Entries Value) : Except TreeError Expr :=
  match h : Entries.get? node "result" with
  | some value =>
    have := Entries.sizeOf_get?_lt h
    expr value
  | none => .error (.notAnExpression (.object node))
termination_by (sizeOf node, 1)

/-- Read the positional arguments of a call; there may be none. -/
def positionalArgs (node : Entries Value) : Except TreeError (List ArrayElement) :=
  match h : Entries.get? node "args" with
  | some list =>
    have := Entries.sizeOf_get?_lt h
    elements list
  | none => .ok []
termination_by (sizeOf node, 1)

/-- Read the named arguments of a call; there may be none. -/
def namedArgs (node : Entries Value) : Except TreeError (List ObjectElement) :=
  match h : Entries.get? node "namedArgs" with
  | some list =>
    have := Entries.sizeOf_get?_lt h
    entries list
  | none => .ok []
termination_by (sizeOf node, 1)

/-- Read the positional parameters of a function; there may be none. -/
def positionalParams (signature : Entries Value) : Except TreeError (List ArrayPatternElement) :=
  match h : Entries.get? signature "params" with
  | some list =>
    have := Entries.sizeOf_get?_lt h
    arrayPattern list
  | none => .ok []
termination_by (sizeOf signature, 1)

/-- Read the named parameters of a function; there may be none. -/
def namedParams (signature : Entries Value) : Except TreeError (List ObjectPatternElement) :=
  match h : Entries.get? signature "namedParams" with
  | some list =>
    have := Entries.sizeOf_get?_lt h
    objectPattern list
  | none => .ok []
termination_by (sizeOf signature, 1)

/-- Read the elements of an array or argument list. -/
def elements (value : Value) : Except TreeError (List ArrayElement) :=
  match value with
  | .array list => elementList list
  | _ => .error (.notAnExpression value)
termination_by (sizeOf value, 0)

def elementList (list : List Value) : Except TreeError (List ArrayElement) :=
  match list with
  | [] => .ok []
  | value :: rest => do
    let first ← element value
    return first :: (← elementList rest)
termination_by (sizeOf list, 0)

def element (value : Value) : Except TreeError ArrayElement :=
  match h : value.get? "spread" with
  | some sequence =>
    have := Value.sizeOf_get?_lt h
    .spread <$> expr sequence
  | none => .item <$> expr value
termination_by (sizeOf value, 1)

/-- Read the entries of an object or of a list of named arguments. -/
def entries (value : Value) : Except TreeError (List ObjectElement) :=
  match value with
  | .array list => entryList list
  | _ => .error (.notAnExpression value)
termination_by (sizeOf value, 0)

def entryList (list : List Value) : Except TreeError (List ObjectElement) :=
  match list with
  | [] => .ok []
  | value :: rest => do
    let first ← entry value
    return first :: (← entryList rest)
termination_by (sizeOf list, 0)

def entry (value : Value) : Except TreeError ObjectElement :=
  match h : value.get? "spread" with
  | some object =>
    have := Value.sizeOf_get?_lt h
    .spread <$> expr object
  | none =>
    match value with
    | .array [key, content] => do
      let key ← expr key
      return .entry key (← expr content)
    | _ => .error (.notAnExpression value)
termination_by (sizeOf value, 1)

/-- Read the definitions of a block. -/
def definitions (list : List Value) : Except TreeError (List (Pattern × Expr)) :=
  match list with
  | [] => .ok []
  | value :: rest => do
    let first ← definition value
    return first :: (← definitions rest)
termination_by (sizeOf list, 0)

def definition (value : Value) : Except TreeError (Pattern × Expr) :=
  match value with
  | .array [target, content] => do
    let target ← pattern target
    return (target, ← expr content)
  | _ => .error (.notAnExpression value)
termination_by (sizeOf value, 0)

/-- Read a pattern. -/
def pattern (value : Value) : Except TreeError Pattern :=
  match value with
  | .string name => .ok (.name name)
  | .object node =>
    match h : Entries.get? node "arrayPattern" with
    | some list =>
      have := Entries.sizeOf_get?_lt h
      .array <$> arrayPattern list
    | none =>
    match h : Entries.get? node "objectPattern" with
    | some list =>
      have := Entries.sizeOf_get?_lt h
      .object <$> objectPattern list
    | none =>
    match h : Entries.get? node "checked", Entries.get? node "schema" with
    | some inner, some schema => do
      have := Entries.sizeOf_get?_lt h
      return .checked (← pattern inner) schema
    | _, _ => .error (.notAPattern value)
  | _ => .error (.notAPattern value)
termination_by (sizeOf value, 0)

/-- Read the elements of an array pattern or of a parameter list. -/
def arrayPattern (value : Value) : Except TreeError (List ArrayPatternElement) :=
  match value with
  | .array list => arrayPatternList list
  | _ => .error (.notAPattern value)
termination_by (sizeOf value, 0)

def arrayPatternList (list : List Value) : Except TreeError (List ArrayPatternElement) :=
  match list with
  | [] => .ok []
  | value :: rest => do
    let first ← arrayPatternElement value
    return first :: (← arrayPatternList rest)
termination_by (sizeOf list, 0)

def arrayPatternElement (value : Value) : Except TreeError ArrayPatternElement :=
  match h : value.get? "rest" with
  | some target =>
    have := Value.sizeOf_get?_lt h
    .rest <$> pattern target
  | none =>
  match h : value.get? "defaultValue" with
  | some default =>
    have := Value.sizeOf_get?_lt h
    match h : value.get? "name" with
    | some target => do
      have := Value.sizeOf_get?_lt h
      let target ← pattern target
      return .optional target (← expr default)
    | none => .error (.notAPattern value)
  | none => .required <$> pattern value
termination_by (sizeOf value, 1)

/-- Read the entries of an object pattern or of a list of named parameters. -/
def objectPattern (value : Value) : Except TreeError (List ObjectPatternElement) :=
  match value with
  | .array list => objectPatternList list
  | _ => .error (.notAPattern value)
termination_by (sizeOf value, 0)

def objectPatternList (list : List Value) : Except TreeError (List ObjectPatternElement) :=
  match list with
  | [] => .ok []
  | value :: rest => do
    let first ← objectPatternElement value
    return first :: (← objectPatternList rest)
termination_by (sizeOf list, 0)

/-- A bare string is a key that is bound under its own name. -/
def objectPatternElement (value : Value) : Except TreeError ObjectPatternElement :=
  match value with
  | .string key => .ok (.property key (.name key) none)
  | .object node =>
    match h : Entries.get? node "rest" with
    | some target =>
      have := Entries.sizeOf_get?_lt h
      .rest <$> pattern target
    | none =>
    match Entries.get? node "key" with
    | some (.string key) => do
      let target ← propertyTarget node key
      return .property key target (← propertyDefault node)
    | _ => .error (.notAPattern value)
  | _ => .error (.notAPattern value)
termination_by (sizeOf value, 0)

/-- What a property is taken apart into: the pattern under `name`, or else the key as a name. -/
def propertyTarget (node : Entries Value) (key : String) : Except TreeError Pattern :=
  match h : Entries.get? node "name" with
  | some target =>
    have := Entries.sizeOf_get?_lt h
    pattern target
  | none => .ok (.name key)
termination_by (sizeOf node, 1)

def propertyDefault (node : Entries Value) : Except TreeError (Option Expr) :=
  match h : Entries.get? node "defaultValue" with
  | some default =>
    have := Entries.sizeOf_get?_lt h
    some <$> expr default
  | none => .ok none
termination_by (sizeOf node, 1)
end

end Reader

/-- **Read an expression from data.** -/
def Expr.ofValue (value : Value) : Except TreeError Expr := Reader.expr value

/-- **Read a pattern from data.** -/
def Pattern.ofValue (value : Value) : Except TreeError Pattern := Reader.pattern value

end TreeCode
