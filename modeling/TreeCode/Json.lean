import TreeCode.Json.Token
import TreeCode.Value

/-!
# JSON documents

A document is read from its tokens one by one. What has been read so far is a stack of the arrays
and objects that are open, and what may come next. The stack is as deep as the document is nested,
and nesting is limited.

The keys of an object keep their order; a key that comes again takes the new value in its old
place.
-/

namespace TreeCode.Json

/-- **An open array or object**, up to the value that is being read in it. -/
inductive Open where
  /-- The elements so far, in reverse. -/
  | array (done : List Value)
  /-- The entries so far, and the key of the value. -/
  | object (done : Entries Value) (key : String)

/-- **What has been read, and what may come next.** -/
inductive State where
  /-- A value. -/
  | value (outer : List Open)
  /-- The first element of an array, or its end. -/
  | firstElement (outer : List Open)
  /-- The first key of an object, or its end. -/
  | firstKey (outer : List Open)
  /-- The next key of an object. -/
  | nextKey (outer : List Open) (done : Entries Value)
  /-- The colon after a key. -/
  | colon (outer : List Open) (done : Entries Value) (key : String)
  /-- What follows a value that is complete. -/
  | after (outer : List Open) (value : Value)

/-- The state after the first token of a value. An array or object that would be nested `limit` deep
is refused. -/
def beginValue (limit : Nat) (outer : List Open) : Token → Option State
  | .text s => some (.after outer (.string s))
  | .number n => some (.after outer (.number n))
  | .boolean b => some (.after outer (.boolean b))
  | .null => some (.after outer .null)
  | .openArray => if outer.length + 1 < limit then some (.firstElement outer) else none
  | .openObject => if outer.length + 1 < limit then some (.firstKey outer) else none
  | _ => none

/-- The state after one more token. -/
def step (limit : Nat) : State → Token → Option State
  | .value outer, t => beginValue limit outer t
  | .firstElement outer, .closeArray => some (.after outer (.array []))
  | .firstElement outer, t => beginValue limit (.array [] :: outer) t
  | .firstKey outer, .closeObject => some (.after outer (.object []))
  | .firstKey outer, .text key => some (.colon outer [] key)
  | .nextKey outer done, .text key => some (.colon outer done key)
  | .colon outer done key, .colon => some (.value (.object done key :: outer))
  | .after (.array done :: outer) v, .comma => some (.value (.array (v :: done) :: outer))
  | .after (.array done :: outer) v, .closeArray => some (.after outer (.array (v :: done).reverse))
  | .after (.object done key :: outer) v, .comma =>
    some (.nextKey outer (Entries.insert done key v))
  | .after (.object done key :: outer) v, .closeObject =>
    some (.after outer (.object (Entries.insert done key v)))
  | _, _ => none

/-- **The value of a document** whose arrays and objects are nested less than `limit` deep. -/
def read? (limit : Nat) (text : String) : Option Value := do
  match ← (← tokens? text).foldlM (step limit) (.value []) with
  | .after [] v => some v
  | _ => none

/-- How deep documents may not be nested. -/
def nestingLimit : Nat := 128

/-- **The value of a document.** -/
def parse? (text : String) : Option Value := read? nestingLimit text

end TreeCode.Json
