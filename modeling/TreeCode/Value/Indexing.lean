import TreeCode.Stream

/-!
# Indexing

A sequence is indexed by a whole number: from its start with one, two, and so on, or from its end
with minus one, minus two, and so on. An object is indexed by a key. An error has its kind under
`error` and its details under their keys.

A stream is only forced as far as a position from its start needs; a position from its end, or one
beyond its end, resolves all of it.
-/

namespace TreeCode.Value

/-- A key that is a whole number. -/
def position (key : Value) : Except ErrorValue Int :=
  match key.asNumber?.bind Number.toInt? with
  | some n => .ok n
  | none => .error (Mismatch.notOfType key "number")

/-- A key that is a name. -/
def propertyName (key : Value) : Except ErrorValue String :=
  match key with
  | .string name => .ok name
  | _ => .error (Mismatch.notOfType key "string")

def outOfBounds (collection key : Value) (length : Nat) : ErrorValue :=
  .of "indexOutOfBounds" [("value", collection), ("length", .ofNat length), ("index", key)]

/-- The place, counted from zero, that a position denotes in a sequence of a given length. -/
def placeOf (length : Nat) (position : Int) : Option Nat :=
  if 1 ≤ position ∧ position ≤ length then some (position - 1).toNat
  else if position < 0 ∧ 0 ≤ length + position then some (length + position).toNat
  else none

/-- **The element that a key denotes** among the elements of a sequence. -/
def elementAt (collection key : Value) (elements : List Value) : Except ErrorValue Value := do
  let position ← key.position
  match (placeOf elements.length position).bind (elements[·]?) with
  | some value => return value
  | none => .error (outOfBounds collection key elements.length)

/-- The property that a key denotes. -/
def propertyAt (collection key : Value) (lookup : String → Option Value) :
    Except ErrorValue Value := do
  let name ← key.propertyName
  match lookup name with
  | some value => return value
  | none => .error (Mismatch.missingProperty collection name)

/-- What an indexed value may be. -/
def indexable : Value := .object [("either", .array [.string "sequence", .string "object"])]

/-- **The element or property of a collection.** -/
def index (collection key : Value) : Job Value :=
  match collection with
  | .array elements => .ofExcept (elementAt collection key elements)
  | .string s => .ofExcept (elementAt collection key (characters s))
  | .stream id => do
    let position ← Job.ofExcept key.position
    let found ← if 0 < position then Stream.nth? (position - 1).toNat id else pure none
    match found with
    | some value => return value
    | none => .ofExcept (elementAt collection key (← Job.elements id))
  | .object entries => .ofExcept (propertyAt collection key (Entries.get? entries))
  | .error kind details _ =>
    .ofExcept (propertyAt collection key fun name =>
      if name = "error" then some (.string kind) else Entries.get? details name)
  | other => .fail (Mismatch.wrongType other indexable)

end TreeCode.Value
