import TreeCode.Heap

/-!
# What the heap retains

A place of the heap, a captured variable or a stream node, is retained while something refers to it:
a value outside the heap, or what another retained place holds. A place that nothing refers to is
released; what it held is then referred to once less, and may be released in its turn. Places that
refer to one another in a ring keep each other, even if nothing outside can reach them.

So the retained places are not those that can be reached. They are the largest set in which each
place is referred to from outside or from the set, and `Heap.retained` finds it by counting.
-/

namespace TreeCode

/-- **A place of the heap.** -/
inductive Place where
  | cell (id : CellId)
  | stream (id : StreamId)
deriving DecidableEq

/-- **What a value refers to.** -/
inductive Reference where
  | closure (id : Nat)
  | place (place : Place)
deriving DecidableEq

namespace Reference

def place? : Reference → Option Place
  | .closure _ => none
  | .place p => some p

end Reference

namespace Value

mutual
/-- The references of a value, added to those already found. A closure refers to what it
captured. -/
def addReferences (found : List Reference) : Value → List Reference
  | .array elements => addReferencesOfAll found elements
  | .object entries => addReferencesOfEntries found entries
  | .closure c =>
    .closure c.id :: c.upvalues.foldl (fun found cell => .place (.cell cell) :: found) found
  | .error _ details _ => addReferencesOfEntries found details
  | .stream id => .place (.stream id) :: found
  | .null | .boolean _ | .number _ | .string _ | .native _ => found
def addReferencesOfAll (found : List Reference) : List Value → List Reference
  | [] => found
  | v :: vs => addReferencesOfAll (addReferences found v) vs
def addReferencesOfEntries (found : List Reference) : List (String × Value) → List Reference
  | [] => found
  | (_, v) :: vs => addReferencesOfEntries (addReferences found v) vs
end

/-- **The references of a value**, in no particular order. -/
def references (v : Value) : List Reference := v.addReferences []

/-- The references of some values. -/
def referencesOfAll (vs : List Value) : List Reference := addReferencesOfAll [] vs

end Value

namespace Suspension

/-- The references of a suspension. -/
def references : Suspension → List Reference
  | .successors seed next => Value.referencesOfAll [seed, next]
  | .mapped source function => Value.referencesOfAll [.stream source, function]
  | .filtered source condition => Value.referencesOfAll [.stream source, condition]
  | .listed values failure => Value.referencesOfAll (values ++ (failure.map (·.toValue)).toList)

end Suspension

namespace Heap

/-- **What a place holds.** A variable still on the stack is held there, and a node being forced
holds nothing. -/
def contents (h : Heap) : Place → List Reference
  | .cell id =>
    match h.cell id with
    | .closed (some value) => value.references
    | .closed none | .onStack _ => []
  | .stream id =>
    match h.streamCell id with
    | .pending suspension => suspension.references
    | .failed e => e.toValue.references
    | .resolved (.cons head tail) => Value.referencesOfAll [head, .stream tail]
    | .resolved .empty | .forcing => []

/-- All places, in the order in which they are numbered. -/
def places (h : Heap) : List Place :=
  (List.range h.cells.size).map .cell ++ (List.range h.streams.size).map .stream

/-- The number of a place. -/
def numberOf (h : Heap) : Place → Nat
  | .cell id => id
  | .stream id => h.cells.size + id

/-- How often places are referred to, by their numbers. -/
abbrev Counts := Array Nat

/-- Add references to the counts. -/
def count (h : Heap) (counts : Counts) (references : List Reference) : Counts :=
  references.foldl
    (fun counts r =>
      (r.place?.map fun p => counts.modify (h.numberOf p) (· + 1)).getD counts) counts

/-- Take one reference to a place off the counts. If it was the last, the place is to be
released. -/
def uncount (h : Heap) (p : Place) (pending : List Place) (counts : Counts) :
    List Place × Counts :=
  let number := h.numberOf p
  let pending := if counts[number]? = some 1 then p :: pending else pending
  (pending, counts.modify number (· - 1))

/-- Release the pending places and, with so many at most, all that follow. -/
def release (h : Heap) : Nat → List Place → Counts → Counts
  | 0, _, counts => counts
  | _ + 1, [], counts => counts
  | most + 1, p :: pending, counts =>
    let (pending, counts) := (h.contents p).foldl
      (fun (pending, counts) r =>
        match r.place? with
        | some q => h.uncount q pending counts
        | none => (pending, counts))
      (pending, counts)
    release h most pending counts

/-- **The places retained** by the references from outside the heap and by each other. -/
def retained (h : Heap) (outside : List Reference) : List Place :=
  let places := h.places
  let counts := places.foldl (fun counts p => h.count counts (h.contents p))
    (h.count (Array.replicate places.length 0) outside)
  let unused := places.filter fun p => counts[h.numberOf p]? = some 0
  let counts := h.release places.length unused counts
  places.filter fun p => counts[h.numberOf p]? ≠ some 0

end Heap

end TreeCode
