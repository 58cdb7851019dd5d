import TreeCode.Job
import TreeCode.Schema.Mismatch

/-!
# Streams

A stream is walked node by node. What a suspended node computes when it is forced is a job: it asks
for the node of its source or calls a function, and gives its node with the rest of the stream
suspended again. A filter that drops an element gives no node yet; it asks to go on with the
suspension of the elements after it, so one step of a search is always finite work.

While it runs, a suspension holds its source and its function. The seed of a series is not among
them: it has been handed over as an argument.
-/

namespace TreeCode

/-- **What one step of a suspension gives**: the node, or the suspension to go on with. -/
inductive Produced where
  | node (node : Node)
  | again (suspension : Suspension)

namespace Suspension

/-- An element followed by a suspended rest. -/
def consLater (head : Value) (rest : Suspension) : Job Produced := do
  return .node (.cons head (← Job.suspend rest))

/-- **One step of a suspension.** -/
def produce : Suspension → Job Produced
  | .successors seed next => Job.holding [next] do
    let value ← Job.invoke next [seed] []
    consLater value (.successors value next)
  | .mapped source function => Job.holding [.stream source, function] do
    match ← Job.node source with
    | .empty => return .node .empty
    | .cons head tail =>
      let value ← Job.invoke function [head] []
      consLater value (.mapped tail function)
  | .filtered source condition => Job.holding [.stream source, condition] do
    match ← Job.node source with
    | .empty => return .node .empty
    | .cons head tail =>
      match ← Job.invoke condition [head] [] with
      | .boolean true => consLater head (.filtered tail condition)
      | .boolean false => return .again (.filtered tail condition)
      | other => .fail (Mismatch.notOfType other "boolean")
  | .listed (value :: values) failure => consLater value (.listed values failure)
  | .listed [] none => return .node .empty
  | .listed [] (some e) => .fail e

end Suspension

namespace Stream

/-- The stream has no element. -/
def isEmpty (stream : StreamId) : Job Bool := do
  match ← Job.node stream with
  | .empty => return true
  | .cons .. => return false

/-- The current element. -/
def value? (stream : StreamId) : Job (Option Value) := do
  match ← Job.node stream with
  | .empty => return none
  | .cons head _ => return some head

/-- The stream after the current element. -/
def next? (stream : StreamId) : Job (Option StreamId) := do
  match ← Job.node stream with
  | .empty => return none
  | .cons _ tail => return some tail

/-- The element at a position counted from zero. -/
def nth? : Nat → StreamId → Job (Option Value)
  | 0, stream => value? stream
  | position + 1, stream => do
    match ← next? stream with
    | some tail => nth? position tail
    | none => return none

/-- The first `count` elements after those in `found`, which are in reverse. -/
def takeAfter (found : List Value) : Nat → StreamId → Job (List Value)
  | 0, _ => return found.reverse
  | count + 1, stream => do
    match ← Job.node stream with
    | .empty => return found.reverse
    | .cons head tail => takeAfter (head :: found) count tail

/-- **The first `count` elements**, or all if there are fewer. No node after them is forced. -/
def take (count : Nat) (stream : StreamId) : Job (List Value) := takeAfter [] count stream

end Stream

/-- **The elements of a sequence.** A stream is resolved to its end. -/
def Value.elements : Value → Job (List Value)
  | .array elements => return elements
  | .string s => return Value.characters s
  | .stream id => Job.elements id
  | other => .fail (Mismatch.notOfType other "sequence")

end TreeCode
