import TreeCode.Heap.Retention
import TreeCode.Machine

/-!
# Closures under construction

A closure is built by several instructions: one makes it, and one more for each variable lets it
capture the variable. Between them it must not be visible anywhere else, since it would change under
the eyes of its other holders. So a capturing instruction takes the closure on top of the stack only
if nothing else holds it: no other slot of the stack, no value of the host, and no retained place of
the heap.

That is plain for the closure that the latest instruction has just made (`Machine.fresh`). Otherwise
all holders are searched.
-/

namespace TreeCode.Machine

/-- The values outside the heap, without the top of the stack. -/
def valuesBelowTop (m : Machine) : List Value :=
  m.stack.pop.toList.filterMap id ++ m.held

/-- Something other than the top of the stack holds the closure that lies there. -/
def isHeldElsewhere (m : Machine) (c : Closure) : Bool :=
  let below := Value.referencesOfAll m.valuesBelowTop
  let retained := m.heap.retained ((Value.closure c).addReferences below)
  below.contains (.closure c.id) ||
    retained.any fun p => (m.heap.contents p).contains (.closure c.id)

/-- **The closure under construction**, on top of the stack. -/
def unsharedClosure : Exec Closure := do
  match ← top with
  | .closure c =>
    let m ← get
    if m.fresh == some c.id || !m.isHeldElsewhere c then return c else fail .notAClosure
  | _ => fail .notAClosure

/-- Let the closure under construction capture one more variable. -/
def addUpvalue (cell : CellId) : Exec Unit := do
  let c ← unsharedClosure
  replaceTop (.closure { c with upvalues := c.upvalues ++ [cell] })

end TreeCode.Machine
