import TreeCode.Machine

/-!
# Recovery from errors

An error goes to the innermost catch that is open in the current dispatch loop. The machine is put
back to the scope of that catch: the scopes inside it are closed, the calls made inside it are left
and named in the error's trace, the operand stack is cut to the scope's base, and the error is put
on top as a value. Without a catch, everything above the floor is left in the same way and the loop
ends with the error.

Once a budget is spent there is no catch.
-/

namespace TreeCode.Machine

/-- The index of the innermost scope, among the first `count` ones and not below the floor, in which
a catch is open. -/
def catchAmong (scopes : Array Scope) (floor : Nat) : Nat → Option (Nat × Scope)
  | 0 => none
  | index + 1 =>
    if index < floor then none
    else
      match scopes[index]? with
      | some s => if s.recovery.isEmpty then catchAmong scopes floor index else some (index, s)
      | none => catchAmong scopes floor index

/-- The innermost open catch. -/
def openCatch (m : Machine) : Option (Nat × Scope) :=
  if m.exhausted then none else catchAmong m.scopes m.floor.scopes m.scopes.size

/-- The innermost of the first `count` calls, as far as they are above the floor and their callees
lie at `base` or above it. -/
def callsAmong (calls : Array Call) (floor base : Nat) : Nat → List Call
  | 0 => []
  | index + 1 =>
    if index < floor then []
    else
      match calls[index]? with
      | some call => if base ≤ call.base then call :: callsAmong calls floor base index else []
      | none => []

/-- The calls above the floor whose callee lies at `base` or above it, innermost first. -/
def callsFrom (m : Machine) (base : Nat) : List Call :=
  callsAmong m.calls m.floor.calls base m.calls.size

/-- The name that a left call adds to a trace. -/
def calleeName (m : Machine) (call : Call) : Option String :=
  (m.slotContent call.base).bind Value.functionName?

/-- Leave the calls from `base` on, and name them in the error's trace. -/
def leaveCalls (m : Machine) (base : Nat) (e : ErrorValue) : Machine × ErrorValue :=
  let left := m.callsFrom base
  ({ m with calls := m.calls.shrink (m.calls.size - left.length) },
    { e with trace := e.trace ++ left.filterMap m.calleeName })

/-- **Route an error to the innermost open catch**, or return it if there is none. -/
def recover (m : Machine) (e : ErrorValue) : Machine × Option ErrorValue :=
  match m.openCatch with
  | some (index, ⟨base, target :: others⟩) =>
    let (m, e) := m.leaveCalls base e
    let m := { m with scopes := (m.scopes.shrink index).push ⟨base, others⟩ }.truncate base
    ({ m with stack := m.stack.push (some e.toValue), pc := target }, none)
  | _ =>
    let (m, e) := m.leaveCalls m.floor.stack e
    let m := { m with scopes := m.scopes.shrink m.floor.scopes }.truncate m.floor.stack
    (m, some e)

end TreeCode.Machine
