import TreeCode.Machine.Step

/-!
# Running programs

Dispatch loops, the host's calls and the streams run in one another: a loop performs a job for an
instruction, a job calls a function, and the call of a closure is a loop again. A program may run
for ever, so all of them take fuel, and `none` says that the fuel did not suffice. More fuel never
changes an answer.

`Machine.run` runs a program from its start, `Machine.invoke` calls a function that an earlier run
returned, and `Machine.work` does a job of the host. A machine may be used for one after another of
them, and a new machine may take over the heap of an old one.
-/

namespace TreeCode

/-- What the host gets for a request, with the machine afterwards; nothing if fuel ran out. -/
abbrev Answer (α : Type) := Option (Except ErrorValue α × Machine)

/-- **What the machine performs a job for**: a call of a host function, a node of a stream, or an
instruction to complete. -/
inductive Purpose where
  | call
  | produce
  | resume

/-- What a job for the purpose gives. -/
abbrev Purpose.Result : Purpose → Type
  | .call => Value
  | .produce => Produced
  | .resume => Exec Unit

namespace Machine

/-- **Where a loop was** when a nested one began. -/
structure Suspended where
  depth : Nat
  floor : Floor
  pc : Nat
  origin : Nat

/-- Where the current loop is. -/
def suspended (m : Machine) : Suspended :=
  { depth := m.depth, floor := m.floor, pc := m.pc, origin := m.origin }

/-- The heights of the stacks. -/
def heights (m : Machine) : Floor :=
  { scopes := m.scopes.size, calls := m.calls.size, stack := m.stack.size }

/-- The machine at the beginning of a nested loop: the callee and its arguments are a scope and a
call above a new floor. -/
def opened (m : Machine) (target : Nat) (callee : Value) (args : List Value)
    (named : Entries Value) : Machine :=
  let floor := m.heights
  let base := floor.stack
  { m with
    depth := m.depth + 1
    floor
    stack := m.stack ++ #[some callee, some (.array args), some (.object named)]
    scopes := m.scopes.push { base }
    calls := m.calls.push { base, returnTo := none }
    pc := target
    fresh := none }

/-- The machine at the end of a nested loop, put back to the loop outside. -/
def closed (m : Machine) (outer : Suspended) : Machine :=
  let m := { m with
    calls := m.calls.shrink m.floor.calls
    scopes := m.scopes.shrink m.floor.scopes }.truncate m.floor.stack
  { m with
    depth := outer.depth
    floor := outer.floor
    pc := outer.pc
    origin := outer.origin
    fresh := none }

/-- The error of a loop inside too many others. -/
def tooDeep (limit : Nat) : ErrorValue :=
  .of "callDepthExceeded" [("callDepthLimit", .ofNat limit)]

/-- How a fault of a nested loop appears to the host function that called. -/
def hostFault (fault : Fault) : ErrorValue := .of "hostFault" [("message", .string fault.message)]

/-- What the host gets for a nested loop. A fault is kept for the instruction outside. -/
def answerOf : Except Trap Value × Machine → Except ErrorValue Value × Machine
  | (.ok value, m) => (.ok value, m)
  | (.error (.raised e), m) => (.error e, m)
  | (.error (.fault fault), m) => (.error (hostFault fault), { m with fault := some fault })

/-- Put a stream node into a state. -/
def setStream (m : Machine) (id : StreamId) (cell : StreamCell) : Machine :=
  { m with heap := m.heap.setStream id cell }

/-- The machine whose host holds some values. -/
def holding (m : Machine) (held : List Value) : Machine := { m with held }

mutual
/-- **Drive a dispatch loop to its end.** -/
def drive (setting : Setting) : Nat → Progress → Option (Except Trap Value × Machine)
  | 0, _ => none
  | _ + 1, .finished result m => some (result, m)
  | fuel + 1, .running m => drive setting fuel (m.advance setting)
  | fuel + 1, .waiting job m =>
    match perform setting fuel .resume job m with
    | none => none
    | some (answer, m) => drive setting fuel (.resume m answer)
termination_by structural fuel => fuel

/-- **Run the function at `target`** in a loop of its own. -/
def enter (setting : Setting) : Nat → Nat → Value → List Value → Entries Value → Machine →
    Option (Except Trap Value × Machine)
  | 0, _, _, _, _, _ => none
  | fuel + 1, target, callee, args, named, m =>
    if setting.limits.depth ≤ m.depth then
      some (.error (.raised (tooDeep setting.limits.depth)), m)
    else
      let outer := m.suspended
      match drive setting fuel (.running (m.opened target callee args named)) with
      | none => none
      | some (result, m) => some (result, m.closed outer)
termination_by structural fuel => fuel

/-- **Call a value.** -/
def apply (setting : Setting) : Nat → Value → List Value → Entries Value → Machine → Answer Value
  | 0, _, _, _, _ => none
  | fuel + 1, .closure c, args, named, m =>
    match enter setting fuel c.target (.closure c) args named m with
    | none => none
    | some ended => some (answerOf ended)
  | fuel + 1, .native ref, args, named, m =>
    match setting.host.native? ref.code with
    | some native => perform setting fuel .call (native.apply args named) m
    | none => some (.error (notCallable (.native ref)), m)
  | _ + 1, other, _, _, m => some (.error (notCallable other), m)
termination_by structural fuel => fuel

/-- **Perform a job**, answering its requests one after another. -/
def perform (setting : Setting) : Nat → (purpose : Purpose) → Job purpose.Result → Machine →
    Answer purpose.Result
  | 0, _, _, _ => none
  | _ + 1, _, .done result, m => some (result, m)
  | fuel + 1, purpose, .ask held request next, m =>
    let outside := m.held
    match respond setting fuel request (m.holding (held ++ outside)) with
    | none => none
    | some (response, m) => perform setting fuel purpose (next response) (m.holding outside)
termination_by structural fuel => fuel

/-- **Answer a request.** -/
def respond (setting : Setting) : Nat → (request : Request) → Machine →
    Option (request.Response × Machine)
  | 0, _, _ => none
  | fuel + 1, .call callee args named, m => apply setting fuel callee args named m
  | fuel + 1, .force stream, m => force setting fuel stream m
  | fuel + 1, .collect stream, m => collect setting fuel stream [] m
  | fuel + 1, .settle value, m => settle setting fuel [value] m
  | _ + 1, .allocate cell, m =>
    let (id, heap) := m.heap.addStream cell
    some (id, { m with heap })
  | _ + 1, .text value, m => some (value.text m.heap, m)
termination_by structural fuel => fuel

/-- **Resolve a stream node**, once. -/
def force (setting : Setting) : Nat → StreamId → Machine → Answer Node
  | 0, _, _ => none
  | fuel + 1, id, m =>
    match m.heap.streamCell id with
    | .resolved node => some (.ok node, m)
    | .failed e => some (.error e, m)
    | .forcing => some (.error (.of "streamForcedRecursively" []), m)
    | .pending suspension => produce setting fuel id suspension (m.setStream id .forcing)
termination_by structural fuel => fuel

/-- Run a suspension until it gives the node of a stream or fails, and keep that. -/
def produce (setting : Setting) : Nat → StreamId → Suspension → Machine → Answer Node
  | 0, _, _, _ => none
  | fuel + 1, id, suspension, m =>
    match perform setting fuel .produce suspension.produce m with
    | none => none
    | some (.ok (.again rest), m) => produce setting fuel id rest m
    | some (.ok (.node node), m) => some (.ok node, m.setStream id (.resolved node))
    | some (.error e, m) => some (.error e, m.setStream id (.failed e))
termination_by structural fuel => fuel

/-- **The elements of a stream**, after those in `found`, which are in reverse. -/
def collect (setting : Setting) : Nat → StreamId → List Value → Machine → Answer (List Value)
  | 0, _, _, _ => none
  | fuel + 1, id, found, m =>
    match force setting fuel id m with
    | none => none
    | some (.ok .empty, m) => some (.ok found.reverse, m)
    | some (.ok (.cons head tail), m) => collect setting fuel tail (head :: found) m
    | some (.error e, m) => some (.error e, m)
termination_by structural fuel => fuel

/-- **Resolve every stream inside some values** to its end. -/
def settle (setting : Setting) : Nat → List Value → Machine → Answer Unit
  | 0, _, _ => none
  | _ + 1, [], m => some (.ok (), m)
  | fuel + 1, .array elements :: rest, m => settle setting fuel (elements ++ rest) m
  | fuel + 1, .object entries :: rest, m => settle setting fuel (Entries.values entries ++ rest) m
  | fuel + 1, .stream id :: rest, m =>
    match collect setting fuel id [] m with
    | none => none
    | some (.ok elements, m) => settle setting fuel (elements ++ rest) m
    | some (.error e, m) => some (.error e, m)
  | fuel + 1, _ :: rest, m => settle setting fuel rest m
termination_by structural fuel => fuel
end

end Machine

/-- **What a run comes to.** -/
inductive Outcome where
  | value (value : Value)
  /-- An error that nothing caught. -/
  | uncaught (error : ErrorValue)
  | fault (fault : Fault)

namespace Outcome

def ofResult : Except Trap Value → Outcome
  | .ok v => .value v
  | .error (.raised e) => .uncaught e
  | .error (.fault f) => .fault f

end Outcome

namespace Machine

/-- More fuel than any run can use up: even one instruction in a nanosecond would take days. -/
def ampleFuel : Nat := 1000000000000000

/-- A new machine over a heap. -/
def start (heap : Heap) : Machine := { heap }

/-- The machine after a run: the stacks are empty, and every captured variable is detached. -/
def cleared (m : Machine) : Machine := { m.truncate 0 with scopes := #[], calls := #[] }

/-- The clock of a run starts. -/
def started (m : Machine) : Machine := { m with startedAt := m.steps }

/-- **Run the program from its start.** -/
def run (setting : Setting) (m : Machine) (fuel : Nat) : Option (Outcome × Machine) := do
  let (result, m) ← enter setting fuel 0 .null [] [] m.started
  return (.ofResult result, m.cleared)

/-- What a call by the host comes to. A fault that a nested loop left behind comes first. -/
def outcomeOfCall (answer : Except ErrorValue Value) (m : Machine) : Outcome :=
  match m.fault, answer with
  | some fault, _ => .fault fault
  | none, .ok value => .value value
  | none, .error e => .uncaught e

/-- **Call a function value.** -/
def invoke (setting : Setting) (callee : Value) (args : List Value) (named : Entries Value)
    (m : Machine) (fuel : Nat) : Option (Outcome × Machine) := do
  let (answer, m) ← apply setting fuel callee args named m.started
  return (outcomeOfCall answer m, { m with fault := none }.cleared)

/-- **Do a job of the host**, whatever it gives. -/
def work {α : Type} (setting : Setting) : Job α → Machine → Nat → Answer α
  | _, _, 0 => none
  | .done result, m, _ + 1 => some (result, m)
  | .ask held request next, m, fuel + 1 =>
    let outside := m.held
    match respond setting fuel request (m.holding (held ++ outside)) with
    | none => none
    | some (response, m) => work setting (next response) (m.holding outside) fuel

end Machine

end TreeCode
