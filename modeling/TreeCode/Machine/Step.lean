import TreeCode.Machine.Recovery
import TreeCode.Machine.Sharing
import TreeCode.Value.Indexing

/-!
# One step of the machine

A step counts against the budgets, reads the instruction at `pc` and executes it. Executing is not
recursive: an instruction that needs the host (a call of a host function, elements of a stream, a
schema with a condition) ends with a job for it, whose result is the action that completes the
instruction.

`Machine.advance` is the whole step as a function of machines. An error that the instruction raises
has been routed to its catch there, so what is left of a dispatch loop is to go on while the machine
is running.
-/

namespace TreeCode.Machine

/-- **How an instruction ends.** -/
inductive Signal where
  /-- The machine goes on with the next instruction. -/
  | next
  /-- The dispatch loop ends with a value. -/
  | yield (value : Value)
  /-- The host has work to do, and its result completes the instruction. -/
  | await (job : Job (Exec Unit))

/-! ## Budgets -/

/-- Spend the budgets for good. -/
def exhaust (e : ErrorValue) : Exec Unit := do
  modify fun m => { m with exhausted := true }
  raise e

/-- The nominal time since the run began. -/
def elapsed (m : Machine) : Nat := (m.steps - m.startedAt) * Limits.nanosecondsPerStep

/-- **Count one step** and check the budgets. -/
def countStep (limits : Limits) : Exec Unit := do
  modify fun m => { m with steps := m.steps + 1 }
  let m ← get
  if let some limit := limits.steps then
    if limit < m.steps then
      exhaust (.of "stepLimitExceeded" [("stepLimit", .ofNat limit)])
  if let some limit := limits.nanoseconds then
    if limit < m.elapsed then
      exhaust (.of "timeLimitExceeded" [("timeLimitSeconds", .number (Limits.secondsOf limit))])

/-! ## Tables of the program -/

variable (program : Program)

/-- **The instruction at `pc`.** The machine moves on past it. -/
def fetch : Exec Instruction := do
  modify fun m => { m with origin := m.pc }
  let offset := (← get).origin
  match Instruction.decode program.code offset with
  | .ok i =>
    modify fun m => { m with pc := offset + i.width }
    return i
  | .error (.unknownOpcode _) => fail .invalidOpcode
  | .error (.incomplete _) =>
    if program.code.size ≤ offset then fail .unexpectedEnd else fail .missingOperand

/-- What the program says about the current instruction. -/
def diagnostic? : Exec (Option Diagnostic) := do
  return program.diagnostic? (← get).origin

/-- The name of the argument that the current instruction binds. -/
def boundArgument? : Exec (Option String) := do
  return ((← diagnostic? program).filter (·.isArgument)).map (·.name)

def constant (index : Word) : Exec Value := do
  match program.constants[index.toNat]? with
  | some value => return value
  | none => fail (.constantOutOfRange · index.toNat)

/-- A constant that is a key. -/
def propertyKey (index : Word) : Exec String := do
  match ← constant program index with
  | .string key => return key
  | _ => fail (.constantOutOfRange · index.toNat)

def platformValue (index : Word) : Exec Value := do
  match program.platform[index.toNat]? with
  | some entry => return entry.value
  | none => fail (.platformOutOfRange · index.toNat)

/-! ## Variables and scopes -/

/-- Push what a variable holds, which must have been assigned. -/
def pushVariable : Option Value → Exec Unit
  | some value => push value
  | none => do
    let name := ((← diagnostic? program).map (·.name)).getD "<unknown>"
    raise (.of "nameUsedBeforeAssignment" [("name", .string name)])

def writeLocal (depth slot : Word) : Exec Unit := do
  let value ← pop
  let index ← slotIndex depth slot
  modify fun m => { m with stack := m.stack.setIfInBounds index (some value) }

def readLocal (depth slot : Word) : Exec Unit := do
  let index ← slotIndex depth slot
  pushVariable program ((← get).slotContent index)

def reserve (count : Nat) : Exec Unit :=
  modify fun m => { m with stack := m.stack ++ Array.replicate count none }

def pushScope (size : Nat) : Exec Unit := do
  let m ← get
  if m.stack.size - m.floor.stack < size then fail .stackUnderflow
  else set { m with scopes := m.scopes.push { base := m.stack.size - size } }

def popScope : Exec Unit := do
  let result ← pop
  let s ← scope
  modify fun m => { m with scopes := m.scopes.pop }.truncate s.base
  push result

/-! ## Arrays and objects -/

def arrayPush : Exec Unit := do
  let value ← pop
  replaceTop (.array ((← topArray) ++ [value]))

/-- Append elements to the array on top. -/
def appendElements (elements : List Value) : Exec Unit := do
  replaceTop (.array ((← topArray) ++ elements))

def arrayExtend : Exec Signal := do
  let sequence ← pop
  return .await (Job.holding [sequence] do return appendElements (← sequence.elements))

def arrayCut (count : Nat) : Exec Unit := do
  match ← pop with
  | .array elements =>
    push (.array (elements.take count))
    push (.array (elements.drop count))
  | _ => fail .notAnArray

/-- The last element of the array on top, taken off it. -/
def takeLast? : Exec (Option Value) := do
  let elements ← topArray
  replaceTop (.array elements.dropLast)
  return elements.getLast?

/-- What is missing where a value was to be taken: an argument, or else what `other` says. -/
def reportMissing (other : ErrorValue) : Exec Unit := do
  match ← boundArgument? program with
  | some name => raise (Mismatch.missingArgument name)
  | none => raise other

def arrayPop (position : Word) : Exec Unit := do
  match ← takeLast? with
  | some value => push value
  | none => reportMissing program (.of "missingElement" [("index", .ofNat position.toNat)])

/-- Jump over so many words. -/
def jump (distance : Word) : Exec Unit :=
  modify fun m => { m with pc := m.pc + distance.toNat }

/-- Push a value that was found and skip its default. -/
def pushAndSkip (distance : Word) : Option Value → Exec Unit
  | some value => do
    push value
    jump distance
  | none => return ()

def objectPush : Exec Unit := do
  let value ← pop
  match ← pop with
  | .string key => replaceTop (.object (Entries.insert (← topObject) key value))
  | other => raise (Mismatch.notOfType other "string")

def objectMerge : Exec Unit := do
  match ← pop with
  | .object entries => replaceTop (.object (Entries.merge (← topObject) entries))
  | other => raise (Mismatch.notOfType other "object")

/-- A property of the object on top, taken off it. -/
def takeProperty? (key : String) : Exec (Option Value) := do
  let entries ← topObject
  replaceTop (.object (Entries.erase entries key))
  return Entries.get? entries key

def objectPop (constant : Word) : Exec Unit := do
  let key ← propertyKey program constant
  match ← takeProperty? key with
  | some value => push value
  | none => reportMissing program (.of "missingProperty" [("key", .string key)])

def objectPopOrDefault (constant distance : Word) : Exec Unit := do
  let key ← propertyKey program constant
  pushAndSkip distance (← takeProperty? key)

/-! ## Functions -/

/-- **A new closure** of the function that starts at an offset. It has captured nothing yet. -/
def makeClosure (target : Nat) : Exec Unit := do
  let name := ((program.functionAt? target).map (·.name)).getD "<anonymous>"
  let m ← get
  let id := m.heap.nextClosure
  set { m with heap := { m.heap with nextClosure := id + 1 }, fresh := some id }
  push (.closure { id, name, target, upvalues := [] })

/-- What lies on the stack at a place above a scope's base. -/
def bundle (base offset : Nat) : Exec Value := do
  match (← get).slotContent (base + offset) with
  | some value => return value
  | none => fail .stackUnderflow

/-- Take the fault that a nested loop left behind. -/
def takeFault : Exec Unit := do
  let m ← get
  match m.fault with
  | some fault =>
    set { m with fault := none }
    throw (.fault fault)
  | none => return ()

/-- Complete a call of a host function: its result takes the place of the callee and arguments. -/
def finishCall (base : Nat) (result : Except ErrorValue Value) : Exec Unit := do
  takeFault
  match result with
  | .ok value =>
    modify (·.truncate base)
    push value
  | .error e => raise e

/-- The error of calling what is no function. -/
def notCallable (value : Value) : ErrorValue := .of "notCallable" [("value", value)]

/-- Call the host function that a value refers to. -/
def callNative (host : Host) (ref : NativeRef) (base : Nat) : Exec Signal := do
  let args ← match ← bundle base 1 with
    | .array elements => pure elements
    | _ => fail .notAnArray
  let named ← match ← bundle base 2 with
    | .object entries => pure entries
    | _ => fail .notAnObject
  match host.native? ref.code with
  | some native => return .await ((native.apply args named).andThen fun r =>
      .pure (finishCall base r))
  | none => raise (notCallable (.native ref))

/-- **Call the callee at the base of the scope.** A closure's code is jumped to; a host function is
work for the host. -/
def call (host : Host) : Exec Signal := do
  let base := (← scope).base
  match ← bundle base 0 with
  | .closure c =>
    modify fun m =>
      { m with calls := m.calls.push { base, returnTo := some m.pc }, pc := c.target }
    return .next
  | .native ref => callNative host ref base
  | other => raise (notCallable other)

/-- **Return from the innermost call**, to its caller or to the host. -/
def ret : Exec Signal := do
  let result ← pop
  let m ← get
  if m.calls.size ≤ m.floor.calls then fail .noCall
  else
    match m.calls.back? with
    | none => fail .noCall
    | some { base, returnTo } =>
      modify fun m => { m with calls := m.calls.pop }
      match returnTo with
      | some pc =>
        modify (·.truncate base)
        push result
        modify fun m => { m with pc }
        return .next
      | none => return .yield result

/-- Detach the captured variable of a slot of the innermost scope. -/
def capture (slot : Word) : Exec Unit := do
  let base := (← scope).base
  modify (·.closeSlot (base + slot.toNat))

/-! ## Indexing and validation -/

def indexTop : Exec Signal := do
  let key ← pop
  let collection ← pop
  return .await (Job.holding [collection, key] do return push (← collection.index key))

/-- Report that the value on top does not match, for the argument that it is meant to be. -/
def reportMismatch (e : ErrorValue) : Exec Unit := do
  takeFault
  match ← boundArgument? program with
  | some name => raise (e.forArgument name)
  | none => raise e

def validateTop (schema : Word) : Exec Signal := do
  let schema ← constant program schema
  let value ← top
  return .await (((Schema.validate value schema).holding [value]).andThen fun
    | .ok () => .pure (pure ())
    | .error e => .pure (reportMismatch program e))

/-! ## The step -/

/-- Go on with the next instruction after an action. -/
def thenNext (action : Exec Unit) : Exec Signal := do
  action
  return .next

/-- The instruction adds to a closure under construction. -/
def keepsFresh : Instruction → Bool
  | .closure .. | .closureUpvalue _ => true
  | _ => false

/-- **Execute an instruction.** -/
def execute (host : Host) (i : Instruction) : Exec Signal :=
  match i with
  | .value k => thenNext do push (← constant program k)
  | .platform entry => thenNext do push (← platformValue program entry)
  | .discard => thenNext do let _ ← pop
  | .reserve count => thenNext (reserve count.toNat)
  | .writeLocal depth slot => thenNext (writeLocal depth slot)
  | .readLocal depth slot => thenNext (readLocal program depth slot)
  | .pushScope size => thenNext (pushScope size.toNat)
  | .popScope => thenNext popScope
  | .array => thenNext (push (.array []))
  | .arrayPush => thenNext arrayPush
  | .arrayExtend => arrayExtend
  | .arrayReverse => thenNext do replaceTop (.array (← topArray).reverse)
  | .arrayCopy => thenNext do let _ ← topArray
  | .arrayCut count => thenNext (arrayCut count.toNat)
  | .arrayPop position => thenNext (arrayPop program position)
  | .arrayPopOrDefault distance => thenNext do pushAndSkip distance (← takeLast?)
  | .object => thenNext (push (.object []))
  | .objectPush => thenNext objectPush
  | .objectMerge => thenNext objectMerge
  | .objectCopy => thenNext do let _ ← topObject
  | .objectPop k => thenNext (objectPop program k)
  | .objectPopOrDefault k distance => thenNext (objectPopOrDefault program k distance)
  | .function target => thenNext (makeClosure program target.toNat)
  | .closure depth slot => thenNext do addUpvalue (← captureSlot (← slotIndex depth slot))
  | .closureUpvalue upvalue => thenNext do addUpvalue (← runningUpvalue upvalue)
  | .call => call host
  | .ret => ret
  | .readUpvalue upvalue => thenNext do
    let cell ← runningUpvalue upvalue
    pushVariable program ((← get).readCell cell)
  | .capture slot => thenNext (capture slot)
  | .index => indexTop
  | .enterCatch distance => thenNext do
    let target := (← get).pc + distance.toNat
    modifyScope fun s => { s with recovery := target :: s.recovery }
  | .leaveCatch => thenNext (modifyScope fun s => { s with recovery := s.recovery.tail })
  | .validate schema => validateTop program schema

/-- One step as an action. -/
def step (setting : Setting) : Exec Signal := do
  countStep setting.limits
  let i ← fetch setting.program
  unless keepsFresh i do modify fun m => { m with fresh := none }
  execute setting.program setting.host i

end TreeCode.Machine

namespace TreeCode

/-- **Where a dispatch loop stands.** -/
inductive Progress where
  /-- It goes on from here. -/
  | running (machine : Machine)
  /-- It goes on when the host has done a job. -/
  | waiting (job : Job (Exec Unit)) (machine : Machine)
  /-- It has ended. -/
  | finished (result : Except Trap Value) (machine : Machine)

namespace Progress

/-- Where the loop stands after an instruction. An error has gone to its catch or ends the loop. -/
def ofResult : EStateM.Result Trap Machine Machine.Signal → Progress
  | .ok .next m => .running m
  | .ok (.yield value) m => .finished (.ok value) m
  | .ok (.await job) m => .waiting job m
  | .error (.fault fault) m => .finished (.error (.fault fault)) m
  | .error (.raised e) m =>
    match m.recover e with
    | (m, none) => .running m
    | (m, some e) => .finished (.error (.raised e)) m

/-- Where the loop stands after the job that it waited for. -/
def resume (m : Machine) : Except ErrorValue (Exec Unit) → Progress
  | .ok action => ofResult (Machine.thenNext action m)
  | .error e => ofResult (.error (.raised e) m)

end Progress

/-- **One step of the machine.** -/
def Machine.advance (setting : Setting) (m : Machine) : Progress :=
  .ofResult (Machine.step setting m)

end TreeCode
