import TreeCode.Heap

/-!
# Jobs — work of the host that may call back

A function of the host, the check of a schema and the production of a stream node all do the same
kind of work: they compute, and now and then they ask the machine to call a function or to force a
stream, and go on with the answer. A `Job` is such work as a tree: it is done, or it makes one
request and says how it continues for every answer.

While the host waits for an answer it holds on to values of its own: its arguments, the results so
far. They go with the request, since a machine has to know what is in use (`Job.holding`).

A job is a finite tree and knows nothing of machines. What a request does, and that it may run for
ever, is the machine's concern; a law about a job holds for every way of answering its requests.

Errors are answers too. `Job.bind` passes an error on, and `Job.attempt` turns it into a value.
-/

namespace TreeCode

/-- **A request to the machine.** -/
inductive Request where
  /-- Call a function with positional and named arguments. -/
  | call (callee : Value) (args : List Value) (named : Entries Value)
  /-- Resolve a stream's first node. -/
  | force (stream : StreamId)
  /-- Resolve a stream to its end; the answer is its elements. -/
  | collect (stream : StreamId)
  /-- Resolve every stream inside a value to its end. -/
  | settle (value : Value)
  /-- Make a stream node in a given state. -/
  | allocate (cell : StreamCell)
  /-- The text of a value. -/
  | text (value : Value)

/-- **What answers a request.** -/
abbrev Request.Response : Request → Type
  | .call .. => Except ErrorValue Value
  | .force _ => Except ErrorValue Node
  | .collect _ => Except ErrorValue (List Value)
  | .settle _ => Except ErrorValue Unit
  | .allocate _ => StreamId
  | .text _ => String

/-- **Work of the host.** A request comes with the values that the host holds until it is answered,
and with the continuation for the answer. -/
inductive Job (α : Type) where
  | done (result : Except ErrorValue α)
  | ask (held : List Value) (request : Request) (next : request.Response → Job α)

namespace Job

variable {α β : Type}

/-- Continue with whatever the job ends in, a result or an error. -/
def andThen : Job α → (Except ErrorValue α → Job β) → Job β
  | .done result, f => f result
  | .ask held request next, f => .ask held request fun response => (next response).andThen f

def pure (a : α) : Job α := .done (.ok a)

def fail (e : ErrorValue) : Job α := .done (.error e)

/-- Continue with the result; an error ends the whole. -/
def bind (job : Job α) (f : α → Job β) : Job β :=
  job.andThen fun
    | .ok a => f a
    | .error e => .fail e

instance : Monad Job where
  pure := Job.pure
  bind := Job.bind

/-- The result or the error, as a result. -/
def attempt (job : Job α) : Job (Except ErrorValue α) := job.andThen .pure

/-- Restate the error, if there is one. -/
def mapError (f : ErrorValue → ErrorValue) (job : Job α) : Job α :=
  job.andThen fun
    | .ok a => .pure a
    | .error e => .fail (f e)

/-- A computation that makes no request. -/
def ofExcept (result : Except ErrorValue α) : Job α := .done result

/-- The job of a host that holds some values, besides its own, until it is done. -/
def holding (values : List Value) : Job α → Job α
  | .done result => .done result
  | .ask held request next =>
    .ask (values ++ held) request fun response => (next response).holding values

/-! ## The requests, as jobs -/

/-- Call a function. -/
def invoke (callee : Value) (args : List Value) (named : Entries Value) : Job Value :=
  .ask [] (.call callee args named) .done

/-- The first node of a stream. -/
def node (stream : StreamId) : Job Node := .ask [] (.force stream) .done

/-- All elements of a stream. -/
def elements (stream : StreamId) : Job (List Value) := .ask [] (.collect stream) .done

/-- Resolve every stream inside a value to its end. -/
def settle (value : Value) : Job Unit := .ask [] (.settle value) .done

/-- A new stream whose first node is put off. -/
def suspend (suspension : Suspension) : Job StreamId :=
  .ask [] (.allocate (.pending suspension)) .pure

/-- A new stream with its first node in place. -/
def resolved (node : Node) : Job StreamId := .ask [] (.allocate (.resolved node)) .pure

/-- The text of a value. -/
def text (value : Value) : Job String := .ask [] (.text value) .pure

end Job

end TreeCode
