import TreeCode.Value.Text

/-!
# The heap — captured variables and stream nodes

References in values point into the heap. It holds the cells of captured variables, the nodes of
streams and the supply of closure identities, and it outlives a machine: a closure or a stream that
a run returned is used again by a later one.

A stream node is forced at most once. Until then it holds a suspension, the computation that will
give the node; while that runs the node is marked as being forced, and afterwards it holds its node
or the failure for good.
-/

namespace TreeCode

/-- **A captured variable.** While its slot is on the operand stack the cell names the slot; when
the slot goes, the cell keeps what the slot held, which is nothing if the variable was never
assigned. -/
inductive Upvalue where
  | onStack (slot : Nat)
  | closed (value : Option Value)

/-- **A resolved stream node**: the end, or an element and the stream after it. -/
inductive Node where
  | empty
  | cons (head : Value) (tail : StreamId)

/-- **A computation put off until its stream node is forced.** -/
inductive Suspension where
  /-- `next` applied to `seed`, then to the result, and so on for ever. -/
  | successors (seed next : Value)
  /-- The elements of `source`, each passed through `function`. -/
  | mapped (source : StreamId) (function : Value)
  /-- The elements of `source` for which `condition` holds. -/
  | filtered (source : StreamId) (condition : Value)
  /-- The given values one by one, and then the end, or a failure. -/
  | listed (values : List Value) (failure : Option ErrorValue)

/-- **The state of a stream node.** -/
inductive StreamCell where
  | pending (suspension : Suspension)
  | forcing
  | failed (error : ErrorValue)
  | resolved (node : Node)

/-- **The heap.** -/
structure Heap where
  cells : Array Upvalue := #[]
  streams : Array StreamCell := #[]
  /-- The identity that the next closure gets. -/
  nextClosure : Nat := 0

namespace Heap

instance : Inhabited Heap := ⟨{}⟩

/-- The state of a stream node. A reference into nowhere reads as a node that is being forced, and
so cannot be forced. -/
def streamCell (h : Heap) (id : StreamId) : StreamCell := h.streams[id]?.getD .forcing

def setStream (h : Heap) (id : StreamId) (cell : StreamCell) : Heap :=
  { h with streams := h.streams.setIfInBounds id cell }

/-- A new stream node, in the given state. -/
def addStream (h : Heap) (cell : StreamCell) : StreamId × Heap :=
  (h.streams.size, { h with streams := h.streams.push cell })

/-- The node, if it has been forced. -/
def peek? (h : Heap) (id : StreamId) : Option Node :=
  match h.streamCell id with
  | .resolved node => some node
  | _ => none

/-- A finite stream whose nodes are all resolved. -/
def addResolved (h : Heap) : List Value → StreamId × Heap
  | [] => h.addStream (.resolved .empty)
  | v :: vs =>
    let (tail, h) := addResolved h vs
    h.addStream (.resolved (.cons v tail))

def cell (h : Heap) (id : CellId) : Upvalue := h.cells[id]?.getD (.closed none)

def setCell (h : Heap) (id : CellId) (cell : Upvalue) : Heap :=
  { h with cells := h.cells.setIfInBounds id cell }

/-- Close cells, each over a content of its own. -/
def closeCells (h : Heap) (contents : List (CellId × Option Value)) : Heap :=
  contents.foldl (fun h (cell, content) => h.setCell cell (.closed content)) h

def addCell (h : Heap) (cell : Upvalue) : CellId × Heap :=
  (h.cells.size, { h with cells := h.cells.push cell })

/-! ## Text of streams -/

/-- The elements forced so far from `id` on, over at most `limit` nodes, and whether a node that
has not been forced comes after them. -/
def forcedWithin (h : Heap) : Nat → StreamId → List Value × Bool
  | 0, _ => ([], true)
  | limit + 1, id =>
    match h.peek? id with
    | none => ([], true)
    | some .empty => ([], false)
    | some (.cons head tail) =>
      let (rest, more) := forcedWithin h limit tail
      (head :: rest, more)

/-- The elements forced so far, and whether a node that has not been forced comes after them. No
chain of nodes is longer than the heap. -/
def forced (h : Heap) (id : StreamId) : List Value × Bool :=
  h.forcedWithin (h.streams.size + 1) id

/-- The text of a stream, with the streams inside it shown `depth` levels deep. -/
def streamTextWithin (h : Heap) : Nat → StreamId → String
  | 0, _ => "stream [...]"
  | depth + 1, id =>
    let (elements, more) := h.forced id
    let texts := Value.textsWith (h.streamTextWithin depth) elements
    "stream [" ++ commaList (texts ++ if more then ["..."] else []) ++ "]"

/-- **The text of a stream**: the elements forced so far, and dots for what is pending. Streams
nest no deeper than the heap has nodes. -/
def streamText (h : Heap) (id : StreamId) : String :=
  h.streamTextWithin (h.streams.size + 1) id

end Heap

/-- **The text of a value**, with its streams as far as the heap has them. -/
def Value.text (h : Heap) (v : Value) : String := v.textWith h.streamText

/-- **The text of an error.** -/
def ErrorValue.text (h : Heap) (e : ErrorValue) : String := e.toValue.text h

end TreeCode
