import TreeCode.Entries

/-!
# Static scopes

While a function is lowered, the scopes that will be open at run time are known. A block declares
names in slots; a frame is the blocks of one function, innermost first; and the frames of the
functions around the current place, innermost first, are all that a name can refer to.

A name found in the current frame is a local variable: so many scopes out, in such a slot. A name
found further out is captured: by the function just inside the frame that has it as a local
variable, and by each function further in as a captured variable of the one around it.
-/

namespace TreeCode

/-- **Where a closure under construction finds a variable**: in a slot of the function that makes
it, or among the variables which that function has captured. -/
inductive Capture where
  | variable (depth slot : Nat)
  | captured (index : Nat)
deriving DecidableEq

/-- **A scope of a function**, with the slots of its names. -/
structure Block where
  names : Entries Nat := []
  /-- The slots that inner functions capture. -/
  captured : List Nat := []
  firstSlot : Nat := 0
  nextSlot : Nat := 0
  /-- The scope holds the definitions of the library. -/
  isLibrary : Bool := false

namespace Block

/-- How many slots of a call hold the callee and its arguments. -/
def callSlots : Nat := 3

/-- The outermost scope of a function. Its first slots are those of the call. -/
def ofFunction : Block := { firstSlot := callSlots, nextSlot := callSlots }

/-- The scope of the library's definitions. -/
def ofLibrary : Block := { isLibrary := true }

/-- Declare a name in a new slot; a name declared before refers to the new slot from now on. -/
def declare (b : Block) (name : String) : Block :=
  { b with names := Entries.insert b.names name b.nextSlot, nextSlot := b.nextSlot + 1 }

/-- Declare names one after another. -/
def declareAll (b : Block) (names : List String) : Block := names.foldl declare b

/-- How many slots are to be reserved. -/
def reserved (b : Block) : Nat := b.nextSlot - b.firstSlot

/-- Note that an inner function captures a slot. The slots are kept in descending order. -/
def capture (b : Block) (slot : Nat) : Block :=
  { b with
    captured := b.captured.filter (slot < ·) ++ [slot] ++ b.captured.filter (· < slot) }

end Block

/-- **The scopes of one function**, innermost first, and what it captures. -/
structure Frame where
  blocks : List Block
  captures : List Capture := []

namespace Frame

/-- The frame of a function at its beginning. -/
def ofBlock (block : Block) : Frame := { blocks := [block] }

/-- How many scopes out a name is declared, and in which slot. Only the scope of the library is
looked at, or only the others. -/
def lookupIn (library : Bool) (name : String) : List Block → Option (Nat × Nat)
  | [] => none
  | b :: outer =>
    match (if b.isLibrary == library then Entries.get? b.names name else none) with
    | some slot => some (0, slot)
    | none => (lookupIn library name outer).map fun (depth, slot) => (depth + 1, slot)

/-- Note that an inner function captures a slot of the scope so many scopes out. -/
def captureSlot (frame : Frame) (depth slot : Nat) : Frame :=
  { frame with blocks := frame.blocks.modify depth (·.capture slot) }

/-- The index of a captured variable, which is the same whenever it is captured again. -/
def addCapture (frame : Frame) (capture : Capture) : Nat × Frame :=
  match frame.captures.findIdx? (· == capture) with
  | some index => (index, frame)
  | none => (frame.captures.length, { frame with captures := frame.captures ++ [capture] })

/-- **Where the innermost function finds a name**, with every capture on the way noted in the
frames. -/
def reach (library : Bool) (name : String) : List Frame → Option (Capture × List Frame)
  | [] => none
  | frame :: outer =>
    match lookupIn library name frame.blocks with
    | some (depth, slot) => some (.variable depth slot, frame :: outer)
    | none =>
      match reach library name outer with
      | none => none
      | some (found, outer) =>
        let outer := match found, outer with
          | .variable depth slot, around :: further => around.captureSlot depth slot :: further
          | _, outer => outer
        let (index, frame) := frame.addCapture found
        some (.captured index, frame :: outer)

end Frame

end TreeCode
