import TreeCode.Proofs.Drafting

/-!
# Layouts — what lies on the stacks at a place of the code

A layout says what the stacks of a dispatch loop look like: for each scope, from the innermost one
out, what lies at the places of the operand stack from the scope's base on, where its open catches
continue, and whether the scope is that of a call. `Safe T code L` says that code can be executed on
stacks of the layout `L`: every instruction finds what it needs. The judgment looks at the code that
is left, so a jump is to a later piece of the same code.

Lowered code is safe on every layout that has the slots of its scopes: `Lowered.safe` and the
theorems beside it, which are stated for code with something to follow.
-/

namespace TreeCode

open List Code

/-- **What lies at a place of the operand stack.** -/
inductive Content where
  | value
  /-- A variable, which may be unassigned. -/
  | slot
  | array
  | object
  /-- The function that is running, with so many captured variables at least. -/
  | callee (captured : Nat)
deriving DecidableEq

namespace Content

/-- A value that can be taken off the stack. -/
def Full : Content → Prop
  | .value | .array | .object => True
  | .slot | .callee _ => False

/-- What reading a variable or an argument pushes. -/
def read? : Content → Option Content
  | .slot => some .value
  | .array => some .array
  | .object => some .object
  | .value | .callee _ => none

end Content

/-- **How a scope came about**: inside a function, or for a call, by the host or by code that goes
on when the call returns. -/
inductive Entry where
  | block
  | host
  | call (rest : Code)

/-- **A scope and its part of the operand stack**, from the top down. -/
structure Level where
  places : List Content
  catches : List Code
  entry : Entry

/-- **The stacks of a dispatch loop**, the innermost scope first. -/
abbrev Layout := List Level

namespace Layout

/-- What lies in a slot of the scope so many scopes out. -/
def place? (L : Layout) (depth slot : Nat) : Option Content :=
  (L[depth]?).bind fun level => level.places.reverse[slot]?

/-- How many variables the running function has captured at least. -/
def captured? : Layout → Option Nat
  | [] => none
  | ⟨_, _, .block⟩ :: outer => captured? outer
  | ⟨places, _, _⟩ :: _ => places.getLast?.bind fun
    | .callee n => some n
    | _ => none

end Layout

/-- **The tables of a finished draft.** -/
structure Tables where
  finished : Array CodeFunction
  constants : Array Value
  platform : Array PlatformValue

def Draft.tables (D : Draft) : Tables := ⟨D.finished, D.constants, D.platform⟩

@[simp]
lemma Draft.tables_inBlock (D : Draft) (b) : (D.inBlock b).tables = D.tables := rfl

@[simp]
lemma Draft.tables_inFunction (D : Draft) (b captures) :
    (D.inFunction b captures).tables = D.tables := rfl

/-- **What an instruction puts in the place of what it takes off the top**, for instructions that
do no more than that. -/
inductive Effect (T : Tables) (L : Layout) : Instruction → List Content → List Content → Prop where
  | value {k : Word} {v} (h : T.constants[k.toNat]? = some v) :
      Effect T L (.value k) [] [.value]
  | platform {k : Word} {entry} (h : T.platform[k.toNat]? = some entry) :
      Effect T L (.platform k) [] [.value]
  | discard {k : Content} (h : k.Full) : Effect T L .discard [k] []
  | reserve (n : Word) : Effect T L (.reserve n) [] (replicate n.toNat .slot)
  | readLocal {depth slot : Word} {k l : Content}
      (h : L.place? depth.toNat slot.toNat = some k) (hread : k.read? = some l) :
      Effect T L (.readLocal depth slot) [] [l]
  | array : Effect T L .array [] [.array]
  | arrayPush {k : Content} (h : k.Full) : Effect T L .arrayPush [k, .array] [.array]
  | arrayExtend {k : Content} (h : k.Full) : Effect T L .arrayExtend [k, .array] [.array]
  | arrayReverse : Effect T L .arrayReverse [.array] [.array]
  | arrayCopy : Effect T L .arrayCopy [.array] [.array]
  | arrayCut (n : Word) : Effect T L (.arrayCut n) [.array] [.array, .array]
  | arrayPop (n : Word) : Effect T L (.arrayPop n) [.array] [.value, .array]
  | object : Effect T L .object [] [.object]
  | objectPush {k l : Content} (hk : k.Full) (hl : l.Full) :
      Effect T L .objectPush [k, l, .object] [.object]
  | objectMerge {k : Content} (h : k.Full) : Effect T L .objectMerge [k, .object] [.object]
  | objectCopy : Effect T L .objectCopy [.object] [.object]
  | objectPop {k : Word} {key} (h : T.constants[k.toNat]? = some (.string key)) :
      Effect T L (.objectPop k) [.object] [.value, .object]
  | readUpvalue {i : Word} {n : Nat} (hn : L.captured? = some n) (h : i.toNat < n) :
      Effect T L (.readUpvalue i) [] [.value]
  | capture (slot : Word) : Effect T L (.capture slot) [] []
  | index {k l : Content} (hk : k.Full) (hl : l.Full) : Effect T L .index [k, l] [.value]
  | validate {k : Word} {v} {l : Content} (h : T.constants[k.toNat]? = some v)
      (hl : l.Full) : Effect T L (.validate k) [l] [l]
  | validateArray {k : Word} {l : Content} (h : T.constants[k.toNat]? = some (.string "array"))
      (hl : l.Full) : Effect T L (.validate k) [l] [.array]
  | validateObject {k l} (h : T.constants[k.toNat]? = some (.string "object"))
      (hl : l.Full) : Effect T L (.validate k) [l] [.object]

/-- **What an instruction adds to a closure under construction** is there. -/
inductive Captures (L : Layout) : Instruction → Prop where
  | closure {depth slot} (h : L.place? depth.toNat slot.toNat = some .slot) :
      Captures L (.closure depth slot)
  | closureUpvalue {i n} (hn : L.captured? = some n) (h : i.toNat < n) :
      Captures L (.closureUpvalue i)

/-- **Code can be executed on stacks of a layout.** -/
inductive Safe (T : Tables) : Code → Layout → Prop where
  /-- An array or object is a value. -/
  | forget {code} {k : Content} {places catches entry L} (hk : k.Full)
      (next : Safe T code (⟨.value :: places, catches, entry⟩ :: L)) :
      Safe T code (⟨k :: places, catches, entry⟩ :: L)
  | step {i d code a b places catches entry L}
      (effect : Effect T (⟨a ++ places, catches, entry⟩ :: L) i a b)
      (next : Safe T code (⟨b ++ places, catches, entry⟩ :: L)) :
      Safe T (.plain i d :: code) (⟨a ++ places, catches, entry⟩ :: L)
  | writeLocal {slot : Word} {d code} {k : Content}
      {places catches entry L} (hk : k.Full)
      (h : Layout.place? (⟨places, catches, entry⟩ :: L) 0 slot.toNat = some .slot)
      (next : Safe T code (⟨places, catches, entry⟩ :: L)) :
      Safe T (.plain (.writeLocal 0 slot) d :: code) (⟨k :: places, catches, entry⟩ :: L)
  | openScope {d code L}
      (next : Safe T code (⟨[], [], .block⟩ :: L)) :
      Safe T (.plain (.pushScope 0) d :: code) L
  | openCall {d code} {k : Content} {places catches entry L} (hk : k.Full)
      (next : Safe T code
        (⟨[.object, .array, .value], [], .block⟩ :: ⟨places, catches, entry⟩ :: L)) :
      Safe T (.plain (.pushScope 3) d :: code)
        (⟨.object :: .array :: k :: places, catches, entry⟩ :: L)
  | closeScope {d code} {k : Content} {inner places catches entry L} (hk : k.Full)
      (next : Safe T code (⟨.value :: places, catches, entry⟩ :: L)) :
      Safe T (.plain .popScope d :: code)
        (⟨k :: inner, [], .block⟩ :: ⟨places, catches, entry⟩ :: L)
  | makeFunction {captures : List Instruction} {code index} {f : CodeFunction}
      {places catches entry L}
      (hf : T.finished[index]? = some f)
      (body : ∀ entry outer, entry ≠ .block →
        Safe T f.body (⟨[.object, .array, .callee f.captures.length], [], entry⟩ :: outer))
      (hcount : captures.length = f.captures.length)
      (hcaptures : ∀ i ∈ captures, Captures (⟨places, catches, entry⟩ :: L) i)
      (next : Safe T code (⟨.value :: places, catches, entry⟩ :: L)) :
      Safe T (.makeFunction (index + 1) :: (captures.map (.plain · none) ++ code))
        (⟨places, catches, entry⟩ :: L)
  | arrayPopOrDefault {n : Word} {d} {absent code : Code}
      {places catches entry L}
      (hn : n.toNat = absent.width)
      (found : Safe T code (⟨.value :: .array :: places, catches, entry⟩ :: L))
      (missing : Safe T (absent ++ code) (⟨.array :: places, catches, entry⟩ :: L)) :
      Safe T (.plain (.arrayPopOrDefault n) d :: (absent ++ code))
        (⟨.array :: places, catches, entry⟩ :: L)
  | objectPopOrDefault {k n : Word} {key d} {absent code : Code}
      {places catches entry L}
      (hk : T.constants[k.toNat]? = some (.string key)) (hn : n.toNat = absent.width)
      (found : Safe T code (⟨.value :: .object :: places, catches, entry⟩ :: L))
      (missing : Safe T (absent ++ code) (⟨.object :: places, catches, entry⟩ :: L)) :
      Safe T (.plain (.objectPopOrDefault k n) d :: (absent ++ code))
        (⟨.object :: places, catches, entry⟩ :: L)
  | enterCatch {n : Word} {d guarded code catches L} (hn : n.toNat = guarded.width)
      (next : Safe T (guarded ++ code) (⟨[], code :: catches, .block⟩ :: L))
      (caught : Safe T code (⟨[.value], catches, .block⟩ :: L)) :
      Safe T (.plain (.enterCatch n) d :: (guarded ++ code)) (⟨[], catches, .block⟩ :: L)
  /-- A catch is left where it continues after an error. -/
  | leaveCatch {d code places catches entry L}
      (next : Safe T code (⟨places, catches, entry⟩ :: L)) :
      Safe T (.plain .leaveCatch d :: code) (⟨places, code :: catches, entry⟩ :: L)
  | call {d code L}
      (next : Safe T code (⟨[.value], [], .block⟩ :: L)) :
      Safe T (.plain .call d :: code) (⟨[.object, .array, .value], [], .block⟩ :: L)
  | ret {d code k places entry L} (hk : k.Full) (hentry : entry ≠ .block) :
      Safe T (.plain .ret d :: code) (⟨k :: places, [], entry⟩ :: L)

/-! ## What code does to the top of the stack -/

variable {places : List Content} {catches : List Code} {entry : Entry} {L : Layout}

namespace Layout

/-- What is pushed hides nothing. -/
lemma place?_append {depth slot k}
    (h : place? (⟨places, catches, entry⟩ :: L) depth slot = some k) (a) :
    place? (⟨a ++ places, catches, entry⟩ :: L) depth slot = some k := by
  cases depth with
  | zero =>
    simp only [place?, List.getElem?_cons_zero, Option.bind_some] at h ⊢
    obtain ⟨hlt, -⟩ := List.getElem?_eq_some_iff.mp h
    rw [List.reverse_append, List.getElem?_append_left hlt, h]
  | succ depth => exact h

lemma captured?_append {n} (h : captured? (⟨places, catches, entry⟩ :: L) = some n)
    (a) : captured? (⟨a ++ places, catches, entry⟩ :: L) = some n := by
  have hl : ∀ f, places.getLast?.bind f = some n → (a ++ places).getLast?.bind f = some n := by
    intro f hf
    cases hp : places.getLast? with
    | none => rw [hp] at hf; cases hf
    | some k => rwa [getLast?_append, hp, Option.some_or, ← hp]
  cases entry with
  | block => exact h
  | host => exact hl _ h
  | call rest => exact hl _ h

end Layout

/-- **A layout has what the scopes of a draft mention**: a place for each variable, and the captured
variables of the function. -/
structure Describes (D : Draft) (L : Layout) : Prop where
  slots : ∀ library name depth slot,
    Frame.lookupIn library name D.frame.blocks = some (depth, slot) →
      L.place? depth slot = some .slot
  captured : ∃ n, L.captured? = some n ∧ D.frame.captures.length ≤ n

variable {D : Draft}

namespace Describes

lemma append (h : Describes D (⟨places, catches, entry⟩ :: L)) (a) :
    Describes D (⟨a ++ places, catches, entry⟩ :: L) where
  slots library name depth slot hf := Layout.place?_append (h.slots library name depth slot hf) a
  captured := by
    obtain ⟨n, hn, hle⟩ := h.captured
    exact ⟨n, Layout.captured?_append hn a, hle⟩

/-- A name of the innermost scope has a slot there. -/
lemma slot_of_block (h : Describes D L) {name slot}
    (hs : Entries.get? D.block.names name = some slot) : L.place? 0 slot = some .slot := by
  cases hblocks : D.frame.blocks with
  | nil => simp [Draft.block, hblocks, Entries.get?] at hs
  | cons b bs =>
    refine h.slots b.isLibrary name 0 slot ?_
    rw [Draft.block, hblocks, head?_cons, Option.getD_some] at hs
    rw [hblocks, Frame.lookupIn, if_pos (beq_self_eq_true _), hs]

variable {slots : List Content} {b : Block}

/-- A scope with the slots of its names. -/
lemma inBlock (h : Describes D L) (hb : ∀ name slot, Entries.get? b.names name = some slot →
      slots.reverse[slot]? = some .slot) :
    Describes (D.inBlock b) (⟨slots, catches, .block⟩ :: L) where
  slots library name depth slot hf := by
    rcases Frame.lookupIn_cons hf with ⟨rfl, hs⟩ | ⟨further, rfl, hrec⟩
    · exact hb name slot hs
    · exact h.slots library name further slot hrec
  captured := h.captured

/-- The outermost scope of a function. -/
lemma inFunction {captures}
    (hb : ∀ name slot, Entries.get? b.names name = some slot → slots.reverse[slot]? = some .slot)
    (hl : slots.getLast? = some (.callee captures.length)) (he : entry ≠ .block) :
    Describes (D.inFunction b captures) (⟨slots, catches, entry⟩ :: L) where
  slots library name depth slot hf := by
    rcases Frame.lookupIn_cons hf with ⟨rfl, hs⟩ | ⟨further, rfl, hrec⟩
    · exact hb name slot hs
    · cases hrec
  captured := by
    refine ⟨captures.length, ?_, Nat.le_refl _⟩
    cases entry with
    | block => exact absurd rfl he
    | host => simp [Layout.captured?, hl]
    | call rest => simp [Layout.captured?, hl]

end Describes

/-- **Code takes `a` off the top and puts `b` there**, whatever follows. -/
def Changes (D : Draft) (a : List Content) (code : Code) (b : List Content) : Prop :=
  ∀ places catches entry L rest, Describes D (⟨places, catches, entry⟩ :: L) →
    Safe D.tables rest (⟨b ++ places, catches, entry⟩ :: L) →
    Safe D.tables (code ++ rest) (⟨a ++ places, catches, entry⟩ :: L)

variable {env : Environment}

namespace Changes

variable {a b c : List Content} {first second : Code}

lemma nil (a) : Changes D a [] a := fun _ _ _ _ _ _ h => h

lemma append (h : Changes D a first b) (h' : Changes D b second c) :
    Changes D a (first ++ second) c := by
  intro places catches entry L rest hD hs
  rw [append_assoc]
  exact h _ _ _ _ _ hD (h' _ _ _ _ _ hD hs)

/-- What lies below may be anything. -/
lemma above (h : Changes D a first b) (k) : Changes D (a ++ k) first (b ++ k) := by
  intro places catches entry L rest hD hs
  rw [append_assoc] at hs ⊢
  exact h _ _ _ _ _ (hD.append k) hs

variable {k : Content}

lemma forget (hk : k.Full) : Changes D [k] [] [.value] := fun _ _ _ _ _ _ hs => .forget hk hs

lemma item {i d}
    (h : ∀ L, Describes D L → Effect D.tables L i a b) : Changes D a [.plain i d] b :=
  fun _ _ _ _ _ hD hs => .step (h _ (hD.append a)) hs

/-! ### Pieces of code -/

variable {name : String} {code : Code}

lemma valueCode {value}
    (h : ValueCode D name value code) : Changes D [] code [.value] := by
  unfold ValueCode at h
  split at h
  · obtain ⟨k, hk, rfl⟩ := h
    exact item fun _ _ => .value hk
  · obtain ⟨k, ⟨entry, he, -⟩, rfl⟩ := h
    exact item fun _ _ => .platform he

variable {place : Capture} {library : Bool} {inner rest guarded absent : Code}

lemma variableCode (h : Frame.Resolves library name D.frames place) (hsmall : place.Small) :
    Changes D [] (Lower.variableCode name place) [.value] := by
  cases hD : D.frames with
  | nil => rw [hD] at h; cases h
  | cons f fs =>
    have hframe : D.frame = f := by simp [Draft.frame, hD]
    rw [hD] at h
    cases h with
    | own found =>
      refine item fun L hL => .readLocal (k := .slot) ?_ rfl
      rw [UInt32.toNat_ofNat_of_lt' hsmall.1, UInt32.toNat_ofNat_of_lt' hsmall.2]
      exact hL.slots library name _ _ (hframe ▸ found)
    | captured _ _ kept =>
      refine item fun L hL => ?_
      obtain ⟨n, hn, hle⟩ := hL.captured
      refine .readUpvalue hn ?_
      rw [UInt32.toNat_ofNat_of_lt' hsmall]
      obtain ⟨hlt, -⟩ := List.getElem?_eq_some_iff.mp kept
      rw [hframe] at hle
      omega

lemma nameCode (h : NameCode env D name code) : Changes D [] code [.value] := by
  cases h with
  | inScope found small => exact variableCode found small
  | host _ _ coded => exact valueCode coded
  | library _ _ found small => exact variableCode found small
  | libraryValue _ _ _ _ coded => exact valueCode coded

/-- The instruction that captures a variable finds it. -/
lemma captures (hsmall : place.Small)
    (hres : Frame.Resolves library name D.frames place) (hL : Describes D L) :
    Captures L (Lower.captureInstruction place) := by
  cases hD : D.frames with
  | nil => rw [hD] at hres; cases hres
  | cons g gs =>
    have hframe : D.frame = g := by simp [Draft.frame, hD]
    rw [hD] at hres
    cases hres with
    | own found =>
      refine .closure ?_
      rw [UInt32.toNat_ofNat_of_lt' hsmall.1, UInt32.toNat_ofNat_of_lt' hsmall.2]
      exact hL.slots library name _ _ (hframe ▸ found)
    | captured _ _ kept =>
      obtain ⟨n, hn, hle⟩ := hL.captured
      refine .closureUpvalue hn ?_
      rw [UInt32.toNat_ofNat_of_lt' hsmall]
      obtain ⟨hlt, -⟩ := List.getElem?_eq_some_iff.mp kept
      rw [hframe] at hle
      omega

/-- Slots are reserved for the names of a scope. -/
lemma reserveSlots {b} (h : b.reserved < UInt32.size) :
    Changes D [] (Lower.reserveSlots b) (replicate b.reserved .slot) := by
  unfold Lower.reserveSlots
  split
  next hzero =>
    rw [hzero]
    exact nil _
  next =>
    have hn := UInt32.toNat_ofNat_of_lt' h
    refine item fun _ _ => ?_
    have := Effect.reserve (T := D.tables) (L := ‹Layout›) (UInt32.ofNat b.reserved)
    rwa [hn] at this

lemma detachSlots (b) : Changes D [] (Lower.detachSlots b) [] := by
  unfold Lower.detachSlots
  induction b.captured with
  | nil => exact nil _
  | cons slot slots ih =>
    rw [flatMap_cons]
    exact append (item fun _ _ => .capture _) ih

/-- A new scope has the slots of its names. -/
lemma slots_of_declareAll {b : Block} (hb : b.names = []) {names below}
    (hbelow : below.length = b.nextSlot)
    (hf : b.firstSlot = b.nextSlot) (name slot)
    (h : Entries.get? (b.declareAll names).names name = some slot) :
    (replicate (b.declareAll names).reserved Content.slot ++ below).reverse[slot]?
      = some .slot := by
  rw [Block.reserved, Block.nextSlot_declareAll, Block.firstSlot_declareAll, hf,
    Nat.add_sub_cancel_left, reverse_append, reverse_replicate]
  rcases Block.slot_declareAll h with hold | ⟨hge, hlt⟩
  · rw [hb] at hold
    cases hold
  · rw [getElem?_append_right (by simpa [hbelow] using hge), length_reverse, hbelow,
      getElem?_replicate, if_pos (by omega)]

/-- **Code of a block**: what it does inside its scope, it does outside with the scope gone. -/
theorem block {scope b} (hns : scope.reserved < UInt32.size)
    (hsl : ∀ name slot, Entries.get? scope.names name = some slot →
      (replicate scope.reserved Content.slot ++ []).reverse[slot]? = some .slot) (h : ∀ outer rest,
      Describes (D.inBlock scope) (⟨replicate scope.reserved .slot, [], .block⟩ :: outer) →
      Safe D.tables rest (⟨.value :: replicate scope.reserved .slot, [], .block⟩ :: outer) →
      Safe D.tables (inner ++ rest) (⟨replicate scope.reserved .slot, [], .block⟩ :: outer)) :
    Changes D [] (emit (.pushScope 0) ++ (Lower.reserveSlots scope ++ (inner
      ++ (Lower.detachSlots b ++ emit .popScope)))) [.value] := by
  intro places catches entry L rest hD hs
  have hin : Describes (D.inBlock scope)
      (⟨replicate scope.reserved .slot, [], .block⟩ :: ⟨places, catches, entry⟩ :: L) :=
    hD.inBlock (by simpa using hsl)
  have he : Describes (D.inBlock {})
      (⟨[], [], .block⟩ :: ⟨places, catches, entry⟩ :: L) :=
    hD.inBlock fun name slot hslot => by cases hslot
  have hend := ((detachSlots (D := D.inBlock scope) b).above [.value]) _ [] .block _
    (emit .popScope ++ rest) hin (.closeScope trivial hs)
  have hreserve := reserveSlots (D := D.inBlock {}) hns [] [] .block _ _ he
    (by simpa using h _ _ hin hend)
  simp only [append_assoc]
  exact .openScope (by simpa using hreserve)

/-- The arguments of a call are taken apart, if there are parameters for them. -/
lemma arguments {α : Type} {items : List α} {Taken : Code → Prop} {slot}
    (h : if items.isEmpty then code = [] else ∃ taken, Taken taken
      ∧ code = emit (.readLocal 0 slot) ++ taken) (htaken : ∀ c, Taken c → Changes D [k] c [])
    (hp : Layout.place? (⟨places, catches, entry⟩ :: L) 0 slot.toNat = some k)
    (hread : k.read? = some k) (hD : Describes D (⟨places, catches, entry⟩ :: L))
    (hs : Safe D.tables rest (⟨places, catches, entry⟩ :: L)) :
    Safe D.tables (code ++ rest) (⟨places, catches, entry⟩ :: L) := by
  split at h
  · rwa [h]
  · obtain ⟨taken, hc, rfl⟩ := h
    rw [append_assoc]
    exact .step (a := []) (.readLocal hp hread) (htaken taken hc _ _ _ _ _ hD hs)

/-- **Code of a function** can be executed when the function has been called. -/
theorem function {params : List ArrayPatternElement} {namedParams : List ObjectPatternElement}
    {captures : List Capture} {pos named last : Code} {b : Block}
    {TakenArray TakenObject : Code → Prop}
    (hns : (functionScope params namedParams).reserved < UInt32.size)
    (hpos : if params.isEmpty then pos = [] else ∃ taken, TakenArray taken
      ∧ pos = emit (.readLocal 0 1) ++ taken)
    (hn : if namedParams.isEmpty then named = [] else ∃ taken, TakenObject taken
      ∧ named = emit (.readLocal 0 2) ++ taken) (harray : ∀ c, TakenArray c →
      Changes (D.inFunction (functionScope params namedParams) captures) [.array] c [])
    (ho : ∀ c, TakenObject c →
      Changes (D.inFunction (functionScope params namedParams) captures) [.object] c [])
    (hl : Changes (D.inFunction (functionScope params namedParams) captures) [] last [.value])
    (entry outer) (he : entry ≠ .block) :
    Safe D.tables (Lower.reserveSlots (functionScope params namedParams) ++ (pos ++ (named
        ++ (last ++ (Lower.detachSlots b ++ emit .ret)))))
      (⟨[.object, .array, .callee captures.length], [], entry⟩ :: outer) := by
  have hin : Describes (D.inFunction (functionScope params namedParams) captures)
      (⟨replicate (functionScope params namedParams).reserved .slot
        ++ [.object, .array, .callee captures.length], [], entry⟩ :: outer) :=
    .inFunction (slots_of_declareAll rfl rfl rfl) (by simp) he
  have hempty : Describes (D.inFunction {} captures)
      (⟨[.object, .array, .callee captures.length], [], entry⟩ :: outer) :=
    .inFunction (fun name slot hs => by cases hs) (by simp) he
  have hi := (append hl ((detachSlots b).above [.value])) _ [] entry _ (emit .ret) hin
    (.ret trivial he)
  have hargs := arguments hpos harray (by simp [Layout.place?]) rfl hin
    (arguments hn ho (by simp [Layout.place?]) rfl hin hi)
  have hreserve := reserveSlots (D := D.inFunction {} captures) hns _ [] entry _ _ hempty hargs
  simpa using hreserve

lemma makeFunction {index f} (hf : D.finished[index]? = some f)
    (hbody : ∀ entry outer, entry ≠ .block →
      Safe D.tables f.body (⟨[.object, .array, .callee f.captures.length], [], entry⟩ :: outer))
    (hcaptures : ∀ place ∈ f.captures, place.Small ∧ ∃ library name,
      Frame.Resolves library name D.frames place) :
    Changes D [] (.makeFunction (index + 1) :: f.captures.flatMap Lower.captureCode) [.value] := by
  intro places catches entry L rest hD hs
  have hc : f.captures.flatMap Lower.captureCode
      = (f.captures.map Lower.captureInstruction).map (.plain · none) := by
    rw [map_map, map_eq_flatMap]
    rfl
  rw [cons_append, hc]
  refine .makeFunction hf hbody (length_map ..) (fun i hi => ?_) hs
  obtain ⟨place, hp, rfl⟩ := mem_map.mp hi
  obtain ⟨hsmall, library, name, hres⟩ := hcaptures place hp
  exact captures hsmall hres hD

/-- **Code of a call.** -/
theorem call (d) :
    Changes D [.object, .array, .value]
      (emit (.pushScope 3) ++ ([.plain .call d] ++ emit .popScope)) [.value] := by
  intro places catches entry L rest _ hs
  exact .openCall trivial (.call (.closeScope trivial hs))

/-- **Code of a catch**: the guarded code leaves its value, and an error that it raises takes the
value's place. -/
theorem caught {b} (hwidth : (guarded ++ emit .leaveCatch).width < UInt32.size)
    (h : Changes (D.inBlock {}) [] guarded [.value]) :
    Changes D [] (emit (.pushScope 0)
      ++ (emit (.enterCatch (distance (guarded ++ emit .leaveCatch)))
      ++ (guarded ++ (emit .leaveCatch ++ (Lower.detachSlots b ++ emit .popScope))))) [.value] := by
  intro places catches entry L rest hD hs
  have hin : ∀ codes, Describes (D.inBlock {})
      (⟨[], codes, .block⟩ :: ⟨places, catches, entry⟩ :: L) := fun codes =>
    hD.inBlock fun name slot hslot => by cases hslot
  have hend : Safe D.tables (Lower.detachSlots b ++ (emit .popScope ++ rest))
      (⟨[.value], [], .block⟩ :: ⟨places, catches, entry⟩ :: L) :=
    ((detachSlots (D := D.inBlock {}) b).above [.value]) _ _ _ _ _ (hin [])
      (.closeScope trivial hs)
  have hguarded := h _ _ _ _
    (emit .leaveCatch ++ (Lower.detachSlots b ++ (emit .popScope ++ rest)))
    (hin [Lower.detachSlots b ++ (emit .popScope ++ rest)]) (.leaveCatch hend)
  have henter := Safe.enterCatch (d := none) (UInt32.toNat_ofNat_of_lt' hwidth)
    (by simpa using hguarded) hend
  simp only [append_assoc] at henter ⊢
  exact .openScope henter

/-- A value is taken, or its default is evaluated. -/
lemma arrayPopOrDefault (hwidth : absent.width < UInt32.size) (h : Changes D [] absent [.value]) :
    Changes D [.array] (emit (.arrayPopOrDefault (distance absent)) ++ absent)
      [.value, .array] := by
  intro places catches entry L rest hD hs
  rw [append_assoc]
  show Safe D.tables (.plain (.arrayPopOrDefault (distance absent)) none :: (absent ++ rest)) _
  exact .arrayPopOrDefault (UInt32.toNat_ofNat_of_lt' hwidth) hs
    (h.above [.array] _ _ _ _ _ hD hs)

lemma objectPopOrDefault {k key}
    (hk : D.HasConstant k (.string key)) (hwidth : absent.width < UInt32.size)
    (h : Changes D [] absent [.value]) :
    Changes D [.object] (emit (.objectPopOrDefault k (distance absent)) ++ absent)
      [.value, .object] := by
  intro places catches entry L rest hD hs
  rw [append_assoc]
  show Safe D.tables
    (.plain (.objectPopOrDefault k (distance absent)) none :: (absent ++ rest)) _
  exact .objectPopOrDefault hk (UInt32.toNat_ofNat_of_lt' hwidth) hs
    (h.above [.object] _ _ _ _ _ hD hs)

/-- What is taken apart is an array already, or is checked to be one. -/
lemma arrayCode {arguments es Rest Fixed} (h : ArrayCode D arguments es Rest Fixed code)
    (hk : if arguments then k = .array else k.Full)
    (hrest : ∀ c, Rest c → Changes D [.array] c [.array])
    (hfixed : ∀ c, Fixed c → Changes D [.array] c [.array]) : Changes D [k] code [] := by
  obtain ⟨check, rest, fixed, -, hcheck, hr, hf, rfl⟩ := h
  refine append (b := [.array]) ?_ (append (item fun _ _ => .arrayCopy) (append (hrest rest hr)
    (append (item fun _ _ => .arrayReverse) (append (hfixed fixed hf)
      (item fun _ _ => .discard trivial)))))
  unfold KindCode at hcheck
  cases arguments with
  | true =>
    cases hk
    cases hcheck
    exact nil _
  | false =>
    obtain ⟨w, hw, rfl⟩ := hcheck
    exact item fun _ _ => .validateArray hw hk

lemma objectCode {arguments es Properties} (h : ObjectCode D arguments es Properties code)
    (hk : if arguments then k = .object else k.Full)
    (hps : ∀ c, Properties c → Changes D [.object] c []) : Changes D [k] code [] := by
  obtain ⟨check, ps, -, hcheck, hp, rfl⟩ := h
  refine append (b := [.object]) ?_ (append (item fun _ _ => .objectCopy)
    (hps ps hp))
  unfold KindCode at hcheck
  cases arguments with
  | true =>
    cases hk
    cases hcheck
    exact nil _
  | false =>
    obtain ⟨w, hw, rfl⟩ := hcheck
    exact item fun _ _ => .validateObject hw hk

end Changes

/-! ## Lowered code is safe -/

open Changes in
mutual
/-- **Code of an expression pushes a value.** -/
theorem Lowered.changes {D : Draft} {label : String} {code : Code} : ∀ e,
    Lowered env D label e code → Changes D [] code [.value]
  | .literal value, h => by
    rw [Lowered] at h
    obtain ⟨name, -, hcode⟩ := h
    exact valueCode hcode
  | .name n (some module), h => by
    rw [Lowered] at h
    obtain ⟨exports, value, -, -, hcode⟩ := h
    exact valueCode hcode
  | .name n none, h => by
    rw [Lowered] at h
    exact nameCode h
  | .array es, h => by
    rw [Lowered] at h
    obtain ⟨items, hitems, rfl⟩ := h
    rw [← append_nil (emit .array ++ items)]
    exact append (append (item fun _ _ => .array) (LoweredElements.changes es hitems))
      (forget trivial)
  | .object xs, h => by
    rw [Lowered] at h
    obtain ⟨items, hitems, rfl⟩ := h
    rw [← append_nil (emit .object ++ items)]
    exact append (append (item fun _ _ => .object) (LoweredEntries.changes xs hitems))
      (forget trivial)
  | .defining ds r, h => by
    rw [Lowered] at h
    obtain ⟨body, last, captured, hbody, hl, hns, rfl⟩ := h
    have hi := append (LoweredDefinitions.changes ds hbody)
      (Lowered.changes r hl)
    have hblock := block (D := D) (b := { captured }) hns (slots_of_declareAll rfl rfl rfl)
      (fun outer rest hin hs => hi _ _ _ _ _ hin hs)
    simpa only [append_assoc] using hblock
  | .given params nps r, h => by
    rw [Lowered] at h
    obtain ⟨index, f, pos, named, last, captured, hf, -, hpos, hn, hl, hns,
      hbody, hcaptures, rfl⟩ := h
    refine makeFunction hf (fun entry outer he => ?_) hcaptures
    rw [hbody]
    exact function hns hpos hn
      (fun c hc => arrayCode hc rfl (fun _ => LoweredRest.changes params)
        fun _ => LoweredFixed.changes params)
      (fun c hc => objectCode hc rfl fun _ => LoweredProperties.changes nps)
      (Lowered.changes r hl) entry outer he
  | .calling fn args namedArgs, h => by
    rw [Lowered] at h
    obtain ⟨function, pos, named, hfunction, hpos, hn, rfl⟩ := h
    have hcall : Changes D [.object, .array, .value] (emit (.pushScope 3)
        ++ (Lower.callCode fn ++ emit .popScope)) [.value] := by
      unfold Lower.callCode
      split
      · exact call _
      · exact call _
    exact append (Lowered.changes fn hfunction)
      (append ((item fun _ _ => .array).above [.value])
      (append ((LoweredElements.changes args hpos).above [.value])
      (append ((item fun _ _ => .object).above [.array, .value])
      (append ((LoweredEntries.changes namedArgs hn).above [.array, .value]) hcall))))
  | .indexing coll key, h => by
    rw [Lowered] at h
    obtain ⟨first, second, hfirst, hsecond, rfl⟩ := h
    exact append (Lowered.changes coll hfirst)
      (append ((Lowered.changes key hsecond).above [.value])
        (item fun _ _ => .index trivial trivial))
  | .catching inner, h => by
    rw [Lowered] at h
    obtain ⟨guarded, captured, hguarded, hwidth, rfl⟩ := h
    exact caught hwidth (Lowered.changes inner hguarded)

lemma LoweredElements.changes {D code} : ∀ es,
    LoweredElements env D es code → Changes D [.array] code [.array]
  | [], h => by
    rw [LoweredElements] at h
    rw [h]
    exact nil _
  | .item e :: rest, h => by
    rw [LoweredElements] at h
    obtain ⟨first, os, hf, ho, rfl⟩ := h
    exact append ((Lowered.changes e hf).above [.array])
      (append (item fun _ _ => .arrayPush trivial) (LoweredElements.changes rest ho))
  | .spread e :: rest, h => by
    rw [LoweredElements] at h
    obtain ⟨first, os, hf, ho, rfl⟩ := h
    exact append ((Lowered.changes e hf).above [.array])
      (append (item fun _ _ => .arrayExtend trivial) (LoweredElements.changes rest ho))

lemma LoweredEntries.changes {D code} : ∀ es,
    LoweredEntries env D es code → Changes D [.object] code [.object]
  | [], h => by
    rw [LoweredEntries] at h
    rw [h]
    exact nil _
  | .entry key value :: rest, h => by
    rw [LoweredEntries] at h
    obtain ⟨first, second, os, hf, hsecond, ho, rfl⟩ := h
    exact append ((Lowered.changes key hf).above [.object])
      (append ((Lowered.changes value hsecond).above [.value, .object])
      (append (item fun _ _ => .objectPush trivial trivial) (LoweredEntries.changes rest ho)))
  | .spread e :: rest, h => by
    rw [LoweredEntries] at h
    obtain ⟨first, os, hf, ho, rfl⟩ := h
    exact append ((Lowered.changes e hf).above [.object])
      (append (item fun _ _ => .objectMerge trivial) (LoweredEntries.changes rest ho))

lemma LoweredDefinitions.changes {D code} :
    ∀ ds : List (Pattern × Expr), LoweredDefinitions env D ds code → Changes D [] code []
  | [], h => by
    rw [LoweredDefinitions] at h
    rw [h]
    exact nil _
  | (p, value) :: rest, h => by
    rw [LoweredDefinitions] at h
    obtain ⟨first, second, os, hf, hsecond, ho, rfl⟩ := h
    exact append (Lowered.changes value hf)
      (append (LoweredPattern.changes p hsecond trivial)
        (LoweredDefinitions.changes rest ho))

/-- **Code of a pattern takes a value away.** -/
theorem LoweredPattern.changes {D a k code} :
    ∀ p, LoweredPattern env D a p code → k.Full → Changes D [k] code []
  | .name n, h, hk => by
    rw [LoweredPattern] at h
    obtain ⟨slot, hslot, hsmall, rfl⟩ := h
    intro places catches entry L rest hD hs
    refine .writeLocal hk ?_ hs
    rw [UInt32.toNat_ofNat_of_lt' hsmall]
    exact hD.slot_of_block hslot
  | .checked p schema, h, hk => by
    rw [LoweredPattern] at h
    obtain ⟨w, inner, hw, -, hi, rfl⟩ := h
    exact append (item fun _ _ => .validate hw hk) (LoweredPattern.changes p hi hk)
  | .array es, h, hk => by
    rw [LoweredPattern] at h
    exact arrayCode h hk (fun c hc => LoweredRest.changes es hc)
      fun c hc => LoweredFixed.changes es hc
  | .object xs, h, hk => by
    rw [LoweredPattern] at h
    exact objectCode h hk fun c hc => LoweredProperties.changes xs hc

lemma LoweredRest.changes {D count code} :
    ∀ es, LoweredRest env D count es code → Changes D [.array] code [.array]
  | [], h => by
    rw [LoweredRest] at h
    rw [h]
    exact nil _
  | .rest p :: _, h => by
    rw [LoweredRest] at h
    obtain ⟨inner, hi, -, rfl⟩ := h
    exact append (item fun _ _ => .arrayCut _)
      ((LoweredPattern.changes p hi (k := .array) trivial).above [.array])
  | .required _ :: later, h | .optional _ _ :: later, h => by
    rw [LoweredRest] at h
    exact LoweredRest.changes later h

lemma LoweredFixed.changes {D arguments i code} :
    ∀ es, LoweredFixed env D arguments i es code → Changes D [.array] code [.array]
  | [], h | .rest _ :: _, h => by
    rw [LoweredFixed] at h
    rw [h]
    exact nil _
  | .required p :: later, h => by
    rw [LoweredFixed] at h
    obtain ⟨inner, os, hi, ho, -, rfl⟩ := h
    exact append (item fun _ _ => .arrayPop _)
      (append ((LoweredPattern.changes p hi (k := .value) trivial).above [.array])
        (LoweredFixed.changes later ho))
  | .optional p default :: later, h => by
    rw [LoweredFixed] at h
    obtain ⟨absent, inner, os, habsent, hi, ho, hwidth, rfl⟩ := h
    rw [← append_assoc]
    exact append (arrayPopOrDefault hwidth (Lowered.changes default habsent))
      (append ((LoweredPattern.changes p hi (k := .value) trivial).above [.array])
        (LoweredFixed.changes later ho))

lemma LoweredProperties.changes {D arguments code} :
    ∀ es, LoweredProperties env D arguments es code → Changes D [.object] code []
  | [], h => by
    rw [LoweredProperties] at h
    rw [h]
    exact item fun _ _ => .discard trivial
  | .rest p :: _, h => by
    rw [LoweredProperties] at h
    exact LoweredPattern.changes p h (k := .object) trivial
  | .property key p none :: later, h => by
    rw [LoweredProperties] at h
    obtain ⟨w, inner, os, hw, hi, ho, rfl⟩ := h
    exact append (item fun _ _ => .objectPop hw)
      (append ((LoweredPattern.changes p hi (k := .value) trivial).above [.object])
        (LoweredProperties.changes later ho))
  | .property key p (some default) :: later, h => by
    rw [LoweredProperties] at h
    obtain ⟨w, absent, inner, os, hw, habsent, hi, ho, hwidth, rfl⟩ := h
    rw [← append_assoc]
    exact append (objectPopOrDefault hw hwidth (Lowered.changes default habsent))
      (append ((LoweredPattern.changes p hi (k := .value) trivial).above [.object])
        (LoweredProperties.changes later ho))
end

/-- Code of library definitions assigns their slots. -/
lemma LoweredLibrary.safe {n outer}
    (hD : Describes D (⟨replicate n .slot, [], .block⟩ :: outer)) :
    ∀ ds {slot code rest},
      LoweredLibrary env D slot ds code → slot + ds.length ≤ n →
      Safe D.tables rest (⟨replicate n .slot, [], .block⟩ :: outer) →
      Safe D.tables (code ++ rest) (⟨replicate n .slot, [], .block⟩ :: outer)
  | [], slot, code, rest, h, _, hs => by
    rw [LoweredLibrary] at h
    rwa [h]
  | (name, e) :: ds, slot, code, rest, h, hn, hs => by
    rw [LoweredLibrary] at h
    obtain ⟨first, os, hf, ho, hsmall, rfl⟩ := h
    rw [length_cons] at hn
    have hnext := LoweredLibrary.safe hD ds ho (by omega) hs
    have hp : Layout.place? (⟨replicate n .slot, [], .block⟩ :: outer) 0
        (UInt32.ofNat slot).toNat = some .slot := by
      simp only [Layout.place?, getElem?_cons_zero, Option.bind_some, reverse_replicate,
        UInt32.toNat_ofNat_of_lt' hsmall, getElem?_replicate]
      rw [if_pos (by omega)]
    simp only [append_assoc]
    exact Lowered.changes e hf _ _ _ _ _ hD (.writeLocal trivial hp hnext)

/-- **A compiled program can be executed from its start.** -/
theorem Compiled.safe {P e body}
    (h : Compiled P env e D body) (outer) :
    Safe D.tables body (⟨[.object, .array, .callee 0], [], .host⟩ :: outer) := by
  have hD : Describes D (⟨[.object, .array, .callee 0], [], .host⟩ :: outer) :=
    { slots := fun library name depth slot hf => by
        simp only [Draft.frame, h.frames, head?_cons, Option.getD_some] at hf
        rcases Frame.lookupIn_cons hf with ⟨rfl, hslot⟩ | ⟨further, rfl, hrec⟩
        · cases hslot
        · cases hrec
      captured := ⟨0, rfl, by simp [Draft.frame, h.frames, Frame.ofBlock]⟩ }
  have hend : Safe D.tables (emit .ret)
      (⟨[.value] ++ [.object, .array, .callee 0], [], .host⟩ :: outer) :=
        .ret trivial fun h => by cases h
  obtain ⟨body, rfl, hbody⟩ := h.main
  split at hbody
  · exact Lowered.changes e hbody _ _ _ _ _ hD hend
  · obtain ⟨ds, last, captured, hds, hl, hns, rfl⟩ := hbody
    have hn : (libraryScope (env.retained e)).reserved = (env.retained e).length := by
      rw [libraryScope, Block.reserved, Block.nextSlot_declareAll, Block.firstSlot_declareAll,
        length_map]
      exact Nat.zero_add _
    have hi : ∀ outer rest, Describes (D.inBlock (libraryScope (env.retained e)))
        (⟨replicate (libraryScope (env.retained e)).reserved .slot, [], .block⟩ :: outer) →
        Safe D.tables rest (⟨.value :: replicate (libraryScope (env.retained e)).reserved .slot,
          [], .block⟩ :: outer) →
        Safe D.tables ((ds ++ last) ++ rest)
          (⟨replicate (libraryScope (env.retained e)).reserved .slot, [], .block⟩ :: outer) := by
      intro outer rest hin hs
      rw [append_assoc]
      exact LoweredLibrary.safe hin _ hds (by omega)
        (Lowered.changes e hl _ _ _ _ _ hin hs)
    have hblock := Changes.block (b := { captured }) hns
      (Changes.slots_of_declareAll rfl rfl rfl) hi
    have hs := hblock _ _ _ _ _ hD hend
    simpa only [append_assoc, nil_append] using hs

end TreeCode
