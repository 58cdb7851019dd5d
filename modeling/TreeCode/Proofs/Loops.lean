import TreeCode.Proofs.Reentry
import TreeCode.Proofs.Stacks

/-!
# Dispatch loops of a program

What holds of a machine whenever a dispatch loop of a program has executed an instruction
(`Machine.Runs`): its stacks have a layout on which the code at `pc` is safe. A closure under
construction is a state of its own, since it must not be seen before all its variables are captured.

An instruction then goes on in such a state, raises an error on stacks that can be unwound
(`Machine.Unwinds`), leaves work to the host that completes the instruction, or ends the loop. It
never faults (`Lands`).
-/

namespace TreeCode

open List Machine

variable {S : Parts} {V : Slots}

/-! ## Slots for variables -/

/-- **Slots of the operand stack**, each with the index of the scope that it belongs to. -/
abbrev Slots := Nat → Nat → Prop

/-- All slots. -/
def Slots.all : Slots := fun _ _ => True

/-- **The variables of a layout have the given slots**, above the machine that entered the loop. -/
def Layout.Within (V : Slots) (b : Machine) : Layout → Prop
  | [] => True
  | level :: L => (∀ k, level.places.reverse[k]? = some .slot →
      V (b.scopes.size + L.length) (b.stack.size + (Layout.contents L).length + k)) ∧ Within V b L

variable {b : Machine} {L : Layout} {a d ks : List Content} {cs : List Code}
  {entry : Entry}

namespace Layout.Within

variable {W : Slots} {outer : Layout} {catches' : List Code} {entry' : Entry}

/-- Other scopes have other slots. -/
lemma level (h : Within V b L) (hd : Content.slot ∉ d) :
    Within V b (⟨d, cs, entry⟩ :: L) :=
  ⟨fun _ hk => absurd (mem_reverse.mp (mem_of_getElem? hk)) hd, h⟩

/-- What is put above a scope's slots is no variable. -/
lemma replace (h : Within V b (⟨a ++ ks, cs, entry⟩ :: L)) (hd : Content.slot ∉ d) :
    Within V b (⟨d ++ ks, catches', entry'⟩ :: L) := by
  refine ⟨fun k hk => h.1 k ?_, h.2⟩
  dsimp only at hk ⊢
  rw [reverse_append] at hk ⊢
  rcases Nat.lt_or_ge k ks.reverse.length with hlt | hge
  · rwa [getElem?_append_left hlt] at hk ⊢
  · rw [getElem?_append_right hge] at hk
    exact absurd (mem_reverse.mp (mem_of_getElem? hk)) hd

lemma suffix (h : Within V b L) (hsuffix : outer <:+ L) : Within V b outer := by
  obtain ⟨inner, rfl⟩ := hsuffix
  induction inner with
  | nil => exact h
  | cons level inner ih => exact ih h.2

/-- Only the slots below the top of the layout matter. -/
lemma restrict (h : Within V b L) (hVW : ∀ d i, d < b.scopes.size + L.length →
    i < b.stack.size + L.contents.length → V d i → W d i) : Within W b L := by
  induction L with
  | nil => trivial
  | cons level L ih =>
    have hlen : Layout.contents (level :: L) = level.places ++ Layout.contents L := rfl
    rw [hlen, List.length_append, List.length_cons] at hVW
    refine ⟨fun k hk => hVW _ _ (by omega) ?_ (h.1 k hk),
      ih h.2 fun d i hd hi => hVW d i (by omega) (by omega)⟩
    have := (List.getElem?_eq_some_iff.mp hk).1
    rw [List.length_reverse] at this
    omega

end Layout.Within

/-- **The slot is one of the given ones**, and its scope is on the scope stack. -/
def Machine.Houses (V : Slots) (m : Machine) (i : Nat) : Prop :=
  ∃ d s, V d i ∧ m.scopes[d]? = some s ∧ s.base ≤ i

variable {i height slot : Nat} {live : List Machine}

namespace Stacked

variable {ops : List (Option Value)} {scopes : List Scope} {calls : List Call}

variable (h : Stacked S b L ops scopes calls live)

include h

lemma length_scopes :
    scopes.length = b.scopes.size + L.length := by
  induction h with
  | base _ => rw [length_scopeList]; rfl
  | block _ _ _ ih => rw [length_cons, length_cons, ih]; rfl
  | call _ _ _ ih => rw [length_cons, length_cons, ih]; rfl

/-- One more scope has its slots above its base. -/
lemma houses_level {targets} (hsl : Layout.Within V b (⟨ks, cs, entry⟩ :: L))
    (ho : ∀ {i}, L.contents.reverse[i]? = some .slot →
      ∃ d s, V d (b.stack.size + i) ∧ scopes.reverse[d]? = some s ∧ s.base ≤ b.stack.size + i)
    (hi : (Layout.contents (⟨ks, cs, entry⟩ :: L)).reverse[i]? = some .slot) :
    ∃ d s, V d (b.stack.size + i) ∧ (⟨ops.length, targets⟩ :: scopes).reverse[d]? = some s
      ∧ s.base ≤ b.stack.size + i := by
  rw [show Layout.contents (⟨ks, cs, entry⟩ :: L) = ks ++ L.contents from rfl,
    List.reverse_append] at hi
  rw [List.reverse_cons]
  rcases Nat.lt_or_ge i L.contents.reverse.length with hlt | hge
  · rw [List.getElem?_append_left hlt] at hi
    obtain ⟨d, s, hV, hs, hbase⟩ := ho hi
    exact ⟨d, s, hV, by rw [List.getElem?_append_left (List.getElem?_eq_some_iff.mp hs).1, hs],
      hbase⟩
  · rw [List.getElem?_append_right hge] at hi
    rw [List.length_reverse] at hge hi
    have hV := hsl.1 _ hi
    rw [show b.stack.size + L.contents.length + (i - L.contents.length) = b.stack.size + i by omega,
      ← h.length_scopes] at hV
    refine ⟨_, ⟨ops.length, targets⟩, hV, ?_, ?_⟩
    · rw [List.getElem?_append_right (by simp), List.length_reverse, Nat.sub_self]
      rfl
    · dsimp only
      rw [h.length_contents]
      omega

/-- **A slot of the layout belongs to a scope.** -/
theorem houses (hsl : L.Within V b) (hi : L.contents.reverse[i]? = some .slot) :
    ∃ d s, V d (b.stack.size + i) ∧ scopes.reverse[d]? = some s ∧ s.base ≤ b.stack.size + i := by
  induction h generalizing i with
  | base _ => cases hi
  | block outer _ _ ih => exact outer.houses_level hsl (ih hsl.2) hi
  | call outer _ _ ih => exact outer.houses_level hsl (ih hsl.2) hi

end Stacked

/-! ## Captured variables on the stack -/

/-- **The captured variables on the stack** are slots of the layout, by descending slot, above those
that the loop was entered with. -/
structure OpenCells (b : Machine) (L : Layout) (cells : List (Nat × CellId)) : Prop where
  below : ∀ p ∈ b.openCells, p.1 < b.stack.size
  own : ∃ own, cells = own ++ b.openCells ∧ Descending own
    ∧ ∀ p ∈ own, ∃ i, p.1 = b.stack.size + i ∧ L.contents.reverse[i]? = some .slot

namespace OpenCells

variable {L' : Layout} {cells : List (Nat × CellId)}

variable (h : OpenCells b L cells)

include h

lemma lt_length :
    ∀ p ∈ cells, p.1 < L.contents.length + b.stack.size := by
  obtain ⟨own, rfl, -, hown⟩ := h.own
  intro p hp
  rcases List.mem_append.mp hp with hp | hp
  · obtain ⟨i, hi, hs⟩ := hown p hp
    obtain ⟨hlt, -⟩ := List.getElem?_eq_some_iff.mp hs
    rw [List.length_reverse] at hlt
    omega
  · have := h.below p hp
    omega

/-- Slots stay slots while what lies above them changes. -/
lemma replace {a' rest} (hL : L.contents = a ++ rest)
    (ha : Content.slot ∉ a) (hL' : L'.contents = a' ++ rest) : OpenCells b L' cells where
  below := h.below
  own := by
    obtain ⟨own, heq, hsorted, hown⟩ := h.own
    refine ⟨own, heq, hsorted, fun p hp => ?_⟩
    obtain ⟨i, hi, hs⟩ := hown p hp
    refine ⟨i, hi, ?_⟩
    rw [hL, reverse_append] at hs
    rw [hL', reverse_append]
    rcases Nat.lt_or_ge i rest.reverse.length with hlt | hge
    · rwa [getElem?_append_left hlt] at hs ⊢
    · rw [getElem?_append_right hge] at hs
      exact absurd (mem_reverse.mp (mem_of_getElem? hs)) ha

/-- Only what lies on the operand stack matters. -/
lemma congr (hL : L'.contents = L.contents) : OpenCells b L' cells :=
  ⟨h.below, by rw [hL]; exact h.own⟩

/-- Cutting the stack leaves the captured variables below the cut. -/
lemma cut {more rest} (hL : L.contents = more ++ rest)
    (hL' : L'.contents = rest) (hheight : height = rest.length + b.stack.size) :
    OpenCells b L' (cells.dropWhile (height ≤ ·.1)) where
  below := h.below
  own := by
    obtain ⟨own, rfl, hsorted, hown⟩ := h.own
    have hb : ∀ p ∈ b.openCells, p.1 < height := fun p hp => by
      have := h.below p hp
      omega
    refine ⟨own.dropWhile (height ≤ ·.1), dropWhile_append_below hb,
      hsorted.sublist (dropWhile_sublist _), fun p hp => ?_⟩
    obtain ⟨hp, hlt⟩ := (mem_dropWhile hsorted).mp hp
    obtain ⟨i, hi, hs⟩ := hown p hp
    refine ⟨i, hi, ?_⟩
    rw [hL, reverse_append, getElem?_append_left (by rw [length_reverse]; omega)]
      at hs
    rw [hL', hs]

/-- One more slot is captured. -/
lemma insert (hi : L.contents.reverse[i]? = some .slot)
    (hnew : cellAt? (b.stack.size + i) cells = none) (cell) :
    OpenCells b L (insertCell (b.stack.size + i) cell cells) where
  below := h.below
  own := by
    obtain ⟨own, rfl, hsorted, hown⟩ := h.own
    have hb : ∀ p ∈ b.openCells, p.1 < b.stack.size + i := fun p hp => by
      have := h.below p hp
      omega
    rw [cellAt?_append hb] at hnew
    refine ⟨_, insertCell_append hb,
      descending_insertCell hsorted (ne_of_cellAt?_none hsorted hnew), fun p hp => ?_⟩
    rcases mem_insertCell.mp hp with rfl | hp
    · exact ⟨i, rfl, hi⟩
    · exact hown p hp

/-- A slot is detached. -/
lemma erase (i) :
    OpenCells b L (cells.eraseP (·.1 == b.stack.size + i)) where
  below := h.below
  own := by
    obtain ⟨own, rfl, hsorted, hown⟩ := h.own
    have hb : ∀ p ∈ b.openCells, p.1 < b.stack.size + i := fun p hp => by
      have := h.below p hp
      omega
    exact ⟨_, eraseP_append hb, hsorted.sublist eraseP_sublist,
      fun p hp => hown p (mem_of_mem_eraseP hp)⟩

end OpenCells

namespace Machine

variable {m m' : Machine}

/-! ## Machines of a layout -/

/-- **A machine between instructions of a loop**, whose stacks have a layout. -/
structure Fits (S : Parts) (V : Slots) (b : Machine) (L : Layout) (live : List Machine)
    (m : Machine) :
    Prop where
  stacked : Stacked S b L m.operands m.scopeList m.callList live
  cells : OpenCells b L m.openCells
  slots : L.Within V b
  floor : m.floor = b.heights
  depth : m.depth = b.depth + 1
  fault : m.fault = none
  heap : m.heap.Only S.Owns

/-- The machines differ in their stacks and in what no instruction depends on. -/
structure Beside (m m' : Machine) : Prop where
  openCells : m'.openCells = m.openCells
  floor : m'.floor = m.floor
  depth : m'.depth = m.depth
  fault : m'.fault = m.fault
  heap : m'.heap = m.heap

/-- The machines differ in their operands and in what no instruction depends on. -/
structure Alongside (m m' : Machine) : Prop extends Beside m m' where
  scopes : m'.scopes = m.scopes
  calls : m'.calls = m.calls

lemma alongside_withOperands (m : Machine) (ops) :
    Alongside m (m.withOperands ops) := ⟨⟨rfl, rfl, rfl, rfl, rfl⟩, rfl, rfl⟩

lemma Alongside.scopeList (h : Alongside m m') : m'.scopeList = m.scopeList := by
  rw [Machine.scopeList, h.scopes]
  rfl

lemma Alongside.callList (h : Alongside m m') : m'.callList = m.callList := by
  rw [Machine.callList, h.calls]
  rfl

namespace Fits

lemma congr (h : Fits S V b L live m) (halong : Alongside m m') (hops : m'.operands = m.operands) :
    Fits S V b L live m' where
  stacked := by rw [hops, halong.scopeList, halong.callList]; exact h.stacked
  cells := halong.openCells ▸ h.cells
  slots := h.slots
  floor := halong.floor.trans h.floor
  depth := halong.depth.trans h.depth
  fault := halong.fault.trans h.fault
  heap := halong.heap ▸ h.heap

lemma floor_stack (h : Fits S V b L live m) : m.floor.stack = b.stack.size := by
  rw [h.floor, heights]

variable {more : List Content} {t junk : List (Option Value)} {outer : List Scope} {s : Scope}
  {v : Value}

section

variable (h : Fits S V b (⟨a ++ ks, cs, entry⟩ :: L) live m)

include h

/-- The operands of the top places. -/
lemma split :
    ∃ seg ops, m.operands = seg ++ ops ∧ Forall₂ (Content.Holds S) a seg
      ∧ m.floor.stack ≤ ops.length := by
  obtain ⟨seg, below, targets, outer, hops, -, hseg, -, hlen, -⟩ := h.stacked.top
  refine ⟨seg.take a.length, seg.drop a.length ++ below, ?_, ?_, ?_⟩
  · rw [hops, ← append_assoc, take_append_drop]
  · exact forall₂_take_append seg _ _ hseg.flip |>.flip
  · rw [length_append, h.floor_stack]
    omega

/-- **The top places are replaced.** -/
theorem swap (ha : ∀ k ∈ a, k.Full) {s ops} (hops : m.operands = s ++ ops)
    (hlen : s.length = a.length) (ht : Forall₂ (Content.Holds S) d t)
    (hsl : Layout.Within V b (⟨d ++ ks, cs, entry⟩ :: L)) (halong : Alongside m m')
    (hops' : m'.operands = t ++ ops) :
    Fits S V b (⟨d ++ ks, cs, entry⟩ :: L) live m' where
  stacked := by
    obtain ⟨whole, below, targets, outer, heq, -, hw, hroot, -, -, hput⟩ := h.stacked.top
    obtain ⟨rest, rfl⟩ : ∃ rest, whole = s ++ rest := by
      have hle : s.length ≤ whole.length := by
        rw [hlen, ← hw.length_eq, length_append]
        omega
      refine ⟨whole.drop s.length, ?_⟩
      have htake : whole.take s.length = s := by
        have htake : (whole ++ below).take s.length = whole.take s.length :=
          take_append_of_le_length hle
        rw [← htake, ← heq, hops, take_left]
      calc whole = whole.take s.length ++ whole.drop s.length := (take_append_drop ..).symm
        _ = _ := by rw [htake]
    rw [hops, append_assoc] at heq
    have hr : Forall₂ (Content.Holds S) ks rest := by
      have := forall₂_drop_append _ _ _ hw
      rwa [hlen, drop_left] at this
    rw [hops', append_cancel_left heq, ← append_assoc, halong.scopeList, halong.callList]
    exact hput _ _ (rel_append ht hr) (hroot.replace (fun n hn => ha _ hn) d)
  cells := by
    rw [halong.openCells]
    exact h.cells.replace (append_assoc ..) (fun hs => ha _ hs) (append_assoc ..)
  slots := hsl
  floor := halong.floor.trans h.floor
  depth := halong.depth.trans h.depth
  fault := halong.fault.trans h.fault
  heap := halong.heap ▸ h.heap

/-- The top places are taken away. -/
lemma popped (ha : ∀ k ∈ a, k.Full) {s ops} (hops : m.operands = s ++ ops)
    (hlen : s.length = a.length) :
    Fits S V b (⟨ks, cs, entry⟩ :: L) live (m.withOperands ops) :=
  h.swap ha hops hlen (d := []) (t := []) .nil (h.slots.replace nofun)
    (alongside_withOperands m _) (operands_withOperands ..)

omit h in
/-- A value is put on top. -/
lemma pushed (h : Fits S V b (⟨ks, cs, entry⟩ :: L) live m) (hv : v.Only S.Owns) :
    Fits S V b (⟨.value :: ks, cs, entry⟩ :: L) live (m.withOperands (some v :: m.operands)) :=
  swap (a := []) (d := [.value]) (s := []) h nofun rfl rfl (.cons (Content.holds_value hv) .nil)
    (h.slots.replace (a := []) (by simp)) (alongside_withOperands m _) (operands_withOperands ..)

end

/-- The innermost scope lies above the floor. -/
lemma scope (h : Fits S V b (⟨ks, cs, entry⟩ :: L) live m) :
    ∃ base targets outer, m.scopeList = ⟨base, targets⟩ :: outer ∧
      m.floor.scopes ≤ outer.length := by
  obtain ⟨seg, below, targets, outer, -, hsc, -, -, -, hlen, -⟩ := h.stacked.top
  refine ⟨below.length, targets, outer, hsc, ?_⟩
  rw [h.floor, heights]
  exact hlen

section

variable (h : Fits S V b L live m)

include h

/-- **The loop's captured variables** lie in slots of scopes that are on the scope stack. -/
theorem own_cells :
    ∃ own, m.openCells = own ++ b.openCells
      ∧ ∀ p ∈ own, b.stack.size ≤ p.1 ∧ p.1 < m.stack.size ∧ m.Houses V p.1 := by
  obtain ⟨own, heq, -, hown⟩ := h.cells.own
  refine ⟨own, heq, fun p hp => ?_⟩
  obtain ⟨i, hi, hslot⟩ := hown p hp
  have hlt := h.cells.lt_length p (heq ▸ mem_append_left _ hp)
  rw [← h.stacked.length_contents, length_operands] at hlt
  obtain ⟨d, s, hV, hs, hbase⟩ := h.stacked.houses h.slots hslot
  refine ⟨by omega, hlt, d, s, hi ▸ hV, ?_, hi ▸ hbase⟩
  simpa [scopeList] using hs

/-- What the slots of captured variables hold, also under operands that do not belong to the
layout. -/
lemma cell_only (hside : Beside m m') (hops : m'.operands = junk ++ m.operands) :
    ∀ p ∈ m'.openCells, ∀ v, m'.slotContent p.1 = some v → v.Only S.Owns := by
  intro p hp v hv
  rw [hside.openCells] at hp
  have hlt := h.cells.lt_length p hp
  rw [m'.slotContent_append hops (by rw [h.stacked.length_contents]; omega)] at hv
  refine h.stacked.only v ?_
  cases hget : m.operands.reverse[p.1]? with
  | none => rw [hget] at hv; cases hv
  | some x =>
    rw [hget, Option.getD_some] at hv
    subst hv
    exact mem_reverse.mp (mem_of_getElem? hget)

/-- Cutting the stack adds to the heap what the slots held. -/
lemma truncate_heap (hside : Beside m m')
    (hops : m'.operands = junk ++ m.operands) (height : Nat) :
    (m'.truncate height).heap.Only S.Owns := by
  rw [heap_truncate]
  refine (hside.heap ▸ h.heap).closeCells fun x hx v hv => ?_
  obtain ⟨p, hp, rfl⟩ := mem_map.mp hx
  exact h.cell_only hside hops p (mem_takeWhile hp).1 v hv

/-- **The stack is cut to the base of a scope.** -/
theorem truncate (hside : Beside m m') {cut ops}
    (hops : m'.operands = junk ++ m.operands) (hcut : m.operands = cut ++ ops)
    {L' live'}
    (hcontents : L.contents = more ++ L'.contents) (hsl : L'.Within V b)
    (hstacked : Stacked S b L' ops m'.scopeList m'.callList live') :
    Fits S V b L' live' (m'.truncate ops.length) where
  stacked := by
    rw [m'.operands_truncate_append
      (show m'.operands = (junk ++ cut) ++ ops by rw [hops, hcut, append_assoc])]
    exact hstacked
  cells := by
    rw [openCells_truncate, hside.openCells]
    exact h.cells.cut hcontents rfl hstacked.length_contents
  slots := hsl
  floor := hside.floor.trans h.floor
  depth := hside.depth.trans h.depth
  fault := hside.fault.trans h.fault
  heap := h.truncate_heap hside hops _

omit h in
/-- A variable of the innermost scope is assigned. -/
lemma assign (h : Fits S V b (⟨ks, cs, entry⟩ :: L) live m)
    (hs : Layout.place? (⟨ks, cs, entry⟩ :: L) 0 slot = some .slot)
    (hscope : m.scopeList = s :: outer) (hv : v.Only S.Owns) :
    s.base + slot < m.operands.length
      ∧ Fits S V b (⟨ks, cs, entry⟩ :: L) live
          (m.withOperands (m.operands.reverse.set (s.base + slot) (some v)).reverse) := by
  have hset : ∀ {ps xs i},
      List.Forall₂ (Content.Holds S) ps xs → ps[i]? = some .slot →
      List.Forall₂ (Content.Holds S) ps (xs.set i (some v)) := by
    intro ps xs i hps hi
    induction hps generalizing i with
    | nil => cases hi
    | cons hx hr ih =>
      cases i with
      | zero =>
        cases hi
        exact .cons (fun w hw => by cases hw; exact hv) hr
      | succ i => exact .cons hx (ih hi)
  obtain ⟨seg, below, targets, rest, hops, hsc, hseg, hroot, hlen, -, hput⟩ := h.stacked.top
  rw [hscope] at hsc
  obtain ⟨rfl, -⟩ := List.cons.inj hsc
  have hp : ks.reverse[slot]? = some .slot := hs
  have hlt : slot < seg.length := by
    have := (List.getElem?_eq_some_iff.mp hp).1
    rwa [List.length_reverse, hseg.length_eq] at this
  refine ⟨by rw [hops, List.length_append]; dsimp only; omega, ?_, h.cells, h.slots, h.floor,
    h.depth,
    h.fault, h.heap⟩
  have hops' : (m.operands.reverse.set (below.length + slot) (some v)).reverse
      = (seg.reverse.set slot (some v)).reverse ++ below := by
    rw [hops, List.reverse_append, List.set_append_right _ _ (by simp), List.length_reverse,
      Nat.add_sub_cancel_left, List.reverse_append, List.reverse_reverse]
  rw [operands_withOperands, hops']
  refine hput _ _ ?_ hroot
  have := List.rel_reverse (hset (List.rel_reverse hseg) hp)
  rwa [List.reverse_reverse] at this

/-- What a captured variable holds. -/
lemma readCell_only {cell} (hv : m.readCell cell = some v) : v.Only S.Owns := by
  rw [readCell] at hv
  cases hc : m.heap.cell cell with
  | onStack slot =>
    rw [hc] at hv
    dsimp only at hv
    rw [slotContent_eq] at hv
    cases hget : m.operands.reverse[slot]? with
    | none => rw [hget] at hv; cases hv
    | some x =>
      rw [hget, Option.getD_some] at hv
      subst hv
      exact h.stacked.only v (mem_reverse.mp (mem_of_getElem? hget))
  | closed content =>
    rw [hc] at hv
    rw [Heap.cell] at hc
    cases hget : m.heap.cells[cell]? with
    | none =>
      rw [hget] at hc
      cases hc
      cases hv
    | some upvalue =>
      rw [hget, Option.getD_some] at hc
      have := h.heap.cells upvalue (Array.mem_of_getElem? hget)
      rw [hc] at this
      exact this v hv

end

/-- A captured variable of the innermost scope is detached. -/
lemma closeSlot (h : Fits S V b (⟨ks, cs, entry⟩ :: L) live m)
    (hscope : m.scopeList = s :: outer) (slot) :
    Fits S V b (⟨ks, cs, entry⟩ :: L) live (m.closeSlot (s.base + slot)) := by
  obtain ⟨seg, below, targets, rest, -, hsc, -, -, hlen, -⟩ := h.stacked.top
  rw [hscope] at hsc
  obtain ⟨rfl, -⟩ := cons.inj hsc
  obtain ⟨i, hi⟩ : ∃ i, below.length + slot = b.stack.size + i :=
    ⟨below.length + slot - b.stack.size, by omega⟩
  rw [closeSlot]
  split
  · next cell hc =>
    refine ⟨h.stacked, ?_, h.slots, h.floor, h.depth, h.fault, ?_⟩
    · show OpenCells b _ (m.openCells.eraseP (·.1 == below.length + slot))
      rw [hi]
      exact h.cells.erase i
    · refine h.heap.closeCells fun x hx v hv => ?_
      obtain ⟨p, hp, rfl⟩ := mem_map.mp hx
      rw [mem_singleton.mp hp] at hv
      exact h.cell_only ⟨rfl, rfl, rfl, rfl, rfl⟩ (nil_append _).symm _ (mem_of_cellAt? hc) v hv
  · exact h

end Fits

lemma pc_closeSlot (slot) : (m.closeSlot slot).pc = m.pc := by
  unfold closeSlot
  split <;> rfl

/-! ## Where an instruction leads -/

/-- **A closure is under construction** on top of the stack: some of its variables have been
captured, and the next instructions capture the others. -/
structure Constructs (S : Parts) (V : Slots) (b : Machine) (live : List Machine) (m : Machine)
    (ks : List Content) (cs : List Code) (entry : Entry) (L : Layout)
    (captures : List Instruction) (code : Code) (ops : List (Option Value)) (c : Closure)
    (index : Nat) (f : CodeFunction) : Prop where
  fits : Fits S V b (⟨ks, cs, entry⟩ :: L) live (m.withOperands ops)
  operands : m.operands = some (.closure c) :: ops
  fresh : m.fresh = some c.id
  more : captures ≠ []
  place : Code.At S.functions m.pc (captures.map (.plain · none) ++ code)
  capturable : ∀ i ∈ captures, Captures (⟨ks, cs, entry⟩ :: L) i
  safe : Safe S.tables code (⟨.value :: ks, cs, entry⟩ :: L)
  function : S.tables.finished[index]? = some f
  target : c.target = Code.offset S.functions (index + 1)
  count : c.upvalues.length + captures.length = f.captures.length
  body : ∀ entry outer, entry ≠ .block →
    Safe S.tables f.body (⟨[.object, .array, .callee f.captures.length], [], entry⟩ :: outer)

/-- **A machine about to execute an instruction of a loop.** -/
inductive Runs (S : Parts) (V : Slots) (b : Machine) (live : List Machine) (m : Machine) :
    Prop where
  | safe {L code} (fits : Fits S V b L live m) (place : Code.At S.functions m.pc code)
      (safe : Safe S.tables code L) : Runs S V b live m
  | constructs {ks cs entry L captures code ops c index f}
      (h : Constructs S V b live m ks cs entry L captures code ops c index f) :
      Runs S V b live m

/-- **A machine that can be unwound**: there may be anything above the operands of the layout. -/
inductive Unwinds (S : Parts) (V : Slots) (b : Machine) (live : List Machine) (m : Machine) :
    Prop where
  | intro {L : Layout} (junk ops : List (Option Value)) (operands : m.operands = junk ++ ops)
      (fits : Fits S V b L live (m.withOperands ops)) : Unwinds S V b live m

/-- **A machine at the end of a loop**, before the stacks are cut to the floor. -/
structure Leaves (S : Parts) (V : Slots) (b m : Machine) : Prop where
  operands : ∃ above, m.operands = above ++ b.operands
  scopes : ∃ above, m.scopeList = above ++ b.scopeList
  calls : ∃ above, m.callList = above ++ b.callList
  openCells : ∃ above, m.openCells = above ++ b.openCells
    ∧ ∀ p ∈ above, b.stack.size ≤ p.1 ∧ p.1 < m.stack.size ∧ m.Houses V p.1
  below : ∀ p ∈ b.openCells, p.1 < b.stack.size
  contents : ∀ p ∈ m.openCells, ∀ v, m.slotContent p.1 = some v → v.Only S.Owns
  floor : m.floor = b.heights
  depth : m.depth = b.depth + 1
  fault : m.fault = none
  heap : m.heap.Only S.Owns

/-- **A machine as it was**, with its operands and its captured variables, after work of the host
that handles closures of the program only. -/
structure Kept (S : Parts) (m m' : Machine) : Prop extends Restored m m' where
  stack : m'.stack = m.stack
  openCells : m'.openCells = m.openCells
  fault : m'.fault = none
  heap : m'.heap.Only S.Owns

/-- An action that completes an instruction goes on with the loop or raises an error. -/
def Continues (S : Parts) (V : Slots) (b : Machine) (live : List Machine) :
    EStateM.Result Trap Machine Unit → Prop
  | .ok () m => Runs S V b live m
  | .error (.raised e) m => e.Only S.Owns ∧ Unwinds S V b live m
  | .error (.fault _) _ => False

/-- **An instruction goes on with the loop**, ends it, raises an error, or leaves work to the host
that completes it, on a machine that is as it was. -/
def Lands (S : Parts) (V : Slots) (b : Machine) (live : List Machine) :
    EStateM.Result Trap Machine Signal → Prop
  | .ok .next m => Runs S V b live m
  | .ok (.yield v) m => v.Only S.Owns ∧ Leaves S V b m
  | .ok (.await job) m => Unwinds S V b live m ∧ (∀ v, some v ∈ m.operands → v.Only S.Owns)
      ∧ job.Handles S.Owns fun x => ∀ m', Kept S m m' → Continues S V b live (x m')
  | .error (.raised e) m => e.Only S.Owns ∧ Unwinds S V b live m
  | .error (.fault _) _ => False

end Machine

end TreeCode
