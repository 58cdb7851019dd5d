import Mathlib.Data.List.TakeDrop
import Mathlib.Data.List.TakeWhile
import TreeCode.Proofs.Actions

/-!
# Captured variables on the stack

The machine keeps the cells of captured variables whose slots are on the stack in the order of
descending slots. In that order a slot has one cell at most, searching for it may stop early, and
the cells of the slots that are cut off the stack come first.
-/

namespace TreeCode

open List

/-! ## Closing cells -/

namespace Heap

variable {contents : List (CellId × Option Value)} {k : CellId}

lemma closeCells_of_not_mem (hk : ∀ content, (k, content) ∉ contents) (h : Heap) :
    (h.closeCells contents).cells[k]? = h.cells[k]? := by
  induction contents generalizing h with
  | nil => rfl
  | cons x contents ih =>
    have hne : x.1 ≠ k := fun heq => hk x.2 (heq ▸ mem_cons_self)
    refine (ih (fun c hc => hk c (mem_cons_of_mem _ hc)) (h.setCell x.1 (.closed x.2))).trans ?_
    rw [setCell, Array.getElem?_setIfInBounds_ne hne]

lemma closeCells_of_mem {content} (hk : (k, content) ∈ contents)
    (hone : ∀ other, (k, other) ∈ contents → other = content) (h : Heap)
    (hlt : k < h.cells.size) : (h.closeCells contents).cells[k]? = some (.closed content) := by
  induction contents generalizing h with
  | nil => cases hk
  | cons x contents ih =>
    have hr : ∀ other, (k, other) ∈ contents → other = content :=
      fun other hmem => hone other (mem_cons_of_mem _ hmem)
    by_cases hmem : (k, content) ∈ contents
    · refine ih hmem hr (h.setCell x.1 (.closed x.2)) ?_
      rwa [setCell, Array.size_setIfInBounds]
    · obtain rfl := (mem_cons.mp hk).resolve_right hmem
      have hn : ∀ other, (k, other) ∉ contents := fun other h => hmem (hr other h ▸ h)
      refine (closeCells_of_not_mem hn (h.setCell k (.closed content))).trans ?_
      rw [setCell, Array.getElem?_setIfInBounds_self_of_lt hlt]

/-- What is on the stack afterwards was there before and has not been closed. -/
lemma onStack_of_closeCells {h : Heap}
    {slot} (hk : (h.closeCells contents).cells[k]? = some (.onStack slot)) :
    h.cells[k]? = some (.onStack slot) ∧ ∀ content, (k, content) ∉ contents := by
  induction contents generalizing h with
  | nil => exact ⟨hk, fun _ => not_mem_nil⟩
  | cons x contents ih =>
    obtain ⟨hbefore, hnot⟩ :=
      ih (show (Heap.closeCells (h.setCell x.1 (.closed x.2)) contents).cells[k]?
      = _ from hk)
    have hne : x.1 ≠ k := by
      rintro rfl
      rw [setCell, Array.getElem?_setIfInBounds_self] at hbefore
      split at hbefore <;> cases hbefore
    rw [setCell, Array.getElem?_setIfInBounds_ne hne] at hbefore
    refine ⟨hbefore, fun content hmem => ?_⟩
    rcases mem_cons.mp hmem with rfl | hmem
    · exact hne rfl
    · exact hnot content hmem

end Heap

namespace Machine

/-- **In the order of descending slots.** -/
abbrev Descending (cells : List (Nat × CellId)) : Prop := cells.Pairwise fun p q => q.1 < p.1

variable {cells own below : List (Nat × CellId)} {slot : Nat} {cell : CellId}

lemma mem_of_cellAt? (h : cellAt? slot cells = some cell) : (slot, cell) ∈ cells := by
  induction cells with
  | nil => cases h
  | cons p cells ih =>
    obtain ⟨other, c⟩ := p
    rw [cellAt?] at h
    split at h
    · next heq =>
      cases h
      subst heq
      exact mem_cons_self
    · split at h
      · cases h
      · exact mem_cons_of_mem _ (ih h)

lemma cellAt?_of_mem (hsorted : Descending cells) (h : (slot, cell) ∈ cells) :
    cellAt? slot cells = some cell := by
  induction cells with
  | nil => cases h
  | cons p cells ih =>
    obtain ⟨other, c⟩ := p
    obtain ⟨hf, hr⟩ := pairwise_cons.mp hsorted
    rw [cellAt?]
    rcases mem_cons.mp h with heq | h
    · cases heq
      rw [if_pos rfl]
    · have := hf _ h
      rw [if_neg (by dsimp only at this; omega), if_neg (by dsimp only at this; omega)]
      exact ih hr h

/-- A slot without a cell is not among the captured ones. -/
lemma ne_of_cellAt?_none (hsorted : Descending cells) (h : cellAt? slot cells = none) :
    ∀ p ∈ cells, p.1 ≠ slot := by
  rintro ⟨other, c⟩ hp rfl
  rw [cellAt?_of_mem hsorted hp] at h
  cases h

variable {p : Nat × CellId}

lemma mem_insertCell : p ∈ insertCell slot cell cells ↔ p = (slot, cell) ∨ p ∈ cells := by
  induction cells with
  | nil => simp [insertCell]
  | cons q cells ih =>
    obtain ⟨other, c⟩ := q
    rw [insertCell]
    split
    · simp
    · rw [mem_cons, ih, mem_cons]
      exact or_left_comm

lemma descending_insertCell (hsorted : Descending cells) (hnew : ∀ p ∈ cells, p.1 ≠ slot) :
    Descending (insertCell slot cell cells) := by
  induction cells with
  | nil => exact pairwise_singleton _ _
  | cons q cells ih =>
    obtain ⟨other, c⟩ := q
    obtain ⟨hf, hr⟩ := pairwise_cons.mp hsorted
    rw [forall_mem_cons] at hnew
    rw [insertCell]
    split
    · next hlt =>
      refine pairwise_cons.mpr ⟨forall_mem_cons.mpr ⟨hlt, fun p hp => ?_⟩, hsorted⟩
      exact Nat.lt_trans (hf p hp) hlt
    · next hge =>
      refine pairwise_cons.mpr ⟨fun p hp => ?_, ih hr hnew.2⟩
      rcases mem_insertCell.mp hp with rfl | hp
      · have := hnew.1
        dsimp only at this ⊢
        omega
      · exact hf p hp

/-! ## Above other cells -/

section Append

variable (hb : ∀ p ∈ below, p.1 < slot)

include hb

lemma cellAt?_below : cellAt? slot below = none := by
  cases below with
  | nil => rfl
  | cons p below =>
    have := hb p mem_cons_self
    rw [cellAt?, if_neg (by omega), if_pos this]

lemma cellAt?_append : cellAt? slot (own ++ below) = cellAt? slot own := by
  induction own with
  | nil => exact cellAt?_below hb
  | cons p own ih => rw [cons_append, cellAt?, cellAt?, ih]

lemma insertCell_append :
    insertCell slot cell (own ++ below) = insertCell slot cell own ++ below := by
  induction own with
  | nil =>
    cases below with
    | nil => rfl
    | cons p below =>
      obtain ⟨other, c⟩ := p
      show (if other < slot then (slot, cell) :: (other, c) :: below
        else (other, c) :: insertCell slot cell below) = _
      rw [if_pos (hb _ mem_cons_self)]
      rfl
  | cons p own ih =>
    obtain ⟨other, c⟩ := p
    rw [cons_append, insertCell, insertCell, ih]
    split <;> rfl

lemma eraseP_append : (own ++ below).eraseP (·.1 == slot) = own.eraseP (·.1 == slot) ++ below := by
  by_cases h : ∃ p ∈ own, (p.1 == slot) = true
  · obtain ⟨p, hp, hs⟩ := h
    exact eraseP_append_left (p := (·.1 == slot)) hs _ hp
  · have hn : ∀ p ∈ own, ¬ (p.1 == slot) = true := fun p hp hs => h ⟨p, hp, hs⟩
    rw [eraseP_append_right _ hn, eraseP_of_forall_not hn, eraseP_of_forall_not fun p hp => ?_]
    have := hb p hp
    rw [beq_iff_eq]
    omega

end Append

variable {height : Nat}

section

variable (hb : ∀ p ∈ below, p.1 < height)

include hb

lemma dropWhile_below :
    below.dropWhile (height ≤ ·.1) = below := by
  cases below with
  | nil => rfl
  | cons p below =>
    have := hb p mem_cons_self
    rw [dropWhile_cons_of_neg]
    simpa using this

lemma dropWhile_append_below :
    (own ++ below).dropWhile (height ≤ ·.1) = own.dropWhile (height ≤ ·.1) ++ below := by
  rw [dropWhile_append, dropWhile_below hb]
  split
  · next h => rw [isEmpty_iff.mp h, nil_append]
  · rfl

lemma takeWhile_append_below :
    (own ++ below).takeWhile (height ≤ ·.1) = own.takeWhile (height ≤ ·.1) := by
  have hnil : below.takeWhile (height ≤ ·.1) = [] := by
    cases below with
    | nil => rfl
    | cons p below => simp [hb p (mem_cons_self ..)]
  rw [takeWhile_append, hnil]
  split
  · next h => exact (append_nil _).trans ((List.takeWhile_prefix _).eq_of_length h).symm
  · rfl

end

/-- **The cells that are left when the stack is cut** are those of the slots below the cut. -/
theorem mem_dropWhile (hsorted : Descending cells) :
    p ∈ cells.dropWhile (height ≤ ·.1) ↔ p ∈ cells ∧ p.1 < height := by
  induction cells with
  | nil => simp
  | cons q cells ih =>
    obtain ⟨hf, hr⟩ := pairwise_cons.mp hsorted
    by_cases hq : height ≤ q.1
    · rw [dropWhile_cons_of_pos (by simpa using hq), ih hr, mem_cons]
      constructor
      · rintro ⟨hp, hlt⟩
        exact ⟨.inr hp, hlt⟩
      · rintro ⟨rfl | hp, hlt⟩
        · omega
        · exact ⟨hp, hlt⟩
    · rw [dropWhile_cons_of_neg (by simpa using hq), mem_cons]
      constructor
      · rintro (rfl | hp)
        · exact ⟨.inl rfl, by omega⟩
        · have := hf p hp
          exact ⟨.inr hp, by omega⟩
      · exact fun h => h.1

lemma mem_takeWhile (h : p ∈ cells.takeWhile (height ≤ ·.1)) : p ∈ cells ∧ height ≤ p.1 :=
  ⟨(List.takeWhile_prefix _).subset h, by simpa using mem_takeWhile_imp h⟩

/-- The cells that are left when one slot is detached. -/
lemma mem_eraseP (hsorted : Descending cells) : p ∈ cells.eraseP (·.1 == slot) ↔ p ∈ cells ∧
    p.1 ≠ slot := by
  induction cells with
  | nil => simp
  | cons q cells ih =>
    obtain ⟨hf, hr⟩ := pairwise_cons.mp hsorted
    by_cases hq : q.1 = slot
    · have hb : p ∈ cells → p.1 ≠ slot := by
        intro hp heq
        have := hf p hp
        omega
      rw [eraseP_cons_of_pos (by simpa using hq), mem_cons]
      constructor
      · exact fun hp => ⟨.inr hp, hb hp⟩
      · rintro ⟨rfl | hp, hne⟩
        · exact absurd hq hne
        · exact hp
    · rw [eraseP_cons_of_neg (by simpa using hq), mem_cons, ih hr, mem_cons]
      constructor
      · rintro (rfl | ⟨hp, hne⟩)
        · exact ⟨.inl rfl, hq⟩
        · exact ⟨.inr hp, hne⟩
      · rintro ⟨rfl | hp, hne⟩
        · exact .inl rfl
        · exact .inr ⟨hp, hne⟩

/-! ## Cutting the stack -/

variable (m : Machine)

/-- Cutting the stack changes nothing else. -/
lemma truncate_eq (height : Nat) : m.truncate height = { m with
    stack := (m.truncate height).stack
    openCells := (m.truncate height).openCells
    heap := (m.truncate height).heap } := by
  unfold truncate detachFrom
  cases m.openCells.span (height ≤ ·.1)
  rfl

lemma openCells_truncate (height : Nat) :
    (m.truncate height).openCells = m.openCells.dropWhile (height ≤ ·.1) := by
  simp only [truncate, detachFrom, span_eq_takeWhile_dropWhile]

lemma heap_truncate (height : Nat) : (m.truncate height).heap
    = m.heap.closeCells (m.contentsOf (m.openCells.takeWhile (height ≤ ·.1))) := by
  simp only [truncate, detachFrom, span_eq_takeWhile_dropWhile]

end Machine

end TreeCode
