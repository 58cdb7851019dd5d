import TreeCode.Proofs.Tasks

/-!
# Captured variables and their cells

A captured variable lives in its slot as long as the slot is on the stack, and in its cell from then
on. Whatever the program is, the machine knows exactly the cells whose variables are on the stack,
each under its slot (`Machine.Wired`), and a cell that is detached keeps what the slot held at that
moment for good. When a run or a call by the host has ended, however it did, no cell that it made is
left on the stack (`Machine.Ends.detached`).
-/

namespace TreeCode

open List

variable {j slot fuel i : Nat} {m₀ m m₂ m' : Machine} {prog : Program} {host : Host}
  {S : Setting} {x : Option Value}

namespace Machine

variable {closing : List (Nat × CellId)} {c : CellId}

/-- **The machine knows the cells whose variables are on the stack**, each under its slot. -/
structure Wired (m : Machine) : Prop where
  sorted : Descending m.openCells
  mem_iff : ∀ {i c}, (i, c) ∈ m.openCells ↔ m.heap.cells[c]? = some (.onStack i)

lemma Wired.cellAt?_iff (h : m.Wired) :
    cellAt? i m.openCells = some c ↔ m.heap.cells[c]? = some (.onStack i) :=
  ⟨fun hc => h.mem_iff.mp (mem_of_cellAt? hc), fun hc => cellAt?_of_mem h.sorted (h.mem_iff.mpr hc)⟩

lemma Wired.slot_eq (h : m.Wired) (hi : (i, c) ∈ m.openCells)
    (hj : (j, c) ∈ m.openCells) : j = i := by
  have heq := (h.mem_iff.mp hj).symm.trans (h.mem_iff.mp hi)
  cases heq
  rfl

/-- Only the cells matter. -/
lemma Wired.congr (h : m.Wired) (openCells : m'.openCells = m.openCells)
    (cells : m'.heap.cells = m.heap.cells) : m'.Wired :=
  ⟨openCells ▸ h.sorted, by rw [openCells, cells]; exact h.mem_iff⟩

/-! ## Detaching -/

/-- **Some cells are detached**: each is given what its slot holds. -/
structure Detaches (closing : List (Nat × CellId)) (m m' : Machine) : Prop where
  sub : ∀ p ∈ closing, p ∈ m.openCells
  mem_iff : ∀ {p}, p ∈ m'.openCells ↔ p ∈ m.openCells ∧ p ∉ closing
  sublist : m'.openCells.Sublist m.openCells
  cells : m'.heap.cells = (m.heap.closeCells (m.contentsOf closing)).cells

namespace Detaches

lemma mem_contentsOf {content} :
    (c, content) ∈ m.contentsOf closing ↔ ∃ i, (i, c) ∈ closing ∧ m.slotContent i = content := by
  simp [contentsOf]

variable (h : Detaches closing m m')

include h

/-- The other cells are as they were. -/
lemma same (hc : ∀ i, (i, c) ∉ closing) :
    m'.heap.cells[c]? = m.heap.cells[c]? := by
  rw [h.cells]
  refine Heap.closeCells_of_not_mem (fun content hmem => ?_) _
  obtain ⟨i, hi, -⟩ := mem_contentsOf.mp hmem
  exact hc i hi

lemma closed (hm : m.Wired) (hi : (i, c) ∈ closing) :
    m'.heap.cells[c]? = some (.closed (m.slotContent i)) := by
  have hopen := h.sub _ hi
  rw [h.cells]
  refine Heap.closeCells_of_mem (mem_contentsOf.mpr ⟨i, hi, rfl⟩) (fun other hother => ?_) _
    (Array.getElem?_eq_some_iff.mp (hm.mem_iff.mp hopen)).1
  obtain ⟨j, hj, rfl⟩ := mem_contentsOf.mp hother
  rw [hm.slot_eq hopen (h.sub _ hj)]

lemma wired (hm : m.Wired) : m'.Wired where
  sorted := hm.sorted.sublist h.sublist
  mem_iff {i c} := by
    rw [h.mem_iff]
    constructor
    · rintro ⟨hi, hnot⟩
      rw [h.same fun j hj => hnot (hm.slot_eq hi (h.sub _ hj) ▸ hj)]
      exact hm.mem_iff.mp hi
    · intro hc
      rw [h.cells] at hc
      obtain ⟨hbefore, hnot⟩ := Heap.onStack_of_closeCells hc
      exact ⟨hm.mem_iff.mpr hbefore, fun hi => hnot _ (mem_contentsOf.mpr ⟨i, hi, rfl⟩)⟩

end Detaches

lemma detaches_truncate (hm : m.Wired) (height : Nat) :
    Detaches (m.openCells.takeWhile (height ≤ ·.1)) m (m.truncate height) where
  sub p hp := (mem_takeWhile hp).1
  mem_iff {p} := by
    rw [openCells_truncate, mem_dropWhile hm.sorted]
    refine and_congr_right fun hp => ⟨fun hlt htake => ?_, fun hnot => ?_⟩
    · exact absurd (mem_takeWhile htake).2 (by omega)
    · rw [← takeWhile_append_dropWhile (p := (height ≤ ·.1)) (l := m.openCells), mem_append] at hp
      exact ((mem_dropWhile hm.sorted).mp (hp.resolve_left hnot)).2
  sublist := by
    rw [openCells_truncate]
    exact dropWhile_sublist _
  cells := by rw [heap_truncate]

lemma detaches_closeSlot (hm : m.Wired) (hc : cellAt? slot m.openCells = some c) :
    Detaches [(slot, c)] m (m.closeSlot slot) := by
  have hmem := mem_of_cellAt? hc
  rw [closeSlot, hc]
  refine ⟨by simpa using hmem, fun {p} => ?_, eraseP_sublist, rfl⟩
  show p ∈ m.openCells.eraseP (·.1 == slot) ↔ _
  rw [mem_eraseP hm.sorted, mem_singleton]
  refine and_congr_right fun hp => not_congr ⟨fun heq => ?_, fun heq => by rw [heq]⟩
  obtain ⟨j, d⟩ := p
  dsimp only at heq
  subst heq
  have := cellAt?_of_mem hm.sorted hp
  rw [hc, Option.some.injEq] at this
  rw [this]

/-! ## Changes -/

variable {K : Machine → Machine → Prop}

/-- **Every change keeps the cells wired.** -/
theorem Change.wired (h : Change K m m') (hm : m.Wired) : m'.Wired := by
  cases h with
  | other _ openCells cells => exact hm.congr openCells cells
  | cut height => exact (detaches_truncate hm height).wired hm
  | detach slot =>
    cases hc : cellAt? slot m.openCells with
    | none => rwa [closeSlot, hc]
    | some c => exact (detaches_closeSlot hm hc).wired hm
  | @attach slot hnew =>
    refine ⟨descending_insertCell hm.sorted (ne_of_cellAt?_none hm.sorted hnew), fun {i c} => ?_⟩
    have hlt : ∀ {j}, m.heap.cells[c]? = some (.onStack j) → c < m.heap.cells.size :=
      fun hc => (Array.getElem?_eq_some_iff.mp hc).1
    show _ ↔ (m.heap.cells.push (.onStack slot))[c]? = _
    rw [mem_insertCell, hm.mem_iff, Array.getElem?_push, Prod.mk.injEq]
    split
    · next heq =>
      subst heq
      simp only [Heap.addCell, and_true, Option.some.injEq, Upvalue.onStack.injEq,
        eq_comm (a := i) (b := slot), or_iff_left_iff_imp]
      exact fun hc => absurd (hlt hc) (Nat.lt_irrefl _)
    · next hne => simp [Heap.addCell, hne]

/-- **A detached cell never changes.** -/
theorem Change.closed (h : Change K m m') (hm : m.Wired)
    (hc : m.heap.cells[c]? = some (.closed x)) : m'.heap.cells[c]? = some (.closed x) := by
  have hnot : ∀ i, (i, c) ∉ m.openCells := fun i hi => by
    rw [hm.mem_iff, hc] at hi
    cases hi
  have hdetaches : ∀ {closing k}, Detaches closing m k → k.heap.cells[c]? = some (.closed x) :=
    fun hd => (hd.same fun i hi => hnot i (hd.sub _ hi)).trans hc
  cases h with
  | other _ _ cells => rw [cells, hc]
  | cut height => exact hdetaches (detaches_truncate hm height)
  | detach slot =>
    cases hd : cellAt? slot m.openCells with
    | none => rwa [closeSlot, hd]
    | some d => exact hdetaches (detaches_closeSlot hm hd)
  | attach _ =>
    have hlt := (Array.getElem?_eq_some_iff.mp hc).1
    show (m.heap.cells.push _)[c]? = _
    rw [Array.getElem?_push_lt hlt, ← Array.getElem?_eq_getElem hlt, hc]

/-- **The variable is in its slot or has been detached**, with a content. -/
def Carries (i : Nat) (c : CellId) (x : Option Value) (m : Machine) : Prop :=
  ((i, c) ∈ m.openCells ∧ i < m.stack.size ∧ m.slotContent i = x)
    ∨ m.heap.cells[c]? = some (.closed x)

/-- The slot of a variable that is not detached is left alone. -/
lemma Carries.change (h : Change K m m') (hm : m.Wired) (hc : m.Carries i c x)
    (hs : (i, c) ∈ m'.openCells → i < m.stack.size →
      i < m'.stack.size ∧ m'.slotContent i = m.slotContent i)
    (hdetached : (i, c) ∈ m.openCells → (i, c) ∉ m'.openCells →
      m'.heap.cells[c]? = some (.closed (m.slotContent i))) : m'.Carries i c x := by
  rcases hc with ⟨hopen, hlt, rfl⟩ | hclosed
  · by_cases hopen' : (i, c) ∈ m'.openCells
    · exact .inl ⟨hopen', hs hopen' hlt⟩
    · exact .inr (hdetached hopen hopen')
  · exact .inr (h.closed hm hclosed)

/-- **A change that spares a slot keeps its variable**: the slot stays as it is, or the variable is
detached with what the slot holds. -/
theorem Change.carries (h : Change (Spares (i + 1)) m m') (hm : m.Wired) (hc : m.Carries i c x) :
    m'.Carries i c x := by
  refine hc.change h hm (fun hopen hlt => ?_) fun hopen hnot => ?_
  · have hcontent : m'.stack[i]? = m.stack[i]? →
        i < m'.stack.size ∧ m'.slotContent i = m.slotContent i := fun heq => by
      rw [Array.getElem?_eq_getElem hlt] at heq
      exact ⟨(Array.getElem?_eq_some_iff.mp heq).1, by
        rw [slotContent, slotContent, heq, Array.getElem?_eq_getElem hlt]⟩
    cases h with
    | other spares _ _ => exact hcontent (spares.stack i (Nat.lt_succ_self i) hlt)
    | cut height =>
      rw [openCells_truncate, mem_dropWhile hm.sorted] at hopen
      refine hcontent ?_
      show (m.stack.shrink height)[i]? = _
      rw [Array.shrink_eq_take]
      simp only [Array.getElem?_extract, Nat.zero_add]
      exact if_pos (by omega)
    | detach slot =>
      refine hcontent ?_
      unfold closeSlot
      split <;> rfl
    | attach _ => exact hcontent rfl
  · have hdetaches : ∀ {closing k}, Detaches closing m k → (i, c) ∉ k.openCells →
        k.heap.cells[c]? = some (.closed (m.slotContent i)) := fun hd hgone => by
      rw [hd.mem_iff] at hgone
      exact hd.closed hm (not_not.mp fun hnot => hgone ⟨hopen, hnot⟩)
    cases h with
    | other _ openCells _ => exact absurd (openCells ▸ hopen) hnot
    | cut height => exact hdetaches (detaches_truncate hm height) hnot
    | detach slot =>
      cases hd : cellAt? slot m.openCells with
      | none =>
        rw [closeSlot, hd] at hnot
        exact absurd hopen hnot
      | some d => exact hdetaches (detaches_closeSlot hm hd) hnot
    | attach _ => exact absurd (mem_insertCell.mpr (.inr hopen)) hnot

lemma Evolves.wired (h : Evolves m m') (hm : m.Wired) : m'.Wired := by
  induction h with
  | refl => exact hm
  | tail _ hchange ih => exact hchange.wired ih

lemma Evolves.closed (h : Evolves m m') (hm : m.Wired)
    (hc : m.heap.cells[c]? = some (.closed x)) : m'.heap.cells[c]? = some (.closed x) := by
  induction h with
  | refl => exact hc
  | tail hbefore hchange ih => exact hchange.closed (Evolves.wired hbefore hm) ih

lemma Touches.carries (h : Touches (i + 1) m m') (hm : m.Wired) (hc : m.Carries i c x) :
    m'.Carries i c x := by
  induction h with
  | refl => exact hc
  | tail hbefore hchange ih => exact hchange.carries ((Touches.evolves hbefore).wired hm) ih

/-- A change besides the cells comes first. -/
lemma Evolves.after (h : Evolves m₀ m') (openCells : m₀.openCells = m.openCells)
    (cells : m₀.heap.cells = m.heap.cells) : Evolves m m' :=
  .head (.other trivial openCells cells) h

end Machine

/-! ## Steps -/

variable {I P : Machine → Prop}

lemma Exec.Triple.ending {α : Type} {x : Exec α}
    (h : Exec.Triple I P x fun _ => I) (hm : P m) : I (x.ending m) := by
  have hx := h m hm
  unfold Exec.ending
  cases hr : x m with
  | ok a m' | error t m' =>
    rw [hr] at hx
    exact hx

/-- From where an instruction ends the loop goes on, or recovers from an error first. -/
lemma Progress.touches_ending (height : Nat) (x : Exec Machine.Signal) (m) :
    Machine.Touches height (x.ending m) (ofResult (x m)).machine :=
  touches_ofResult (x := fun _ => x m) .refl

variable {m₁ : Machine} {job : Job (Exec Unit)}

namespace Machine

variable {c : CellId}

/-- Only the operands and the cells matter. -/
lemma Carries.congr (h : m.Carries i c x) (stack : m'.stack = m.stack)
    (openCells : m'.openCells = m.openCells) (cells : m'.heap.cells = m.heap.cells) :
    m'.Carries i c x := by
  rwa [Carries, slotContent, stack, openCells, cells]

/-- With a budget spent, the loop recovers from the error or ends. -/
lemma touches_refused (h : ¬m.Counts S.limits) (height : Nat) :
    Touches height { m.counted with exhausted := true } (m.advance S).machine := by
  obtain ⟨e, -, -, hstep, -, -⟩ := advance_refused h
  rw [advance, hstep]
  exact Progress.touches_ofResult (x := fun m => .error (.raised e) m) .refl

lemma evolves_advance (S) (m : Machine) :
    Evolves m (m.advance S).machine := by
  by_cases hcs : m.Counts S.limits
  · rw [advance_counts hcs]
    have hordinary := (brief_uncounted S.program S.host).ordinary m.counted
    exact (Progress.touches_ofResult hordinary).evolves.after rfl rfl
  · exact (touches_refused hcs 0).evolves.after rfl rfl

variable {ins : Instruction}

/-- **A step keeps the variable of a slot** below the operands that the instruction takes, unless it
is an assignment. -/
theorem Carries.advance (hm : m.Wired)
    (hc : m.Carries i c x) (hd : Instruction.decode S.program.code m.pc = .ok ins)
    (hins : ∀ depth slot, ins ≠ .writeLocal depth slot) (hmargin : m.Margin (i + 1) ins.taken) :
    (m.advance S).machine.Carries i c x := by
  by_cases hcs : m.Counts S.limits
  · rw [Machine.advance, step_eq hcs hd]
    refine Touches.carries (Progress.touches_ofResult ?_) (hm.congr rfl rfl : (m.fetched ins).Wired)
      (hc.congr rfl rfl rfl)
    have hfetched : (m.fetched ins).Margin (i + 1) ins.taken := hmargin
    exact (takes_execute _ _ ins hins (i + 1) _ hfetched.poised).1.touches
  · exact (touches_refused hcs (i + 1)).carries (hm.congr rfl rfl) (hc.congr rfl rfl rfl)

/-! ### Assignments -/

section Assignments

open Exec

lemma triple_pop (hI : I m) : Triple I (· = m) pop fun v m' =>
    m' = { m with stack := m.stack.pop } ∧ m.stack.back? = some (some v) := by
  refine triple_get.bind fun k => ?_
  split
  · exact triple_fail fun _ h => h.2 ▸ hI
  · split
    · next v hv =>
      rintro _ ⟨rfl, rfl⟩
      exact ⟨rfl, hv⟩
    · exact triple_fail fun _ h => h.2 ▸ hI

lemma triple_slotIndex (hI : I m) (depth slot) :
    Triple I (· = m) (slotIndex depth slot) fun index m' => m' = m ∧
      ∃ s, m.scopes[m.scopes.size - 1 - depth.toNat]? = some s ∧ index = s.base + slot.toNat := by
  refine triple_get.bind fun k => ?_
  split
  · exact triple_fail fun _ h => h.2 ▸ hI
  · split
    · next s hs =>
      dsimp only
      split
      · rintro _ ⟨rfl, rfl⟩
        exact ⟨rfl, s, hs, rfl⟩
      · exact triple_fail fun _ h => h.2 ▸ hI
    · exact triple_fail fun _ h => h.2 ▸ hI

/-- **The next instruction assigns a value to a slot.** -/
def Assigns (prog : Program) (i : Nat) (v : Value) (m : Machine) : Prop :=
  ∃ depth slot s, Instruction.decode prog.code m.pc = .ok (.writeLocal depth slot)
    ∧ m.scopes[m.scopes.size - 1 - depth.toNat]? = some s ∧ i = s.base + slot.toNat
    ∧ m.stack.back? = some (some v)

/-- The variable of a slot has a content that the slot had, or one that the next instruction of a
machine assigns to it. -/
def Follows (prog : Program) (i : Nat) (c : CellId) (m m' : Machine) : Prop :=
  ∃ x, m'.Carries i c x ∧ (x = m.slotContent i ∨ ∃ v, x = some v ∧ m.Assigns prog i v)

lemma Carries.follows (h : m'.Carries i c (m.slotContent i)) :
    Follows prog i c m m' := ⟨_, h, .inl rfl⟩

/-- An assignment writes to its slot only. -/
lemma follows_writeLocal {depth slot}
    (hd : Instruction.decode prog.code m.pc = .ok (.writeLocal depth slot))
    (hc : (i, c) ∈ m.openCells) (hi : i + 1 < m.stack.size) :
    Triple (Follows prog i c m) (· = m.fetched ins) (writeLocal depth slot)
      fun _ => Follows prog i c m := by
  have hpopped : m.stack.pop[i]? = m.stack[i]? := by rw [Array.getElem?_pop, if_pos (by omega)]
  have hz : i < m.stack.pop.size := by
    rw [Array.size_pop]
    omega
  have hsame : Follows prog i c m { m.fetched ins with stack := m.stack.pop } :=
    Carries.follows (.inl ⟨hc, hz, by rw [slotContent, slotContent, hpopped]⟩)
  have hbefore : Follows prog i c m (m.fetched ins) :=
    Carries.follows (.inl ⟨hc, Nat.lt_of_succ_lt hi, rfl⟩)
  refine (triple_pop hbefore).bind fun v => ?_
  rintro m₁ ⟨rfl, hv⟩
  refine ((triple_slotIndex hsame depth slot).bind fun index => triple_modify ?_) _ rfl
  rintro m₁ ⟨rfl, s, hs, rfl⟩
  have hsize' : i < (m.stack.pop.setIfInBounds (s.base + slot.toNat) (some v)).size := by
    rwa [Array.size_setIfInBounds]
  by_cases heq : s.base + slot.toNat = i
  · refine ⟨some v, .inl ⟨hc, hsize', ?_⟩, .inr ⟨v, rfl, depth, slot, s, hd, hs, heq.symm, hv⟩⟩
    show (m.stack.pop.setIfInBounds _ _)[i]?.getD none = _
    rw [heq, Array.getElem?_setIfInBounds_self_of_lt hz, Option.getD_some]
  · refine Carries.follows (.inl ⟨hc, hsize', ?_⟩)
    show (m.stack.pop.setIfInBounds _ _)[i]?.getD none = _
    rw [Array.getElem?_setIfInBounds_ne heq, hpopped, slotContent]

lemma Follows.touches (h : Follows prog i c m m₁)
    (hm : m₁.Wired) (htouches : Touches (i + 1) m₁ m₂) : Follows prog i c m m₂ := by
  obtain ⟨x, hx, hc⟩ := h
  exact ⟨x, htouches.carries hm hx, hc⟩

end Assignments

/-- **A step keeps the variable of a slot** below the operands that the instruction takes, or
assigns to it. -/
theorem follows_advance (hm : m.Wired) (hc : (i, c) ∈ m.openCells)
    (hd : Instruction.decode S.program.code m.pc = .ok ins)
    (hmargin : i + ins.taken < m.stack.size) :
    Follows S.program i c m (m.advance S).machine := by
  have hcarries : m.Carries i c (m.slotContent i) := .inl ⟨hc, by omega, rfl⟩
  by_cases hwrite : ∀ depth slot, ins ≠ .writeLocal depth slot
  · refine (hcarries.advance hm hd hwrite ?_).follows
    unfold Margin
    omega
  simp only [ne_eq, not_forall, not_not] at hwrite
  obtain ⟨depth, slot, rfl⟩ := hwrite
  by_cases hcs : m.Counts S.limits
  · have htriple : Exec.Triple (Follows S.program i c m) (· = m.fetched (.writeLocal depth slot))
        (execute S.program S.host (.writeLocal depth slot))
        fun _ => Follows S.program i c m :=
      (follows_writeLocal hd hc hmargin).bind fun _ => Exec.triple_pure fun _ h => h
    have hordinary := (brief_execute S.program S.host (.writeLocal depth slot)).ordinary
    rw [Machine.advance, step_eq hcs hd]
    exact (htriple.ending rfl).touches ((hordinary _).evolves.wired (hm.congr rfl rfl))
      (Progress.touches_ending _ _ _)
  · exact ((touches_refused hcs (i + 1)).carries (hm.congr rfl rfl)
      (hcarries.congr rfl rfl rfl)).follows

/-! ### Work for the host -/

section Awaits

open Exec

/-- The action leaves the captured variables as they were, unless it ends in a trap. -/
abbrev KeepsCells {α : Type} (cells : List (Nat × CellId)) (x : Exec α) : Prop :=
  Triple (fun _ => True) (·.openCells = cells) x fun _ m => m.openCells = cells

/-- The instruction leaves the captured variables as they were if it leaves work to the host. -/
abbrev Awaits (cells : List (Nat × CellId)) (x : Exec Signal) : Prop :=
  Triple (fun _ => True) (·.openCells = cells) x
    fun signal m => ∀ job, signal = .await job → m.openCells = cells

variable {α : Type} {cells : List (Nat × CellId)}

lemma keepsCells_of_keeps {x : Exec α} (h : ∀ {I}, Keeps I x) :
    KeepsCells cells x := by
  intro m hm
  have hx := h (I := (·.openCells = cells)) m hm
  split at hx
  · exact hx
  · trivial

lemma keepsCells_pop : KeepsCells cells pop := by
  rintro m rfl
  exact (triple_pop (m := m) trivial).weaken (fun _ _ h => by rw [h.1]) m rfl

namespace Awaits

lemma bind {x : Exec α} {f} (hx : KeepsCells cells x)
    (hf : ∀ a, Awaits cells (f a)) : Awaits cells (x >>= f) :=
  Triple.bind hx hf

lemma raise (e) : Awaits cells (Machine.raise e) := triple_raise fun _ _ => trivial

lemma await (job) : Awaits cells (pure (.await job)) := triple_pure fun _ h _ _ => h

/-- An action before an instruction that leaves no work to the host may do anything. -/
lemma skip {x : Exec α} {f : α → Exec Signal}
    (hf : ∀ a, Triple (fun _ => True) (fun _ => True) (f a)
      fun signal m => ∀ job, signal = .await job → m.openCells = cells) :
    Triple (fun _ => True) P (x >>= f)
      fun signal m => ∀ job, signal = .await job → m.openCells = cells := by
  refine Triple.bind (fun m _ => ?_) hf
  split <;> trivial

lemma done {x : Exec α} {f : α → Signal} (hf : ∀ a job, f a ≠ .await job) :
    Triple (fun _ => True) P (x >>= fun a => pure (f a))
      fun signal m => ∀ job, signal = .await job → m.openCells = cells :=
  skip fun a => triple_pure fun _ _ job h => absurd h (hf a job)

lemma callNative (host : Host) (ref base) :
    Awaits cells (Machine.callNative host ref base) := by
  rw [callNative_eq]
  refine .bind (keepsCells_of_keeps (keeps_bundle base 1)) fun v => ?_
  split
  · refine .bind (keepsCells_of_keeps (keeps_bundle base 2)) fun w => ?_
    split
    · split
      · exact await _
      · exact raise _
    · exact triple_fail fun _ _ => trivial
  · exact triple_fail fun _ _ => trivial

lemma call (host : Host) : Awaits cells (Machine.call host) := by
  refine .bind (keepsCells_of_keeps keeps_scope) fun s => ?_
  refine .bind (keepsCells_of_keeps (keeps_bundle s.base 0)) fun f => ?_
  split
  · exact done nofun
  · exact callNative host _ s.base
  · exact raise _

lemma ret : Awaits cells Machine.ret := by
  refine skip fun r => skip fun m => ?_
  split
  · exact triple_fail fun _ _ => trivial
  · split
    · exact triple_fail fun _ _ => trivial
    · refine skip fun _ => ?_
      split
      · exact skip fun _ => skip fun _ => done fun _ _ h => by cases h
      · exact triple_pure fun _ _ _ h => by cases h

end Awaits

lemma awaits_execute (prog) (host : Host) (ins) :
    Awaits cells (execute prog host ins) := by
  cases ins with
  | arrayExtend => exact .bind keepsCells_pop fun _ => .await _
  | index => exact .bind keepsCells_pop fun _ => .bind keepsCells_pop fun _ => .await _
  | validate schema =>
    exact .bind (keepsCells_of_keeps (keeps_constant prog schema)) fun _ =>
      .bind (keepsCells_of_keeps keeps_top) fun _ => .await _
  | call => exact .call host
  | ret => exact .ret
  | _ => exact .done nofun

lemma thenNext_ne_await {x} : thenNext x m ≠ .ok (.await job) m' := by
  intro h
  change EStateM.bind x (fun _ => pure Signal.next) m = _ at h
  unfold EStateM.bind at h
  split at h <;> cases h

lemma openCells_of_await
    (h : execute prog host ins m = .ok (.await job) m') : m'.openCells = m.openCells := by
  have hawaits := awaits_execute prog host ins m rfl
  rw [h] at hawaits
  exact hawaits job rfl

end Awaits

end Machine

/-! ## Runs -/

namespace Task

open Machine

variable {ρ : Type}

/-- **Whatever runs, its machine evolves by changes.** -/
theorem evolves_of_outcome {t : Task ρ} {r}
    (ht : t.Brief) (h : t.outcome S fuel = some (r, m)) : Evolves t.machine m :=
  (ran_of_run ((run_eq S fuel t).trans h)).relates
    Relation.ReflTransGen.trans Touches.evolves (evolves_advance S) ht

end Task

namespace Machine

/-- The cells with a number of at least `n` that are on the stack are known to the machine. -/
def Listed (n : Nat) (m : Machine) : Prop :=
  ∀ i c, n ≤ c → m.heap.cells[c]? = some (.onStack i) → (i, c) ∈ m.openCells

variable {n : Nat}

/-- Cells are made with new numbers. -/
lemma listed_self (m : Machine) : m.Listed m.heap.cells.size := fun _ _ hle hc =>
  absurd (Array.getElem?_eq_some_iff.mp hc).1 (by omega)

variable {c : CellId}

/-- Of the first cell of a slot nothing is left, of the others everything. -/
lemma mem_eraseP_or {p} :
    ∀ {cells}, cellAt? slot cells = some c → p ∈ cells →
      p ∈ cells.eraseP (·.1 == slot) ∨ p = (slot, c)
  | (other, d) :: cells, hc, hp => by
    rw [cellAt?] at hc
    by_cases heq : other = slot
    · rw [if_pos heq, Option.some.injEq] at hc
      rw [eraseP_cons_of_pos (by simpa using heq), ← heq, ← hc]
      exact (mem_cons.mp hp).symm
    · rw [if_neg heq] at hc
      rw [eraseP_cons_of_neg (by simpa using heq), mem_cons]
      split at hc
      · cases hc
      · rcases mem_cons.mp hp with hhead | htail
        · exact .inl (.inl hhead)
        · exact (mem_eraseP_or hc htail).imp_left .inr

lemma Change.listed {K} (h : Change K m m') (hm : m.Listed n) :
    m'.Listed n := by
  intro i c hle hc
  cases h with
  | other _ openCells cells =>
    rw [cells] at hc
    exact openCells ▸ hm _ _ hle hc
  | cut height =>
    rw [heap_truncate] at hc
    obtain ⟨hbefore, hnot⟩ := Heap.onStack_of_closeCells hc
    have hmem := hm _ _ hle hbefore
    rw [← takeWhile_append_dropWhile (p := (height ≤ ·.1)) (l := m.openCells), mem_append] at hmem
    rw [openCells_truncate]
    exact hmem.resolve_left fun hi => hnot _ (Detaches.mem_contentsOf.mpr ⟨i, hi, rfl⟩)
  | detach slot =>
    unfold closeSlot at hc ⊢
    split at hc <;> rename_i hcell
    · obtain ⟨hbefore, hnot⟩ := Heap.onStack_of_closeCells hc
      refine (mem_eraseP_or hcell (hm _ _ hle hbefore)).resolve_right fun heq => ?_
      cases heq
      exact hnot _ (mem_singleton_self _)
    · exact hm _ _ hle hc
  | @attach slot _ =>
    refine mem_insertCell.mpr ?_
    have hc : (m.heap.cells.push (.onStack slot))[c]? = some (.onStack i) := hc
    rw [Array.getElem?_push] at hc
    split at hc
    · next heq =>
      cases hc
      exact .inl (by rw [heq]; rfl)
    · exact .inr (hm _ _ hle hc)

lemma Evolves.listed (h : Evolves m m') (hm : m.Listed n) : m'.Listed n := by
  induction h with
  | refl => exact hm
  | tail _ hchange ih => exact hchange.listed ih

/-- **When everything is cut off, the cells that are known are detached.** -/
theorem Listed.cleared (h : m.Listed n) (hle : n ≤ c) :
    m.cleared.heap.cells[c]? ≠ some (.onStack i) := by
  intro hc
  have hc : (m.truncate 0).heap.cells[c]? = some (.onStack i) := hc
  rw [heap_truncate] at hc
  obtain ⟨hbefore, hnot⟩ := Heap.onStack_of_closeCells hc
  refine hnot _ (Detaches.mem_contentsOf.mpr ⟨i, ?_, rfl⟩)
  rw [takeWhile_eq_self_iff.mpr fun _ _ => decide_eq_true (Nat.zero_le _)]
  exact h _ _ hle hbefore

section Runs

variable {outcome : Outcome}

lemma run_evolves (h : m.run S fuel = some (outcome, m')) :
    ∃ m₁, Evolves m m₁ ∧ m'.heap = m₁.cleared.heap := by
  simp only [run, Option.bind_eq_bind, Option.bind_eq_some_iff] at h
  obtain ⟨⟨r, m₁⟩, hentered, hr⟩ := h
  cases hr
  have hevolves := Task.evolves_of_outcome (t := .enter 0 .null [] [] m.started) trivial hentered
  exact ⟨m₁, hevolves.after rfl rfl, rfl⟩

lemma invoke_evolves {f args named}
    (h : m.invoke S f args named fuel = some (outcome, m')) :
    ∃ m₁, Evolves m m₁ ∧ m'.heap = m₁.cleared.heap := by
  simp only [invoke, Option.bind_eq_bind, Option.bind_eq_some_iff] at h
  obtain ⟨⟨r, m₁⟩, happlied, hr⟩ := h
  cases hr
  have hevolves := Task.evolves_of_outcome (t := .apply f args named m.started) trivial happlied
  exact ⟨m₁, hevolves.after rfl rfl, rfl⟩

end Runs

/-- **What a run or a call by the host leaves on the stack is known in vain**: when everything is
cut off, no cell is on the stack but such as were before and are not known. -/
theorem Evolves.detached (h : Evolves m m₁) (hm : m.Listed n)
    (hheap : m'.heap = m₁.cleared.heap) (hle : n ≤ c) (hlt : c < m'.heap.cells.size) :
    ∃ x, m'.heap.cells[c]? = some (.closed x) := by
  cases hc : m'.heap.cells[c]? with
  | none => exact absurd (Array.getElem?_eq_none_iff.mp hc) (Nat.not_le.mpr hlt)
  | some cell =>
    cases cell with
    | closed x => exact ⟨x, rfl⟩
    | onStack i =>
      rw [hheap] at hc
      exact absurd hc ((h.listed hm).cleared hle)

end Machine

/-! ## Sessions -/

/-- No cell is on a stack. -/
def Heap.Detached (h : Heap) : Prop := ∀ (c : CellId) (i : Nat), h.cells[c]? ≠ some (.onStack i)

namespace Machine

variable {heap : Heap}

lemma listed_start (h : heap.Detached) : (start heap).Listed 0 := fun _ _ _ hc => absurd hc (h _ _)

lemma wired_start (h : heap.Detached) : (start heap).started.Wired where
  sorted := Pairwise.nil
  mem_iff := ⟨fun hi => absurd hi not_mem_nil, fun hc => absurd hc (h _ _)⟩

lemma Evolves.detached_of_start (h : heap.Detached) (hm : Evolves (start heap) m₁)
    (hheap : m'.heap = m₁.cleared.heap) : m'.heap.Detached := fun c i hc => by
  obtain ⟨x, hx⟩ := hm.detached (listed_start h) hheap (Nat.zero_le c)
    (Array.getElem?_eq_some_iff.mp hc).1
  rw [hx] at hc
  cases hc

end Machine

/-- **Between the runs and calls of a session every cell is detached**, for every program. -/
theorem Session.detached {heap given}
    (h : Session prog host heap given) : heap.Detached := by
  induction h with
  | new => exact fun _ _ hc => by simp at hc
  | run _ hrun ih =>
    obtain ⟨m₁, hevolves, hheap⟩ := Machine.run_evolves hrun
    exact hevolves.detached_of_start ih hheap
  | call _ _ _ _ hcall ih =>
    obtain ⟨m₁, hevolves, hheap⟩ := Machine.invoke_evolves hcall
    exact hevolves.detached_of_start ih hheap

/-! ## What is reached -/

open Machine

/-- The work that the activity is about is completed by ordinary changes. -/
def Activity.Brief : Activity → Prop
  | .loop _ progress _ => progress.Brief
  | .perform .resume job _ => job.Yields Exec.Ordinary
  | _ => True

/-- A loop is resumed by ordinary changes when the host has done its work. -/
lemma Progress.ordinary_of_perform
    {r} (hjob : job.Yields Exec.Ordinary)
    (h : perform S fuel .resume job m = some (r, m')) :
    Touches 0 m' (resume m' r).machine ∧ (resume m' r).Brief := by
  refine ordinary_resume fun x hr => ?_
  subst hr
  exact yields_of_perform hjob h

namespace Leads

variable {a c : Activity}

lemma brief (h : Leads S a c) (ha : a.Brief) : c.Brief := by
  cases h with
  | @step b m live => exact brief_advance S m
  | await => exact ha
  | resume hperform => exact (Progress.ordinary_of_perform ha hperform).2
  | @answer purpose held request next m m' fuel response _ =>
    cases purpose with
    | resume => exact ha response
    | call | produce => trivial
  | _ => trivial

/-- **The machine of what an activity leads to has evolved by changes.** -/
theorem evolves (h : Leads S a c) (ha : a.Brief) : Evolves a.machine c.machine := by
  cases h with
  | @step b m live => exact evolves_advance S m
  | @resume b m m' live job fuel answer hperform =>
    have hperformed := Task.evolves_of_outcome (t := .perform .resume job m) ha hperform
    exact hperformed.trans (Progress.ordinary_of_perform ha hperform).1.evolves
  | enter _ => exact (Task.touches_opened 0 ..).evolves
  | ask => exact (Task.touches_holding ..).evolves
  | @answer purpose held request next m m' fuel response hrespond =>
    have hresponded := Task.evolves_of_outcome (t := .respond request (m.holding (held ++ m.held)))
      trivial hrespond
    exact ((Task.touches_holding ..).evolves.trans hresponded).trans
      (Task.touches_holding ..).evolves
  | produce _ => exact (Task.touches_setStream ..).evolves
  | @again id suspension rest m m' fuel hperform =>
    exact Task.evolves_of_outcome (t := .perform .produce suspension.produce m) trivial hperform
  | @tail id tail found m m' fuel head hforce =>
    exact Task.evolves_of_outcome (t := .force id m) trivial hforce
  | @collected id elements rest m m' fuel hcollect =>
    exact Task.evolves_of_outcome (t := .collect id [] m) trivial hcollect
  | _ => exact .refl

end Leads

end TreeCode
