import TreeCode.Proofs.Wiring

/-!
# Relocation

A function that runs on an empty machine runs in the same way on top of whatever another machine has
on its stacks: its operands, scopes and calls lie higher, the cells of the variables that its
closures captured before are those of the machine below, and that is all. `Ground.put G o` is the
machine `o` put on top of another one, and `Ground.Relocates G` says of an action that it does on
`G.put o` what it does on `o`. The pass over the instructions is made here; actions that fault on
`o` are not considered.
-/

namespace TreeCode

open Machine Array Option

/-- **A machine that a function can run on top of**: what its stacks refer to above its floor lies
on the operand stack, and so do its captured variables. -/
structure Machine.Firm (m : Machine) : Prop where
  floor_scopes : m.floor.scopes ≤ m.scopes.size
  floor_calls : m.floor.calls ≤ m.calls.size
  floor_stack : m.floor.stack ≤ m.stack.size
  cells : ∀ (c : CellId) (i : Nat), m.heap.cells[c]? = some (.onStack i) → i < m.stack.size
  openCells : ∀ p ∈ m.openCells, p.1 < m.stack.size
  callees : ∀ (j : Nat) (call : Call), m.floor.calls ≤ j → m.calls[j]? = some call →
    call.base < m.stack.size
  bases : ∀ (j : Nat) (s : Scope), m.floor.scopes ≤ j → m.scopes[j]? = some s →
    s.base ≤ m.stack.size

/-- **The ground that a function runs on**: the machine below, whose floor is that of the loop in
which the function runs, and where the function returns to. -/
structure Ground where
  base : Machine
  returnTo : Option Nat
  firm : base.Firm

namespace Ground

variable (G : Ground)

def height : Nat := G.base.stack.size

def scope (s : Scope) : Scope := { s with base := G.height + s.base }

/-- The first call is the function's own. -/
def call (index : Nat) (c : Call) : Call :=
  { base := G.height + c.base, returnTo := if index = 0 then G.returnTo else c.returnTo }

/-- A captured variable that the machine below has is that one. -/
def cell (id : CellId) (u : Upvalue) : Upvalue :=
  if id < G.base.heap.cells.size then G.base.heap.cell id
  else
    match u with
    | .onStack i => .onStack (G.height + i)
    | .closed x => .closed x

def slot (p : Nat × CellId) : Nat × CellId := (G.height + p.1, p.2)

/-- A floor on top of the ground. -/
def above (f : Floor) : Floor :=
  { scopes := G.base.scopes.size + f.scopes
    calls := G.base.calls.size + f.calls
    stack := G.height + f.stack }

/-- The loop that the function runs in has its own floor; those inside it stand on the function. -/
def floor (o : Machine) : Floor := if o.depth ≤ 1 then G.base.floor else G.above o.floor

def heap (h : Heap) : Heap := { h with cells := h.cells.mapIdx G.cell }

/-- **A machine on top of another one.** -/
def put (o : Machine) : Machine :=
  { o with
    stack := G.base.stack ++ o.stack
    scopes := G.base.scopes ++ o.scopes.map G.scope
    calls := G.base.calls ++ o.calls.mapIdx G.call
    openCells := o.openCells.map G.slot ++ G.base.openCells
    steps := G.base.steps + o.steps
    startedAt := G.base.startedAt
    floor := G.floor o
    depth := G.base.depth + o.depth
    held := o.held ++ G.base.held
    heap := G.heap o.heap }

/-- **The machine can be put there**: what it has captured from below holds the same. -/
structure Agrees (o : Machine) : Prop where
  wired : o.Wired
  size : G.base.heap.cells.size ≤ o.heap.cells.size
  outer : ∀ c < G.base.heap.cells.size, o.heap.cells[c]? = some (.closed (G.base.readCell c))
  depth : 1 ≤ o.depth
  floor : o.depth ≤ 1 → o.floor = {}
  exhausted : o.exhausted = false

/-- **A machine that runs there**: the function has not returned. -/
structure Suits (o : Machine) : Prop extends G.Agrees o where
  called : 0 < o.calls.size

variable {G} {o o' : Machine}

/-- Only the cells, the floor and the budgets matter. -/
lemma Agrees.congr (h : G.Agrees o) (openCells : o'.openCells = o.openCells)
    (cells : o'.heap.cells = o.heap.cells) (depth : o'.depth = o.depth) (floor : o'.floor = o.floor)
    (exhausted : o'.exhausted = o.exhausted) : G.Agrees o' where
  wired := h.wired.congr openCells cells
  size := cells ▸ h.size
  outer := cells ▸ h.outer
  depth := depth ▸ h.depth
  floor := depth ▸ floor ▸ h.floor
  exhausted := exhausted ▸ h.exhausted

/-- Changes of the cells are harmless. -/
lemma Agrees.evolves (h : G.Agrees o) (hevolves : Evolves o o') (depth : o'.depth = o.depth)
    (floor : o'.floor = o.floor) (exhausted : o'.exhausted = o.exhausted) : G.Agrees o' where
  wired := hevolves.wired h.wired
  size := by
    by_contra hlt
    have hcell := hevolves.closed h.wired (h.outer (G.base.heap.cells.size - 1) (by omega))
    have := (Array.getElem?_eq_some_iff.mp hcell).1
    omega
  outer c hc := hevolves.closed h.wired (h.outer c hc)
  depth := depth ▸ h.depth
  floor := depth ▸ floor ▸ h.floor
  exhausted := exhausted ▸ h.exhausted

/-- The variables on the stack have been captured since. -/
lemma Agrees.openCells_ge (h : G.Agrees o) {p} (hp : p ∈ o.openCells) :
    G.base.heap.cells.size ≤ p.2 ∧ p.2 < o.heap.cells.size := by
  have hc := h.wired.mem_iff.mp hp
  refine ⟨Nat.le_of_not_lt fun hlt => ?_, (Array.getElem?_eq_some_iff.mp hc).1⟩
  rw [h.outer _ hlt] at hc
  cases hc

/-- The calls are as they were, too. -/
lemma Suits.congr (h : G.Suits o) (openCells : o'.openCells = o.openCells)
    (cells : o'.heap.cells = o.heap.cells) (depth : o'.depth = o.depth) (floor : o'.floor = o.floor)
    (exhausted : o'.exhausted = o.exhausted) (calls : o'.calls = o.calls) : G.Suits o' where
  toAgrees := h.toAgrees.congr openCells cells depth floor exhausted
  called := calls ▸ h.called

lemma Suits.evolves (h : G.Suits o) (hevolves : Evolves o o') (depth : o'.depth = o.depth)
    (floor : o'.floor = o.floor) (exhausted : o'.exhausted = o.exhausted)
      (calls : o'.calls = o.calls) :
    G.Suits o' where
  toAgrees := h.toAgrees.evolves hevolves depth floor exhausted
  called := calls ▸ h.called

/-! ## What lies on the stacks -/

lemma size_stack : (G.put o).stack.size = G.height + o.stack.size := size_append

lemma size_scopes : (G.put o).scopes.size = G.base.scopes.size + o.scopes.size := by simp [put]

lemma size_calls : (G.put o).calls.size = G.base.calls.size + o.calls.size := by simp [put]

lemma stack_put (i) : (G.put o).stack[G.height + i]? = o.stack[i]? := by
  show (G.base.stack ++ o.stack)[G.base.stack.size + i]? = _
  rw [getElem?_append_right (Nat.le_add_right ..), Nat.add_sub_cancel_left]

lemma slotContent_put (i) : (G.put o).slotContent (G.height + i) = o.slotContent i := by
  rw [slotContent, slotContent, stack_put]

lemma slotContent_below {i} (hi : i < G.height) :
    (G.put o).slotContent i = G.base.slotContent i := by
  show (G.base.stack ++ o.stack)[i]?.getD none = _
  rw [getElem?_append_left hi, slotContent]

/-- The loop's floor lies under an operand of the function if there is one. -/
lemma floor_lt (h : G.Agrees o) {n} (hn : 0 < n) :
    G.height + n ≤ (G.put o).floor.stack ↔ n ≤ o.floor.stack := by
  show _ ≤ (G.floor o).stack ↔ _
  unfold floor
  split
  · next hd =>
    have := G.firm.floor_stack
    rw [h.floor hd]
    simp only [height]
    omega
  · simp [above]

lemma floor_stack_le : (G.put o).floor.stack ≤ G.height + o.floor.stack := by
  show (G.floor o).stack ≤ _
  unfold floor
  split
  · exact Nat.le_add_right_of_le G.firm.floor_stack
  · exact Nat.le_refl _

lemma floor_scopes_lt (h : G.Agrees o) (j) :
    G.base.scopes.size + j < (G.put o).floor.scopes ↔ j < o.floor.scopes := by
  show _ < (G.floor o).scopes ↔ _
  unfold floor
  split
  · next hd =>
    have := G.firm.floor_scopes
    rw [h.floor hd]
    simp only
    omega
  · simp [above]

lemma floor_calls_lt (h : G.Agrees o) (j) :
    G.base.calls.size + j < (G.put o).floor.calls ↔ j < o.floor.calls := by
  show _ < (G.floor o).calls ↔ _
  unfold floor
  split
  · next hd =>
    have := G.firm.floor_calls
    rw [h.floor hd]
    simp only
    omega
  · simp [above]

/-! ## Captured variables -/

lemma cell_put (c) : (G.put o).heap.cells[c]? = o.heap.cells[c]?.map (G.cell c) := getElem?_mapIdx

/-- **A captured variable holds the same.** -/
theorem readCell_put (h : G.Agrees o) (c) : (G.put o).readCell c = o.readCell c := by
  unfold readCell Heap.cell
  rw [cell_put]
  by_cases hlt : c < G.base.heap.cells.size
  · rw [h.outer c hlt]
    simp only [map_some, getD_some, cell, if_pos hlt, readCell, Heap.cell]
    rw [getElem?_eq_getElem hlt, getD_some]
    split
    · next i hc => exact slotContent_below (G.firm.cells c i (by rw [getElem?_eq_getElem hlt, hc]))
    · rfl
  · cases o.heap.cells[c]? with
    | none => rfl
    | some u =>
      simp only [map_some, getD_some, cell, if_neg hlt]
      cases u with
      | onStack i => exact slotContent_put i
      | closed x => rfl

/-! ## Detaching and capturing -/

lemma openCells_lt (i) : ∀ p ∈ G.base.openCells, p.1 < G.height + i :=
  fun p hp => Nat.lt_add_right i (G.firm.openCells p hp)

lemma cellAt?_map (i) : ∀ cells : List (Nat × CellId),
    cellAt? (G.height + i) (cells.map G.slot) = cellAt? i cells
  | [] => rfl
  | p :: cells => by
    simp only [List.map_cons, cellAt?, slot, Nat.add_left_cancel_iff, Nat.add_lt_add_iff_left,
      cellAt?_map i cells]

lemma cellAt?_put (i) : cellAt? (G.height + i) (G.put o).openCells = cellAt? i o.openCells :=
  (cellAt?_append (openCells_lt i)).trans (cellAt?_map i _)

lemma insertCell_map (i c) : ∀ cells : List (Nat × CellId),
    insertCell (G.height + i) c (cells.map G.slot) = (insertCell i c cells).map G.slot
  | [] => rfl
  | p :: cells => by
    have ih := insertCell_map i c cells
    simp only [List.map_cons, insertCell, slot, Nat.add_lt_add_iff_left]
    split
    · rfl
    · exact congrArg _ ih

lemma insertCell_put (i c) : insertCell (G.height + i) c (G.put o).openCells
    = (insertCell i c o.openCells).map G.slot ++ G.base.openCells :=
  (insertCell_append (openCells_lt i)).trans (congrArg (· ++ _) (insertCell_map i c _))

lemma eraseP_put (i) : (G.put o).openCells.eraseP (·.1 == G.height + i)
    = (o.openCells.eraseP (·.1 == i)).map G.slot ++ G.base.openCells := by
  refine (eraseP_append (openCells_lt i)).trans (congrArg (· ++ _) ?_)
  rw [List.eraseP_map]
  refine congrArg (List.map G.slot) (congrArg (List.eraseP · o.openCells) (funext fun p => ?_))
  exact Bool.eq_iff_iff.mpr (by simp [slot])

lemma takeWhile_put (i) : (G.put o).openCells.takeWhile (G.height + i ≤ ·.1)
    = (o.openCells.takeWhile (i ≤ ·.1)).map G.slot := by
  refine (takeWhile_append_below (openCells_lt i)).trans ?_
  rw [List.takeWhile_map]
  simp [Function.comp_def, slot]

lemma dropWhile_put (i) : (G.put o).openCells.dropWhile (G.height + i ≤ ·.1)
    = (o.openCells.dropWhile (i ≤ ·.1)).map G.slot ++ G.base.openCells := by
  refine (dropWhile_append_below (openCells_lt i)).trans (congrArg (· ++ _) ?_)
  rw [List.dropWhile_map]
  simp [Function.comp_def, slot]

lemma contentsOf_put (cells : List (Nat × CellId)) :
    (G.put o).contentsOf (cells.map G.slot) = o.contentsOf cells := by
  simp [contentsOf, slot, slotContent_put]

lemma heap_closeCells : ∀ contents (h : Heap),
    (∀ x ∈ contents, G.base.heap.cells.size ≤ x.1) →
    G.heap (h.closeCells contents) = (G.heap h).closeCells contents
  | [], _, _ => rfl
  | (c, x) :: contents, h, hall => by
    rw [List.forall_mem_cons] at hall
    have hset : G.heap (h.setCell c (.closed x)) = (G.heap h).setCell c (.closed x) := by
      simp [heap, Heap.setCell, mapIdx_setIfInBounds, cell, Nat.not_lt.mpr hall.1]
    exact (heap_closeCells contents _ hall.2).trans (congrArg (Heap.closeCells · contents) hset)

lemma contentsOf_ge (h : G.Agrees o) {cells}
    (hcells : ∀ p ∈ cells, p ∈ o.openCells) :
    ∀ x ∈ o.contentsOf cells, G.base.heap.cells.size ≤ x.1 := by
  intro x hx
  obtain ⟨p, hp, rfl⟩ := List.mem_map.mp hx
  exact (h.openCells_ge (hcells p hp)).1

lemma shrink_append {α : Type} (xs ys : Array α) (i) :
    (xs ++ ys).shrink (xs.size + i) = xs ++ ys.shrink i := by
  rw [shrink_eq_take, shrink_eq_take, take, take, extract_append,
    Nat.zero_sub, Nat.add_sub_cancel_left, extract_eq_self_of_le (Nat.le_add_right ..)]

/-- **Cutting the stack above the ground.** -/
theorem truncate_put (h : G.Agrees o) (i) :
    (G.put o).truncate (G.height + i) = G.put (o.truncate i) := by
  have hheap : ((G.put o).truncate (G.height + i)).heap = G.heap (o.truncate i).heap := by
    rw [heap_truncate, heap_truncate, takeWhile_put, contentsOf_put,
      heap_closeCells _ _ (contentsOf_ge h fun p hp => (mem_takeWhile hp).1)]
    rfl
  have hcells : ((G.put o).truncate (G.height + i)).openCells
      = (o.truncate i).openCells.map G.slot ++ G.base.openCells := by
    rw [openCells_truncate, openCells_truncate, dropWhile_put]
  have hs : ((G.put o).truncate (G.height + i)).stack = G.base.stack ++ (o.truncate i).stack :=
    shrink_append _ _ _
  exact (truncate_eq ..).trans (by rw [hheap, hcells, hs]; rfl)

lemma closeSlot_put (h : G.Agrees o) (i) :
    (G.put o).closeSlot (G.height + i) = G.put (o.closeSlot i) := by
  unfold closeSlot
  rw [cellAt?_put]
  cases hc : cellAt? i o.openCells with
  | none => rfl
  | some c =>
    have hheap : (G.put o).heap.closeCells ((G.put o).contentsOf [(G.height + i, c)])
        = G.heap (o.heap.closeCells (o.contentsOf [(i, c)])) := by
      have hmem : ∀ p ∈ [(i, c)], p ∈ o.openCells := by simpa using mem_of_cellAt? hc
      rw [heap_closeCells _ _ (contentsOf_ge h hmem)]
      exact congrArg _ (contentsOf_put [(i, c)])
    simp only [hheap, eraseP_put]
    rfl

/-- **Capturing a variable above the ground.** -/
theorem cellFor_put (h : G.Agrees o) (i) :
    (G.put o).cellFor (G.height + i) = ((o.cellFor i).1, G.put (o.cellFor i).2) := by
  unfold cellFor
  rw [cellAt?_put]
  cases cellAt? i o.openCells with
  | some c => rfl
  | none =>
    have hs : (G.put o).heap.cells.size = o.heap.cells.size := size_mapIdx
    have hheap : ((G.put o).heap.addCell (.onStack (G.height + i))).2
        = G.heap (o.heap.addCell (.onStack i)).2 := by
      simp only [put, Heap.addCell, heap, mapIdx_push, cell, if_neg (Nat.not_lt.mpr h.size)]
    simp only [hheap, hs, insertCell_put]
    rfl

/-! ## Actions -/

section Actions

variable {α β : Type} {Q : α → α → Prop} {R : β → β → Prop} {x y : Exec α}

variable (G) in
/-- **The action does on top of the ground what it does on its own**, up to a relation between the
results, unless it faults. -/
def Relocates (Q : α → α → Prop) (x y : Exec α) (o : Machine) : Prop :=
  match x o with
  | .ok a o' => G.Suits o' ∧ ∃ b, Q a b ∧ y (G.put o) = .ok b (G.put o')
  | .error (.raised e) o' => G.Suits o' ∧ y (G.put o) = .error (.raised e) (G.put o')
  | .error (.fault _) _ => True

variable (G) in
abbrev Repeats (Q : α → α → Prop) (x : Exec α) (o : Machine) : Prop := G.Relocates Q x x o

namespace Relocates

lemma ok {a b} (hx : x o = .ok a o') (h : G.Suits o') (hQ : Q a b)
    (hy : y (G.put o) = .ok b (G.put o')) : G.Relocates Q x y o := by
  unfold Relocates
  rw [hx]
  exact ⟨h, b, hQ, hy⟩

lemma raised {e} (hx : x o = .error (.raised e) o') (h : G.Suits o')
    (hy : y (G.put o) = .error (.raised e) (G.put o')) : G.Relocates Q x y o := by
  unfold Relocates
  rw [hx]
  exact ⟨h, hy⟩

lemma fault {f} (hx : x o = .error (.fault f) o') : G.Relocates Q x y o := by
  unfold Relocates
  rw [hx]
  trivial

lemma bind {f g} (h : G.Relocates Q x y o)
    (hf : ∀ a b o', x o = .ok a o' → G.Suits o' → Q a b → G.Relocates R (f a) (g b) o') :
    G.Relocates R (x >>= f) (y >>= g) o := by
  unfold Relocates at h
  cases hx : x o with
  | ok a o' =>
    rw [hx] at h
    obtain ⟨hs, b, hQ, hy⟩ := h
    have hnext := hf a b o' hx hs hQ
    unfold Relocates at hnext ⊢
    rw [Exec.bind_ok hx, Exec.bind_ok hy]
    exact hnext
  | error t o' =>
    rw [hx] at h
    cases t with
    | raised e => exact .raised (Exec.bind_error hx) h.1 (Exec.bind_error h.2)
    | fault _ => exact .fault (Exec.bind_error hx)

lemma pure {a b} (h : G.Suits o) (hQ : Q a b) :
    G.Relocates Q (Pure.pure a) (Pure.pure b) o := .ok rfl h hQ rfl

lemma raise (h : G.Suits o) (e) : G.Repeats Q (Machine.raise e) o := .raised rfl h rfl

lemma fail (f) : G.Relocates Q (Machine.fail f) y o := .fault rfl

/-- The machine is looked at. -/
lemma get {f g} (h : G.Relocates R (f o) (g (G.put o)) o) :
    G.Relocates R (get >>= f) (MonadState.get >>= g) o := h

lemma modify {f g} (h : G.Suits (f o)) (hf : g (G.put o) = G.put (f o)) :
    G.Relocates Eq (modify f) (modify g) o :=
  .ok rfl h rfl (congrArg (EStateM.Result.ok ()) hf)

lemma of_keeps {a} (hkeeps : ∀ {I}, Exec.Keeps I x) (hx : x o = .ok a o') :
    o' = o := by
  have h := hkeeps (I := (· = o)) o rfl
  rw [hx] at h
  exact h

/-- Something is found out first. -/
lemma look {f g} (h : G.Relocates Q x y o)
    (hkeeps : ∀ {I}, Exec.Keeps I x)
    (hf : ∀ a b, Q a b → G.Relocates R (f a) (g b) o) : G.Relocates R (x >>= f) (y >>= g) o :=
  h.bind fun a b _ hx _ hQ => of_keeps hkeeps hx ▸ hf a b hQ

/-- Something is done first with the same result. -/
lemma seq {f g} (h : G.Relocates Eq x y o)
    (hf : ∀ a o', G.Suits o' → G.Relocates R (f a) (g a) o') :
    G.Relocates R (x >>= f) (y >>= g) o :=
  h.bind fun a _ o' _ hs heq => heq ▸ hf a o' hs

end Relocates

lemma relocates_push (h : G.Suits o) (v : Value) : G.Repeats Eq (push v) o := by
  refine .modify (h.congr rfl rfl rfl rfl rfl rfl) ?_
  simp only [put, append_push]
  rfl

lemma back?_put (x) (h : o.stack.back? = some x) : (G.put o).stack.back? = some x := by
  show (G.base.stack ++ o.stack).back? = _
  rw [back?_append, h, some_or]

lemma pop_put (h : 0 < o.stack.size) : (G.put o).stack.pop = G.base.stack ++ o.stack.pop := by
  show (G.base.stack ++ o.stack).pop = _
  rw [pop_append, if_neg (by simpa using Nat.pos_iff_ne_zero.mp h)]

section

variable (h : G.Suits o)

include h

lemma relocates_pop : G.Repeats Eq pop o := by
  refine .get ?_
  by_cases hs : o.stack.size ≤ o.floor.stack
  · rw [if_pos hs]
    exact .fail _
  · have hpos : 0 < o.stack.size := by omega
    rw [if_neg hs, if_neg (by rwa [size_stack, floor_lt h.toAgrees hpos])]
    cases hback : o.stack.back? with
    | none => exact .fail _
    | some x =>
      rw [back?_put x hback, pop_put hpos]
      cases x with
      | none => exact .fail _
      | some v => exact .ok rfl (h.congr rfl rfl rfl rfl rfl rfl) rfl rfl

omit h in
lemma size_of_back? {x} (h : o.stack.back? = some x) : 0 < o.stack.size := by
  rw [Array.back?_eq_getElem?] at h
  have := (Array.getElem?_eq_some_iff.mp h).1
  omega

lemma relocates_replaceTop (hpos : 0 < o.stack.size) (v : Value) :
    G.Repeats Eq (replaceTop v) o := by
  refine .modify (h.congr rfl rfl rfl rfl rfl rfl) ?_
  simp only [pop_put hpos]
  simp only [put, append_push]
  rfl

lemma relocates_top :
    G.Relocates (fun v w => v = w ∧ 0 < o.stack.size) top top o := by
  refine .get ?_
  cases hback : o.stack.back? with
  | none => exact .fail _
  | some x =>
    rw [back?_put x hback]
    cases x with
    | none => exact .fail _
    | some v => exact .pure h ⟨rfl, size_of_back? hback⟩

lemma relocates_topArray :
    G.Relocates (fun es fs => es = fs ∧ 0 < o.stack.size) topArray topArray o := by
  refine (relocates_top h).look keeps_top ?_
  rintro v _ ⟨rfl, hpos⟩
  split
  · exact .pure h ⟨rfl, hpos⟩
  · exact .fail _

lemma relocates_topObject :
    G.Relocates (fun xs ys => xs = ys ∧ 0 < o.stack.size) topObject topObject o := by
  refine (relocates_top h).look keeps_top ?_
  rintro v _ ⟨rfl, hpos⟩
  split
  · exact .pure h ⟨rfl, hpos⟩
  · exact .fail _

/-- Something is done with the array on top. -/
lemma relocates_withArray {f}
    (hf : ∀ es, 0 < o.stack.size → G.Repeats R (f es) o) :
    G.Repeats R (topArray >>= f) o := by
  refine (relocates_topArray h).look keeps_topArray ?_
  rintro es _ ⟨rfl, hpos⟩
  exact hf es hpos

/-- Something is done with the object on top. -/
lemma relocates_withObject {f}
    (hf : ∀ xs, 0 < o.stack.size → G.Repeats R (f xs) o) :
    G.Repeats R (topObject >>= f) o := by
  refine (relocates_topObject h).look keeps_topObject ?_
  rintro xs _ ⟨rfl, hpos⟩
  exact hf xs hpos

/-! ### Scopes and calls -/

omit h in
lemma scopes_back? {s} (h : o.scopes.back? = some s) :
    (G.put o).scopes.back? = some (G.scope s) := by
  show (G.base.scopes ++ o.scopes.map G.scope).back? = _
  rw [back?_append, back?_map, h, map_some, some_or]

omit h in
lemma scopes_pop (h : 0 < o.scopes.size) :
    (G.put o).scopes.pop = G.base.scopes ++ o.scopes.pop.map G.scope := by
  show (G.base.scopes ++ o.scopes.map G.scope).pop = _
  rw [pop_append, if_neg (by simpa using Nat.pos_iff_ne_zero.mp h), map_pop]

lemma relocates_scope :
    G.Relocates (fun s t => t = G.scope s ∧ 0 < o.scopes.size) Machine.scope Machine.scope o := by
  refine .get ?_
  by_cases hs : o.scopes.size ≤ o.floor.scopes
  · rw [if_pos hs]
    exact .fail _
  · have hput : ¬ (G.put o).scopes.size ≤ (G.put o).floor.scopes := by
      have := (floor_scopes_lt h.toAgrees (o.scopes.size - 1)).not.mpr (by omega)
      rw [size_scopes]
      omega
    rw [if_neg hs, if_neg hput]
    cases hback : o.scopes.back? with
    | none => exact .fail _
    | some s =>
      rw [scopes_back? hback]
      exact .pure h ⟨rfl, by omega⟩

lemma relocates_modifyScope {f} (hf : ∀ s, f (G.scope s) = G.scope (f s)) :
    G.Repeats Eq (modifyScope f) o := by
  refine (relocates_scope h).look keeps_scope ?_
  rintro s _ ⟨rfl, hpos⟩
  refine .modify ?_ ?_
  · exact h.congr rfl rfl rfl rfl rfl rfl
  · simp only [scopes_pop hpos, hf]
    simp only [put, map_push, append_push]
    rfl

lemma relocates_slotIndex (depth slot : Word) :
    G.Relocates (fun i j => j = G.height + i) (slotIndex depth slot) (slotIndex depth slot) o := by
  refine .get ?_
  by_cases hs : o.scopes.size ≤ depth.toNat
  · rw [if_pos hs]
    exact .fail _
  · have hget : (G.put o).scopes[(G.put o).scopes.size - 1 - depth.toNat]?
        = o.scopes[o.scopes.size - 1 - depth.toNat]?.map G.scope := by
      rw [size_scopes, show G.base.scopes.size + o.scopes.size - 1 - depth.toNat
        = G.base.scopes.size + (o.scopes.size - 1 - depth.toNat) by omega]
      show (G.base.scopes ++ o.scopes.map G.scope)[_]? = _
      rw [getElem?_append_right (Nat.le_add_right ..), Nat.add_sub_cancel_left, getElem?_map]
    rw [if_neg hs, if_neg (by rw [size_scopes]; omega), hget]
    cases o.scopes[o.scopes.size - 1 - depth.toNat]? with
    | none => exact .fail _
    | some s =>
      have hbase : (G.scope s).base + slot.toNat = G.height + (s.base + slot.toNat) :=
        Nat.add_assoc ..
      simp only [map_some, hbase, size_stack, Nat.add_lt_add_iff_left]
      by_cases hlt : s.base + slot.toNat < o.stack.size
      · rw [if_pos hlt, if_pos hlt]
        exact .pure h rfl
      · rw [if_neg hlt]
        exact .fail _

omit h in
lemma calls_back? {c} (h : o.calls.back? = some c) :
    (G.put o).calls.back? = some (G.call (o.calls.size - 1) c) := by
  show (G.base.calls ++ o.calls.mapIdx G.call).back? = _
  rw [back?_append, back?_eq_getElem?, getElem?_mapIdx, size_mapIdx,
    ← back?_eq_getElem?, h, map_some, some_or]

lemma relocates_runningCallee : G.Repeats Eq runningCallee o := by
  refine .get ?_
  cases hback : o.calls.back? with
  | none => exact .fail _
  | some c =>
    rw [calls_back? hback]
    have hs : (G.put o).stack[(G.call (o.calls.size - 1) c).base]? = o.stack[c.base]? :=
      stack_put c.base
    simp only [hs]
    split
    · exact .pure h rfl
    · exact .fail _

lemma relocates_runningUpvalue (index : Word) :
    G.Repeats Eq (runningUpvalue index) o := by
  refine (relocates_runningCallee h).seq fun v o' hs => ?_
  split
  · split
    · exact .pure hs rfl
    · exact .fail _
  · exact .fail _

end

/-! ### Tables of the program -/

variable (prog : Program)

variable (h : G.Suits o)

include h

lemma relocates_diagnostic? :
    G.Repeats Eq (diagnostic? prog) o := .get (.pure h rfl)

lemma relocates_boundArgument? : G.Repeats Eq (boundArgument? prog) o :=
  (relocates_diagnostic? prog h).seq fun _ _ hs => .pure hs rfl

lemma relocates_constant (index : Word) :
    G.Repeats Eq (constant prog index) o := by
  unfold constant
  split
  · exact .pure h rfl
  · exact .fail _

lemma relocates_propertyKey (index : Word) :
    G.Repeats Eq (propertyKey prog index) o := by
  refine (relocates_constant prog h index).seq fun v o' hs => ?_
  split
  · exact .pure hs rfl
  · exact .fail _

lemma relocates_platformValue (index : Word) :
    G.Repeats Eq (platformValue prog index) o := by
  unfold platformValue
  split
  · exact .pure h rfl
  · exact .fail _

/-! ### Variables and scopes -/

lemma relocates_pushVariable (x : Option Value) :
    G.Repeats Eq (pushVariable prog x) o := by
  cases x with
  | some v => exact relocates_push h v
  | none => exact (relocates_diagnostic? prog h).seq fun _ _ hs => .raise hs _

lemma relocates_writeLocal (depth slot : Word) :
    G.Repeats Eq (writeLocal depth slot) o := by
  refine (relocates_pop h).seq fun v o' hs => ?_
  refine (relocates_slotIndex hs depth slot).look (keeps_slotIndex depth slot) ?_
  rintro i _ rfl
  refine .modify ?_ ?_
  · exact hs.congr rfl rfl rfl rfl rfl rfl
  · simp only [put, height, setIfInBounds_append_right (Nat.le_add_right ..),
      Nat.add_sub_cancel_left]
    rfl

lemma relocates_readLocal (depth slot : Word) :
    G.Repeats Eq (readLocal prog depth slot) o := by
  refine (relocates_slotIndex h depth slot).look (keeps_slotIndex depth slot) ?_
  rintro i _ rfl
  refine .get ?_
  rw [slotContent_put]
  exact relocates_pushVariable prog h _

lemma relocates_readUpvalue (index : Word) :
    G.Repeats Eq (runningUpvalue index >>= fun c => do pushVariable prog ((← get).readCell c))
      o := by
  refine (relocates_runningUpvalue h index).seq fun c o' hs => .get ?_
  rw [readCell_put hs.toAgrees]
  exact relocates_pushVariable prog hs _

lemma relocates_reserve (count : Nat) : G.Repeats Eq (reserve count) o := by
  refine .modify (h.congr rfl rfl rfl rfl rfl rfl) ?_
  simp only [put, append_assoc]
  rfl

lemma relocates_pushScope (size) : G.Repeats Eq (pushScope size) o := by
  refine .get ?_
  by_cases hs : o.stack.size - o.floor.stack < size
  · rw [if_pos hs]
    exact .fail _
  · have hput : ¬ (G.put o).stack.size - (G.put o).floor.stack < size := by
      have := floor_stack_le (G := G) (o := o)
      rw [size_stack]
      omega
    have hbase : (G.put o).stack.size - size = G.height + (o.stack.size - size) := by
      rw [size_stack]
      omega
    rw [if_neg hs, if_neg hput, hbase]
    refine .ok rfl (h.congr rfl rfl rfl rfl rfl rfl) rfl ?_
    simp only [put, map_push, append_push]
    rfl

/-- The stack is cut after a change besides the operands and cells. -/
lemma suits_truncate (i) : G.Suits (o.truncate i) :=
  h.evolves (.single (.cut o i)) rfl rfl rfl rfl

lemma relocates_popScope : G.Repeats Eq popScope o := by
  refine (relocates_pop h).seq fun v o₁ h₁ => ?_
  refine (relocates_scope h₁).look keeps_scope ?_
  rintro s _ ⟨rfl, hpos⟩
  have h₂ : G.Suits { o₁ with scopes := o₁.scopes.pop } := h₁.congr rfl rfl rfl rfl rfl rfl
  refine .seq (.modify ?_ ?_) fun _ _ h₃ => relocates_push h₃ v
  · exact suits_truncate h₂ s.base
  · simp only [scopes_pop hpos]
    exact truncate_put h₂.toAgrees s.base

/-! ### Arrays and objects -/

lemma relocates_appendElements (es) :
    G.Repeats Eq (appendElements es) o :=
  relocates_withArray h fun _ hpos => relocates_replaceTop h hpos _

lemma relocates_arrayPush : G.Repeats Eq arrayPush o :=
  (relocates_pop h).seq fun _ _ hs =>
    relocates_withArray hs fun _ hpos => relocates_replaceTop hs hpos _

lemma relocates_arrayReverse :
    G.Repeats Eq (topArray >>= fun es => replaceTop (.array es.reverse)) o :=
  relocates_withArray h fun _ hpos => relocates_replaceTop h hpos _

lemma relocates_arrayCut (count : Nat) : G.Repeats Eq (arrayCut count) o := by
  refine (relocates_pop h).seq fun v o' hs => ?_
  split
  · exact (relocates_push hs _).seq fun _ _ hs => relocates_push hs _
  · exact .fail _

lemma relocates_takeLast? : G.Repeats Eq takeLast? o :=
  relocates_withArray h fun _ hpos => (relocates_replaceTop h hpos _).seq fun _ _ hs => .pure hs rfl

lemma relocates_takeProperty? (key : String) :
    G.Repeats Eq (takeProperty? key) o :=
  relocates_withObject h fun _ hpos =>
    (relocates_replaceTop h hpos _).seq fun _ _ hs => .pure hs rfl

lemma relocates_reportMissing (other : ErrorValue) :
    G.Repeats Eq (reportMissing prog other) o := by
  refine (relocates_boundArgument? prog h).seq fun name o' hs => ?_
  split <;> exact .raise hs _

lemma relocates_arrayPop (i : Word) :
    G.Repeats Eq (arrayPop prog i) o := by
  refine (relocates_takeLast? h).seq fun x o' hs => ?_
  split
  · exact relocates_push hs _
  · exact relocates_reportMissing prog hs _

lemma relocates_pushAndSkip (n : Word) (x : Option Value) :
    G.Repeats Eq (pushAndSkip n x) o := by
  cases x with
  | none => exact .pure h rfl
  | some v =>
    exact (relocates_push h v).seq fun _ _ hs => .modify (hs.congr rfl rfl rfl rfl rfl rfl) rfl

lemma relocates_objectPush : G.Repeats Eq objectPush o := by
  refine (relocates_pop h).seq fun v o₁ h₁ => (relocates_pop h₁).seq fun key o₂ h₂ => ?_
  split
  · exact relocates_withObject h₂ fun _ hpos => relocates_replaceTop h₂ hpos _
  · exact .raise h₂ _

lemma relocates_objectMerge : G.Repeats Eq objectMerge o := by
  refine (relocates_pop h).seq fun v o₁ h₁ => ?_
  split
  · exact relocates_withObject h₁ fun _ hpos => relocates_replaceTop h₁ hpos _
  · exact .raise h₁ _

lemma relocates_objectPop (k : Word) : G.Repeats Eq (objectPop prog k) o := by
  refine (relocates_propertyKey prog h k).seq fun key o₁ h₁ =>
    (relocates_takeProperty? h₁ key).seq fun x o₂ h₂ => ?_
  split
  · exact relocates_push h₂ _
  · exact relocates_reportMissing prog h₂ _

lemma relocates_objectPopOrDefault (k n) :
    G.Repeats Eq (objectPopOrDefault prog k n) o :=
  (relocates_propertyKey prog h k).seq fun key _ h₁ =>
    (relocates_takeProperty? h₁ key).seq fun _ _ h₂ => relocates_pushAndSkip h₂ n _

/-! ### Functions -/

lemma relocates_makeClosure (t) :
    G.Repeats Eq (makeClosure prog t) o :=
  .get (.seq (.ok rfl (h.congr rfl rfl rfl rfl rfl rfl) rfl rfl) fun _ _ hs => relocates_push hs _)

omit h in
lemma operands_put : (G.put o).operands = o.operands ++ G.base.operands := by simp [operands, put]

omit h in
lemma withOperands_put (ops) :
    (G.put o).withOperands (ops ++ G.base.operands) = G.put (o.withOperands ops) := by
  have hs : (ops ++ G.base.operands).reverse.toArray = G.base.stack ++ ops.reverse.toArray := by
    simp [operands]
  unfold withOperands
  rw [hs]
  rfl

lemma relocates_addUpvalue {c ops}
    (hops : o.operands = some (.closure c) :: ops) (hfresh : o.fresh = some c.id) (id) :
    G.Repeats Eq (addUpvalue id) o := by
  refine .ok (addUpvalue_eq hops hfresh id) (h.congr rfl rfl rfl rfl rfl rfl) rfl ?_
  have hput : (G.put o).operands = some (.closure c) :: (ops ++ G.base.operands) := by
    rw [operands_put, hops, List.cons_append]
  rw [addUpvalue_eq hput hfresh id, ← withOperands_put, List.cons_append]

lemma suits_cellFor (i) : G.Suits (o.cellFor i).2 := by
  unfold cellFor
  cases hc : cellAt? i o.openCells with
  | some c => exact h
  | none => exact h.evolves (.single (.attach hc)) rfl rfl rfl rfl

lemma relocates_captureSlot (i) :
    G.Relocates Eq (captureSlot i) (captureSlot (G.height + i)) o := by
  refine .ok (captureSlot_eq i) (suits_cellFor h i) rfl ?_
  rw [captureSlot_eq, cellFor_put h.toAgrees]

lemma suits_closeSlot (i) : G.Suits (o.closeSlot i) := by
  refine h.evolves (.single (.detach o i)) ?_ ?_ ?_ ?_ <;> unfold closeSlot <;> split <;> rfl

lemma relocates_capture (slot : Word) : G.Repeats Eq (capture slot) o := by
  refine (relocates_scope h).look keeps_scope ?_
  rintro s _ ⟨rfl, -⟩
  refine .modify ?_ ?_
  · exact suits_closeSlot h _
  · rw [show (G.scope s).base + slot.toNat = G.height + (s.base + slot.toNat) from Nat.add_assoc ..]
    exact closeSlot_put h.toAgrees _

lemma relocates_bundle (base offset : Nat) :
    G.Relocates Eq (bundle base offset) (bundle (G.height + base) offset) o := by
  refine .get ?_
  rw [Nat.add_assoc, slotContent_put]
  split
  · exact .pure h rfl
  · exact .fail _

lemma relocates_takeFault : G.Repeats Eq takeFault o := by
  refine .get ?_
  rw [show (G.put o).fault = o.fault from rfl]
  cases o.fault with
  | some fault => exact .fault rfl
  | none => exact .pure h rfl

lemma relocates_finishCall (base : Nat) (r : Except ErrorValue Value) :
    G.Relocates Eq (finishCall base r) (finishCall (G.height + base) r) o := by
  refine (relocates_takeFault h).seq fun _ o' hs => ?_
  split
  · exact .seq (.modify (suits_truncate hs base) (truncate_put hs.toAgrees base))
      fun _ _ h₁ => relocates_push h₁ _
  · exact .raise hs _

lemma relocates_reportMismatch (e : ErrorValue) :
    G.Repeats Eq (reportMismatch prog e) o := by
  refine (relocates_takeFault h).seq fun _ o₁ h₁ =>
    (relocates_boundArgument? prog h₁).seq fun name o₂ h₂ => ?_
  split <;> exact .raise h₂ _

end Actions

/-! ## Instructions -/

variable (G) in
/-- The actions complete an instruction in the same way. -/
def Completes (x y : Exec Unit) : Prop := ∀ {o}, G.Suits o → G.Relocates Eq x y o

variable (G) in
/-- **Two jobs that make the same requests** and come to the completion of the same instruction. -/
inductive Mirrors : Job (Exec Unit) → Job (Exec Unit) → Prop where
  | done {x y} (h : G.Completes x y) : Mirrors (.done (.ok x)) (.done (.ok y))
  | failed (e) : Mirrors (.done (.error e)) (.done (.error e))
  | ask {held request next later}
      (h : ∀ response, Mirrors (next response) (later response)) :
      Mirrors (.ask held request next) (.ask held request later)

namespace Mirrors

lemma andThen {α : Type} {f g}
    (h : ∀ r, G.Mirrors (f r) (g r)) : ∀ job : Job α, G.Mirrors (job.andThen f) (job.andThen g)
  | .done r => h r
  | .ask _ _ next => .ask fun resp => andThen h (next resp)

lemma holding (values) {j k} (h : G.Mirrors j k) :
    G.Mirrors (j.holding values) (k.holding values) := by
  induction h with
  | done h => exact .done h
  | failed e => exact .failed e
  | ask _ ih => exact .ask ih

/-- The work is done for one value, with which the instruction is completed. -/
lemma bind {α : Type} (job) {f g : α → Exec Unit} (h : ∀ a, G.Completes (f a) (g a)) :
    G.Mirrors (job >>= fun a => pure (f a)) (job >>= fun a => pure (g a)) := by
  refine andThen (α := α) (fun r => ?_) job
  cases r with
  | ok a => exact .done (h a)
  | error e => exact .failed e

end Mirrors

variable (G) in
/-- The instruction ends in the same way. -/
inductive Signals : Signal → Signal → Prop where
  | next : Signals .next .next
  | yields (v) : Signals (.yield v) (.yield v)
  | awaits {j k} (h : G.Mirrors j k) : Signals (.await j) (.await k)

section Instructions

variable {prog : Program} {host : Host}

lemma relocates_thenNext {x y} (h : G.Relocates Eq x y o) :
    G.Relocates G.Signals (thenNext x) (thenNext y) o :=
  h.seq fun _ _ hs => .pure hs .next

variable (h : G.Suits o)

include h

lemma relocates_arrayExtend : G.Repeats G.Signals arrayExtend o :=
  (relocates_pop h).seq fun _ _ hs =>
    .pure hs (.awaits (.holding _ (.bind _ fun es => (relocates_appendElements · es))))

lemma relocates_indexTop : G.Repeats G.Signals indexTop o :=
  (relocates_pop h).seq fun _ _ h₁ => (relocates_pop h₁).seq fun _ _ h₂ =>
    .pure h₂ (.awaits (.holding _ (.bind _ fun v => (relocates_push · v))))

lemma relocates_validateTop (k : Word) :
    G.Repeats G.Signals (validateTop prog k) o := by
  refine (relocates_constant prog h k).seq fun schema o₁ h₁ => ?_
  refine (relocates_top h₁).look keeps_top ?_
  rintro v _ ⟨rfl, -⟩
  refine .pure h₁ (.awaits (.andThen (fun r => ?_) _))
  cases r with
  | ok u => exact .done fun hs => .pure hs rfl
  | error e => exact .done fun hs => relocates_reportMismatch prog hs e

lemma relocates_callNative (ref : NativeRef) (base : Nat) :
    G.Relocates G.Signals (callNative host ref base) (callNative host ref (G.height + base)) o := by
  refine (relocates_bundle h base 1).seq fun v o₁ h₁ => ?_
  dsimp only
  split
  · refine (relocates_bundle h₁ base 2).seq fun v o₂ h₂ => ?_
    split
    · cases host.native? ref.code with
      | some native =>
          exact .pure h₂ (.awaits (.andThen (fun r => .done (relocates_finishCall · base r)) _))
      | none => exact .raise h₂ _
    · exact .fault rfl
  · exact .fault rfl

lemma relocates_call : G.Repeats G.Signals (Machine.call host) o := by
  refine (relocates_scope h).look keeps_scope ?_
  rintro s _ ⟨rfl, -⟩
  refine (relocates_bundle h s.base 0).seq fun v o' hs => ?_
  split
  · refine .seq (.modify ?_ ?_) fun _ _ hs => .pure hs .next
    · exact ⟨hs.toAgrees.congr rfl rfl rfl rfl rfl, by simp⟩
    · -- The new call is not the function's own.
      have hcall : ∀ c, G.call o'.calls.size c = { c with base := G.height + c.base } := by
        intro c
        rw [call, if_neg (Nat.pos_iff_ne_zero.mp hs.called)]
      simp only [put, mapIdx_push, append_push, hcall]
      rfl
  · exact relocates_callNative hs _ s.base
  · exact .raise hs _

omit h in
lemma calls_pop (h : 0 < o.calls.size) :
    (G.put o).calls.pop = G.base.calls ++ o.calls.pop.mapIdx G.call := by
  show (G.base.calls ++ o.calls.mapIdx G.call).pop = _
  rw [pop_append, if_neg (by simpa using Nat.pos_iff_ne_zero.mp h)]
  refine congrArg (G.base.calls ++ ·) (ext_getElem? fun i => ?_)
  simp only [getElem?_pop, getElem?_mapIdx, size_mapIdx]
  split <;> rfl

omit h in
lemma calls_of_pop {v} (h : pop o = .ok v o') : o'.calls = o.calls := by
  have hpop := triple_pop (I := fun _ => True) (m := o) trivial o rfl
  rw [h] at hpop
  rw [hpop.1]

/-- **A call inside the function returns.** -/
theorem relocates_ret (hi : 1 < o.calls.size) : G.Repeats G.Signals ret o := by
  refine (relocates_pop h).bind fun v _ o₁ hpop h₁ heq => heq ▸ ?_
  rw [← calls_of_pop hpop] at hi
  refine .get ?_
  by_cases hs : o₁.calls.size ≤ o₁.floor.calls
  · rw [if_pos hs]
    exact .fail _
  · have hput : ¬ (G.put o₁).calls.size ≤ (G.put o₁).floor.calls := by
      have := (floor_calls_lt h₁.toAgrees (o₁.calls.size - 1)).not.mpr (by omega)
      rw [size_calls]
      omega
    rw [if_neg hs, if_neg hput]
    cases hback : o₁.calls.back? with
    | none => exact .fail _
    | some c =>
      have hcall : G.call (o₁.calls.size - 1) c = { c with base := G.height + c.base } := by
        rw [call, if_neg (by omega)]
      rw [calls_back? hback, hcall]
      obtain ⟨base, returnTo⟩ := c
      refine .seq (.modify ?_ ?_) fun _ o₂ h₂ => ?_
      · exact ⟨h₁.toAgrees.congr rfl rfl rfl rfl rfl, by rw [size_pop]; omega⟩
      · simp only [calls_pop h₁.called]
        rfl
      · cases returnTo with
        | none => exact .pure h₂ (.yields v)
        | some pc =>
          refine .seq (.modify (suits_truncate h₂ base) (truncate_put h₂.toAgrees base))
            fun _ o₃ h₃ => (relocates_push h₃ v).seq fun _ o₄ h₄ => ?_
          exact .seq (.modify (h₄.congr rfl rfl rfl rfl rfl rfl) rfl) fun _ _ h₅ => .pure h₅ .next

/-- **An instruction does on top of the ground what it does on its own**, unless it is the return of
the function itself. -/
theorem relocates_execute {i} (hret : i = .ret → 1 < o.calls.size)
    (hfresh : keepsFresh i = true →
      ∃ c ops, o.operands = some (.closure c) :: ops ∧ o.fresh = some c.id) :
    G.Repeats G.Signals (execute prog host i) o := by
  cases i with
  | value k =>
    exact relocates_thenNext ((relocates_constant prog h k).seq fun _ _ h₁ => relocates_push h₁ _)
  | platform k =>
    exact relocates_thenNext
      ((relocates_platformValue prog h k).seq fun _ _ h₁ => relocates_push h₁ _)
  | discard => exact relocates_thenNext ((relocates_pop h).seq fun _ _ h₁ => .pure h₁ rfl)
  | reserve count => exact relocates_thenNext (relocates_reserve h _)
  | writeLocal depth slot => exact relocates_thenNext (relocates_writeLocal h depth slot)
  | readLocal depth slot => exact relocates_thenNext (relocates_readLocal prog h depth slot)
  | pushScope size => exact relocates_thenNext (relocates_pushScope h _)
  | popScope => exact relocates_thenNext (relocates_popScope h)
  | array => exact relocates_thenNext (relocates_push h _)
  | arrayPush => exact relocates_thenNext (relocates_arrayPush h)
  | arrayExtend => exact relocates_arrayExtend h
  | arrayReverse => exact relocates_thenNext (relocates_arrayReverse h)
  | arrayCopy => exact relocates_thenNext (relocates_withArray h fun _ _ => .pure h rfl)
  | arrayCut count => exact relocates_thenNext (relocates_arrayCut h _)
  | arrayPop pos => exact relocates_thenNext (relocates_arrayPop prog h pos)
  | arrayPopOrDefault n =>
    exact relocates_thenNext
      ((relocates_takeLast? h).seq fun _ _ h₁ => relocates_pushAndSkip h₁ n _)
  | object => exact relocates_thenNext (relocates_push h _)
  | objectPush => exact relocates_thenNext (relocates_objectPush h)
  | objectMerge => exact relocates_thenNext (relocates_objectMerge h)
  | objectCopy => exact relocates_thenNext (relocates_withObject h fun _ _ => .pure h rfl)
  | objectPop k => exact relocates_thenNext (relocates_objectPop prog h k)
  | objectPopOrDefault k n => exact relocates_thenNext (relocates_objectPopOrDefault prog h k n)
  | function t => exact relocates_thenNext (relocates_makeClosure prog h _)
  | closure depth slot =>
    obtain ⟨c, ops, hops, hfresh⟩ := hfresh rfl
    refine relocates_thenNext
      ((relocates_slotIndex h depth slot).look (keeps_slotIndex depth slot) ?_)
    rintro index _ rfl
    refine (relocates_captureSlot h index).bind fun cell _ o₁ hcapture h₁ heq => heq ▸ ?_
    rw [captureSlot_eq] at hcapture
    cases hcapture
    exact relocates_addUpvalue h₁ ((operands_cellFor index).trans hops)
      ((fresh_cellFor index).trans hfresh) _
  | closureUpvalue upvalue =>
    obtain ⟨c, ops, hops, hfresh⟩ := hfresh rfl
    refine relocates_thenNext
      ((relocates_runningUpvalue h upvalue).look (keeps_runningUpvalue upvalue) ?_)
    rintro cell _ rfl
    exact relocates_addUpvalue h hops hfresh cell
  | call => exact relocates_call h
  | ret => exact relocates_ret h (hret rfl)
  | readUpvalue upvalue => exact relocates_thenNext (relocates_readUpvalue prog h upvalue)
  | capture slot => exact relocates_thenNext (relocates_capture h slot)
  | index => exact relocates_indexTop h
  | enterCatch n => exact relocates_thenNext (.get (relocates_modifyScope h fun _ => rfl))
  | leaveCatch => exact relocates_thenNext (relocates_modifyScope h fun _ => rfl)
  | validate schema => exact relocates_validateTop h schema

end Instructions

end Ground

end TreeCode
