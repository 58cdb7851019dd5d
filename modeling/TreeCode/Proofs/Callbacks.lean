import TreeCode.Proofs.Captured
import TreeCode.Proofs.Conclusion

/-!
# Calls by code and calls by the host

Code calls a function in its own loop, and the host calls it in a new one. Both runs are the
function's run on an empty machine whose captured variables are detached (`Machine.alone`), on top
of one ground or another (`Ground.ofCall`, `Ground.ofCallback`), and so they come to the same
(`Session.calls_agree_with_callbacks`).
-/

namespace TreeCode

open Machine Array Instruction

variable {S : Parts}

namespace Machine

/-- **Code is about to call a closure**: callee and arguments are in a scope of their own. -/
def calling (m : Machine) (pc : Nat) (c : Closure) (args : List Value) (named : Entries Value) :
    Machine :=
  { m with
    stack := m.stack ++ #[some (.closure c), some (.array args), some (.object named)]
    scopes := m.scopes.push { base := m.stack.size }
    pc }

/-- **The heap with every captured variable detached**, holding what it holds. -/
def detachedHeap (m : Machine) : Heap :=
  { m.heap with cells := m.heap.cells.mapIdx fun c _ => .closed (m.readCell c) }

/-- **A closure called on an empty machine.** -/
def alone (heap : Heap) (c : Closure) (args : List Value) (named : Entries Value) (origin : Nat) :
    Machine :=
  { (start heap).opened c.target (.closure c) args named with origin }

lemma cells_detachedHeap (m : Machine) (c : CellId) :
    m.detachedHeap.cells[c]? = m.heap.cells[c]?.map fun _ => .closed (m.readCell c) :=
  getElem?_mapIdx

end Machine

/-! ## What a function can stand on -/

variable {live : List Machine} {b o left m : Machine} {j pc fuel n : Nat} {V : Slots}
  {E : Setting} {a x : Activity} {named : Entries Value} {args : List Value} {c : Closure}
  {p : Program}

/-- The scopes of a loop begin on the operand stack. -/
lemma Stacked.scopes_le {L} {ops : List (Option Value)} {scopes calls}
    (h : Stacked S b L ops scopes calls live) :
    ∃ own, scopes = own ++ b.scopeList ∧ ∀ s ∈ own, s.base ≤ ops.length := by
  have hgrows : ∀ {own} {seg ops : List (Option Value)} {targets},
      (∀ s ∈ own, s.base ≤ ops.length) →
      ∀ s ∈ (⟨ops.length, targets⟩ :: own : List Scope), s.base ≤ (seg ++ ops).length := by
    intro own seg ops targets hown s hs
    rw [List.length_append]
    rcases List.mem_cons.mp hs with rfl | hs
    · exact Nat.le_add_left ..
    · exact Nat.le_add_left_of_le (hown s hs)
  induction h with
  | base _ => exact ⟨[], rfl, nofun⟩
  | block _ _ _ ih | call _ _ _ ih =>
    obtain ⟨own, rfl, hown⟩ := ih
    exact ⟨_ :: own, rfl, hgrows hown⟩

namespace Machine

variable {L : Layout} {ops : List (Option Value)}

lemma mem_of_reverse_eq {α : Type} {xs : Array α} {own below}
    (h : xs.toList.reverse = own ++ below) {x} (hj : below.length ≤ j)
    (hx : xs[j]? = some x) : x ∈ own := by
  have hlist : xs.toList = below.reverse ++ own.reverse := by
    rw [← List.reverse_append, ← h, List.reverse_reverse]
  rw [← getElem?_toList, hlist, List.getElem?_append_right (by simpa using hj)] at hx
  exact List.mem_reverse.mp (List.mem_of_getElem? hx)

lemma firm_of_stacked (h : Stacked S b L ops m.scopeList m.callList live)
    (hops : ops.length ≤ m.stack.size) (hfl : m.floor = b.heights) (hwired : m.Wired)
    (hcells : ∀ p ∈ m.openCells, p.1 < m.stack.size) : m.Firm := by
  obtain ⟨scopes, hsc, hbases⟩ := h.scopes_le
  obtain ⟨calls, hcs, hcallees⟩ := h.calls_eq
  have hb := h.length_contents
  refine ⟨?_, ?_, ?_, fun c i hc => hcells _ (hwired.mem_iff.mpr hc), hcells, ?_, ?_⟩ <;> rw [hfl]
  · show b.scopes.size ≤ _
    rw [← length_scopeList, ← length_scopeList, hsc, List.length_append]
    exact Nat.le_add_left ..
  · show b.calls.size ≤ _
    rw [← length_callList, ← length_callList, hcs, List.length_append]
    exact Nat.le_add_left ..
  · show b.stack.size ≤ _
    omega
  · intro j call hj hcall
    have hmem := mem_of_reverse_eq hcs ((length_callList b).symm ▸ hj) hcall
    exact Nat.lt_of_lt_of_le (hcallees _ hmem).2 hops
  · intro j s hj hs
    have hmem := mem_of_reverse_eq hsc ((length_scopeList b).symm ▸ hj) hs
    exact Nat.le_trans (hbases _ hmem) hops

/-- A function can be called wherever a loop is. -/
lemma Runs.firm (h : Runs S V b live m) (hwired : m.Wired)
    (hcells : ∀ p ∈ m.openCells, p.1 < m.stack.size) : m.Firm := by
  obtain ⟨junk, ops, hops, hf⟩ := h.unwinds
  have hstacked := hf.stacked
  rw [operands_withOperands] at hstacked
  have hlength : ops.length ≤ m.stack.size := by
    rw [← length_operands, hops, List.length_append]
    exact Nat.le_add_left ..
  exact firm_of_stacked hstacked hlength hf.floor hwired hcells

/-- The callee and the arguments have not been captured. -/
lemma detachedHeap_calling (h : m.Firm) :
    (m.calling pc c args named).detachedHeap = m.detachedHeap := by
  have hcells : (m.calling pc c args named).detachedHeap.cells = m.detachedHeap.cells := by
    refine ext_getElem? fun id => ?_
    rw [cells_detachedHeap, cells_detachedHeap]
    cases hc : m.heap.cells[id]? with
    | none =>
      have hn : (m.calling pc c args named).heap.cells[id]? = none := hc
      rw [hn]
      rfl
    | some u =>
      have hsome : (m.calling pc c args named).heap.cells[id]? = some u := hc
      rw [hsome, Option.map_some, Option.map_some, readCell, readCell, Heap.cell, Heap.cell, hsome,
        hc, Option.getD_some]
      cases u with
      | closed x => rfl
      | onStack i =>
        have hb : (m.calling pc c args named).slotContent i = m.slotContent i := by
          show ((m.stack ++ _)[i]?).getD none = _
          rw [getElem?_append_left (h.cells id i hc), slotContent]
        simp only [hb]
  show { m.heap with cells := (m.calling pc c args named).detachedHeap.cells } = _
  rw [hcells]
  rfl

lemma operands_calling : (m.calling pc c args named).operands
    = [some (.object named), some (.array args), some (.closure c)] ++ m.operands := by
  simp [calling, operands]

/-- A function that is about to be called can be called. -/
lemma Runs.firm_of_calling (h : Runs S V b live (m.calling pc c args named))
    (hd : decode S.program.code pc = .ok .call) (hwired : m.Wired) : m.Firm := by
  obtain ⟨L, hf⟩ := h.calls hd
  obtain ⟨seg, below, targets, outer, points, rest, hops, hsc, -, hseg, -, hstacked⟩ :=
    hf.stacked.of_block
  have hlength : seg.length = 3 := hseg.length_eq.symm
  rw [operands_calling] at hops
  obtain ⟨-, rfl⟩ := List.append_inj hops hlength.symm
  have ho : outer = m.scopeList := by
    have hcalling : (m.calling pc c args named).scopeList = ⟨m.stack.size, []⟩ :: m.scopeList := by
      simp [calling, scopeList]
    exact (List.cons.inj (hcalling.symm.trans hsc)).2.symm
  subst ho
  have hfull : ∀ k ∈ [Content.object, .array, .value], k.Full := by simp [Content.Full]
  have hfits' : Fits S V b (⟨[.object, .array, .value] ++ [], [], .block⟩ :: L) live
      (m.calling pc c args named) := hf
  refine firm_of_stacked hstacked (Nat.le_of_eq (length_operands m)) hf.floor hwired fun p hp => ?_
  have hlt := hfits'.below_top hfull (Nat.le_refl 3) p hp
  have hs : (m.calling pc c args named).stack.size = m.stack.size + 3 := by simp [calling]
  omega

end Machine

/-! ## The two grounds -/

variable {G : Ground}

namespace Ground

/-- **What a call by code stands on.** -/
def ofCall (m : Machine) (pc : Nat) (h : m.Firm) : Ground where
  base := { m with steps := m.steps + 1, depth := m.depth - 1 }
  returnTo := some (pc + Instruction.call.width)
  firm := ⟨h.floor_scopes, h.floor_calls, h.floor_stack, h.cells, h.openCells, h.callees, h.bases⟩

/-- **What a call by the host stands on.** -/
def ofCallback (m : Machine) (hwired : m.Wired) (h : ∀ p ∈ m.openCells, p.1 < m.stack.size) :
    Ground where
  base := { m with floor := m.heights }
  returnTo := none
  firm :=
    { floor_scopes := Nat.le_refl _
      floor_calls := Nat.le_refl _
      floor_stack := Nat.le_refl _
      cells := fun _ _ hc => h _ (hwired.mem_iff.mpr hc)
      openCells := h
      callees := fun _ _ hj hcall =>
        absurd (Array.getElem?_eq_some_iff.mp hcall).1 (Nat.not_lt_of_le hj)
      bases := fun _ _ hj hs => absurd (Array.getElem?_eq_some_iff.mp hs).1 (Nat.not_lt_of_le hj) }

lemma suits_alone (o : Nat) : G.Suits (alone G.base.detachedHeap c args named o) where
  wired :=
    { sorted := .nil
      mem_iff := by
        intro i id
        refine ⟨nofun, fun hc => ?_⟩
        have hcell' : G.base.detachedHeap.cells[id]? = some (.onStack i) := hc
        rw [cells_detachedHeap, Option.map_eq_some_iff] at hcell'
        obtain ⟨-, -, hclosed⟩ := hcell'
        cases hclosed }
  size := Nat.le_of_eq size_mapIdx.symm
  outer := by
    intro id hid
    show G.base.detachedHeap.cells[id]? = _
    rw [cells_detachedHeap, getElem?_eq_getElem hid]
    rfl
  depth := Nat.le_refl 1
  floor _ := rfl
  exhausted := rfl
  called := Nat.one_pos

lemma heap_detached : G.heap G.base.detachedHeap = G.base.heap := by
  have hcells : G.base.detachedHeap.cells.mapIdx G.cell = G.base.heap.cells := by
    refine ext_getElem? fun id => ?_
    rw [getElem?_mapIdx, cells_detachedHeap]
    by_cases hid : id < G.base.heap.cells.size
    · simp [hid, cell, Heap.cell]
    · simp [hid]
  rw [heap, hcells]
  rfl

/-- The cells hold what they hold on their own. -/
lemma detachedHeap_put (h : G.Agrees o) : (G.put o).detachedHeap = o.detachedHeap := by
  have hcells : (G.put o).detachedHeap.cells = o.detachedHeap.cells := by
    refine ext_getElem? fun id => ?_
    rw [cells_detachedHeap, cells_detachedHeap, readCell_put h, cell_put, Option.map_map]
    rfl
  show { o.heap with cells := (G.put o).detachedHeap.cells } = _
  rw [hcells]
  rfl

/-- The function has just been called. -/
lemma put_alone (origin) : G.put (alone G.base.detachedHeap c args named origin)
    = { G.base with
        stack := G.base.stack ++ #[some (.closure c), some (.array args), some (.object named)]
        scopes := G.base.scopes.push { base := G.height }
        calls := G.base.calls.push { base := G.height, returnTo := G.returnTo }
        pc := c.target
        origin
        fault := none
        exhausted := false
        depth := G.base.depth + 1
        fresh := none } := by
  have hheap : G.heap (alone G.base.detachedHeap c args named origin).heap = G.base.heap :=
    heap_detached
  rw [put, hheap]
  simp [alone, start, opened, heights, scope, call, floor]

/-- **The host's call begins.** -/
theorem opened_eq (hwired : m.Wired) (hcells : ∀ p ∈ m.openCells, p.1 < m.stack.size)
    (hfault : m.fault = none) (hexhausted : m.exhausted = false) :
    m.opened c.target (.closure c) args named
      = (ofCallback m hwired hcells).put (alone m.detachedHeap c args named m.origin) := by
  refine Eq.symm ((put_alone (G := ofCallback m hwired hcells) m.origin).trans ?_)
  simp only [← hfault, ← hexhausted]
  rfl

/-- **The code's call begins.** -/
theorem advance_calling (hfirm : m.Firm) (hd : Instruction.decode E.program.code pc = .ok .call)
    (hcounts : (m.calling pc c args named).Counts E.limits) (hfault : m.fault = none)
    (hexhausted : m.exhausted = false) (hdepth : 1 ≤ m.depth) :
    (m.calling pc c args named).advance E
      = .running ((ofCall m pc hfirm).put (alone m.detachedHeap c args named pc)) := by
  have hscopes : ((m.calling pc c args named).fetched .call).scopeList
      = ⟨m.stack.size, []⟩ :: m.scopeList := by simp [calling, fetched, counted, scopeList]
  have hfloor : m.floor.scopes ≤ m.scopeList.length := by
    rw [length_scopeList]
    exact hfirm.floor_scopes
  have hf : ((m.calling pc c args named).fetched .call).slotContent m.stack.size
      = some (.closure c) := by simp [calling, fetched, counted, slotContent]
  have hfetch : step E (m.calling pc c args named)
      = execute E.program E.host .call ((m.calling pc c args named).fetched .call) :=
    step_eq hcounts hd
  rw [advance, hfetch, execute_call_closure hscopes hfloor hf]
  refine congrArg Progress.running (Eq.symm ((put_alone (G := ofCall m pc hfirm) pc).trans ?_))
  have hbase : (ofCall m pc hfirm).base.depth + 1 = m.depth := Nat.sub_add_cancel hdepth
  simp only [← hfault, ← hexhausted, hbase]
  have hcs : ∀ call,
      (call :: ((m.calling pc c args named).fetched .call).callList).reverse.toArray
        = m.calls.push call := by
    intro call
    apply toList_inj.mp
    simp [callList, calling, fetched, counted]
  rw [withCallList, hcs]
  rfl

/-! ## How the two calls conclude -/

/-- **What a call by code leaves** is the machine that called. -/
theorem conclusion_ofCall (pc) (hfirm : m.Firm) (o r) :
    (ofCall m pc hfirm).conclusion o r = ((ofCall m pc hfirm).put (emptied o)).concluded
      (pc + Instruction.call.width) r := by
  cases r <;> rfl

/-- The host's call has a floor of its own. -/
lemma floor_of_heights (h : G.Agrees o) (hdepth : o.depth = 1)
    (hheights : G.base.floor = G.base.heights) : (G.put o).floor = G.above o.floor := by
  rw [floor_base (Nat.le_of_eq hdepth), hheights, h.floor (Nat.le_of_eq hdepth)]
  rfl

/-- **The loop of a host's call ends with the function.** -/
theorem conclusion_ended (h : G.Agrees o) (hdepth : o.depth = 1)
    (hheights : G.base.floor = G.base.heights) (hreturn : G.returnTo = none)
    (r : Except ErrorValue Value) :
    ∃ o', G.Agrees o' ∧ o'.depth = 1 ∧ emptied o' = emptied o
      ∧ G.conclusion o r = .finished (r.mapError .raised) (G.put o') := by
  cases r with
  | ok v =>
    refine ⟨o, h, hdepth, rfl, ?_⟩
    rw [conclusion, hreturn]
    rfl
  | error e =>
    have hagrees := agrees_emptied h
    have hcatch : (emptied o).openCatch = none := by
      unfold openCatch
      split <;> rfl
    have hown : (emptied o).recover e = (emptied o, some e) := by
      have hn : (emptied o).callsFrom 0 = [] := rfl
      have herror : abandonedError (emptied o) e = e := by
        rw [abandonedError, hn, List.filterMap_nil, List.append_nil]
      rw [recover_empties hagrees (Nat.le_of_eq hdepth) hcatch, emptied_emptied, herror]
    refine ⟨emptied o, hagrees, hdepth, emptied_emptied o, ?_⟩
    rw [conclusion, Progress.ofResult,
      recover_put_uncaught hagrees (floor_of_heights hagrees hdepth hheights) hcatch, hown]
    rfl

/-- **What the loop of a host's call leaves.** -/
theorem closed_of_heights (h : G.Agrees o) (hdepth : o.depth = 1)
    (hheights : G.base.floor = G.base.heights) (outer) : (G.put o).closed outer
      = { G.put (emptied o) with
          depth := outer.depth
          floor := outer.floor
          pc := outer.pc
          origin := outer.origin
          fresh := none } := by
  have hfl : o.floor = {} := h.floor (Nat.le_of_eq hdepth)
  have hb : belowFloor o = { o with calls := #[], scopes := #[] } := by
    simp [belowFloor, hfl, shrink_eq_take]
  rw [closed_eq, truncate_belowFloor h (floor_of_heights h hdepth hheights), hb, hfl]
  rfl

end Ground

/-! ## What holds in a session -/

namespace Machine

/-- **The machine keeps closures of the program only**, in its heap and in captured variables. -/
structure Trusted (S : Parts) (m : Machine) : Prop where
  fault : m.fault = none
  heap : m.heap.Only S.Owns
  contents : ∀ p ∈ m.openCells, ∀ v, m.slotContent p.1 = some v → v.Only S.Owns

lemma Unwinds.trusted (h : Unwinds S V b live m) : Trusted S m := by
  obtain ⟨junk, ops, hops, hf⟩ := h
  rw [← operands_withOperands m ops] at hops
  exact ⟨hf.fault, hf.heap, hf.cell_only ⟨rfl, rfl, rfl, rfl, rfl⟩ hops⟩

lemma Trusted.detachedHeap (h : Trusted S m) (hwired : m.Wired) : m.detachedHeap.Only S.Owns where
  streams := h.heap.streams
  cells := by
    intro cell hc
    obtain ⟨id, hid⟩ := getElem?_of_mem hc
    rw [cells_detachedHeap, Option.map_eq_some_iff] at hid
    obtain ⟨u, hu, rfl⟩ := hid
    intro v hv
    have hread : m.heap.cell id = u := by rw [Heap.cell, hu, Option.getD_some]
    rw [readCell, hread] at hv
    cases u with
    | onStack i => exact h.contents _ (hwired.mem_iff.mpr hu) v hv
    | closed x => exact h.heap.cells _ (mem_of_getElem? hu) v hv

end Machine

lemma Activity.Sound.trusted (h : a.Sound S) : Trusted S a.machine := by
  have hs : ∀ {m}, Machine.Sound S m → Trusted S m := fun hm =>
    ⟨hm.fault, hm.heap, fun _ _ _ hv => hm.slotContent hv⟩
  cases a with
  | loop b p live =>
    cases p with
    | running m => exact (Runs.unwinds h).trusted
    | waiting job m => exact h.1.trusted
    | finished r m => exact ⟨h.2.fault, h.2.heap, h.2.contents⟩
  | force id m => exact hs h
  | _ => exact hs h.1

/-- **Code can call a function on the machine.** -/
structure Machine.Ready (S : Parts) (m : Machine) : Prop extends Trusted S m where
  firm : m.Firm
  wired : m.Wired
  depth : 1 ≤ m.depth

namespace Activity.Guarded

lemma ready (h : (Activity.loop b (.running m) live).Guarded S V) : m.Ready S where
  toTrusted := h.sound.trusted
  firm := Runs.firm h.sound h.wired fun p hp => (h.placed.housed p hp).1
  wired := h.wired
  depth := by
    have hf : (Progress.running m).Fits S .all b live := h.sound
    exact hf.depth ▸ Nat.le_add_left ..

lemma ready_of_calling
    (h : (Activity.loop b (.running (m.calling pc c args named)) live).Guarded S V)
    (hd : decode S.program.code pc = .ok .call) : m.Ready S := by
  have hwired : m.Wired := h.wired.congr rfl rfl
  have hfirm := Runs.firm_of_calling h.sound hd hwired
  have htrusted := h.sound.trusted
  refine ⟨⟨htrusted.fault, htrusted.heap, fun p hp v hv => htrusted.contents p hp v ?_⟩, hfirm,
    hwired,
    h.ready.depth⟩
  show ((m.stack ++ _)[p.1]?).getD none = some v
  rwa [getElem?_append_left (hfirm.openCells p hp)]

end Activity.Guarded

namespace Machine

variable {heap : Heap}

/-- A closure called on an empty machine runs. -/
lemma runs_alone (hheap : heap.Only S.Owns) (hc : S.Owns c) (hargs : ∀ v ∈ args, v.Only S.Owns)
    (hn : Entries.Only S.Owns named) (o) :
    Runs S .all (start heap) [] (alone heap c args named o) := by
  have h : Runs S .all (start heap) [] ((start heap).opened c.target (.closure c) args named) :=
    (Sound.start hheap).opened (enterable_closure hc) hargs hn
  cases h with
  | safe fits place safe =>
      exact .safe (fits.congr ⟨⟨rfl, rfl, rfl, rfl, rfl⟩, rfl, rfl⟩ rfl) place safe
  | constructs h => cases h.fresh

/-- It does not matter where the call came from. -/
lemma drive_alone (hS : S.Closed) (hprogram : E.program = S.program)
    (hhost : E.host.Honest) {x}
    (h : Runs S .all (start heap) [] (alone heap c args named x)) (y fuel) :
    drive E.unlimited fuel (.running (alone heap c args named x))
      = drive E.unlimited fuel (.running (alone heap c args named y)) := by
  obtain ⟨i, hd, -⟩ := h.execute hS hhost fun _ _ => reserves_all
  have hdecode' : decode E.program.code c.target = .ok i := hprogram ▸ hd
  have hstep : ∀ z, step E.unlimited (alone heap c args named z)
      = execute E.program E.host i ((alone heap c args named z).fetched i) :=
    fun z => step_eq (counts_unlimited _) hdecode'
  cases fuel with
  | zero => rw [drive, drive]
  | succ fuel =>
    rw [drive, drive, advance, advance, hstep, hstep]
    rfl

end Machine

/-! ## Outcomes -/

namespace Machine

/-- **Code calls a closure**, and its loop goes on as far as the call's conclusion. -/
def applyInLoop (E : Setting) (fuel pc : Nat) (c : Closure) (args : List Value)
    (named : Entries Value) (m : Machine) : Option Progress :=
  driveTo E m.calls.size fuel ((m.calling pc c args named).advance E)

/-- **What a call comes to**: a value or an error, and a heap with every captured variable detached;
or nothing, if it goes on for ever. -/
abbrev CallOutcome := Option (Except ErrorValue Value × Heap)

/-- **What a call leaves**: the stacks as they were, and a heap. -/
structure LeftBy (m left : Machine) (heap : Heap) : Prop where
  stack : left.stack = m.stack
  scopes : left.scopes = m.scopes
  calls : left.calls = m.calls
  heap : left.detachedHeap = heap

/-- **What a call by code comes to.** Code goes on with the result on the machine that is left. -/
def CodeCall (E : Setting) (pc : Nat) (c : Closure) (args : List Value) (named : Entries Value)
    (m : Machine) : CallOutcome → Prop
  | none => ∀ fuel, applyInLoop E fuel pc c args named m = none
  | some (r, heap) => ∃ fuel left, m.LeftBy left heap ∧ applyInLoop E fuel pc c args named m
      = some (left.concluded (pc + Instruction.call.width) r)

/-- **What a call by the host comes to.** -/
def HostCall (E : Setting) (c : Closure) (args : List Value) (named : Entries Value)
    (m : Machine) : CallOutcome → Prop
  | none => ∀ fuel, apply E fuel (.closure c) args named m = none
  | some (r, heap) => ∃ fuel left, m.LeftBy left heap
      ∧ apply E fuel (.closure c) args named m = some (r, left)

/-- What the function's run on an empty machine, by fuel, says about a call. -/
def ComesTo (own : Nat → Option (Except Trap Value × Machine)) : CallOutcome → Prop
  | none => ∀ fuel, own fuel = none
  | some (r, heap) => ∃ fuel ended, own fuel = some ended ∧ (answerOf ended).1 = r
      ∧ (Ground.emptied ended.2).detachedHeap = heap

lemma exists_comesTo (own) :
    ∃ outcome, ComesTo own outcome := by
  by_cases hends : ∃ fuel ended, own fuel = some ended
  · obtain ⟨fuel, ended, hown⟩ := hends
    exact ⟨some (_, _), fuel, ended, hown, rfl, rfl⟩
  · refine ⟨none, fun fuel => Option.eq_none_iff_forall_ne_some.mpr fun ended hown => ?_⟩
    exact hends ⟨fuel, ended, hown⟩

end Machine

/-- **What runs while more than so many calls are there.** -/
abbrev Within (E : Setting) (calls : Nat) : Activity → Activity → Prop :=
  Relation.ReflTransGen fun a c => Leads E a c ∧ calls < c.machine.calls.size

namespace Ground

section Calls

variable (hS : S.Closed) (hprogram : E.program = S.program) (hhost : E.host.Honest)

include hS hprogram hhost

/-- **A call by code concludes as the function does on its own.** -/
theorem concludes_call (h : m.Ready S) (hd : decode E.program.code pc = .ok .call)
    (hruns : Runs S .all (start m.detachedHeap) [] (alone m.detachedHeap c args named pc))
    (hfree : ∀ x, Within E m.calls.size (.loop b (.running (m.calling pc c args named)) live) x →
      ¬x.Refused E.limits) (fuel) : (ofCall m pc h.firm).Concludes
      (drive E.unlimited fuel (.running (alone m.detachedHeap c args named pc)))
      (applyInLoop E fuel pc c args named m) := by
  obtain ⟨hcs, hexhausted⟩ := not_or.mp (hfree _ .refl)
  have hadvance := advance_calling h.firm hd (of_not_not hcs) h.fault
    (Bool.eq_false_iff.mpr hexhausted) h.depth
  have hl : Leads E (.loop b (.running (m.calling pc c args named)) live) _ := .step
  rw [hadvance] at hl
  rw [applyInLoop, hadvance]
  have hP : (ofCall m pc h.firm).Free E
      (Within E m.calls.size (.loop b (.running (m.calling pc c args named)) live)) :=
    ⟨fun hx hl hlt => hx.tail ⟨hl, hlt⟩, fun hx => hfree _ hx⟩
  exact Own.run hS hprogram hhost hP fuel (.running (suits_alone pc)) hruns fun hlt =>
    .tail .refl ⟨hl, hlt⟩

/-- **A call by the host concludes as the function does on its own.** -/
theorem concludes_callback (hwired : m.Wired) (hcells : ∀ p ∈ m.openCells, p.1 < m.stack.size)
    (hfault : m.fault = none)
    (hruns : Runs S .all (start m.detachedHeap) [] (alone m.detachedHeap c args named m.origin))
    (hfree : ∀ x, Reaches E (.apply (.closure c) args named m) x → ¬x.Refused E.limits)
    (fuel) : (ofCallback m hwired hcells).Concludes
      (drive E.unlimited fuel (.running (alone m.detachedHeap c args named m.origin)))
      (driveTo E m.calls.size fuel (.running (m.opened c.target (.closure c) args named))) := by
  have henter : Reaches E (.apply (.closure c) args named m)
      (.enter c.target (.closure c) args named m) := .single .closure
  have hloop : Reaches E (.apply (.closure c) args named m)
      (.loop m (.running (m.opened c.target (.closure c) args named)) []) :=
    henter.tail (.enter (Nat.lt_of_not_le (hfree _ henter)))
  obtain ⟨-, hexhausted⟩ := not_or.mp (hfree _ hloop)
  rw [opened_eq hwired hcells hfault (Bool.eq_false_iff.mpr hexhausted)] at hloop ⊢
  have hP : (ofCallback m hwired hcells).Free E
      (Reaches E (.apply (.closure c) args named m)) :=
    ⟨fun hx hl _ => hx.tail hl, fun hx => hfree _ hx⟩
  exact Own.run hS hprogram hhost hP fuel (.running (suits_alone m.origin)) hruns fun _ => hloop

end Calls

lemma answerOf_mapError (r : Except ErrorValue Value) (m) :
    answerOf (r.mapError .raised, m) = (r, m) := by
  cases r <;> rfl

/-- The function leaves the ground as it was. -/
lemma leftBy_put (h : G.Agrees o) (stack : G.base.stack = m.stack)
    (scopes : G.base.scopes = m.scopes) (calls : G.base.calls = m.calls) :
    m.LeftBy (G.put (emptied o)) (emptied o).detachedHeap where
  stack := by
    have he : (emptied o).stack = #[] := by simp [emptied, truncate, shrink_eq_take]
    rw [put, he, append_empty, stack]
  scopes := by
    show G.base.scopes ++ #[].map G.scope = _
    rw [map_empty, append_empty, scopes]
  calls := by
    show G.base.calls ++ #[].mapIdx G.call = _
    rw [mapIdx_empty, append_empty, calls]
  heap := detachedHeap_put (agrees_emptied h)

variable {own : Nat → Option (Except Trap Value × Machine)} {outcome : CallOutcome}

lemma codeCall_of_concludes {hfirm}
    (h : ∀ fuel, (ofCall m pc hfirm).Concludes (own fuel) (applyInLoop E fuel pc c args named m))
    (howns : ComesTo own outcome) :
    m.CodeCall E pc c args named outcome := by
  match outcome with
  | none =>
    intro fuel
    have hfuel := h fuel
    rw [howns fuel] at hfuel
    generalize applyInLoop E fuel pc c args named m = reached at hfuel ⊢
    cases hfuel
    rfl
  | some (res, heap) =>
    obtain ⟨fuel, ended, hown, rfl, rfl⟩ := howns
    have hfuel := h fuel
    rw [hown] at hfuel
    generalize hreached : applyInLoop E fuel pc c args named m = reached at hfuel
    cases hfuel with
    | ended hagrees hdepth r =>
      refine ⟨fuel, _, leftBy_put hagrees rfl rfl rfl, hreached.trans ?_⟩
      rw [conclusion_ofCall, answerOf_mapError]

variable (hdepth : ¬ E.limits.depth ≤ m.depth)

include hdepth

/-- The loop inside a host's call. -/
lemma apply_of_drive {r}
    (h : drive E fuel (.running (m.opened c.target (.closure c) args named))
      = some (r.mapError .raised, left)) :
    apply E (fuel + 2) (.closure c) args named m = some (r, left.closed m.suspended) := by
  rw [apply, enter, if_neg hdepth]
  dsimp only
  rw [h]
  exact congrArg some (answerOf_mapError r _)

lemma apply_eq_none
    (h : ∀ fuel, drive E fuel (.running (m.opened c.target (.closure c) args named)) = none) :
    ∀ fuel, apply E fuel (.closure c) args named m = none
  | 0 => by rw [apply]
  | 1 => by rw [apply, enter]
  | fuel + 2 => by
    rw [apply, enter, if_neg hdepth]
    dsimp only
    rw [h]

lemma hostCall_of_concludes {hwired hcells}
    (h : ∀ fuel, (ofCallback m hwired hcells).Concludes (own fuel)
      (driveTo E m.calls.size fuel (.running (m.opened c.target (.closure c) args named))))
    (howns : ComesTo own outcome) :
    m.HostCall E c args named outcome := by
  match outcome with
  | none =>
    refine apply_eq_none hdepth fun fuel => ?_
    have hfuel := h fuel
    rw [howns fuel] at hfuel
    generalize hreached : driveTo E m.calls.size fuel _ = reached at hfuel
    cases hfuel
    exact drive_of_driveTo (q := none) hreached
  | some (res, heap) =>
    obtain ⟨fuel, ended, hown, rfl, rfl⟩ := howns
    have hfuel := h fuel
    rw [hown] at hfuel
    generalize hreached : driveTo E m.calls.size fuel _ = reached at hfuel
    cases hfuel with
    | ended hagrees hone r =>
      obtain ⟨o', hagrees', hone', he, hended⟩ := conclusion_ended hagrees hone rfl rfl r
      rw [hended] at hreached
      rw [answerOf_mapError]
      have hc := closed_of_heights hagrees' hone' rfl m.suspended
      have hleft := leftBy_put (m := m) hagrees rfl rfl rfl
      have hd := drive_of_driveTo (q := some (_, (ofCallback m hwired hcells).put o')) hreached
      refine ⟨fuel + 2, _, ?_, apply_of_drive hdepth hd⟩
      rw [hc, he]
      exact ⟨hleft.stack, hleft.scopes, hleft.calls, hleft.heap⟩

end Ground

namespace Session

/-- **Calls by code and calls by the host agree.** Whatever closure of a program that was lowered
from a tree is called, with whatever arguments, and wherever something runs in a session: what the
call comes to depends on what the heap and the captured variables hold. It depends neither on what
else is on the stacks nor on whether code calls or the host: both get the same value, or the same
error with the same trace, and leave the same heap, or both go on for ever, unless a limit is
reached. Code may be about to make this call, or it is put in the place of doing so by an
instruction of the program. -/
theorem calls_agree_with_callbacks {env : Environment} {e : Expr} {p : Program} {host : Host}
    (henv : env.Gives Value.ClosureFree) (he : ∀ v ∈ e.literals, v.ClosureFree)
    (hhost : host.Honest) (hlower : e.lower env = .ok p) (hsize : p.code.size < UInt32.size)
    (limits : Limits) :
    ∃ S : Parts, p = S.program ∧ (∀ a, Reachable ⟨p, host, limits⟩ a → a.Sound S) ∧
    ∀ (c : Closure) args named, S.Owns c → (∀ v ∈ args, v.Only S.Owns) → Entries.Only S.Owns named →
    ∀ heap, ∃ outcome : CallOutcome, (∀ b m live pc, Instruction.decode p.code pc = .ok .call →
        (Reachable ⟨p, host, limits⟩ (.loop b (.running m) live)
          ∨ Reachable ⟨p, host, limits⟩ (.loop b (.running (m.calling pc c args named)) live)) →
        m.detachedHeap = heap →
        (∀ x, Within ⟨p, host, limits⟩ m.calls.size
          (.loop b (.running (m.calling pc c args named)) live) x → ¬x.Refused limits) →
        m.CodeCall ⟨p, host, limits⟩ pc c args named outcome) ∧
      ∀ a, Reachable ⟨p, host, limits⟩ a → a.machine.detachedHeap = heap →
        (∀ x, Reaches ⟨p, host, limits⟩ (.apply (.closure c) args named a.machine) x →
          ¬x.Refused limits) →
        a.machine.HostCall ⟨p, host, limits⟩ c args named outcome := by
  obtain ⟨S, hprogram, hS, hmain⟩ := Expr.lower_parts henv he hlower hsize
  have hguarded : ∀ a, Reachable ⟨p, host, limits⟩ a → ∃ V, a.Guarded S V := fun a ha => by
    obtain ⟨V, htracks⟩ := ha.tracks
    exact ⟨V, htracks.guarded hS hmain hprogram hhost⟩
  have hsound : ∀ a, Reachable ⟨p, host, limits⟩ a → a.Sound S := fun a ha =>
    ha.sound hS hmain hprogram hhost
  refine ⟨S, hprogram, hsound, fun c args named hc hargs hnamed heap => ?_⟩
  obtain ⟨outcome, houtcome⟩ := exists_comesTo fun fuel =>
    drive (Setting.unlimited ⟨p, host, limits⟩) fuel (.running (alone heap c args named 0))
  have hown : heap.Only S.Owns → ∀ origin, Runs S .all (start heap) []
    (alone heap c args named origin)
      ∧ ComesTo (fun fuel => drive (Setting.unlimited ⟨p, host, limits⟩) fuel
        (.running (alone heap c args named origin))) outcome := by
    intro hheap origin
    have hruns := runs_alone hheap hc hargs hnamed
    refine ⟨hruns origin, ?_⟩
    rwa [funext fun fuel => drive_alone hS hprogram hhost (hruns 0) origin fuel] at houtcome
  refine ⟨outcome, ?_, ?_⟩
  · rintro b m live pc hdecode hreach rfl hfree
    have hready : m.Ready S := by
      rcases hreach with hreach | hreach
      · exact (hguarded _ hreach).choose_spec.ready
      · exact (hguarded _ hreach).choose_spec.ready_of_calling (hprogram ▸ hdecode)
    obtain ⟨hruns, houtcome⟩ := hown (hready.toTrusted.detachedHeap hready.wired) pc
    exact Ground.codeCall_of_concludes
      (Ground.concludes_call hS hprogram hhost hready hdecode hruns hfree) houtcome
  · rintro a ha rfl hfree
    obtain ⟨V, hguards⟩ := hguarded a ha
    have htrusted := hguards.sound.trusted
    have hcells : ∀ p ∈ a.machine.openCells, p.1 < a.machine.stack.size := fun p hp =>
      (hguards.placed.housed p hp).1
    have henter : ¬limits.depth ≤ a.machine.depth := hfree _ (.single .closure)
    obtain ⟨hruns, houtcome⟩ := hown (htrusted.detachedHeap hguards.wired) a.machine.origin
    exact Ground.hostCall_of_concludes henter
      (Ground.concludes_callback hS hprogram hhost hguards.wired
      hcells htrusted.fault hruns hfree) houtcome

/-! ### A call while a variable is captured -/

/-- A function is called in the block whose variable it reads. -/
def callingInBlock : Expr :=
  .defining [(.name "x", .literal (.boolean true)), (.name "f", .given [] [] (.name "x" none))]
    (.calling (.name "f" none) [] [])

/-- The loop ends within so many steps, and nothing is asked of the host. -/
def quiet (E : Setting) : Nat → Progress → Bool
  | 0, _ | _ + 1, .waiting .. => false
  | _ + 1, .finished .. => true
  | n + 1, .running m => !m.exhausted && quiet E n (m.advance E)

lemma not_refused_of_quiet {q}
    (h : quiet ⟨p, {}, {}⟩ n q = true) (hx : Reaches ⟨p, {}, {}⟩ (.loop b q live) x) :
    ¬x.Refused {} := by
  have hloop : ∃ n q live, x = .loop b q live ∧ quiet ⟨p, {}, {}⟩ n q = true := by
    induction hx with
    | refl => exact ⟨n, q, live, rfl, h⟩
    | tail _ hl ih =>
      obtain ⟨n, q, live, rfl, hquiet⟩ := ih
      cases n with
      | zero => cases hquiet
      | succ n =>
        cases hl with
        | step => exact ⟨n, _, _, rfl, (Bool.and_eq_true_iff.mp hquiet).2⟩
        | await => cases hquiet
        | resume => cases hquiet
  obtain ⟨n, q, live, rfl, hquiet⟩ := hloop
  cases q with
  | running m =>
    cases n with
    | zero => cases hquiet
    | succ n =>
      have hnot := (Bool.and_eq_true_iff.mp hquiet).1
      rintro (hcs | hexhausted)
      · exact hcs (counts_unlimited m)
      · rw [hexhausted] at hnot
        cases hnot
  | waiting job m => exact id
  | finished r m => exact id

lemma not_refused_of_opened
    (h : quiet ⟨p, {}, {}⟩ n (.running (m.opened c.target (.closure c) args named)) = true)
    (hdepth : m.depth < 128)
    (hx : Reaches ⟨p, {}, {}⟩ (.apply (.closure c) args named m) x) : ¬x.Refused {} := by
  rcases hx.cases_head with rfl | ⟨_, ⟨⟩, hx⟩
  · exact id
  · rcases hx.cases_head with rfl | ⟨_, ⟨⟩, hx⟩
    · exact Nat.not_le_of_lt hdepth
    · exact not_refused_of_quiet h hx

lemma eq_calling {stack scopes}
    (hs : m.stack = stack ++ #[some (.closure c), some (.array args), some (.object named)])
    (hsc : m.scopes = scopes.push ⟨stack.size, []⟩) :
    m = { m with stack, scopes }.calling m.pc c args named := by
  cases m
  cases hs
  cases hsc
  rfl

def gaveTrue : Except ErrorValue Value × Machine → Bool
  | (.ok (.boolean true), _) => true
  | _ => false

def callsQuietly (p : Program) (s : Machine × List Machine) : Bool :=
  match s.1.stack.toList, s.1.scopes.toList, s.1.openCells, decode p.code s.1.pc with
  | [_, _, _, _, _, some (.closure c), some (.array []), some (.object [])],
    [_, _, ⟨5, []⟩], _ :: _, .ok .call =>
    quiet ⟨p, {}, {}⟩ 10 (.running s.1)
    && quiet ⟨p, {}, {}⟩ 10 (.running (s.1.opened c.target (.closure c) [] []))
    && decide (s.1.depth < 128)
    && (apply ⟨p, {}, {}⟩ 10 (.closure c) [] [] s.1).any gaveTrue
  | _, _, _, _ => false

/-- After eleven instructions of the program its function is about to be called, and the variable
that the function captured is on the stack. -/
lemma callingInBlock_calls : ∃ (p : Program) (b m called : Machine) (live : List Machine)
    (pc : Nat)
    (c : Closure), callingInBlock.lower {} = .ok p ∧ p.code.size < UInt32.size
      ∧ decode p.code pc = .ok .call ∧ called = m.calling pc c [] [] ∧ m.openCells ≠ []
      ∧ Reachable ⟨p, {}, {}⟩ (.loop b (.running called) live)
      ∧ (∃ n, quiet ⟨p, {}, {}⟩ n (.running called) = true)
      ∧ (∃ n, quiet ⟨p, {}, {}⟩ n (.running (called.opened c.target (.closure c) [] [])) = true)
      ∧ called.depth < 128
      ∧ ∃ fuel left, apply ⟨p, {}, {}⟩ fuel (.closure c) [] [] called
        = some (.ok (.boolean true), left) := by
  obtain ⟨p, m, live, hl, hs, hr, htest⟩ :=
    reachable_of_any (e := callingInBlock) (n := 11) (t := callsQuietly) (by decide +kernel)
  unfold callsQuietly at htest
  split at htest
  · next v₀ v₁ v₂ v₃ v₄ c s₀ s₁ p₀ rest hstack hsc hopen hd =>
    simp only [Bool.and_eq_true] at htest
    obtain ⟨⟨⟨hquiet, hopened⟩, hdepth⟩, htest⟩ := htest
    obtain ⟨r, happly, htrue⟩ := (Option.any_eq_true _ _).mp htest
    have hcalling := eq_calling (show m.stack = #[v₀, v₁, v₂, v₃, v₄] ++ #[_, _, _] from
      toList_inj.mp hstack) (show m.scopes = #[s₀, s₁].push ⟨5, []⟩ from toList_inj.mp hsc)
    unfold gaveTrue at htrue
    split at htrue
    · next left =>
      exact ⟨p, _, _, m, live, m.pc, c, hl, hs, hd, hcalling,
        hopen ▸ List.cons_ne_nil _ _, hr, ⟨_, hquiet⟩, ⟨_, hopened⟩, of_decide_eq_true hdepth, _,
        left, happly⟩
    · cases htrue
  · cases htest

/-- The function comes to the variable's value, whether the block calls it or the host. -/
theorem calls_agree_with_callbacks_callingInBlock : ∃ (p : Program) (m : Machine) (pc : Nat)
    (c : Closure) (heap : Heap), callingInBlock.lower {} = .ok p ∧ m.openCells ≠ []
      ∧ m.CodeCall ⟨p, {}, {}⟩ pc c [] [] (some (.ok (.boolean true), heap))
      ∧ (m.calling pc c [] []).HostCall ⟨p, {}, {}⟩ c [] [] (some (.ok (.boolean true), heap)) := by
  obtain ⟨p, b, m, _, live, pc, c, hlower, hsize, hdecode, rfl, hopen, hreach, ⟨n, hquiet⟩,
    ⟨k, hopened⟩,
    hdepth, fuel, left, happly⟩ := callingInBlock_calls
  have hhost : ({} : Host).Honest := fun code n hn => by cases hn
  have hliterals : ∀ v ∈ callingInBlock.literals, v.ClosureFree := by
    intro v hv
    obtain rfl : v = .boolean true := List.mem_singleton.mp hv
    simp
  have hfirm : m.Firm := by
    obtain ⟨S, rfl, hS, hmain⟩ := Expr.lower_parts empty_gives hliterals hlower hsize
    obtain ⟨V, htracks⟩ := hreach.tracks
    exact ((htracks.guarded hS hmain rfl hhost).ready_of_calling hdecode).firm
  obtain ⟨S, rfl, hsound, hagree⟩ :=
    calls_agree_with_callbacks empty_gives hliterals hhost hlower hsize {}
  have hc : S.Owns c := by
    obtain ⟨L, hfits⟩ := Runs.calls (hsound _ hreach) hdecode
    refine Value.only_closure.mp (hfits.stacked.only _ ?_)
    rw [operands_calling]
    exact List.mem_append_left _ (by simp)
  obtain ⟨outcome, hcode, hhostCall⟩ := hagree c [] [] hc (List.forall_mem_nil _)
    (List.forall_mem_nil _)
    m.detachedHeap
  have hcodeCall := hcode b m live pc hdecode (.inr hreach) rfl fun x hx =>
    not_refused_of_quiet hquiet (Relation.ReflTransGen.mono (fun _ _ => And.left) _ _ hx)
  have hhostCall := hhostCall _ hreach (detachedHeap_calling hfirm) fun x hx =>
    not_refused_of_opened hopened hdepth hx
  match outcome with
  | none => cases happly.symm.trans (hhostCall fuel)
  | some (result, heap) =>
    have hresult : result = .ok (.boolean true) := by
      obtain ⟨fuel', left', -, happly'⟩ := hhostCall
      let task : Task (Except ErrorValue Value) := .apply (.closure c) [] [] (m.calling pc c [] [])
      have hrun := Task.run_mono (t := task) trivial ((Task.run_eq ..).trans happly)
        (Nat.le_max_left fuel fuel')
      have hrun' := Task.run_mono (t := task) trivial ((Task.run_eq ..).trans happly')
        (Nat.le_max_right fuel fuel')
      cases hrun.symm.trans hrun'
      rfl
    subst hresult
    exact ⟨_, m, pc, c, heap, hlower, hopen, hcodeCall, hhostCall⟩

end Session

end TreeCode
