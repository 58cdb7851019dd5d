import TreeCode.Proofs.Relocation

/-!
# Errors above the ground

An error that is raised above the ground goes where it goes on its own if it is caught there
(`Ground.recover_put_caught`) or ends a loop that began there (`Ground.recover_put_uncaught`). If
the function does not catch it, all that was called above the ground is left, and the error goes on
from the ground with the names of these calls in its trace (`Ground.recover_abandoned`).
-/

namespace TreeCode

open Machine Array

namespace Ground

variable {G : Ground} {o o' : Machine}

/-! ## Catches -/

lemma scopes_put (i) :
    (G.put o).scopes[G.base.scopes.size + i]? = o.scopes[i]?.map G.scope := by
  show (G.base.scopes ++ o.scopes.map G.scope)[_]? = _
  rw [getElem?_append_right (Nat.le_add_right ..), Nat.add_sub_cancel_left, getElem?_map]

variable {scopes : Array Scope} {floor : Nat}

lemma catchAmong_of_lt {n} (h : n ≤ floor) : catchAmong scopes floor n = none := by
  cases n with
  | zero => rfl
  | succ n => exact if_pos (by omega)

/-- The search looks at the scopes below only. -/
lemma catchAmong_congr {scopes'} :
    ∀ {n}, (∀ i < n, scopes[i]? = scopes'[i]?) → catchAmong scopes floor n
      = catchAmong scopes' floor n
  | 0, _ => rfl
  | n + 1, h => by
    rw [catchAmong, catchAmong, h n (Nat.lt_succ_self n),
      catchAmong_congr fun i hi => h i (Nat.lt_succ_of_lt hi)]

variable {i : Nat} {s : Scope}

/-- The search goes through the scopes above the ground, and then on below it. -/
lemma catchAmong_put (h : G.Agrees o) : ∀ n,
    catchAmong (G.put o).scopes (G.put o).floor.scopes (G.base.scopes.size + n)
      = ((catchAmong o.scopes o.floor.scopes n).map fun found =>
          (G.base.scopes.size + found.1, G.scope found.2)).or
        (catchAmong (G.put o).scopes (G.put o).floor.scopes G.base.scopes.size)
  | 0 => rfl
  | n + 1 => by
    have ih := catchAmong_put h n
    rw [← Nat.add_assoc, catchAmong, catchAmong, scopes_put]
    by_cases hfl : n < o.floor.scopes
    · have hput := (floor_scopes_lt h n).mpr hfl
      rw [if_pos hput, if_pos hfl, catchAmong_of_lt (by omega)]
      rfl
    · rw [if_neg ((floor_scopes_lt h n).not.mpr hfl), if_neg hfl]
      cases o.scopes[n]? with
      | none => exact ih
      | some t =>
        dsimp only [Option.map_some]
        rw [show (G.scope t).recovery = t.recovery from rfl]
        split
        · exact ih
        · rfl

lemma openCatch_some (h : G.Agrees o) (hcatch : o.openCatch = some (i, s)) :
    (G.put o).openCatch = some (G.base.scopes.size + i, G.scope s) := by
  have hput : (G.put o).exhausted = false := h.exhausted
  rw [openCatch, h.exhausted, if_neg Bool.false_ne_true] at hcatch
  rw [openCatch, hput, if_neg Bool.false_ne_true, size_scopes, catchAmong_put h, hcatch]
  rfl

lemma openCatch_none (h : G.Agrees o) (hcatch : o.openCatch = none) : (G.put o).openCatch
    = catchAmong (G.put o).scopes (G.put o).floor.scopes G.base.scopes.size := by
  have hput : (G.put o).exhausted = false := h.exhausted
  rw [openCatch, h.exhausted, if_neg Bool.false_ne_true] at hcatch
  rw [openCatch, hput, if_neg Bool.false_ne_true, size_scopes, catchAmong_put h, hcatch]
  rfl

/-! ## Calls that are left -/

lemma calls_put (j) :
    (G.put o).calls[G.base.calls.size + j]? = o.calls[j]?.map (G.call j) := by
  show (G.base.calls ++ o.calls.mapIdx G.call)[_]? = _
  rw [getElem?_append_right (Nat.le_add_right ..), Nat.add_sub_cancel_left, getElem?_mapIdx]

/-- What matters of the calls that are left: where their callees lie. -/
def places (calls : List Call) : List Nat := calls.map Call.base

lemma floor_calls_le : G.base.floor.calls ≤ (G.put o).floor.calls := by
  have := G.firm.floor_calls
  show _ ≤ (G.floor o).calls
  unfold floor
  split
  · exact Nat.le_refl _
  · show _ ≤ G.base.calls.size + _
    omega

/-- No call below the ground has its callee above it. -/
lemma callsAmong_below (base) :
    callsAmong (G.put o).calls (G.put o).floor.calls (G.height + base) G.base.calls.size = [] := by
  cases hs : G.base.calls.size with
  | zero => rfl
  | succ j =>
    rw [callsAmong]
    split
    · rfl
    · next hfl =>
      have hget : (G.put o).calls[j]? = G.base.calls[j]? := getElem?_append_left (by omega)
      rw [hget]
      cases hcall : G.base.calls[j]? with
      | none => rfl
      | some c =>
        have hb := G.firm.callees j c (by have := floor_calls_le (G := G) (o := o); omega) hcall
        exact if_neg (by rw [height]; omega)

/-- The calls above the ground that are left. -/
lemma callsAmong_put (h : G.Agrees o) (base) : ∀ n,
    places (callsAmong (G.put o).calls (G.put o).floor.calls (G.height + base)
      (G.base.calls.size + n))
      = (places (callsAmong o.calls o.floor.calls base n)).map (G.height + ·)
  | 0 => by rw [Nat.add_zero, callsAmong_below]; rfl
  | n + 1 => by
    rw [← Nat.add_assoc, callsAmong, callsAmong, calls_put]
    by_cases hfl : n < o.floor.calls
    · rw [if_pos hfl, if_pos ((floor_calls_lt h n).mpr hfl)]
      rfl
    · rw [if_neg hfl, if_neg ((floor_calls_lt h n).not.mpr hfl)]
      cases o.calls[n]? with
      | none => rfl
      | some c =>
        have hbase : G.height + base ≤ (G.call n c).base ↔ base ≤ c.base := Nat.add_le_add_iff_left
        simp only [Option.map_some]
        by_cases hle : base ≤ c.base
        · rw [if_pos hle, if_pos (hbase.mpr hle)]
          exact congrArg ((G.height + c.base) :: ·) (callsAmong_put h base n)
        · rw [if_neg hle, if_neg (hbase.not.mpr hle)]
          rfl

lemma filterMap_calleeName (m : Machine) (calls : List Call) : calls.filterMap m.calleeName
    = (places calls).filterMap fun base => (m.slotContent base).bind Value.functionName? := by
  rw [places, List.filterMap_map]
  rfl

/-- The callees above the ground have the names that they have on their own. -/
lemma names_put (calls : List Nat) : (calls.map (G.height + ·)).filterMap
        (fun base => ((G.put o).slotContent base).bind Value.functionName?)
      = calls.filterMap fun base => (o.slotContent base).bind Value.functionName? := by
  rw [List.filterMap_map]
  exact congrArg (List.filterMap · calls) (funext fun base => by rw [Function.comp,
    slotContent_put])

lemma mapIdx_shrink {α β : Type} (f : Nat → α → β) (xs : Array α) (n) :
    (xs.mapIdx f).shrink n = (xs.shrink n).mapIdx f := by
  refine ext_getElem? fun i => ?_
  simp only [shrink_eq_take, take, getElem?_extract, getElem?_mapIdx, size_mapIdx, Nat.zero_add]
  split <;> rfl

/-- **Leaving calls above the ground.** -/
theorem leaveCalls_put (h : G.Agrees o) (base : Nat) (e) :
    (G.put o).leaveCalls (G.height + base) e
      = (G.put (o.leaveCalls base e).1, (o.leaveCalls base e).2) := by
  have hbases : places ((G.put o).callsFrom (G.height + base))
      = (places (o.callsFrom base)).map (G.height + ·) := by
    rw [callsFrom, size_calls]
    exact callsAmong_put h base _
  have hlength : ((G.put o).callsFrom (G.height + base)).length = (o.callsFrom base).length := by
    simpa [places] using congrArg List.length hbases
  have hle : (o.callsFrom base).length ≤ o.calls.size :=
    (length_callsAmong ..).trans (Nat.sub_le ..)
  have hcs : (G.put o).calls.shrink ((G.put o).calls.size - (o.callsFrom base).length)
      = G.base.calls ++
        (o.calls.shrink (o.calls.size - (o.callsFrom base).length)).mapIdx G.call := by
    rw [size_calls, Nat.add_sub_assoc hle, ← mapIdx_shrink]
    exact shrink_append ..
  unfold leaveCalls
  simp only [filterMap_calleeName, hbases, hlength, names_put, hcs]
  rfl

/-! ## Recovery -/

lemma catchAmong_recovery : ∀ {n}, catchAmong scopes floor n = some (i, s) → s.recovery ≠ []
  | n + 1, h => by
    rw [catchAmong] at h
    split at h
    · cases h
    · split at h
      · split at h
        · exact catchAmong_recovery h
        · next he =>
          cases h
          exact fun hnil => he (List.isEmpty_iff.mpr hnil)
      · exact catchAmong_recovery h

lemma openCatch_recovery (h : o.openCatch = some (i, s)) : s.recovery ≠ [] := by
  unfold openCatch at h
  split at h
  · cases h
  · exact catchAmong_recovery h

lemma agrees_recover (h : G.Agrees o) (e) : G.Agrees (o.recover e).1 := by
  refine h.evolves (touches_recover 0 o e).evolves ?_ ?_ ?_ <;> unfold recover leaveCalls <;>
    split <;> rfl

lemma scopes_shrink (i) : (G.put o).scopes.shrink (G.base.scopes.size + i)
    = G.base.scopes ++ (o.scopes.shrink i).map G.scope := by
  refine (shrink_append ..).trans ?_
  simp [shrink_eq_take]

/-- The machine that an error leaves at its catch. -/
def caught (m : Machine) (i base : Nat) (os : List Nat) (e : ErrorValue) : Machine :=
  { (m.leaveCalls base e).1 with scopes := (m.scopes.shrink i).push ⟨base, os⟩ }.truncate base

variable {base : Nat}

lemma recover_of_some {m t os}
    (h : m.openCatch = some (i, ⟨base, t :: os⟩)) (e) : m.recover e
    = ({ caught m i base os e with
          stack := (caught m i base os e).stack.push (some (m.leaveCalls base e).2.toValue)
          pc := t }, none) := by
  unfold recover
  rw [h]
  rfl

lemma caught_put (h : G.Agrees o) (i base os e) :
    caught (G.put o) (G.base.scopes.size + i) (G.height + base) os e
      = G.put (caught o i base os e) := by
  have hagrees : G.Agrees
      { (o.leaveCalls base e).1 with scopes := (o.scopes.shrink i).push ⟨base, os⟩ } :=
    h.congr rfl rfl rfl rfl rfl
  have hsc : { G.put (o.leaveCalls base e).1 with
        scopes := ((G.put o).scopes.shrink (G.base.scopes.size + i)).push ⟨G.height + base, os⟩ }
      = G.put { (o.leaveCalls base e).1 with
          scopes := (o.scopes.shrink i).push ⟨base, os⟩ } := by
    simp only [scopes_shrink]
    simp only [put, map_push, append_push]
    rfl
  unfold caught
  rw [leaveCalls_put h, hsc, truncate_put hagrees]

/-- **An error that is caught above the ground.** -/
theorem recover_put_caught (h : G.Agrees o) (hcatch : o.openCatch = some (i, s)) (e) :
    (G.put o).recover e = (G.put (o.recover e).1, (o.recover e).2) := by
  obtain ⟨base, recovery⟩ := s
  cases recovery with
  | nil => exact absurd rfl (openCatch_recovery hcatch)
  | cons t os =>
    rw [recover_of_some (openCatch_some h hcatch), recover_of_some hcatch, caught_put h,
      leaveCalls_put h]
    simp only [put, append_push]
    rfl

/-- The machine that an error without a catch leaves, for given heights. -/
def left (m : Machine) (scopes stack : Nat) (e : ErrorValue) : Machine :=
  { (m.leaveCalls stack e).1 with scopes := m.scopes.shrink scopes }.truncate stack

lemma recover_of_none {m} (h : m.openCatch = none) (e) : m.recover e
    = (left m m.floor.scopes m.floor.stack e, some (m.leaveCalls m.floor.stack e).2) := by
  unfold recover
  rw [h]
  rfl

lemma left_put (h : G.Agrees o) (scopes stack e) :
    left (G.put o) (G.base.scopes.size + scopes) (G.height + stack) e = G.put
      (left o scopes stack e) := by
  have hagrees : G.Agrees { (o.leaveCalls stack e).1 with scopes := o.scopes.shrink scopes } :=
    h.congr rfl rfl rfl rfl rfl
  have hsc : { G.put (o.leaveCalls stack e).1 with
        scopes := (G.put o).scopes.shrink (G.base.scopes.size + scopes) }
      = G.put { (o.leaveCalls stack e).1 with scopes := o.scopes.shrink scopes } := by
    simp only [scopes_shrink]
    rfl
  unfold left
  rw [leaveCalls_put h, hsc, truncate_put hagrees]

lemma floor_put (h : 1 < o.depth) : (G.put o).floor = G.above o.floor := if_neg (by omega)

/-- **An error that ends a loop above the ground.** -/
theorem recover_put_uncaught (h : G.Agrees o) (hfl : (G.put o).floor = G.above o.floor)
    (hcatch : o.openCatch = none) (e) :
    (G.put o).recover e = (G.put (o.recover e).1, (o.recover e).2) := by
  have hput : (G.put o).openCatch = none := by
    rw [openCatch_none h hcatch, catchAmong_of_lt]
    rw [hfl]
    exact Nat.le_add_right ..
  rw [recover_of_none hput, recover_of_none hcatch, hfl, above, left_put h, leaveCalls_put h]

/-! ## Errors that the function does not catch -/

lemma shrink_append_below {α : Type} {xs ys : Array α} {n} (h : n ≤ xs.size) :
    (xs ++ ys).shrink n = xs.shrink n := by
  rw [shrink_eq_take, shrink_eq_take, take, take, extract_append,
    Nat.sub_eq_zero_of_le h, Nat.zero_sub, extract_zero, append_empty]

variable {calls : Array Call}

lemma callsAmong_congr {calls'} : ∀ {n}, (∀ i < n, calls[i]? = calls'[i]?) →
      callsAmong calls floor base n = callsAmong calls' floor base n
  | 0, _ => rfl
  | n + 1, h => by
    rw [callsAmong, callsAmong, h n (Nat.lt_succ_self n),
      callsAmong_congr fun i hi => h i (Nat.lt_succ_of_lt hi)]

lemma floor_base (h : o.depth ≤ 1) : (G.put o).floor = G.base.floor := if_pos h

/-- The calls below the ground. -/
lemma callsAmong_ground (h : o.depth ≤ 1) (base) :
    callsAmong (G.put o).calls (G.put o).floor.calls base G.base.calls.size
      = callsAmong G.base.calls G.base.floor.calls base G.base.calls.size := by
  rw [floor_base h]
  exact callsAmong_congr fun i hi => getElem?_append_left hi

/-- The calls of the function, all of which are left, come first. -/
lemma callsAmong_abandoned (h : o.depth ≤ 1) (hbase : base ≤ G.height) : ∀ {n}, n ≤ o.calls.size →
      places (callsAmong (G.put o).calls (G.put o).floor.calls base (G.base.calls.size + n))
        = (places (callsAmong o.calls 0 0 n)).map (G.height + ·)
          ++ places (callsAmong G.base.calls G.base.floor.calls base G.base.calls.size)
  | 0, _ => congrArg places (callsAmong_ground h base)
  | n + 1, hn => by
    have hfl : ¬ G.base.calls.size + n < (G.put o).floor.calls := by
      have := G.firm.floor_calls
      rw [floor_base h]
      omega
    have hget : o.calls[n]? = some (o.calls[n]) := getElem?_eq_getElem hn
    have hle : base ≤ (G.call n o.calls[n]).base := Nat.le_add_right_of_le hbase
    rw [← Nat.add_assoc, callsAmong, callsAmong, calls_put, if_neg hfl,
      if_neg (Nat.not_lt_zero n), hget]
    simp only [Option.map_some]
    rw [if_pos (Nat.zero_le _), if_pos hle]
    exact congrArg ((G.height + _) :: ·) (callsAmong_abandoned h hbase (Nat.le_of_lt hn))

lemma length_callsAmong_all : ∀ {n}, n ≤ calls.size → (callsAmong calls 0 0 n).length = n
  | 0, _ => rfl
  | n + 1, hn => by
    have hget : calls[n]? = some (calls[n]) := getElem?_eq_getElem hn
    rw [callsAmong, if_neg (Nat.not_lt_zero n), hget]
    simp only [Nat.zero_le, if_true, List.length_cons, length_callsAmong_all (Nat.le_of_lt hn)]

/-- The callees below the ground have the names that they had. -/
lemma names_below {calls : List Call} (h : ∀ c ∈ calls, c.base < G.height) :
    calls.filterMap (G.put o).calleeName = calls.filterMap G.base.calleeName := by
  refine List.filterMap_congr fun c hc => ?_
  rw [calleeName, calleeName, slotContent_below (h c hc)]

variable (G) in
/-- The calls of the ground whose callees lie at `base` or above it. -/
def leftBelow (base : Nat) : List Call :=
  callsAmong G.base.calls G.base.floor.calls base G.base.calls.size

lemma mem_callsAmong {c} :
    ∀ {n}, c ∈ callsAmong calls floor base n → ∃ j, floor ≤ j ∧ calls[j]? = some c
  | n + 1, h => by
    rw [callsAmong] at h
    split at h
    · cases h
    · next hfl =>
      split at h
      · next call hcall =>
        split at h
        · rcases List.mem_cons.mp h with rfl | h
          · exact ⟨n, by omega, hcall⟩
          · exact mem_callsAmong h
        · cases h
      · cases h

lemma leftBelow_lt : ∀ c ∈ G.leftBelow base, c.base < G.height := by
  intro c hc
  obtain ⟨j, hj, hcall⟩ := mem_callsAmong hc
  exact G.firm.callees j c hj hcall

/-- **Leaving the function's calls and some of those below it.** -/
theorem leaveCalls_abandoned (h : G.Agrees o) (hd : o.depth ≤ 1)
    (hbase : base ≤ G.height) (e) : (G.put o).leaveCalls base e
      = ({ G.put o with
            calls := G.base.calls.shrink (G.base.calls.size - (G.leftBelow base).length) },
          { e with trace := e.trace ++ (o.callsFrom 0).filterMap o.calleeName
              ++ (G.leftBelow base).filterMap G.base.calleeName }) := by
  have hall : o.callsFrom 0 = callsAmong o.calls 0 0 o.calls.size := by rw [callsFrom, h.floor hd]
  have hplaces : places ((G.put o).callsFrom base)
      = (places (o.callsFrom 0)).map (G.height + ·) ++ places (G.leftBelow base) := by
    rw [callsFrom, size_calls, hall]
    exact callsAmong_abandoned hd hbase (Nat.le_refl _)
  have hlength : ((G.put o).callsFrom base).length = o.calls.size + (G.leftBelow base).length := by
    have := congrArg List.length hplaces
    simpa [places, hall, length_callsAmong_all] using this
  have hns : ((G.put o).callsFrom base).filterMap (G.put o).calleeName
      = (o.callsFrom 0).filterMap o.calleeName ++
        (G.leftBelow base).filterMap G.base.calleeName := by
    rw [filterMap_calleeName, hplaces, List.filterMap_append, names_put, ← filterMap_calleeName,
      ← filterMap_calleeName, names_below leftBelow_lt]
  have hcs : (G.put o).calls.shrink ((G.put o).calls.size - ((G.put o).callsFrom base).length)
      = G.base.calls.shrink (G.base.calls.size - (G.leftBelow base).length) := by
    rw [size_calls, hlength, show G.base.calls.size + o.calls.size
      - (o.calls.size + (G.leftBelow base).length)
      = G.base.calls.size - (G.leftBelow base).length by omega]
    exact shrink_append_below (Nat.sub_le ..)
  unfold leaveCalls
  simp only [hcs, hns, List.append_assoc]

variable (o) in
/-- The machine whose function has been left: its variables are detached, and its stacks are
empty. -/
def emptied : Machine := { o with calls := #[], scopes := #[] }.truncate 0

lemma agrees_emptied (h : G.Agrees o) : G.Agrees (emptied o) := by
  have hleft : G.Agrees { o with calls := #[], scopes := #[] } := h.congr rfl rfl rfl rfl rfl
  exact hleft.evolves (.single (.cut _ 0)) rfl rfl rfl

lemma openCells_emptied : (emptied o).openCells = [] := by
  rw [emptied, openCells_truncate]
  exact List.dropWhile_eq_nil_iff.mpr fun p _ => decide_eq_true (Nat.zero_le p.1)

lemma heap_emptied : (emptied o).heap = o.heap.closeCells (o.contentsOf o.openCells) := by
  have hall : o.openCells.takeWhile (0 ≤ ·.1) = o.openCells :=
    List.takeWhile_eq_self_iff.mpr fun p _ => decide_eq_true (Nat.zero_le p.1)
  rw [emptied, heap_truncate]
  exact congrArg (fun cells => o.heap.closeCells (o.contentsOf cells)) hall

lemma contentsOf_below {cells} (h : ∀ p ∈ cells, p ∈ G.base.openCells) :
    (G.put o).contentsOf cells = G.base.contentsOf cells :=
  List.map_congr_left fun p hp => congrArg (Prod.mk p.2) (slotContent_below
    (G.firm.openCells p (h p hp)))

/-- **Cutting the stack below the ground**, whether or not the function has been left before. -/
theorem truncate_abandoned (h : G.Agrees o) {height} (hheight : height ≤ G.height)
    (calls scopes) : { G.put o with calls, scopes }.truncate height
      = { G.put (emptied o) with calls, scopes }.truncate height := by
  have hown : ∀ p ∈ o.openCells.map G.slot, decide (height ≤ p.1) = true := by
    intro p hp
    obtain ⟨q, -, rfl⟩ := List.mem_map.mp hp
    exact decide_eq_true (Nat.le_add_right_of_le hheight)
  have hopen : (G.put (emptied o)).openCells = G.base.openCells := by
    show (emptied o).openCells.map G.slot ++ G.base.openCells = _
    rw [openCells_emptied, List.map_nil, List.nil_append]
  have hheap : (G.put (emptied o)).heap
      = (G.put o).heap.closeCells ((G.put o).contentsOf (o.openCells.map G.slot)) := by
    show G.heap (emptied o).heap = _
    rw [heap_emptied, contentsOf_put, heap_closeCells _ _ (contentsOf_ge h fun p hp => hp)]
    rfl
  have hb : ∀ p ∈ G.base.openCells.takeWhile (height ≤ ·.1), p ∈ G.base.openCells :=
    fun p hp => (mem_takeWhile hp).1
  rw [truncate_eq, truncate_eq { G.put (emptied o) with calls, scopes }]
  have hs : ({ G.put o with calls, scopes }.truncate height).stack
      = ({ G.put (emptied o) with calls, scopes }.truncate height).stack :=
    (shrink_append_below hheight).trans (shrink_append_below hheight).symm
  have hcells : ({ G.put o with calls, scopes }.truncate height).openCells
      = ({ G.put (emptied o) with calls, scopes }.truncate height).openCells := by
    rw [openCells_truncate, openCells_truncate]
    show (o.openCells.map G.slot ++ G.base.openCells).dropWhile _ =
      (G.put (emptied o)).openCells.dropWhile _
    rw [hopen, List.dropWhile_append_of_pos hown]
  have hheap' : ({ G.put o with calls, scopes }.truncate height).heap
      = ({ G.put (emptied o) with calls, scopes }.truncate height).heap := by
    rw [heap_truncate, heap_truncate]
    show (G.put o).heap.closeCells ((G.put o).contentsOf
        ((o.openCells.map G.slot ++ G.base.openCells).takeWhile _))
      = (G.put (emptied o)).heap.closeCells ((G.put (emptied o)).contentsOf
        ((G.put (emptied o)).openCells.takeWhile _))
    rw [hopen, hheap, List.takeWhile_append_of_pos hown, contentsOf_below hb, contentsOf,
      List.map_append, Heap.closeCells, List.foldl_append]
    exact congrArg (Heap.closeCells _) (contentsOf_below hb)
  rw [hs, hcells, hheap']
  rfl

/-- The error of the function that was left, with the names of all its calls. -/
def abandonedError (o : Machine) (e : ErrorValue) : ErrorValue :=
  { e with trace := e.trace ++ (o.callsFrom 0).filterMap o.calleeName }

lemma leaveCalls_emptied (h : G.Agrees o) (hd : o.depth ≤ 1)
    (hbase : base ≤ G.height) (e) :
    (G.put (emptied o)).leaveCalls base (abandonedError o e)
      = ({ G.put (emptied o) with
            calls := G.base.calls.shrink (G.base.calls.size - (G.leftBelow base).length) },
          { e with trace := e.trace ++ (o.callsFrom 0).filterMap o.calleeName
              ++ (G.leftBelow base).filterMap G.base.calleeName }) := by
  have hn : (emptied o).callsFrom 0 = [] := rfl
  rw [leaveCalls_abandoned (agrees_emptied h) hd hbase, hn, List.filterMap_nil, List.append_nil]
  rfl

/-- **An error that the function does not catch** goes on from the ground, when the function has
been left. -/
theorem recover_abandoned (h : G.Agrees o) (hd : o.depth ≤ 1) (hcatch : o.openCatch = none)
    (e) : (G.put o).recover e = (G.put (emptied o)).recover (abandonedError o e) := by
  have he : (emptied o).openCatch = none := by
    unfold openCatch
    split <;> rfl
  have hsc : ∀ n ≤ G.base.scopes.size,
      (G.put o).scopes.shrink n = (G.put (emptied o)).scopes.shrink n := fun n hn =>
    (shrink_append_below hn).trans (shrink_append_below hn).symm
  have hopen : (G.put o).openCatch = (G.put (emptied o)).openCatch := by
    rw [openCatch_none h hcatch, openCatch_none (agrees_emptied h) he, floor_base hd,
      floor_base (o := emptied o) hd]
    exact catchAmong_congr fun i hi =>
      (getElem?_append_left hi).trans (getElem?_append_left hi).symm
  cases hf : (G.put (emptied o)).openCatch with
  | none =>
    rw [recover_of_none (hopen.trans hf), recover_of_none hf, floor_base hd,
      floor_base (o := emptied o) hd, left, left, leaveCalls_abandoned h hd G.firm.floor_stack,
      leaveCalls_emptied h hd G.firm.floor_stack, hsc _ G.firm.floor_scopes]
    exact congrArg (·, _) (truncate_abandoned h G.firm.floor_stack ..)
  | some found =>
    obtain ⟨i, base, recovery⟩ := found
    cases recovery with
    | nil => exact absurd rfl (openCatch_recovery hf)
    | cons t os =>
      have hamong := hf
      rw [openCatch_none (agrees_emptied h) he, floor_base (o := emptied o) hd] at hamong
      obtain ⟨hfl, hlt, hscope⟩ := catchAmong_spec hamong
      have hbase : base ≤ G.height :=
        G.firm.bases i _ hfl ((getElem?_append_left hlt).symm.trans hscope)
      rw [recover_of_some (hopen.trans hf), recover_of_some hf, caught, caught,
        leaveCalls_abandoned h hd hbase, leaveCalls_emptied h hd hbase,
        hsc i (Nat.le_of_lt hlt), truncate_abandoned h hbase]

lemma recover_empties (h : G.Agrees o) (hd : o.depth ≤ 1) (hcatch : o.openCatch = none)
    (e) : o.recover e = (emptied o, some (abandonedError o e)) := by
  have hlength : (o.callsFrom 0).length = o.calls.size := by
    rw [callsFrom, h.floor hd]
    exact length_callsAmong_all (Nat.le_refl _)
  have hall : (o.leaveCalls 0 e).1 = { o with calls := #[] } := by
    simp [leaveCalls, hlength, shrink_eq_take]
  have hleft : left o 0 0 e = emptied o := by
    unfold left emptied
    rw [hall]
    simp [shrink_eq_take]
  have hfl : o.floor = {} := h.floor hd
  rw [recover_of_none hcatch, hfl, hleft]
  rfl

end Ground

end TreeCode
