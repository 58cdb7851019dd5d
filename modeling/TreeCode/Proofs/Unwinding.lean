import TreeCode.Proofs.Actions

/-!
# Unwinding, as equations

Recovery searches the scopes for the innermost open catch, and the calls for those made inside it.
On stacks whose items are known from the top down, with the catch among the scopes and the calls
made inside it above the others, its result is an equation (`Machine.recover_caught`); and so it is
where nothing is caught (`Machine.recover_uncaught`).
-/

namespace TreeCode.Machine

/-! ## The innermost open catch -/

lemma catchAmong_skip {scopes : Array Scope} {floor} :
    ∀ {above below : List Scope} {extra}, scopes.toList = (above ++ below).reverse ++ extra →
      (∀ s ∈ above, s.recovery = []) → floor ≤ below.length →
      catchAmong scopes floor (above ++ below).length = catchAmong scopes floor below.length
  | [], _, _, _, _, _ => rfl
  | s :: above, below, extra, heq, hn, hfl => by
    have hget : scopes[(above ++ below).length]? = some s := by
      rw [← Array.getElem?_toList, heq, List.cons_append, List.reverse_cons, List.append_assoc,
        List.getElem?_append_right (Nat.le_of_eq List.length_reverse), List.length_reverse,
        Nat.sub_self]
      rfl
    have hskip := catchAmong_skip
      (show scopes.toList = (above ++ below).reverse ++ s :: extra by simpa using heq)
        (fun t ht => hn t (List.mem_cons_of_mem _ ht)) hfl
    rw [List.cons_append, List.length_cons, catchAmong,
      if_neg (by rw [List.length_append]; omega), hget]
    dsimp only
    rw [hn s List.mem_cons_self, if_pos List.isEmpty_nil]
    exact hskip

variable {m : Machine} {above below : List Scope}

lemma catchAmong_scopes (h : m.scopeList = above ++ below) (habove : ∀ t ∈ above, t.recovery = [])
    (hfl : m.floor.scopes ≤ below.length) : catchAmong m.scopes m.floor.scopes m.scopes.size
      = catchAmong m.scopes m.floor.scopes below.length := by
  have hlist : m.scopes.toList = (above ++ below).reverse ++ [] := by
    rw [← h, scopeList, List.reverse_reverse, List.append_nil]
  rw [← length_scopeList, h, catchAmong_skip hlist habove hfl]

/-- The innermost scope with an open catch is found. -/
lemma openCatch_eq {s} (hl : m.exhausted = false)
    (h : m.scopeList = above ++ s :: below) (habove : ∀ t ∈ above, t.recovery = [])
    (hs : s.recovery ≠ []) (hfl : m.floor.scopes ≤ below.length) :
    m.openCatch = some (below.length, s) := by
  have hget : m.scopes[below.length]? = some s := by
    rw [← Array.getElem?_toList, ← List.reverse_reverse m.scopes.toList, ← scopeList, h]
    simp
  rw [openCatch, hl, if_neg Bool.false_ne_true,
    catchAmong_scopes h habove (by rw [List.length_cons]; omega), List.length_cons, catchAmong,
    if_neg (by omega), hget]
  dsimp only
  rw [if_neg (by simpa using hs)]

/-- No catch is found where there is none above the floor, or where a budget is spent. -/
lemma openCatch_none (h : m.scopeList = above ++ below)
    (hn : m.exhausted = true ∨ ∀ t ∈ above, t.recovery = [])
    (hfl : m.floor.scopes = below.length) : m.openCatch = none := by
  rw [openCatch]
  split
  · rfl
  · next hl =>
    rw [catchAmong_scopes h (hn.resolve_left hl) (Nat.le_of_eq hfl)]
    cases below with
    | nil => rfl
    | cons s below =>
      rw [List.length_cons] at hfl
      rw [List.length_cons, catchAmong, if_pos (by omega)]

/-! ## The calls made inside -/

variable {base : Nat}

lemma callsAmong_eq {calls : Array Call} {floor} :
    ∀ {l extra : List Call}, calls.toList = l.reverse ++ extra →
      callsAmong calls floor base l.length
      = (l.take (l.length - floor)).takeWhile (base ≤ ·.base)
  | [], _, _ => by simp [callsAmong]
  | c :: l, extra, heq => by
    have hget : calls[l.length]? = some c := by
      rw [← Array.getElem?_toList, heq, List.reverse_cons, List.append_assoc,
        List.getElem?_append_right (by simp)]
      simp
    have hr : callsAmong calls floor base l.length
        = (l.take (l.length - floor)).takeWhile (base ≤ ·.base) :=
      callsAmong_eq (show calls.toList = l.reverse ++ c :: extra by simpa using heq)
    rw [List.length_cons, callsAmong]
    split
    · next hfl => rw [Nat.sub_eq_zero_of_le (by omega), List.take_zero, List.takeWhile_nil]
    · next hfl =>
      rw [hget, Nat.sub_add_comm (by omega), List.take_succ_cons]
      dsimp only
      by_cases hbase : base ≤ c.base
      · rw [if_pos hbase, hr, List.takeWhile_cons_of_pos (by simpa using hbase)]
      · rw [if_neg hbase, List.takeWhile_cons_of_neg (by simpa using hbase)]

/-- The calls made inside are those whose callees lie at the base or above it. -/
lemma callsFrom_eq {made kept low : List Call}
    (h : m.callList = made ++ (kept ++ low)) (hfl : m.floor.calls = low.length)
    (hmade : ∀ c ∈ made, base ≤ c.base) (hk : ∀ c ∈ kept, c.base < base) :
    m.callsFrom base = made := by
  have hlist : m.calls.toList = m.callList.reverse ++ [] := by
    rw [callList, List.reverse_reverse, List.append_nil]
  have hstop : kept.takeWhile (base ≤ ·.base) = [] := by
    cases kept with
    | nil => rfl
    | cons c kept =>
      have := hk c List.mem_cons_self
      rw [List.takeWhile_cons_of_neg (by simpa using this)]
  rw [callsFrom, ← length_callList, callsAmong_eq hlist, h, hfl, ← List.append_assoc,
    List.length_append, Nat.add_sub_cancel, List.take_left, List.takeWhile_append_of_pos, hstop,
    List.append_nil]
  intro c hc
  simpa using hmade c hc

lemma leaveCalls_eq {made kept low}
    (h : m.callList = made ++ (kept ++ low)) (hfl : m.floor.calls = low.length)
    (hmade : ∀ c ∈ made, base ≤ c.base) (hk : ∀ c ∈ kept, c.base < base) (e) :
    m.leaveCalls base e = (m.withCallList (kept ++ low),
      { e with trace := e.trace ++ made.filterMap m.calleeName }) := by
  have hcs : m.calls.shrink (m.calls.size - made.length) = (kept ++ low).reverse.toArray := by
    rw [← length_callList, h, List.length_append, Nat.add_sub_cancel_left]
    exact shrink_eq h
  rw [leaveCalls, callsFrom_eq h hfl hmade hk, hcs]
  rfl

/-! ## Recovery -/

section Recover

variable {made kept low : List Call}

/-- **An error that is caught.** The machine has the scopes up to that of the catch, the calls made
outside it and the operands below its base, with the error on top; and it goes on at the target. -/
theorem recover_caught {tgt os} (hl : m.exhausted = false)
    (hsc : m.scopeList = above ++ ⟨base, tgt :: os⟩ :: below)
    (habove : ∀ t ∈ above, t.recovery = []) (hb : m.floor.scopes ≤ below.length)
    (hcs : m.callList = made ++ (kept ++ low)) (hfl : m.floor.calls = low.length)
    (hmade : ∀ c ∈ made, base ≤ c.base) (hk : ∀ c ∈ kept, c.base < base) (e) :
    m.recover e = ({ (((m.withCallList (kept ++ low)).withScopeList (⟨base, os⟩ :: below)).truncate
            base).withOperands
          (some (ErrorValue.toValue { e with trace := e.trace ++ made.filterMap m.calleeName })
            :: (m.operands.drop (m.stack.size - base))) with pc := tgt }, none) := by
  have hput : (m.scopes.shrink below.length).push ⟨base, os⟩
      = (⟨base, os⟩ :: below).reverse.toArray := by
    rw [shrink_eq (hsc.trans (List.append_cons ..))]
    simp
  have hcut : ({ m.withCallList (kept ++ low) with
        scopes := (m.scopes.shrink below.length).push ⟨base, os⟩ } : Machine)
      = (m.withCallList (kept ++ low)).withScopeList (⟨base, os⟩ :: below) := by
    rw [hput]
    rfl
  rw [recover, openCatch_eq hl hsc habove (by simp) hb]
  dsimp only
  rw [leaveCalls_eq hcs hfl hmade hk]
  dsimp only
  rw [show (m.withCallList (kept ++ low)).scopes = m.scopes from rfl, hcut]
  have hpush : ∀ (k : Machine) (x : Value), { k with stack := k.stack.push (some x), pc := tgt }
      = { k.withOperands (some x :: k.operands) with pc := tgt } := by
    intro k x
    have hs : k.stack.push (some x) = (some x :: k.operands).reverse.toArray := by
      apply Array.toList_inj.mp
      simp [operands]
    rw [hs]
    rfl
  rw [hpush, operands_truncate]
  rfl

/-- **An error that is not caught.** The stacks are those below the floor. -/
theorem recover_uncaught (hsc : m.scopeList = above ++ below)
    (hn : m.exhausted = true ∨ ∀ t ∈ above, t.recovery = [])
    (hb : m.floor.scopes = below.length) (hcs : m.callList = made ++ low)
    (hfl : m.floor.calls = low.length) (hmade : ∀ c ∈ made, m.floor.stack ≤ c.base)
    (e) :
    m.recover e = (((m.withCallList low).withScopeList below).truncate m.floor.stack,
      some { e with trace := e.trace ++ made.filterMap m.calleeName }) := by
  have hcut : ({ m.withCallList low with scopes := m.scopes.shrink below.length } : Machine)
      = (m.withCallList low).withScopeList below := by
    rw [shrink_eq hsc]
    rfl
  rw [recover, openCatch_none hsc hn hb]
  dsimp only
  rw [leaveCalls_eq (show m.callList = made ++ ([] ++ low) by simpa using hcs) hfl hmade nofun]
  dsimp only
  rw [show (m.withCallList ([] ++ low)).scopes = m.scopes from rfl,
    show (m.withCallList ([] ++ low)).floor = m.floor from rfl, hb]
  exact congrArg (fun k : Machine => (k.truncate m.floor.stack, _)) hcut

end Recover

end TreeCode.Machine
