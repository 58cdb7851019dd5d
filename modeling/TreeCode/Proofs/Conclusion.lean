import TreeCode.Proofs.Lockstep

/-!
# How a function's own call concludes

A function that code calls runs in the loop of its caller until its call is gone
(`Machine.driveTo`): its value then lies where the callee and the arguments lay, or its error is
raised there (`Machine.concluded`). A function that the host calls runs in a loop of its own, which
ends with it. Both are the function's run on an empty machine, put on top of a ground: the
function's own loop is followed here (`Ground.Own`), up to its conclusion (`Ground.Own.run`).
-/

namespace TreeCode

open Machine Progress

variable {E : Setting}

namespace Machine

/-- **What code goes on with after a call**, on the machine without the callee and the arguments:
the call's value in a scope of its own, at the place after the call; or its error. -/
def concluded (m : Machine) (pc : Nat) : Except ErrorValue Value → Progress
  | .ok v => .running
      { m with
        stack := m.stack.push (some v)
        scopes := m.scopes.push { base := m.stack.size }
        pc }
  | .error e => .ofResult (.error (.raised e) m)

/-- **Drive a loop until no more than so many calls are left**, or to its end. -/
def driveTo (E : Setting) (calls : Nat) : Nat → Progress → Option Progress
  | 0, _ => none
  | _ + 1, .finished res m => some (.finished res m)
  | fuel + 1, .running m =>
    if m.calls.size ≤ calls then some (.running m)
    else driveTo E calls fuel (m.advance E)
  | fuel + 1, .waiting job m =>
    match perform E fuel .resume job m with
    | none => none
    | some (r, m) => driveTo E calls fuel (.resume m r)

variable {calls : Nat}

/-- A loop that is driven to its end ends there, and no sooner. -/
lemma drive_of_driveTo {fuel p q}
    (h : driveTo E calls fuel p = q.map fun x => .finished x.1 x.2) :
    drive E fuel p = q := by
  induction fuel generalizing p with
  | zero =>
    rw [drive]
    cases q <;> cases h
    rfl
  | succ fuel ih =>
    cases p with
    | finished =>
      cases q <;> cases h
      rw [drive]
    | running m =>
      rw [driveTo] at h
      rw [drive]
      split at h
      · cases q <;> cases h
      · exact ih h
    | waiting job m =>
      rw [driveTo] at h
      rw [drive]
      cases hp : perform E fuel .resume job m with
      | none =>
        rw [hp] at h
        cases q <;> cases h
        rfl
      | some ended =>
        rw [hp] at h
        exact ih h

lemma calls_ofResult (e) (m : Machine) :
    (ofResult (.error (.raised e) m)).machine.calls.size ≤ m.calls.size := by
  have hle : (m.recover e).1.calls.size ≤ m.calls.size := by
    have hshrink : ∀ n, (m.calls.shrink n).size ≤ m.calls.size := by simp [Array.shrink_eq_take]
    unfold recover leaveCalls
    split <;> exact hshrink _
  rw [ofResult]
  cases hrec : m.recover e with
  | mk m' x =>
    rw [hrec] at hle
    cases x <;> exact hle

/-- What code goes on with after a call is not driven further. -/
lemma driveTo_concluded {m : Machine} (h : m.calls.size ≤ calls)
    (pc r fuel) :
    driveTo E calls (fuel + 1) (m.concluded pc r) = some (m.concluded pc r) := by
  cases r with
  | ok v => exact if_pos h
  | error e =>
    have hle := calls_ofResult e m
    rw [ofResult] at hle
    rw [concluded, ofResult]
    cases hrec : m.recover e with
    | mk m' x =>
      rw [hrec] at hle
      cases x with
      | none => exact if_pos (Nat.le_trans hle h)
      | some e' => rfl

end Machine

namespace Ground

variable {S : Parts} {G : Ground} {heap : Heap} {o : Machine} {live : List Machine}

/-! ## The function's own loop -/

variable (G) in
/-- **How the function's call concludes** on the ground, when it ends on its own as `o`. -/
def conclusion (o : Machine) : Except ErrorValue Value → Progress
  | .ok v =>
    match G.returnTo with
    | some pc => (G.put (emptied o)).concluded pc (.ok v)
    | none => .finished (.ok v) (G.put o)
  | .error e => .ofResult (.error (.raised e) (G.put (emptied o)))

variable (G) in
/-- **Where the function's own loop stands**, on its own and on top of the ground. -/
inductive Own : Progress → Progress → Prop where
  | running {o : Machine} (h : G.Suits o) : Own (.running o) (.running (G.put o))
  | waiting {o : Machine} {j k} (h : G.Suits o) (hjob : G.Mirrors j k) :
      Own (.waiting j o) (.waiting k (G.put o))
  | ended {o : Machine} (h : G.Agrees o) (hdepth : o.depth = 1) (r : Except ErrorValue Value) :
      Own (.finished (r.mapError .raised) o) (G.conclusion o r)

lemma emptied_emptied (o) : emptied (emptied o) = emptied o := by
  have hcut : emptied (emptied o) = (emptied o).truncate 0 := rfl
  have hs : ((emptied o).truncate 0).stack = (emptied o).stack := by
    simp [emptied, truncate, Array.shrink_eq_take]
  rw [hcut, truncate_eq, openCells_truncate, heap_truncate, openCells_emptied, hs]
  have hopen := openCells_emptied (o := o)
  show { emptied o with openCells := [] } = _
  rw [← hopen]

/-- An error of the function is caught by it, or concludes its call. -/
lemma Own.raised (h : G.Agrees o) (hd : o.depth = 1) (e)
    (hf : (ofResult (.error (.raised e) o)).Fits S .all (start heap) live) :
    G.Own (.ofResult (.error (.raised e) o)) (.ofResult (.error (.raised e) (G.put o))) := by
  have hle : o.depth ≤ 1 := Nat.le_of_eq hd
  cases hcatch : o.openCatch with
  | none =>
    have hown : ofResult (.error (.raised e) o)
        = .finished ((Except.error (abandonedError o e)).mapError .raised) (emptied o) := by
      rw [ofResult, recover_empties h hle hcatch]
      rfl
    have hput : ofResult (.error (.raised e) (G.put o))
        = G.conclusion (emptied o) (.error (abandonedError o e)) := by
      rw [conclusion, emptied_emptied, ofResult, ofResult, recover_abandoned h hle hcatch]
    rw [hown, hput]
    exact .ended (agrees_emptied h) hd _
  | some found =>
    obtain ⟨i, base, recovery⟩ := found
    cases recovery with
    | nil => exact absurd rfl (openCatch_recovery hcatch)
    | cons t os =>
      have hrec := recover_of_some hcatch e
      have hagrees := agrees_recover h e
      rw [ofResult, hrec] at hf
      have hruns : Runs S .all (start heap) live (o.recover e).1 := by
        rw [hrec]
        exact hf
      have hs : G.Suits (o.recover e).1 := ⟨hagrees, Nat.zero_lt_of_lt hruns.calls_lt⟩
      have hn : (o.recover e).2 = none := by rw [hrec]
      have hpair : o.recover e = ((o.recover e).1, none) := by rw [← hn]
      rw [ofResult, ofResult, recover_put_caught h hcatch, hn, hpair]
      exact .running hs

/-- An instruction that does not end the loop. -/
lemma own_ofResult {x y} (h : G.Relocates G.Signals x y o)
    (hf : (ofResult (x o)).Fits S .all (start heap) live)
    (hgoes : ∀ v o', x o ≠ .ok (.yield v) o') :
    G.Own (.ofResult (x o)) (.ofResult (y (G.put o))) := by
  unfold Relocates at h
  cases hx : x o with
  | ok signal o' =>
    rw [hx] at h
    obtain ⟨hs, signal', hsignal, hy⟩ := h
    rw [hy]
    cases hsignal with
    | next => exact .running hs
    | yields v => exact absurd hx (hgoes v o')
    | awaits hjob => exact .waiting hs hjob
  | error t o' =>
    rw [hx] at h hf
    cases t with
    | fault f => exact hf.1.elim
    | raised e =>
      obtain ⟨hs, hy⟩ := h
      have hd := hf.depth
      rw [depth_ofResult] at hd
      rw [hy]
      exact .raised hs.toAgrees hd e hf

lemma withCallList_put : (G.put o).withCallList G.base.callList = G.put (o.withCallList []) := by
  simp only [withCallList, put, callList, List.reverse_reverse, Array.toArray_toList]
  simp
  rfl

/-- What is left of the function is the scope that its value goes to. -/
lemma truncate_emptied (hsc : o.scopes = #[⟨0, []⟩]) (hcs : o.calls = #[]) :
    o.truncate 0 = { emptied o with scopes := #[⟨0, []⟩] } := by
  have hsame : emptied o = { o.truncate 0 with calls := #[], scopes := #[] } := by
    unfold emptied truncate detachFrom
    cases o.openCells.span (0 ≤ ·.1)
    rfl
  rw [hsame, ← hsc, ← hcs]
  rfl

/-- Where the function returns to. -/
lemma conclusion_eq (h : G.Agrees o) (hsc : o.scopes = #[⟨0, []⟩]) (hcs : o.calls = #[])
    (v) :
    G.conclusion o (.ok v) = .ofResult (returnWith v G.height G.returnTo (G.put o)) := by
  unfold conclusion
  cases G.returnTo with
  | none => rfl
  | some pc =>
    have hcut : (G.put o).truncate G.height = G.put { emptied o with scopes := #[⟨0, []⟩] } := by
      rw [← truncate_emptied hsc hcs]
      exact truncate_put h 0
    have he : (G.put (emptied o)).stack.size = G.height := by
      simp [size_stack, emptied, truncate, Array.shrink_eq_take]
    have hreturn : returnWith v G.height (some pc) (G.put o)
        = .ok .next { (G.put o).truncate G.height with
            stack := ((G.put o).truncate G.height).stack.push (some v)
            pc } := rfl
    rw [hreturn, hcut]
    simp only [concluded, he]
    have hsc : (G.put (emptied o)).scopes.push ⟨G.height, []⟩
        = G.base.scopes ++ #[⟨0, []⟩].map G.scope := by
      show (G.base.scopes ++ #[].map G.scope).push _ = _
      simp [scope]
    rw [hsc]
    rfl

/-- **The function returns.** -/
theorem own_return (hp : E.program = S.program) (h : G.Suits o) (hdep : o.depth = 1)
    (hd : Instruction.decode S.program.code o.pc = .ok .ret)
    (hcs : (G.put o).Counts E.limits) {v ops base rest} (hreturns :
      Returning (start heap) live o v ops base none rest) :
    G.Own (o.advance E.unlimited) ((G.put o).advance E) := by
  obtain ⟨rfl, rfl, hsc, rfl⟩ := hreturns.host rfl
  have hdecode' : Instruction.decode E.program.code o.pc = .ok .ret := hp ▸ hd
  have hops : (G.put o).operands = some v :: (ops ++ G.base.operands) := by
    rw [operands_put, hreturns.operands, List.cons_append]
  have hcalls : (G.put o).callList = ⟨G.height, G.returnTo⟩ :: G.base.callList := by
    have hown : o.calls = #[⟨0, none⟩] := Machine.calls_eq _ hreturns.calls
    simp [callList, put, hown, call]
  have hfl : (G.put o).floor = G.base.floor := floor_base (Nat.le_of_eq hdep)
  have hs : (G.put o).floor.stack ≤ (ops ++ G.base.operands).length := by
    have := G.firm.floor_stack
    rw [hfl, List.length_append, length_operands]
    omega
  have hfloorCalls : (G.put o).floor.calls ≤ G.base.callList.length := by
    rw [hfl, length_callList]
    exact G.firm.floor_calls
  let left := ((o.fetched .ret).withOperands ops).withCallList []
  have hagrees : G.Agrees left := h.toAgrees.congr rfl rfl rfl rfl rfl
  have hfetch : step E.unlimited o = execute E.program E.host .ret (o.fetched .ret) :=
    step_eq (counts_unlimited o) hdecode'
  have hown : step E.unlimited o = .ok (.yield v) left :=
    hfetch.trans (execute_ret_host (m := o.fetched .ret) hreturns.operands hreturns.floor
      hreturns.floor_calls hreturns.calls)
  have hput : step E (G.put o) = returnWith v G.height G.returnTo (G.put left) := by
    refine (step_eq hcs hdecode').trans ((execute_ret (m := G.put (o.fetched .ret)) hops hs
      hfloorCalls hcalls).trans (congrArg (returnWith v G.height G.returnTo) ?_))
    rw [withOperands_put, withCallList_put]
  rw [advance, advance, hown, hput, ← conclusion_eq hagrees (Machine.scopes_eq _ hsc) rfl v]
  exact .ended hagrees hdep (.ok v)

/-- **A step of the function's own loop.** -/
theorem own_advance (hS : S.Closed) (hp : E.program = S.program)
    (hh : E.host.Honest) (h : G.Suits o) (hruns : Runs S .all (start heap) live o)
    (hcs : (G.put o).Counts E.limits) :
    G.Own (o.advance E.unlimited) ((G.put o).advance E) := by
  obtain ⟨i, hd, -⟩ := hruns.execute hS hh fun _ _ => reserves_all
  have hprogram' : E.unlimited.program = S.program := hp
  have hs : (Activity.loop (start heap) (.running o) live).Sound S := hruns
  have hl : Leads E.unlimited (.loop (start heap) (.running o) live) _ := .step
  have hf := hl.sound hS hprogram' hh hs
  have hdecode' : Instruction.decode E.program.code o.pc = .ok i := hp ▸ hd
  have hstep : step E.unlimited o = execute E.program E.host i (o.fetched i) :=
    step_eq (counts_unlimited o) hdecode'
  by_cases hret : i = .ret
  · subst hret
    obtain ⟨v, ops, base, ret, rest, hreturns⟩ := hruns.returns hd
    cases ret with
    | none =>
      have hdep : o.depth = 1 := Fits.depth (p := .running o) hruns
      exact own_return hp h hdep hd hcs hreturns
    | some pc =>
      have hi : 1 < o.calls.size := by
        have hr : 0 < rest.length := Nat.zero_lt_of_lt (hreturns.code nofun)
        rw [← length_callList, hreturns.calls, List.length_cons]
        omega
      refine own_ofResult (relocates_step hp h hruns hcs hd fun _ => hi) hf ?_
      intro v' o' hyield
      rw [hstep, execute_ret_code (m := o.fetched .ret) hreturns.operands hreturns.floor
        hreturns.floor_calls hreturns.calls] at hyield
      cases hyield
  · refine own_ofResult (relocates_step hp h hruns hcs hd (absurd · hret)) hf ?_
    intro v o' hyield
    exact goesOn_execute _ _ hret _ v o' (hstep.symm.trans hyield)

/-! ## Runs -/

variable (G) in
/-- The function has concluded on its own and on the ground, or not yet. -/
inductive Concludes : Option (Except Trap Value × Machine) → Option Progress → Prop where
  | notYet : Concludes none none
  | ended {o : Machine} (h : G.Agrees o) (hdepth : o.depth = 1) (r : Except ErrorValue Value) :
      Concludes (some (r.mapError .raised, o)) (some (G.conclusion o r))

lemma driveTo_conclusion (o r fuel) :
    driveTo E G.base.calls.size (fuel + 1) (G.conclusion o r) = some (G.conclusion o r) := by
  have hs : (G.put (emptied o)).calls.size ≤ G.base.calls.size := Nat.le_of_eq size_calls
  cases r with
  | error e => exact driveTo_concluded (m := G.put (emptied o)) hs 0 (.error e) fuel
  | ok v =>
    unfold conclusion
    cases G.returnTo with
    | none => rfl
    | some pc => exact driveTo_concluded hs pc (.ok v) fuel

/-- **The function's own loop runs on the ground as it does on its own**, up to its conclusion. -/
theorem Own.run (hS : S.Closed) (hp : E.program = S.program) (hh : E.host.Honest)
    {P} (hP : G.Free E P) {b} :
    ∀ fuel {p q : Progress} {live live'}, G.Own p q →
      p.Fits S .all (start heap) live →
      (G.base.calls.size < q.machine.calls.size → P (.loop b q live')) →
      G.Concludes (drive E.unlimited fuel p) (driveTo E G.base.calls.size fuel q)
  | 0, _, _, _, _, _, _, _ => .notYet
  | fuel + 1, p, q, live, live', h, hf, hq => by
    have hprogram' : E.unlimited.program = S.program := hp
    have hso : (Activity.loop (start heap) p live).Sound S := hf
    have hlt : ∀ {o}, G.Suits o → G.base.calls.size < (G.put o).calls.size := fun h => by
      have := h.called
      rw [size_calls]
      omega
    cases h with
    | ended h hd r =>
      rw [driveTo_conclusion]
      exact .ended h hd r
    | @running o h =>
      have hrun := hq (hlt h)
      have hcs : (G.put o).Counts E.limits := of_not_not fun hnot => hP.free hrun (.inl hnot)
      have hl : Leads E.unlimited (.loop (start heap) (.running o) live) _ := .step
      rw [drive, driveTo, if_neg (Nat.not_le_of_lt (hlt h))]
      exact run hS hp hh hP fuel (own_advance hS hp hh h hf hcs)
        (hl.sound hS hprogram' hh hso) fun hlt => hP.leads hrun .step hlt
    | @waiting o j k h hjob =>
      have hrun := hq (hlt h)
      have hawait : Leads E.unlimited (.loop (start heap) (.waiting j o) live) _ := .await
      have htogether := Matches.run hS hp hh hP fuel (.resume hjob h)
        (hawait.sound hS hprogram' hh hso) (hP.leads hrun .await (hlt h))
      rw [Task.run_eq, Task.run_eq] at htogether
      simp only [Task.outcome] at htogether
      rw [drive, driveTo]
      generalize hown : perform E.unlimited fuel .resume j o = own at htogether ⊢
      generalize hput : perform E fuel .resume k (G.put o) = put at htogether ⊢
      cases htogether with
      | notYet => exact .notYet
      | @ended x y o' hr hs =>
        have hl : Leads E.unlimited (.loop (start heap) (.waiting j o) live) _ := .resume hown
        have hfits' := hl.sound hS hprogram' hh hso
        refine run hS hp hh hP fuel ?_ hfits' fun hlt => hP.leads hrun (.resume hput) hlt
        cases hr with
        | ok hcompletes =>
          exact own_ofResult (relocates_thenNext (hcompletes hs)) hfits' (goesOn_thenNext _ o')
        | error e =>
          have hraise : G.Relocates G.Signals (raise e) (raise e) o' := .raise hs e
          exact own_ofResult hraise hfits' (goesOn_raise e o')

end Ground

end TreeCode
