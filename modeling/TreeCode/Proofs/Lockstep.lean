import TreeCode.Proofs.Abandonment
import TreeCode.Proofs.Calls
import TreeCode.Proofs.StepLimit

/-!
# Running in lockstep

What a function has running inside it, its loops, the host's work and its streams, runs on top of
the ground as it runs on its own, move by move, as long as no limit stands against it.
`Ground.Matches` relates the tasks of the two runs, each move keeps them related
(`Ground.Matches.moves`), and so they end together (`Ground.Matches.run`). On its own the function
runs without limits on steps and time.

The function's own loop is not among these tasks: how it ends depends on the ground.
-/

namespace TreeCode

open Machine

/-- The setting without limits on steps and time. -/
def Setting.unlimited (E : Setting) : Setting := { E with limits := { depth := E.limits.depth } }

lemma Progress.Fits.depth {S V} {b : Machine} {live} {p : Progress}
    (h : p.Fits S V b live) : p.machine.depth = b.depth + 1 := by
  cases p with
  | running m =>
    obtain ⟨_, _, _, hf⟩ := Runs.unwinds h
    exact hf.depth
  | waiting job m =>
    obtain ⟨_, _, _, hf⟩ := h.1
    exact hf.depth
  | finished r m => exact h.2.depth

variable {S : Parts} {G : Ground} {o o' : Machine}

namespace Ground

variable {V : Slots} {b : Machine} {live : List Machine}

/-! ## Steps -/

variable (G) in
/-- **Where a loop stands** on its own and on top of the ground. -/
inductive Stands : Progress → Progress → Prop where
  | running {o : Machine} (h : G.Agrees o) : Stands (.running o) (.running (G.put o))
  | waiting {o : Machine} {j k : Job (Exec Unit)} (h : G.Suits o) (hjob : G.Mirrors j k) :
      Stands (.waiting j o) (.waiting k (G.put o))
  | finished {o : Machine} (r) (h : G.Agrees o) :
      Stands (.finished r o) (.finished r (G.put o))

lemma Stands.raised (h : G.Agrees o) (hcatch : 1 < o.depth ∨ o.openCatch ≠ none) (e) :
    G.Stands (.ofResult (.error (.raised e) o)) (.ofResult (.error (.raised e) (G.put o))) := by
  have hput : (G.put o).recover e = (G.put (o.recover e).1, (o.recover e).2) := by
    cases hopen : o.openCatch with
    | some found => exact recover_put_caught h hopen e
    | none => exact recover_put_uncaught h (floor_put (hcatch.resolve_right (absurd hopen))) hopen e
  have hagrees := agrees_recover h e
  rw [Progress.ofResult, Progress.ofResult, hput]
  cases hrec : o.recover e with
  | mk m x =>
    rw [hrec] at hagrees
    cases x with
    | none => exact .running hagrees
    | some e' => exact .finished _ hagrees

lemma depth_ofResult (e) :
    (Progress.ofResult (.error (.raised e) o)).machine.depth = o.depth := by
  have hd : (o.recover e).1.depth = o.depth := by
    unfold recover leaveCalls
    split <;> rfl
  rw [Progress.ofResult]
  cases hrec : o.recover e with
  | mk m x =>
    rw [hrec] at hd
    cases x <;> exact hd

/-- An instruction of a loop above the ground leaves the loop where it leaves it on its own. -/
lemma stands_ofResult {x y : Exec Signal} (h : G.Relocates G.Signals x y o)
    (hf : (Progress.ofResult (x o)).Fits S V b live) (hb : 0 < b.depth) :
    G.Stands (.ofResult (x o)) (.ofResult (y (G.put o))) := by
  unfold Relocates at h
  cases hx : x o with
  | ok signal o' =>
    rw [hx] at h
    obtain ⟨hs, signal', hsignal, hy⟩ := h
    rw [hy]
    cases hsignal with
    | next => exact .running hs.toAgrees
    | yields v => exact .finished _ hs.toAgrees
    | awaits hjob => exact .waiting hs hjob
  | error t o' =>
    rw [hx] at h hf
    cases t with
    | fault f => exact hf.1.elim
    | raised e =>
      obtain ⟨hs, hy⟩ := h
      have hd := hf.depth
      rw [depth_ofResult] at hd
      rw [hy]
      exact .raised hs.toAgrees (.inl (by omega)) e

/-- The next instruction is done on top of the ground as it is on its own. -/
lemma relocates_step {E} (hp : E.program = S.program) (h : G.Suits o)
    (hruns : Runs S V b live o) (hcs : (G.put o).Counts E.limits) {i}
    (hd : Instruction.decode S.program.code o.pc = .ok i) (hret : i = .ret → 1 < o.calls.size) :
    G.Relocates G.Signals (step E.unlimited) (step E) o := by
  have hdecode' : Instruction.decode E.program.code o.pc = .ok i := hp ▸ hd
  have hexec : G.Relocates G.Signals (execute E.program E.host i)
      (execute E.program E.host i) (o.fetched i) := by
    have hs : G.Suits (o.fetched i) := h.congr rfl rfl rfl rfl rfl rfl
    refine relocates_execute hs hret fun hkeeps => ?_
    obtain ⟨c, ops, hops, hfresh⟩ := hruns.fresh hd hkeeps
    exact ⟨c, ops, hops, by rw [fetched, if_pos hkeeps, hfresh]⟩
  have hown : step E.unlimited o = execute E.program E.host i (o.fetched i) :=
    step_eq (counts_unlimited o) hdecode'
  have hput : step E (G.put o) = execute E.program E.host i (G.put (o.fetched i)) :=
    step_eq hcs hdecode'
  unfold Relocates at hexec ⊢
  rw [hown, hput]
  exact hexec

/-- **A step of a loop above the ground.** -/
theorem stands_advance (hS : S.Closed) {E : Setting} (hp : E.program = S.program)
    (hh : E.host.Honest) (h : G.Suits o) (hruns : Runs S .all b live o) (hdep : 0 < b.depth)
    (hcalled : 0 < b.calls.size) (hcs : (G.put o).Counts E.limits) :
    G.Stands (o.advance E.unlimited) ((G.put o).advance E) := by
  obtain ⟨i, hd, -⟩ := hruns.execute hS hh fun _ _ => reserves_all
  have hlt := hruns.calls_lt
  have hs : (Activity.loop b (.running o) live).Sound S := hruns
  have hl : Leads E.unlimited (.loop b (.running o) live) _ := .step
  have hprogram' : E.unlimited.program = S.program := hp
  have hf := hl.sound hS hprogram' hh hs
  exact stands_ofResult (relocates_step hp h hruns hcs hd fun _ => by omega) hf hdep

/-! ## Loops inside the function -/

lemma opened_put (h : G.Suits o) (t f args named) : (G.put o).opened t f args named
      = G.put (o.opened t f args named) := by
  have hcall : ∀ base, G.call o.calls.size { base, returnTo := none }
      = { base := G.height + base, returnTo := none } := fun base => by
    rw [call, if_neg (Nat.pos_iff_ne_zero.mp h.called)]
  have hheights : (G.put o).heights = G.above o.heights := by
    rw [heights, size_scopes, size_calls, size_stack]
    rfl
  have hfl : G.floor (o.opened t f args named) = G.above o.heights :=
    if_neg (show ¬ o.depth + 1 ≤ 1 by have := h.depth; omega)
  rw [opened, hheights]
  conv_rhs => rw [put, hfl]
  simp only [opened, heights, put, Array.map_push, Array.mapIdx_push, Array.append_push, hcall,
    Array.append_assoc]
  rfl

/-- The machine that is left of a loop. -/
def belowFloor (m : Machine) : Machine :=
  { m with calls := m.calls.shrink m.floor.calls, scopes := m.scopes.shrink m.floor.scopes }

lemma closed_eq (m : Machine) (outer) : m.closed outer
    = { (belowFloor m).truncate m.floor.stack with
        depth := outer.depth
        floor := outer.floor
        pc := outer.pc
        origin := outer.origin
        fresh := none } := rfl

lemma agrees_belowFloor (h : G.Agrees o) : G.Agrees (belowFloor o) := h.congr rfl rfl rfl rfl rfl

lemma agrees_closed (h : G.Agrees o') (ho : G.Agrees o) : G.Agrees (o'.closed o.suspended) := by
  have hcut : G.Agrees ((belowFloor o').truncate o'.floor.stack) :=
    (agrees_belowFloor h).evolves (.single (.cut _ _)) rfl rfl rfl
  exact ⟨hcut.wired.congr rfl rfl, hcut.size, hcut.outer, ho.depth, ho.floor, hcut.exhausted⟩

lemma belowFloor_put (hfl : (G.put o).floor = G.above o.floor) :
    belowFloor (G.put o) = G.put (belowFloor o) := by
  have hcs : (G.put o).calls.shrink (G.put o).floor.calls
      = G.base.calls ++ (o.calls.shrink o.floor.calls).mapIdx G.call := by
    rw [hfl, ← mapIdx_shrink]
    exact shrink_append ..
  have hsc : (G.put o).scopes.shrink (G.put o).floor.scopes
      = G.base.scopes ++ (o.scopes.shrink o.floor.scopes).map G.scope := by
    rw [hfl, above, scopes_shrink]
  simp only [belowFloor, hcs, hsc]
  rfl

lemma truncate_belowFloor (h : G.Agrees o) (hfl : (G.put o).floor = G.above o.floor) :
    (belowFloor (G.put o)).truncate (G.put o).floor.stack
      = G.put ((belowFloor o).truncate o.floor.stack) := by
  rw [belowFloor_put hfl, hfl, above, truncate_put (agrees_belowFloor h)]

lemma closed_put (h : G.Agrees o') (hd : 1 < o'.depth) :
    (G.put o').closed (G.put o).suspended = G.put (o'.closed o.suspended) := by
  rw [closed_eq, closed_eq, truncate_belowFloor h (floor_put hd)]
  rfl

end Ground

/-! ## Texts -/

namespace Heap

variable {h h' : Heap} (hstreams : h'.streams = h.streams)

include hstreams

lemma forcedWithin_congr : ∀ k id, h'.forcedWithin k id = h.forcedWithin k id
  | 0, _ => rfl
  | k + 1, id => by simp only [forcedWithin, peek?, streamCell, hstreams, forcedWithin_congr k]

lemma streamTextWithin_congr : ∀ depth, h'.streamTextWithin depth = h.streamTextWithin depth
  | 0 => rfl
  | depth + 1 => by
    funext id
    simp only [streamTextWithin, forced, hstreams, forcedWithin_congr hstreams,
      streamTextWithin_congr depth]
    rfl

/-- A text is about the streams only. -/
lemma text_congr (v : Value) : v.text h' = v.text h := by
  have : h'.streamText = h.streamText := by
    funext id
    rw [streamText, streamText, hstreams, streamTextWithin_congr hstreams]
  rw [Value.text, Value.text, this]

end Heap

/-! ## Tasks -/

namespace Ground

variable (G) in
/-- The host has the same answer for the instruction. -/
inductive Answers : Except ErrorValue (Exec Unit) → Except ErrorValue (Exec Unit) → Prop where
  | ok {x y} (h : G.Completes x y) : Answers (.ok x) (.ok y)
  | error (e) : Answers (.error e) (.error e)

/-- **An activity and its task**, besides loops, by the machine that they run on. -/
inductive Pursuit : {ρ : Type} → (Machine → Activity) → (Machine → Task ρ) → Prop where
  | enter (target callee args named) :
      Pursuit (.enter target callee args named) (.enter target callee args named)
  | apply (callee args named) :
      Pursuit (.apply callee args named) (.apply callee args named)
  | perform (purpose : Purpose) (job) :
      Pursuit (.perform purpose job) (.perform purpose job)
  | respond (request) : Pursuit (.respond request) (.respond request)
  | force (id) : Pursuit (.force id) (.force id)
  | produce (id suspension) :
      Pursuit (.produce id suspension) (.produce id suspension)
  | collect (id found) : Pursuit (.collect id found) (.collect id found)
  | settle (values) : Pursuit (.settle values) (.settle values)

lemma Pursuit.machine_eq {ρ : Type} {a : Machine → Activity} {t : Machine → Task ρ}
    (h : Pursuit a t) (m) : (a m).machine = m := by
  cases h <;> rfl

variable (G) in
/-- **An activity and its task on their own, and on top of the ground**, with how the results are
related and what is known of the machine in the end. A loop of the function's own is not among
them. -/
inductive Matches :
    {ρ : Type} → (ρ → ρ → Prop) → (Machine → Prop) → Activity → Activity → Task ρ → Task ρ →
      Prop where
  | loop {b b' : Machine} {p q : Progress} {live live' : List Machine}
      (hinner : 0 < b.depth ∧ 0 < b.calls.size) (h : G.Stands p q) :
      Matches Eq G.Agrees (.loop b p live) (.loop b' q live') (.loop p) (.loop q)
  | resume {o : Machine} {j k : Job (Exec Unit)} (hjob : G.Mirrors j k) (h : G.Suits o) :
      Matches G.Answers G.Suits (.perform .resume j o) (.perform .resume k (G.put o))
        (.perform .resume j o) (.perform .resume k (G.put o))
  | same {ρ : Type} {a : Machine → Activity} {t : Machine → Task ρ} {o : Machine} (ht : Pursuit a t)
      (h : G.Suits o) : Matches Eq G.Suits (a o) (a (G.put o)) (t o) (t (G.put o))

section Moves

variable (G) (E : Setting) {ρ : Type} (Q : ρ → ρ → Prop) (K : Machine → Prop) (a c : Activity)

/-- What is left to do is the same. -/
inductive RestMatches : Task.Rest ρ → Task.Rest ρ → Prop where
  | ends {x y : ρ} {o : Machine} (hresult : Q x y) (h : K o) :
      RestMatches (.ends x o) (.ends y (G.put o))
  | goesOn {a' c' : Activity} {t u : Task ρ} (ha : Leads E.unlimited a a')
      (hc : Leads E c c') (h : G.Matches Q K a' c' t u) : RestMatches (.goesOn t) (.goesOn u)

/-- **The task does the same.** -/
inductive MoveMatches : Task.Move ρ → Task.Move ρ → Prop where
  | now {rest rest' : Task.Rest ρ} (h : RestMatches G E Q K a c rest rest') :
      MoveMatches (.now rest) (.now rest')
  | waits {σ : Type} {P : σ → σ → Prop} {L : Machine → Prop} {a' c' : Activity} {t u : Task σ}
      {next later : σ → Machine → Task.Rest ρ} (ha : Leads E.unlimited a a')
      (hc : Leads E c c') (h : G.Matches P L a' c' t u)
      (hnext : ∀ {fuel x y o}, t.run E.unlimited fuel = some (x, o) →
        u.run E fuel = some (y, G.put o) → P x y → L o →
        RestMatches G E Q K a c (next x o) (later y (G.put o))) :
      MoveMatches (.waits t next) (.waits u later)

end Moves

variable (G) in
/-- The task does on top of the ground what it does on its own. -/
abbrev MovesAlike (E : Setting) {ρ : Type} (a : Machine → Activity) (t : Machine → Task ρ)
    (o : Machine) : Prop :=
  G.MoveMatches E Eq G.Suits (a o) (a (G.put o)) ((t o).move E.unlimited)
    ((t (G.put o)).move E)

/-! ### What changes the machine besides loops -/

lemma holding_put (held : List Value) :
    (G.put o).holding (held ++ (G.put o).held) = G.put (o.holding (held ++ o.held)) := by
  simp only [holding, put, List.append_assoc]
  rfl

lemma suits_holding (h : G.Suits o) (held : List Value) : G.Suits (o.holding held) :=
  h.congr rfl rfl rfl rfl rfl rfl

lemma suits_setStream (h : G.Suits o) (id cell) :
    G.Suits (o.setStream id cell) := h.congr rfl rfl rfl rfl rfl rfl

lemma agrees_opened (h : G.Suits o) (t f args named) : G.Agrees (o.opened t f args named) where
  wired := h.wired.congr rfl rfl
  size := h.size
  outer := h.outer
  depth := Nat.le_add_left ..
  floor hd := absurd hd (show ¬ o.depth + 1 ≤ 1 by have := h.depth; omega)
  exhausted := h.exhausted

/-- **A loop inside the function has ended.** -/
theorem suits_closed (h : G.Agrees o') (ho : G.Suits o) (habove : Above o o') :
    G.Suits (o'.closed o.suspended) where
  toAgrees := agrees_closed h ho.toAgrees
  called := habove.closed.calls ▸ ho.called

lemma suits_answerOf (h : G.Suits o) (r) : G.Suits (answerOf (r, o)).2 := by
  cases r with
  | ok v => exact h
  | error t =>
    cases t with
    | raised e => exact h
    | fault f => exact h.congr rfl rfl rfl rfl rfl rfl

lemma answerOf_put (r) :
    answerOf (r, G.put o) = ((answerOf (r, o)).1, G.put (answerOf (r, o)).2) := by
  cases r with
  | ok v => rfl
  | error t => cases t <;> rfl

end Ground

/-! ## Moves -/

/-- The activity is about to exceed a limit, or has exceeded one. -/
def Activity.Refused (limits : Limits) : Activity → Prop
  | .loop _ (.running m) _ => ¬m.Counts limits ∨ m.exhausted = true
  | .enter _ _ _ _ m => limits.depth ≤ m.depth
  | _ => False

namespace Ground

section Moves

variable {E : Setting}

/-- A loop inside the function makes a step, waits for the host, or has ended. -/
lemma moves_loop (hS : S.Closed) (hp : E.program = S.program)
    (hh : E.host.Honest) {b b' : Machine} {p q : Progress} {live live' : List Machine}
    (hi : 0 < b.depth ∧ 0 < b.calls.size) (h : G.Stands p q)
    (hso : (Activity.loop b p live).Sound S)
    (hfree : ¬(Activity.loop b' q live').Refused E.limits) :
    G.MoveMatches E Eq G.Agrees (.loop b p live) (.loop b' q live')
      ((Task.loop p).move E.unlimited) ((Task.loop q).move E) := by
  have hprogram' : E.unlimited.program = S.program := hp
  cases h with
  | @running o h =>
    have hruns : Runs S .all b live o := hso
    have hs : G.Suits o := ⟨h, by have := hruns.calls_lt; omega⟩
    have hcs : (G.put o).Counts E.limits := of_not_not fun hnot => hfree (.inl hnot)
    exact .now (.goesOn .step .step (.loop hi
      (stands_advance hS hp hh hs hruns hi.1 hi.2 hcs)))
  | @waiting o j k h hjob =>
    refine .waits .await .await (.resume hjob h) fun {fuel x y o'} hrun hrun' hr hs => ?_
    rw [Task.run_eq] at hrun hrun'
    have hl : Leads E.unlimited (.loop b (.waiting j o) live) _ := .resume hrun
    have hf := hl.sound hS hprogram' hh hso
    refine .goesOn hl (.resume hrun') (.loop hi ?_)
    cases hr with
    | ok hcompletes => exact stands_ofResult (relocates_thenNext (hcompletes hs)) hf hi.1
    | error e =>
      have hraise : G.Relocates G.Signals (raise e) (raise e) o' := .raise hs e
      exact stands_ofResult hraise hf hi.1
  | finished r h => exact .now (.ends rfl h)

/-- A loop that is entered on top of the ground stands there. -/
lemma moves_enter (t f args named)
    (h : G.Suits o) (hfree : ¬E.limits.depth ≤ (G.put o).depth) :
    G.MovesAlike E (.enter t f args named) (.enter t f args named) o := by
  have hle : o.depth ≤ (G.put o).depth := Nat.le_add_left ..
  have hown : ¬ E.unlimited.limits.depth ≤ o.depth := fun hno => hfree (Nat.le_trans hno hle)
  have hl : Leads E (.enter t f args named (G.put o)) _ := .enter (Nat.lt_of_not_le hfree)
  rw [opened_put h] at hl
  rw [MovesAlike, Task.move, Task.move, if_neg hfree, if_neg hown, opened_put h]
  refine .waits (.enter (Nat.lt_of_not_le hown)) hl
    (.loop ⟨h.depth, h.called⟩ (.running (agrees_opened h ..))) ?_
  intro fuel x y o' hrun _ heq hagrees
  rw [Task.run_eq] at hrun
  -- What the loop leaves stands above the floor at which it began.
  obtain ⟨live, hreaches⟩ : ∃ live, Reaches E.unlimited
      (.loop o (.running (o.opened t f args named)) []) (.loop o (.finished x o') live) :=
    reaches_of_drive hrun
  have habove : Upholds o o' :=
    (hreaches.nested ⟨upholds_opened _ _ _ _ _, Nat.lt_of_not_le hown⟩).1
  have hd : 1 < o'.depth := by rw [habove.depth]; have := h.depth; omega
  rw [closed_put hagrees hd]
  exact .ends heq (suits_closed hagrees h habove.toAbove)

lemma moves_apply (f args named) (h : G.Suits o) :
    G.MovesAlike E (.apply f args named) (.apply f args named) o := by
  cases f with
  | closure c =>
    refine .waits .closure .closure (.same (.enter c.target (.closure c) args named) h) ?_
    rintro fuel x _ o' - - rfl hs
    rw [answerOf_put]
    exact .ends rfl (suits_answerOf hs x)
  | native ref =>
    have hh : E.unlimited.host = E.host := rfl
    rw [MovesAlike, Task.move, Task.move, hh]
    cases hnative : E.host.native? ref.code with
    | none => exact .now (.ends rfl h)
    | some native =>
      exact .now (.goesOn (.native hnative) (.native hnative) (.same (.perform .call _) h))
  | _ => exact .now (.ends rfl h)

/-- A job asks the host for the same. -/
lemma moves_ask (purpose : Purpose) {held : List Value} {q : Request}
    {next later : q.Response → Job purpose.Result}
    {Q : Except ErrorValue purpose.Result → Except ErrorValue purpose.Result → Prop} (h : G.Suits o)
    (hnext : ∀ {r o'}, G.Suits o' →
      G.Matches Q G.Suits (.perform purpose (next r) o')
        (.perform purpose (later r) (G.put o')) (.perform purpose (next r) o')
        (.perform purpose (later r) (G.put o'))) :
    G.MoveMatches E Q G.Suits (.perform purpose (.ask held q next) o)
      (.perform purpose (.ask held q later) (G.put o))
      ((Task.perform purpose (.ask held q next) o).move E.unlimited)
      ((Task.perform purpose (.ask held q later) (G.put o)).move E) := by
  have hask : Leads E (.perform purpose (.ask held q later) (G.put o)) _ := .ask
  rw [holding_put] at hask
  rw [Task.move, Task.move, holding_put]
  refine .waits .ask hask (.same (.respond q) (suits_holding h _)) ?_
  rintro fuel r _ o' hrun hrun' rfl hs
  rw [Task.run_eq] at hrun hrun'
  rw [← holding_put] at hrun'
  exact .goesOn (.answer hrun) (.answer hrun') (hnext (suits_holding hs _))

lemma moves_resume {j k : Job (Exec Unit)} (hjob : G.Mirrors j k) (h : G.Suits o) :
    G.MoveMatches E G.Answers G.Suits (.perform .resume j o) (.perform .resume k (G.put o))
      ((Task.perform .resume j o).move E.unlimited)
      ((Task.perform .resume k (G.put o)).move E) := by
  cases hjob with
  | done hcompletes => exact .now (.ends (.ok hcompletes) h)
  | failed e => exact .now (.ends (.error e) h)
  | ask hmirrors =>
    refine moves_ask .resume h ?_
    intro r o' hs
    exact .resume (hmirrors r) hs

lemma moves_perform (purpose : Purpose) (job) (h : G.Suits o) :
    G.MovesAlike E (.perform purpose job) (.perform purpose job) o := by
  cases job with
  | done r => exact .now (.ends rfl h)
  | ask held q next => exact moves_ask purpose h fun hs => .same (.perform purpose _) hs

lemma moves_respond (q) (h : G.Suits o) :
    G.MovesAlike E (.respond q) (.respond q) o := by
  cases q with
  | call f args named => exact .now (.goesOn .call .call (.same (.apply f args named) h))
  | force id => exact .now (.goesOn .force .force (.same (.force id) h))
  | collect id => exact .now (.goesOn .collect .collect (.same (.collect id []) h))
  | settle value => exact .now (.goesOn .settle .settle (.same (.settle [value]) h))
  | allocate cell => exact .now (.ends rfl (h.congr rfl rfl rfl rfl rfl rfl))
  | text value =>
    have hstreams : o.heap.streams = (G.put o).heap.streams := rfl
    exact .now (.ends (Heap.text_congr hstreams value) h)

lemma moves_force (id) (h : G.Suits o) :
    G.MovesAlike E (.force id) (.force id) o := by
  have hc : (G.put o).heap.streamCell id = o.heap.streamCell id := rfl
  rw [MovesAlike, Task.move, Task.move, hc]
  cases hf : o.heap.streamCell id with
  | pending s =>
    exact .now (.goesOn (.produce hf) (.produce (hc.trans hf))
      (.same (.produce id s) (suits_setStream h id .forcing)))
  | _ => exact .now (.ends rfl h)

lemma moves_produce (id s) (h : G.Suits o) :
    G.MovesAlike E (.produce id s) (.produce id s) o := by
  refine .waits .suspension .suspension (.same (.perform .produce s.produce) h) ?_
  rintro fuel x _ o' hrun hrun' rfl hs
  rw [Task.run_eq] at hrun hrun'
  cases x with
  | error e => exact .ends rfl (suits_setStream hs id (.failed e))
  | ok produced =>
    cases produced with
    | node node => exact .ends rfl (suits_setStream hs id (.resolved node))
    | again rest => exact .goesOn (.again hrun) (.again hrun') (.same (.produce id rest) hs)

lemma moves_collect (id found) (h : G.Suits o) :
    G.MovesAlike E (.collect id found) (.collect id found) o := by
  refine .waits .node .node (.same (.force id) h) ?_
  rintro fuel x _ o' hrun hrun' rfl hs
  rw [Task.run_eq] at hrun hrun'
  cases x with
  | error e => exact .ends rfl hs
  | ok node =>
    cases node with
    | empty => exact .ends rfl hs
    | cons head tail =>
      exact .goesOn (.tail hrun) (.tail hrun') (.same (.collect tail (head :: found)) hs)

lemma moves_settle (values) (h : G.Suits o) :
    G.MovesAlike E (.settle values) (.settle values) o := by
  cases values with
  | nil => exact .now (.ends rfl h)
  | cons v rest =>
    cases v with
    | array es => exact .now (.goesOn .elements .elements (.same (.settle _) h))
    | object xs => exact .now (.goesOn .entries .entries (.same (.settle _) h))
    | stream id =>
      refine .waits .stream .stream (.same (.collect id []) h) ?_
      rintro fuel x _ o' hrun hrun' rfl hs
      rw [Task.run_eq] at hrun hrun'
      cases x with
      | error e => exact .ends rfl hs
      | ok es => exact .goesOn (.collected hrun) (.collected hrun') (.same (.settle _) hs)
    | _ => exact .now (.goesOn (.skip rfl) (.skip rfl) (.same (.settle _) h))

/-- **A task does on top of the ground what it does on its own**, if no limit stands against it. -/
theorem Matches.moves (hS : S.Closed) (hp : E.program = S.program)
    (hh : E.host.Honest) {ρ : Type} {Q : ρ → ρ → Prop} {K : Machine → Prop} {t u : Task ρ}
    {a c : Activity} (h : G.Matches Q K a c t u) (hs : a.Sound S) (hfree : ¬c.Refused E.limits) :
    G.MoveMatches E Q K a c (t.move E.unlimited) (u.move E) := by
  cases h with
  | loop hi h => exact moves_loop hS hp hh hi h hs hfree
  | resume hjob h => exact moves_resume hjob h
  | same ht h =>
    cases ht with
    | enter tgt f args named => exact moves_enter tgt f args named h hfree
    | apply f args named => exact moves_apply f args named h
    | perform purpose job => exact moves_perform purpose job h
    | respond q => exact moves_respond q h
    | force id => exact moves_force id h
    | produce id s => exact moves_produce id s h
    | collect id found => exact moves_collect id found h
    | settle values => exact moves_settle values h

/-! ## Runs -/

/-- What is inside the function has the function's call below it. -/
lemma Matches.calls_lt {ρ : Type} {Q : ρ → ρ → Prop} {K : Machine → Prop} {t u : Task ρ}
    {a c : Activity} (h : G.Matches Q K a c t u) (hs : a.Sound S) :
    G.base.calls.size < c.machine.calls.size := by
  have hput : ∀ {o}, 0 < o.calls.size → G.base.calls.size < (G.put o).calls.size := fun hpos => by
    rw [size_calls]
    omega
  cases h with
  | loop hi h =>
    cases h with
    | @running o h =>
      have hruns : Runs S .all _ _ o := hs
      exact hput (Nat.zero_lt_of_lt hruns.calls_lt)
    | waiting h _ => exact hput h.called
    | @finished o r h =>
      have hleaves : Leaves S .all _ o := hs.2
      obtain ⟨own, hown⟩ := hleaves.calls
      have hlength := congrArg List.length hown
      rw [List.length_append, length_callList, length_callList] at hlength
      exact hput (by omega)
  | resume _ h => exact hput h.called
  | same ht h =>
    rw [ht.machine_eq]
    exact hput h.called

variable (G E) in
/-- **A property of what runs on top of the ground**: it passes on to what is led to while the
function's call is there, and no limit stands against what has it. -/
structure Free (P : Activity → Prop) : Prop where
  leads : ∀ {c c'}, P c → Leads E c c' → G.base.calls.size < c'.machine.calls.size → P c'
  free : ∀ {c}, P c → ¬c.Refused E.limits

variable (G) in
/-- Two runs that end together, or not yet. -/
inductive Together {ρ : Type} (Q : ρ → ρ → Prop) (K : Machine → Prop) :
    Option (ρ × Machine) → Option (ρ × Machine) → Prop where
  | notYet : Together Q K none none
  | ended {x y o} (hresult : Q x y) (h : K o) :
      Together Q K (some (x, o)) (some (y, G.put o))

/-- **A task runs on top of the ground as it does on its own.** -/
theorem Matches.run (hS : S.Closed) (hp : E.program = S.program)
    (hh : E.host.Honest) {P : Activity → Prop} (hP : G.Free E P) :
    ∀ (fuel : Nat) {ρ : Type} {Q : ρ → ρ → Prop} {K : Machine → Prop} {t u : Task ρ}
      {a c : Activity},
      G.Matches Q K a c t u → a.Sound S → P c →
      G.Together Q K (t.run E.unlimited fuel) (u.run E fuel)
  | 0, _, _, _, _, _, _, _, _, _, _ => .notYet
  | fuel + 1, ρ, Q, K, t, u, a, c, h, hs, hc => by
    have hprogram' : E.unlimited.program = S.program := hp
    -- What is left to do after a move runs together, by induction.
    have hrest : ∀ {rest rest' : Task.Rest ρ}, G.RestMatches E Q K a c rest rest' →
        G.Together Q K (rest.run (Task.run E.unlimited fuel))
          (rest'.run (Task.run E fuel)) := by
      intro rest rest' hrest
      cases hrest with
      | ends hr hK => exact .ended hr hK
      | goesOn ha hl hmatches =>
        have hsound' := ha.sound hS hprogram' hh hs
        exact run hS hp hh hP fuel hmatches hsound'
          (hP.leads hc hl (hmatches.calls_lt hsound'))
    have hmoves := h.moves hS hp hh hs (hP.free hc)
    rw [Task.run, Task.run]
    generalize t.move E.unlimited = move at hmoves
    generalize u.move E = move' at hmoves
    cases hmoves with
    | now hnow => exact hrest hnow
    | @waits _ _ _ _ _ sub sub' _ _ ha hl hmatches hnext =>
      have hsound' := ha.sound hS hprogram' hh hs
      have hsub := run hS hp hh hP fuel hmatches hsound'
        (hP.leads hc hl (hmatches.calls_lt hsound'))
      dsimp only
      generalize hown : sub.run E.unlimited fuel = own at hsub ⊢
      generalize hput : sub'.run E fuel = put at hsub ⊢
      cases hsub with
      | notYet => exact .notYet
      | ended hr hK => exact hrest (hnext hown hput hr hK)

end Moves

end Ground

end TreeCode
