import TreeCode.Proofs.Clock

/-!
# Everything that runs, in one view

Nine functions run in one another: loops, calls, jobs, streams. As far as time is concerned they are
all alike. A `Task` is an application of one of them; it ends, goes on as another task, or waits for
one and then ends or goes on (`Task.move`). `Task.run` performs moves, and is each of the nine
functions on its tasks (`Task.run_eq`). So what is said about the passing of time is said once, by
induction on the fuel, for every kind of task.
-/

namespace TreeCode

open Machine

/-- **Something to run on a machine**, by the type of what it gives. -/
inductive Task : Type → Type where
  | loop (progress : Progress) : Task (Except Trap Value)
  | enter (target : Nat) (callee : Value) (args : List Value) (named : Entries Value)
      (m : Machine) :
      Task (Except Trap Value)
  | apply (callee : Value) (args : List Value) (named : Entries Value) (m : Machine) :
      Task (Except ErrorValue Value)
  | perform (purpose : Purpose) (job : Job purpose.Result) (m : Machine) :
      Task (Except ErrorValue purpose.Result)
  | respond (request : Request) (m : Machine) : Task request.Response
  | force (id : StreamId) (m : Machine) : Task (Except ErrorValue Node)
  | produce (id : StreamId) (suspension : Suspension) (m : Machine) : Task (Except ErrorValue Node)
  | collect (id : StreamId) (found : List Value) (m : Machine) :
      Task (Except ErrorValue (List Value))
  | settle (values : List Value) (m : Machine) : Task (Except ErrorValue Unit)

namespace Task

variable {ρ σ : Type}

/-- The machine that the task runs on. -/
def machine : Task ρ → Machine
  | .loop progress => progress.machine
  | .enter _ _ _ _ m | .apply _ _ _ m | .perform _ _ m | .respond _ m | .force _ m | .produce _ _ m
  | .collect _ _ m | .settle _ m => m

/-- The machine of a loop that is about to step. -/
def running? : Task ρ → Option Machine
  | .loop (.running m) => some m
  | _ => none

/-- What is left to do: nothing, or another task. -/
inductive Rest (ρ : Type) where
  | ends (result : ρ) (m : Machine)
  | goesOn (task : Task ρ)

/-- **What a task does**: at once, or when the task that it waits for has ended. -/
inductive Move (ρ : Type) where
  | now (rest : Rest ρ)
  | waits {σ : Type} (sub : Task σ) (next : σ → Machine → Rest ρ)

/-- **The move of a task.** -/
def move (S : Setting) : Task ρ → Move ρ
  | .loop (.finished res m) => .now (.ends res m)
  | .loop (.running m) => .now (.goesOn (.loop (m.advance S)))
  | .loop (.waiting job m) =>
    .waits (.perform .resume job m) fun r m => .goesOn (.loop (.resume m r))
  | .enter t f args named m =>
    if S.limits.depth ≤ m.depth then
      .now (.ends (.error (.raised (tooDeep S.limits.depth))) m)
    else
      .waits (.loop (.running (m.opened t f args named))) fun res m' =>
        .ends res (m'.closed m.suspended)
  | .apply (.closure c) args named m =>
    .waits (.enter c.target (.closure c) args named m) fun res m =>
      .ends (answerOf (res, m)).1 (answerOf (res, m)).2
  | .apply (.native ref) args named m =>
    match S.host.native? ref.code with
    | some native => .now (.goesOn (.perform .call (native.apply args named) m))
    | none => .now (.ends (.error (notCallable (.native ref))) m)
  | .apply other _ _ m => .now (.ends (.error (notCallable other)) m)
  | .perform _ (.done res) m => .now (.ends res m)
  | .perform purpose (.ask held q next) m =>
    .waits (.respond q (m.holding (held ++ m.held))) fun resp m' =>
      .goesOn (.perform purpose (next resp) (m'.holding m.held))
  | .respond (.call f args named) m => .now (.goesOn (.apply f args named m))
  | .respond (.force stream) m => .now (.goesOn (.force stream m))
  | .respond (.collect stream) m => .now (.goesOn (.collect stream [] m))
  | .respond (.settle value) m => .now (.goesOn (.settle [value] m))
  | .respond (.allocate cell) m =>
    .now (.ends (m.heap.addStream cell).1 { m with heap := (m.heap.addStream cell).2 })
  | .respond (.text value) m => .now (.ends (value.text m.heap) m)
  | .force id m =>
    match m.heap.streamCell id with
    | .resolved node => .now (.ends (.ok node) m)
    | .failed e => .now (.ends (.error e) m)
    | .forcing => .now (.ends (.error (.of "streamForcedRecursively" [])) m)
    | .pending s => .now (.goesOn (.produce id s (m.setStream id .forcing)))
  | .produce id s m =>
    .waits (.perform .produce s.produce m) fun
      | .ok (.again rest), m => .goesOn (.produce id rest m)
      | .ok (.node node), m => .ends (.ok node) (m.setStream id (.resolved node))
      | .error e, m => .ends (.error e) (m.setStream id (.failed e))
  | .collect id found m =>
    .waits (.force id m) fun
      | .ok .empty, m => .ends (.ok found.reverse) m
      | .ok (.cons head tail), m => .goesOn (.collect tail (head :: found) m)
      | .error e, m => .ends (.error e) m
  | .settle [] m => .now (.ends (.ok ()) m)
  | .settle (.array es :: rest) m => .now (.goesOn (.settle (es ++ rest) m))
  | .settle (.object xs :: rest) m => .now (.goesOn (.settle (Entries.values xs ++ rest) m))
  | .settle (.stream id :: rest) m =>
    .waits (.collect id [] m) fun
      | .ok es, m => .goesOn (.settle (es ++ rest) m)
      | .error e, m => .ends (.error e) m
  | .settle (_ :: rest) m => .now (.goesOn (.settle rest m))

/-- Do the rest, if it is a task. -/
def Rest.run (run : Task ρ → Option (ρ × Machine)) : Rest ρ → Option (ρ × Machine)
  | .ends r m => some (r, m)
  | .goesOn task => run task

/-- **Run a task**, move by move. -/
def run (S : Setting) : Nat → {ρ : Type} → Task ρ → Option (ρ × Machine)
  | 0, _, _ => none
  | fuel + 1, _, t =>
    match t.move S with
    | .now rest => rest.run (run S fuel)
    | .waits sub next =>
      match run S fuel sub with
      | none => none
      | some (x, m) => (next x m).run (run S fuel)

/-- What the machine's own functions give for a task. -/
def outcome (S : Setting) (fuel : Nat) : Task ρ → Option (ρ × Machine)
  | .loop p => drive S fuel p
  | .enter t f args named m => Machine.enter S fuel t f args named m
  | .apply f args named m => Machine.apply S fuel f args named m
  | .perform purpose job m => Machine.perform S fuel purpose job m
  | .respond q m => Machine.respond S fuel q m
  | .force id m => Machine.force S fuel id m
  | .produce id s m => Machine.produce S fuel id s m
  | .collect id found m => Machine.collect S fuel id found m
  | .settle values m => Machine.settle S fuel values m

/-- **Running a task is what the machine does.** -/
theorem run_eq (S) : ∀ fuel {ρ : Type} (t : Task ρ), t.run S fuel = t.outcome S fuel
  | 0, _, t => by
    cases t <;> simp only [run, outcome, drive, Machine.enter, Machine.apply, Machine.perform,
      Machine.respond, Machine.force, Machine.produce, Machine.collect, Machine.settle]
  | fuel + 1, _, t => by
    have ih := @run_eq S fuel
    cases t with
    | loop p =>
      cases p with
      | finished res m => rfl
      | running m => exact ih (.loop (m.advance S))
      | waiting job m =>
        simp only [run, move, outcome, drive, ih]
        cases Machine.perform S fuel .resume job m with
        | none => rfl
        | some ended => exact ih _
    | enter tgt f args named m =>
      by_cases hd : S.limits.depth ≤ m.depth
      · simp only [run, move, outcome, Machine.enter, if_pos hd]
        rfl
      · simp only [run, move, outcome, Machine.enter, if_neg hd, ih]
        cases drive S fuel (.running (m.opened tgt f args named)) with
        | none => rfl
        | some ended => rfl
    | apply f args named m =>
      cases f with
      | closure c =>
        simp only [run, move, outcome, Machine.apply, ih]
        cases Machine.enter S fuel c.target (.closure c) args named m with
        | none => rfl
        | some ended => rfl
      | native ref =>
        simp only [run, move, outcome, Machine.apply]
        cases S.host.native? ref.code with
        | none => rfl
        | some native => exact ih _
      | _ => rfl
    | perform purpose job m =>
      cases job with
      | done res => rfl
      | ask held q next =>
        simp only [run, move, outcome, Machine.perform, ih]
        cases Machine.respond S fuel q (m.holding (held ++ m.held)) with
        | none => rfl
        | some ended => exact ih _
    | respond q m =>
      cases q with
      | allocate cell => rfl
      | text value => rfl
      | call f args named => exact ih (.apply f args named m)
      | force id => exact ih (.force id m)
      | collect id => exact ih (.collect id [] m)
      | settle value => exact ih (.settle [value] m)
    | force id m =>
      simp only [run, move, outcome, Machine.force]
      cases m.heap.streamCell id with
      | pending s => exact ih _
      | _ => rfl
    | produce id s m =>
      simp only [run, move, outcome, Machine.produce, ih]
      cases Machine.perform S fuel .produce s.produce m with
      | none => rfl
      | some ended =>
        obtain ⟨r, m'⟩ := ended
        cases r with
        | error e => rfl
        | ok produced =>
          cases produced with
          | node node => rfl
          | again rest => exact ih _
    | collect id found m =>
      simp only [run, move, outcome, Machine.collect, ih]
      cases Machine.force S fuel id m with
      | none => rfl
      | some ended =>
        obtain ⟨r, m'⟩ := ended
        cases r with
        | error e => rfl
        | ok node =>
          cases node with
          | empty => rfl
          | cons head tail => exact ih _
    | settle values m =>
      cases values with
      | nil => rfl
      | cons v rest =>
        cases v with
        | stream id =>
          simp only [run, move, outcome, Machine.settle, ih]
          cases Machine.collect S fuel id [] m with
          | none => rfl
          | some ended =>
            obtain ⟨r, m'⟩ := ended
            cases r with
            | error e => rfl
            | ok es => exact ih _
        | array es => exact ih (.settle (es ++ rest) m)
        | object xs => exact ih (.settle (Entries.values xs ++ rest) m)
        | _ => exact ih (.settle rest m)

/-! ## Moves are ordinary changes -/

/-- The work that the task is about is completed by ordinary changes. -/
def Brief : Task ρ → Prop
  | .loop progress => progress.Brief
  | .perform .resume job _ => job.Yields Exec.Ordinary
  | _ => True

/-- What the task gives is completed by ordinary changes. -/
def Gives : Task ρ → ρ → Prop
  | .perform .resume _ _, r => ∀ x, r = .ok x → Exec.Ordinary x
  | _, _ => True

/-- The rest begins after ordinary changes of a machine. -/
def Rest.From (m : Machine) : Rest ρ → Prop
  | .ends _ m' => Touches 0 m m'
  | .goesOn task => Touches 0 m task.machine ∧ task.Brief

/-- The rest begins at a time. -/
def Rest.At (clock : Nat × Bool) : Rest ρ → Prop
  | .ends _ m => m.clock = clock
  | .goesOn task => task.machine.clock = clock ∧ task.Brief

variable {m : Machine} {S : Setting} {k fuel' : Nat}

/-- Ordinary changes take no time. -/
lemma Rest.From.clock {rest : Rest ρ} (h : rest.From m) : rest.At m.clock := by
  cases rest with
  | ends x m' => exact Touches.clock h
  | goesOn task => exact ⟨h.1.clock, h.2⟩

/-- A move that makes ordinary changes of a machine. -/
def Move.From (m : Machine) : Move ρ → Prop
  | .now rest => rest.From m
  | .waits sub next => Touches 0 m sub.machine ∧ sub.Brief ∧
      ∀ x m', sub.Gives x → (next x m').From m'

lemma touches_setStream (m : Machine) (id cell) :
    Touches 0 m (m.setStream id cell) := touches_stack rfl (fun _ _ _ => rfl) rfl rfl

lemma touches_holding (m : Machine) (held : List Value) : Touches 0 m (m.holding held) :=
  touches_stack rfl (fun _ _ _ => rfl) rfl rfl

/-- Entering a loop puts the callee and the arguments on the stack. -/
lemma touches_opened (height : Nat) (m : Machine) (t f args named) :
    Touches height m (m.opened t f args named) :=
  touches_stack rfl (fun _ _ hi => Array.getElem?_append_left hi) rfl rfl

/-- Leaving a loop cuts the stacks at the floor. -/
lemma touches_closed (height : Nat) (m : Machine) (outer) :
    Touches height m (m.closed outer) := by
  have hcut : Touches height m ({ m with
      calls := m.calls.shrink m.floor.calls
      scopes := m.scopes.shrink m.floor.scopes }.truncate m.floor.stack) := by
    refine touches_truncate ?_ ?_ ?_ ?_ _ <;> rfl
  exact hcut.trans (touches_stack rfl (fun _ _ _ => rfl) rfl rfl)

lemma touches_answerOf (ended) :
    Touches 0 ended.2 (answerOf ended).2 := by
  obtain ⟨r, m⟩ := ended
  cases r with
  | ok v => exact .refl
  | error t =>
    cases t with
    | raised e => exact .refl
    | fault f => exact touches_stack rfl (fun _ _ _ => rfl) rfl rfl

/-- **Only a step is more than an ordinary change.** -/
theorem move_from (S) (t : Task ρ) (ht : t.Brief) (hrunning : t.running? = none) :
    (t.move S).From t.machine := by
  cases t with
  | loop p =>
    cases p with
    | finished res m => exact .refl
    | running m => cases hrunning
    | waiting job m => exact ⟨.refl, ht, fun r m' hr => Progress.ordinary_resume hr⟩
  | enter tgt f args named m =>
    rw [move]
    split
    · exact .refl
    · exact ⟨touches_opened .., trivial, fun _ m' _ => touches_closed 0 m' _⟩
  | apply f args named m =>
    cases f with
    | closure c => exact ⟨.refl, trivial, fun res m' _ => touches_answerOf (res, m')⟩
    | native ref =>
      simp only [move]
      split
      · exact ⟨.refl, trivial⟩
      · exact .refl
    | _ => exact .refl
  | perform purpose job m =>
    cases job with
    | done res => exact .refl
    | ask held q next =>
      refine ⟨touches_holding .., trivial, fun resp m' _ => ⟨touches_holding .., ?_⟩⟩
      cases purpose with
      | resume => exact ht resp
      | _ => trivial
  | respond q m =>
    cases q with
    | allocate cell => exact touches_stack rfl (fun _ _ _ => rfl) rfl rfl
    | text value => exact .refl
    | _ => exact ⟨.refl, trivial⟩
  | force id m =>
    simp only [move]
    split
    · exact .refl
    · exact .refl
    · exact .refl
    · exact ⟨touches_setStream .., trivial⟩
  | produce id s m =>
    refine ⟨.refl, trivial, fun res m' _ => ?_⟩
    cases res with
    | error e => exact touches_setStream ..
    | ok produced =>
      cases produced with
      | node node => exact touches_setStream ..
      | again rest => exact ⟨.refl, trivial⟩
  | collect id found m =>
    refine ⟨.refl, trivial, fun res m' _ => ?_⟩
    cases res with
    | error e => exact .refl
    | ok node =>
      cases node with
      | empty => exact .refl
      | cons head tail => exact ⟨.refl, trivial⟩
  | settle values m =>
    cases values with
    | nil => exact .refl
    | cons v rest =>
      cases v with
      | stream id =>
        refine ⟨.refl, trivial, fun res m' _ => ?_⟩
        cases res with
        | error e => exact .refl
        | ok es => exact ⟨.refl, trivial⟩
      | _ => exact ⟨.refl, trivial⟩

variable {fuel : Nat} {x : ρ}

lemma gives_of_run {t : Task ρ} (ht : t.Brief) (h : t.run S fuel = some (x, m)) : t.Gives x := by
  rw [run_eq] at h
  cases t with
  | perform purpose job m₀ =>
    cases purpose with
    | resume =>
      rintro act rfl
      exact yields_of_perform ht h
    | _ => trivial
  | _ => trivial

/-- A loop that is about to step goes on where the step leads. -/
lemma move_running (S) {t : Task ρ} (h : t.running? = some m) :
    t.machine = m ∧ ∃ t', t.move S = .now (.goesOn t') ∧
      t'.machine = (m.advance S).machine ∧ t'.Brief := by
  cases t with
  | loop p =>
    cases p with
    | running m' =>
      cases h
      exact ⟨rfl, .loop (m.advance S), rfl, rfl, brief_advance S m⟩
    | _ => cases h
  | _ => cases h

/-! ## Runs -/

/-- How many instructions the next move executes: a step that is counted is one. -/
def executes (S : Setting) (t : Task ρ) : Nat :=
  match t.running? with
  | some m =>
    match countStep S.limits m with
    | .ok _ _ => 1
    | .error _ _ => 0
  | none => 0

/-- **A task that ends**: on so much fuel, with a result, on a machine, having executed so many
instructions in its own loops and in all that run inside them. -/
inductive Ran (S) : Nat → {ρ : Type} → Task ρ → ρ → Machine → Nat → Prop where
  | ends {fuel : Nat} {ρ : Type} {t : Task ρ} {x : ρ} {m : Machine}
      (hmv : t.move S = .now (.ends x m)) :
      Ran S (fuel + 1) t x m (t.executes S)
  | goesOn {fuel : Nat} {ρ : Type} {t t' : Task ρ} {x : ρ} {m : Machine} {n : Nat}
      (hmv : t.move S = .now (.goesOn t')) (h : Ran S fuel t' x m n) :
      Ran S (fuel + 1) t x m (t.executes S + n)
  | waited {fuel : Nat} {ρ σ : Type} {t : Task ρ} {sub : Task σ} {next : σ → Machine → Rest ρ}
      {y : σ}
      {x : ρ} {m₁ m : Machine} {n : Nat} (hmv : t.move S = .waits sub next)
      (hsub : Ran S fuel sub y m₁ n) (hnext : next y m₁ = .ends x m) :
      Ran S (fuel + 1) t x m n
  | resumed {fuel : Nat} {ρ σ : Type} {t t' : Task ρ} {sub : Task σ} {next : σ → Machine → Rest ρ}
      {y : σ} {x : ρ} {m₁ m n n'} (hmv : t.move S = .waits sub next)
      (hsub : Ran S fuel sub y m₁ n) (hnext : next y m₁ = .goesOn t')
      (h : Ran S fuel t' x m n') : Ran S (fuel + 1) t x m (n + n')

/-- Do the rest, if it is a task, and count the instructions that it executes. -/
def Rest.executed (executed : Task ρ → Nat) : Rest ρ → Nat
  | .ends _ _ => 0
  | .goesOn task => executed task

/-- **How many instructions a task executes** on so much fuel, in its own loops and in all that run
inside them. -/
def executed (S : Setting) : Nat → {ρ : Type} → Task ρ → Nat
  | 0, _, _ => 0
  | fuel + 1, _, t =>
    match t.move S with
    | .now rest => t.executes S + rest.executed (executed S fuel)
    | .waits sub next =>
      executed S fuel sub +
        match run S fuel sub with
        | none => 0
        | some (y, m) => (next y m).executed (executed S fuel)

lemma ran_of_run : ∀ {fuel : Nat} {ρ : Type} {t : Task ρ} {x m},
    t.run S fuel = some (x, m) → Ran S fuel t x m (t.executed S fuel)
  | 0, _, _, _, _, h => by simp [run] at h
  | fuel + 1, _, t, x, m, h => by
    rw [run] at h
    rw [executed]
    cases hmv : t.move S with
    | now rest =>
      rw [hmv] at h
      cases rest with
      | ends y m' =>
        cases h
        exact .ends hmv
      | goesOn t' => exact .goesOn hmv (ran_of_run h)
    | waits sub next =>
      rw [hmv] at h
      dsimp only at h ⊢
      split at h
      · cases h
      · next y m₁ hsub =>
        have hran := ran_of_run hsub
        cases hnext : next y m₁ with
        | ends z m' =>
          rw [hnext] at h
          cases h
          exact .waited hmv hran hnext
        | goesOn t' =>
          rw [hnext] at h
          exact .resumed hmv hran hnext (ran_of_run h)

variable {n : Nat}

lemma run_of_ran {t} (h : Ran S fuel t x m n) : t.run S fuel = some (x, m) := by
  induction h with
  | ends hmv => rw [run, hmv]; rfl
  | goesOn hmv _ ih => rw [run, hmv]; exact ih
  | waited hmv _ hnext ih => rw [run, hmv]; dsimp only; rw [ih]; dsimp only; rw [hnext]; rfl
  | resumed hmv _ hnext _ ihsub ih =>
    rw [run, hmv]; dsimp only; rw [ihsub]; dsimp only; rw [hnext]; exact ih

/-! ## Only steps are more than ordinary changes -/

section Moves

variable {S : Setting} {t : Task ρ} (ht : t.Brief)
include ht

lemma touches_of_ends (hmv : t.move S = .now (.ends x m)) :
    t.running? = none ∧ Touches 0 t.machine m := by
  cases hr : t.running? with
  | some m₀ =>
    obtain ⟨-, t', hgoesOn, -⟩ := move_running S hr
    cases hmv.symm.trans hgoesOn
  | none =>
    have hfrom := move_from S t ht hr
    rw [hmv] at hfrom
    exact ⟨rfl, hfrom⟩

lemma touches_of_goesOn {t' : Task ρ} (hmv : t.move S = .now (.goesOn t')) :
    t'.Brief ∧ ((t.running? = none ∧ Touches 0 t.machine t'.machine) ∨
      (t.running? = some t.machine ∧ t'.machine = (t.machine.advance S).machine)) := by
  cases hr : t.running? with
  | some m₀ =>
    obtain ⟨rfl, t'', hgoesOn, hm, hbr⟩ := move_running S hr
    cases hmv.symm.trans hgoesOn
    exact ⟨hbr, .inr ⟨rfl, hm⟩⟩
  | none =>
    have hfrom := move_from S t ht hr
    rw [hmv] at hfrom
    exact ⟨hfrom.2, .inl ⟨rfl, hfrom.1⟩⟩

variable {sub : Task σ} {next : σ → Machine → Rest ρ}

variable (hmv : t.move S = .waits sub next)

include hmv

lemma touches_of_waits :
    t.running? = none ∧ Touches 0 t.machine sub.machine ∧ sub.Brief ∧
      ∀ y m, sub.Gives y → (next y m).From m := by
  cases hr : t.running? with
  | some m₀ =>
    obtain ⟨-, t', hgoesOn, -⟩ := move_running S hr
    cases hmv.symm.trans hgoesOn
  | none =>
    have hfrom := move_from S t ht hr
    rw [hmv] at hfrom
    exact ⟨rfl, hfrom⟩

/-- What follows the task that was waited for begins when that has ended. -/
lemma rest_from {y : σ} (hsub : Ran S fuel sub y m n) : (next y m).From m := by
  obtain ⟨-, -, hbr, hr⟩ := touches_of_waits ht hmv
  exact hr y m (gives_of_run hbr (run_of_ran hsub))

/-! Time passes in steps only. -/

omit hmv in
lemma clock_of_ends (hmv : t.move S = .now (.ends x m)) :
    t.running? = none ∧ m.clock = t.machine.clock :=
  (touches_of_ends ht hmv).imp_right Touches.clock

omit hmv in
lemma clock_of_goesOn {t'} (hmv : t.move S = .now (.goesOn t')) :
    t'.Brief ∧ ((t.running? = none ∧ t'.machine.clock = t.machine.clock) ∨
      (t.running? = some t.machine ∧ t'.machine = (t.machine.advance S).machine)) :=
  (touches_of_goesOn ht hmv).imp_right (Or.imp_left (And.imp_right Touches.clock))

lemma clock_of_waits :
    t.running? = none ∧ sub.machine.clock = t.machine.clock ∧ sub.Brief ∧
      ∀ y m, sub.Gives y → (next y m).At m.clock := by
  obtain ⟨hn, htouches, hbr, hr⟩ := touches_of_waits ht hmv
  exact ⟨hn, htouches.clock, hbr, fun y m hy => (hr y m hy).clock⟩

lemma rest_at {y : σ}
    (hsub : Ran S fuel sub y m n) : (next y m).At m.clock := (rest_from ht hmv hsub).clock

end Moves

/-- **What holds along every step and every ordinary change holds along every run.** -/
theorem Ran.relates {Q : Machine → Machine → Prop}
    (htrans : ∀ {m₁ m₂ m₃}, Q m₁ m₂ → Q m₂ m₃ → Q m₁ m₃)
    (hordinary : ∀ {m m'}, Touches 0 m m' → Q m m')
    (hstep : ∀ m, Q m (m.advance S).machine) {t}
    (h : Ran S fuel t x m n) (ht : t.Brief) : Q t.machine m := by
  induction h with
  | ends hmv => exact hordinary (touches_of_ends ht hmv).2
  | goesOn hmv _ ih =>
    obtain ⟨hbr, ⟨-, htouches⟩ | ⟨-, hm⟩⟩ := touches_of_goesOn ht hmv
    · exact htrans (hordinary htouches) (ih hbr)
    · exact htrans (hstep _) (hm ▸ ih hbr)
  | waited hmv hsub hnext ih =>
    obtain ⟨-, htouches, hbr, -⟩ := touches_of_waits ht hmv
    have hend := rest_from ht hmv hsub
    rw [hnext] at hend
    exact htrans (hordinary htouches) (htrans (ih hbr) (hordinary hend))
  | resumed hmv hsub hnext _ ihsub ih =>
    obtain ⟨-, htouches, hbr, -⟩ := touches_of_waits ht hmv
    have hend := rest_from ht hmv hsub
    rw [hnext] at hend
    exact htrans (hordinary htouches) (htrans (ihsub hbr)
      (htrans (hordinary hend.1) (ih hend.2)))

/-- **What holds of the clock along every step holds along every run.** -/
theorem Ran.clock {Q : Nat × Bool → Nat × Bool → Prop} (hrefl : ∀ c, Q c c)
    (htrans : ∀ {c₁ c₂ c₃}, Q c₁ c₂ → Q c₂ c₃ → Q c₁ c₃)
    (hstep : ∀ m : Machine, Q m.clock (m.advance S).machine.clock) {t}
    (h : Ran S fuel t x m n) (ht : t.Brief) : Q t.machine.clock m.clock :=
  h.relates (Q := fun m m' => Q m.clock m'.clock) htrans (fun htouches => htouches.clock ▸ hrefl _)
    hstep ht

lemma Ran.steps_le {t}
    (h : Ran S fuel t x m n) (ht : t.Brief) : t.machine.steps ≤ m.steps := by
  refine h.clock (Q := fun c c' => c.1 ≤ c'.1) (fun _ => Nat.le_refl _) Nat.le_trans ?_ ht
  intro m
  exact Nat.le_of_lt (Nat.lt_of_lt_of_eq (Nat.lt_succ_self _) (steps_advance S m).symm)

/-! ## Contracts -/

/-- **What is asked of a task and what it promises**: something before it runs, and something of
what it gives on so much fuel. -/
structure Contract where
  pre : {ρ : Type} → Task ρ → Prop
  post : Nat → {ρ : Type} → Task ρ → ρ → Machine → Prop

namespace Contract

variable (C : Contract) (S : Setting)

/-- What is left to do keeps the promise of the task. -/
def Meets (fuel : Nat) (t : Task ρ) : Rest ρ → Prop
  | .ends x m => C.post (fuel + 1) t x m
  | .goesOn t' => C.pre t' ∧ ∀ x m, t'.run S fuel = some (x, m) → C.post fuel t' x m →
      C.post (fuel + 1) t x m

/-- A move of the task keeps its promise, if the task that it waits for does. -/
def Kept (fuel : Nat) (t : Task ρ) : Move ρ → Prop
  | .now rest => C.Meets S fuel t rest
  | .waits sub next => C.pre sub ∧ ∀ y m, sub.run S fuel = some (y, m) →
      C.post fuel sub y m → C.Meets S fuel t (next y m)

variable {C S}

/-- **A contract that every move keeps is kept by every run.** -/
theorem of_run (h : ∀ fuel {ρ : Type} (t : Task ρ), C.pre t →
    C.Kept S fuel t (t.move S)) :
    ∀ {fuel} {ρ : Type} {t : Task ρ} {x m}, C.pre t → t.run S fuel = some (x, m) → C.post fuel t x m
  | 0, _, _, _, _, _, hrun => by simp [run] at hrun
  | fuel + 1, _, t, x, m, hpre, hrun => by
    have hmeets : ∀ rest, C.Meets S fuel t rest →
        rest.run (run S fuel) = some (x, m) → C.post (fuel + 1) t x m := by
      intro rest hr hrun
      cases rest with
      | ends y m' =>
        cases hrun
        exact hr
      | goesOn t' => exact hr.2 x m hrun (of_run h hr.1 hrun)
    have hk := h fuel t hpre
    rw [run] at hrun
    cases hmv : t.move S with
    | now rest =>
      rw [hmv] at hrun hk
      exact hmeets rest hk hrun
    | waits sub next =>
      rw [hmv] at hrun hk
      dsimp only at hrun
      split at hrun
      · cases hrun
      · next y m₁ hsub => exact hmeets (next y m₁) (hk.2 y m₁ hsub (of_run h hk.1 hsub)) hrun

end Contract

/-! ## Two settings -/

/-- **Two settings agree up to a number of steps**: they differ in nothing but what they do about
later ones. -/
structure Agree (k : Nat) (s s' : Setting) : Prop where
  host : s'.host = s.host
  depth : s'.limits.depth = s.limits.depth
  advance : ∀ m : Machine, m.steps < k → m.advance s' = m.advance s

lemma move_agree {s s'} (h : Agree k s s') {t : Task ρ}
    (ht : ∀ m, t.running? = some m → m.steps < k) : t.move s' = t.move s := by
  cases t with
  | loop p =>
    cases p with
    | running m => rw [move, move, h.advance m (ht m rfl)]
    | _ => rfl
  | enter tgt f args named m => rw [move, move, h.depth]
  | apply f args named m =>
    cases f with
    | native ref => simp only [move, h.host]
    | _ => rfl
  | perform purpose job m => cases job <;> rfl
  | respond q m => cases q <;> rfl
  | settle values m =>
    cases values with
    | nil => rfl
    | cons v rest => cases v <;> rfl
  | _ => rfl

/-- **A run that ends within the steps on which two settings agree ends so in both**, on the same
fuel or on more. -/
theorem Ran.agree {s s' : Setting} (h : Agree k s s') {t : Task ρ}
    (hran : Ran s fuel t x m n) (ht : t.Brief)
    (hm : m.steps ≤ k) : ∀ {fuel'}, fuel ≤ fuel' → t.run s' fuel' = some (x, m) := by
  induction hran with
  | ends hmv =>
    rintro (_ | fuel') hfuel
    · cases hfuel
    have hn := (clock_of_ends ht hmv).1
    rw [run, move_agree h (by simp [hn]), hmv]
    rfl
  | @goesOn fuel _ t t' x m n hmv hr ih =>
    rintro (_ | fuel') hfuel
    · cases hfuel
    obtain ⟨hbr, hcase⟩ := clock_of_goesOn ht hmv
    have hlater := hr.steps_le hbr
    have hwithin : ∀ m', t.running? = some m' → m'.steps < k := by
      intro m' hm'
      rcases hcase with ⟨hn, -⟩ | ⟨hsome, hmachine⟩
      · cases hn.symm.trans hm'
      · cases hsome.symm.trans hm'
        rw [hmachine, steps_advance] at hlater
        omega
    rw [run, move_agree h hwithin, hmv]
    exact ih hbr hm (Nat.le_of_succ_le_succ hfuel)
  | @waited fuel _ _ t sub next y x m₁ m n hmv hsub hnext ih =>
    rintro (_ | fuel') hfuel
    · cases hfuel
    obtain ⟨hn, -, hbr, -⟩ := clock_of_waits ht hmv
    have hend := rest_at ht hmv hsub
    rw [hnext] at hend
    have hs : m.steps = m₁.steps := steps_of_clock hend
    rw [run, move_agree h (by simp [hn]), hmv]
    dsimp only
    rw [ih hbr (by omega) (Nat.le_of_succ_le_succ hfuel)]
    dsimp only
    rw [hnext]
    rfl
  | @resumed fuel _ _ t t' sub next y x m₁ m n n' hmv hsub hnext hl ihsub ih =>
    rintro (_ | fuel') hfuel
    · cases hfuel
    obtain ⟨hn, -, hbr, -⟩ := clock_of_waits ht hmv
    have hend := rest_at ht hmv hsub
    rw [hnext] at hend
    have hlater := hl.steps_le hend.2
    have hs : t'.machine.steps = m₁.steps := steps_of_clock hend.1
    rw [run, move_agree h (by simp [hn]), hmv]
    dsimp only
    rw [ihsub hbr (by omega) (Nat.le_of_succ_le_succ hfuel)]
    dsimp only
    rw [hnext]
    exact ih hend.2 hm (Nat.le_of_succ_le_succ hfuel)

/-- **More fuel changes nothing.** -/
theorem run_mono {t : Task ρ}
    (ht : t.Brief) (h : t.run S fuel = some (x, m)) (hfuel : fuel ≤ fuel') :
    t.run S fuel' = some (x, m) := by
  have hself : Agree m.steps S S := ⟨rfl, rfl, fun _ _ => rfl⟩
  exact (ran_of_run h).agree hself ht (Nat.le_refl _) hfuel

end Task

end TreeCode
