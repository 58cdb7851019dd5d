import Mathlib.Order.WellFounded
import TreeCode.Proofs.Catches
import TreeCode.Proofs.Signatures
import TreeCode.Proofs.Tasks

/-!
# The step limit

A limit on the steps of a run does not show as long as the run keeps within it. Beyond it the run is
cut off: the step that is one too many is refused in whatever loop makes it, and so is every step
after it, no catch is taken any more and no loop returns a value.

Runs with a limit and without one are compared as tasks, which are the same up to the limit
(`Task.Ran.agree`). Above it the invariant is that the machine knows that it is exhausted
(`Machine.Sane`), in whatever is reached. All that may then go on is the work of the host itself,
and a run that is cut off ends unless that work does not (`HostHangs`). A host function that calls
again whenever a call has failed never returns then (`perform_retrying`).
-/

namespace TreeCode

open Machine Progress

/-! ## Tasks and activities -/

/-- The activity is the task. -/
inductive Activity.Does : Activity → {ρ : Type} → Task ρ → Prop where
  | loop {b progress live} :
      Does (.loop b progress live) (.loop progress)
  | enter {target callee args named m} :
      Does (.enter target callee args named m) (.enter target callee args named m)
  | apply {callee args named m} :
      Does (.apply callee args named m) (.apply callee args named m)
  | perform {purpose job m} :
      Does (.perform purpose job m) (.perform purpose job m)
  | respond {request m} : Does (.respond request m) (.respond request m)
  | force {id m} : Does (.force id m) (.force id m)
  | produce {id suspension m} :
      Does (.produce id suspension m) (.produce id suspension m)
  | collect {id found m} :
      Does (.collect id found m) (.collect id found m)
  | settle {values m} : Does (.settle values m) (.settle values m)

variable {a : Activity}
  {ρ : Type} {m : Machine} {S : Setting} {limit fuel depth : Nat} {c : Activity}
  {live : List Machine} {next : Progress} {e : ErrorValue}

lemma Activity.Does.machine {t : Task ρ} (ha : a.Does t) : a.machine = t.machine := by
  cases ha <;> rfl

lemma Activity.Does.running {t : Task ρ} (ha : a.Does t)
    (h : t.running? = some m) : ∃ b live, a = .loop b (.running m) live := by
  cases ha with
  | @loop b p live =>
    cases p with
    | running m' =>
      cases h
      exact ⟨b, live, rfl⟩
    | _ => cases h
  | _ => cases h

/-- An activity leads to what a task goes on as. -/
def Task.Rest.Led {ρ : Type} (S : Setting) (a : Activity) : Task.Rest ρ → Prop
  | .ends _ _ => True
  | .goesOn task => ∃ c, Leads S a c ∧ c.Does task

/-- An activity leads to all that a move of its task leads to. -/
def Task.Move.Led {ρ : Type} (S : Setting) (a : Activity) : Task.Move ρ → Prop
  | .now rest => rest.Led S a
  | .waits sub next => (∃ c, Leads S a c ∧ c.Does sub) ∧
      ∀ fuel y m, sub.run S fuel = some (y, m) → (next y m).Led S a

/-- **Activities lead where their tasks move.** -/
theorem Activity.Does.led {t : Task ρ} (ha : a.Does t) : (t.move S).Led S a := by
  cases ha with
  | @loop b p live =>
    cases p with
    | finished res m => trivial
    | running m => exact ⟨_, .step, .loop⟩
    | waiting job m =>
      refine ⟨⟨_, .await, .perform⟩, fun fuel r m' h => ?_⟩
      rw [Task.run_eq] at h
      exact ⟨_, .resume h, .loop⟩
  | @enter tgt f args named m =>
    rw [Task.move]
    split
    · trivial
    · next hd => exact ⟨⟨_, .enter (Nat.lt_of_not_le hd), .loop⟩, fun _ _ _ _ => trivial⟩
  | @apply f args named m =>
    cases f with
    | closure c => exact ⟨⟨_, .closure, .enter⟩, fun _ _ _ _ => trivial⟩
    | native ref =>
      simp only [Task.move]
      split
      · next native hnative => exact ⟨_, .native hnative, .perform⟩
      · trivial
    | _ => trivial
  | @perform purpose job m =>
    cases job with
    | done res => trivial
    | ask held q next =>
      refine ⟨⟨_, .ask, .respond⟩, fun fuel resp m' h => ?_⟩
      rw [Task.run_eq] at h
      exact ⟨_, .answer h, .perform⟩
  | @respond q m =>
    cases q with
    | call f args named => exact ⟨_, .call, .apply⟩
    | force id => exact ⟨_, .force, .force⟩
    | collect id => exact ⟨_, .collect, .collect⟩
    | settle value => exact ⟨_, .settle, .settle⟩
    | allocate cell => trivial
    | text value => trivial
  | @force id m =>
    simp only [Task.move]
    split
    · trivial
    · trivial
    · trivial
    · next s hpending => exact ⟨_, .produce hpending, .produce⟩
  | @produce id s m =>
    refine ⟨⟨_, .suspension, .perform⟩, fun fuel produced m' h => ?_⟩
    rw [Task.run_eq] at h
    cases produced with
    | error e => trivial
    | ok produced =>
      cases produced with
      | node node => trivial
      | again rest => exact ⟨_, .again h, .produce⟩
  | @collect id found m =>
    refine ⟨⟨_, .node, .force⟩, fun fuel node m' h => ?_⟩
    rw [Task.run_eq] at h
    cases node with
    | error e => trivial
    | ok node =>
      cases node with
      | empty => trivial
      | cons head tail => exact ⟨_, .tail h, .collect⟩
  | @settle values m =>
    cases values with
    | nil => trivial
    | cons v rest =>
      cases v with
      | array es => exact ⟨_, .elements, .settle⟩
      | object xs => exact ⟨_, .entries, .settle⟩
      | stream id =>
        refine ⟨⟨_, .stream, .collect⟩, fun fuel es m' h => ?_⟩
        rw [Task.run_eq] at h
        cases es with
        | error e => trivial
        | ok es => exact ⟨_, .collected h, .settle⟩
      | _ => exact ⟨_, .skip rfl, .settle⟩

/-! ## Limits -/

variable {m' : Machine}

section Limited

lemma counts_unlimited (m : Machine) : m.Counts { depth } := rfl

/-- A step is counted as long as the limit has not been reached. -/
lemma counts_iff : m.Counts { steps := some limit, depth } ↔ m.steps < limit := by
  rw [Counts, countStep, count_bind]
  dsimp only
  split
  · next hover =>
    have hs : limit < m.steps + 1 := hover
    rw [Exec.bind_error (exhaust_eq _ _)]
    exact ⟨fun h => (by cases h), fun hlt => by omega⟩
  · next hwithin =>
    have hs : ¬limit < m.steps + 1 := hwithin
    exact ⟨fun _ => by omega, fun _ => rfl⟩

/-- The budget is spent exactly if more steps have been counted than the limit allows. -/
def Machine.Sane (limit : Nat) (m : Machine) : Prop := m.exhausted = true ↔ limit < m.steps

lemma sane_of_clock (h : m'.clock = m.clock) (hm : m.Sane limit) : m'.Sane limit := by
  obtain ⟨hs, hexhausted⟩ := Prod.mk.inj h
  rw [Machine.Sane, hs, hexhausted]
  exact hm

variable (hl : S.limits = { steps := some limit, depth })
include hl

lemma refused_of_le (h : limit ≤ m.steps) : ¬m.Counts S.limits := by
  rw [hl, counts_iff]
  exact Nat.not_lt.mpr h

lemma sane_advance (hm : m.Sane limit) : (m.advance S).machine.Sane limit := by
  by_cases h : m.Counts S.limits
  · obtain ⟨hsteps, hexhausted⟩ := Prod.mk.inj (clock_advance h).1
    rw [hl, counts_iff] at h
    have hspent : m.exhausted ≠ true := fun hspent => by
      have := hm.mp hspent
      omega
    rw [Machine.Sane, hsteps, hexhausted]
    exact ⟨fun hs => absurd hs hspent, fun hlt => by omega⟩
  · obtain ⟨e, e', m', -, hadvance, hc⟩ := advance_refused h
    obtain ⟨hsteps, hexhausted⟩ := Prod.mk.inj hc
    rw [hl, counts_iff] at h
    rw [hadvance]
    show m'.exhausted = true ↔ limit < m'.steps
    rw [hsteps, hexhausted]
    exact ⟨fun _ => by omega, fun _ => rfl⟩

namespace Task

variable {n : Nat} {t : Task ρ} {x : ρ}

lemma Ran.sane (h : Ran S fuel t x m n) (ht : t.Brief) (hsane : t.machine.Sane limit) :
    m.Sane limit := by
  have hc := h.clock
    (Q := fun c c' => (c.2 = true ↔ limit < c.1) → (c'.2 = true ↔ limit < c'.1)) (fun _ => id)
    (fun h h' => h' ∘ h) (fun m hm => sane_advance hl (m := m) hm) ht
  exact hc hsane

lemma executes_eq (hm : t.running? = some m) :
    t.executes S = if m.steps < limit then 1 else 0 := by
  rw [executes, hm, hl]
  dsimp only
  by_cases h : m.steps < limit
  · have hcs : countStep { steps := some limit, depth } m = _ := counts_iff.mpr h
    rw [hcs, if_pos h]
  · obtain hcs | ⟨e, hrefused, -⟩ := countStep_cases m { steps := some limit, depth }
    · exact absurd (counts_iff.mp hcs) h
    · rw [hrefused, if_neg h]

/-- **A run executes an instruction for every step up to the limit**, and for none beyond it. -/
theorem Ran.executed (h : Ran S fuel t x m n) (ht : t.Brief) :
    n + min limit t.machine.steps = min limit m.steps := by
  induction h with
  | ends hmv =>
    obtain ⟨hn, hc⟩ := clock_of_ends ht hmv
    rw [executes, hn, steps_of_clock hc]
    exact Nat.zero_add _
  | @goesOn fuel _ t t' x m n hmv _ ih =>
    obtain ⟨hbr, ⟨hn, hc⟩ | ⟨hsome, hm⟩⟩ := clock_of_goesOn ht hmv
    · have hs : t'.machine.steps = t.machine.steps := steps_of_clock hc
      have hcount := ih hbr
      rw [executes, hn, ← hs]
      dsimp only
      omega
    · have hs : t'.machine.steps = t.machine.steps + 1 := by rw [hm, steps_advance]
      have hcount := ih hbr
      rw [executes_eq hl hsome]
      split
      · omega
      · omega
  | @waited fuel _ _ t sub next y x m₁ m n hmv hsub hnext ih =>
    obtain ⟨-, hc, hbr, -⟩ := clock_of_waits ht hmv
    have hend := rest_at ht hmv hsub
    rw [hnext] at hend
    have hstart : sub.machine.steps = t.machine.steps := steps_of_clock hc
    have hs : m.steps = m₁.steps := steps_of_clock hend
    rw [← hstart, hs]
    exact ih hbr
  | @resumed fuel _ _ t t' sub next y x m₁ m n n' hmv hsub hnext _ ihsub ih =>
    obtain ⟨-, hc, hbr, -⟩ := clock_of_waits ht hmv
    have hend := rest_at ht hmv hsub
    rw [hnext] at hend
    have hstart : sub.machine.steps = t.machine.steps := steps_of_clock hc
    have hs : t'.machine.steps = m₁.steps := steps_of_clock hend.1
    have hf := ihsub hbr
    have hlast := ih hend.2
    rw [hstart] at hf
    rw [hs] at hlast
    omega

end Task

end Limited

/-! ## Above the limit -/

/-- A loop that has been resumed goes on or has failed. -/
lemma Progress.resume_cases (m r) :
    (∃ m', resume m r = .running m') ∨ ∃ t m', resume m r = .finished (.error t) m' := by
  have hraised : ∀ e m,
      (∃ m', ofResult (.error (.raised e) m) = .running m') ∨
        ∃ t m', ofResult (.error (.raised e) m) = .finished (.error t) m' := by
    intro e m
    unfold ofResult
    dsimp only
    split
    · exact .inl ⟨_, rfl⟩
    · exact .inr ⟨_, _, rfl⟩
  cases r with
  | error e => exact hraised e m
  | ok x =>
    rw [resume]
    cases h : x m with
    | ok _ m' =>
      rw [thenNext_ok h]
      exact .inl ⟨m', rfl⟩
    | error t m' =>
      rw [thenNext_error h]
      cases t with
      | raised e => exact hraised e m'
      | fault f => exact .inr ⟨_, _, rfl⟩

section Above

variable (hl : S.limits = { steps := some limit, depth })
include hl

/-- **A loop that returns a value has not been cut off.** -/
theorem drive_value : ∀ {fuel p v m}, p.Brief →
    p.machine.Sane limit → (∀ w m', p = .finished (.ok w) m' → m'.exhausted ≠ true) →
    drive S fuel p = some (.ok v, m) → m.exhausted ≠ true
  | 0, _, _, _, _, _, _, h => by simp [drive] at h
  | fuel + 1, .finished res m₀, v, m, _, _, hp, h => by
    simp only [drive, Option.some.injEq, Prod.mk.injEq] at h
    obtain ⟨rfl, rfl⟩ := h
    exact hp v m₀ rfl
  | fuel + 1, .running m₀, v, m, _, hsane, _, h => by
    refine drive_value (brief_advance S m₀) (sane_advance hl hsane) ?_ h
    intro w m' hend
    by_cases hcs : m₀.Counts S.limits
    · obtain ⟨-, hexhausted⟩ := Prod.mk.inj (clock_advance hcs).1
      rw [hend] at hexhausted
      rw [hl, counts_iff] at hcs
      show m'.exhausted ≠ true
      rw [show m'.exhausted = m₀.exhausted from hexhausted]
      intro hspent
      have hs : limit < m₀.steps := hsane.mp hspent
      omega
    · obtain ⟨_, _, _, -, hadvance, -⟩ := advance_refused hcs
      cases hend.symm.trans hadvance
  | fuel + 1, .waiting job m₀, v, m, hbr, hsane, _, h => by
    simp only [drive] at h
    split at h
    · cases h
    · next r m₁ hperf =>
      have hrun : (Task.perform .resume job m₀).run S fuel = some (r, m₁) :=
        (Task.run_eq S fuel _).trans hperf
      have hgives : (Task.perform .resume job m₀).Gives r := Task.gives_of_run hbr hrun
      have hc := clock_resume (m := m₁) hgives
      have hsane₁ : m₁.Sane limit := (Task.ran_of_run hrun).sane hl hbr hsane
      refine drive_value hc.2 (sane_of_clock hc.1 hsane₁) ?_ h
      intro w m' hend
      rcases resume_cases m₁ r with ⟨_, heq⟩ | ⟨_, _, heq⟩
      · cases hend.symm.trans heq
      · cases hend.symm.trans heq

end Above

/-! ## Up to the limit -/

/-- **A run that has more steps than the limit gets to the limit**: some loop is about to make the
step that is one too many. -/
theorem Task.Ran.reaches_limit {s s'} (hagree : Agree limit s s') {n}
    {t : Task ρ} {x} (h : Ran s fuel t x m n) (ht : t.Brief)
    (hb : t.machine.steps ≤ limit) (habove : limit < m.steps) :
    ∀ {a : Activity}, a.Does t →
      ∃ b m' live, Reaches s' a (.loop b (.running m') live) ∧ m'.steps = limit := by
  induction h with
  | ends hmv =>
    have := steps_of_clock (clock_of_ends ht hmv).2
    omega
  | @goesOn fuel _ t t' x m n hmv _ ih =>
    intro a ha
    have hled : (Task.move s' _).Led s' a := ha.led
    have hgo (hwithin : ∀ m', t.running? = some m' → m'.steps < limit)
        (hs : t'.machine.steps ≤ limit) (hbr : t'.Brief) :
        ∃ b m' live, Reaches s' a (.loop b (.running m') live) ∧ m'.steps = limit := by
      rw [move_agree hagree hwithin, hmv] at hled
      obtain ⟨c, hleads, hdoes⟩ := hled
      obtain ⟨b, m', live, hreaches, hlimit⟩ := ih hbr hs habove hdoes
      exact ⟨b, m', live, hreaches.head hleads, hlimit⟩
    obtain ⟨hbr, ⟨hn, hc⟩ | ⟨hsome, hm⟩⟩ := clock_of_goesOn ht hmv
    · exact hgo (by simp [hn]) (by rw [steps_of_clock hc]; exact hb) hbr
    · by_cases hhere : t.machine.steps = limit
      · obtain ⟨b, live, rfl⟩ := ha.running hsome
        exact ⟨b, t.machine, live, .refl, hhere⟩
      · have hs : t'.machine.steps = t.machine.steps + 1 := by rw [hm, steps_advance]
        refine hgo (fun m' hm' => ?_) (by omega) hbr
        cases hsome.symm.trans hm'
        omega
  | @waited fuel _ _ t sub next y x m₁ m n hmv hsub hnext ih =>
    intro a ha
    obtain ⟨hn, hc, hbr, -⟩ := clock_of_waits ht hmv
    have hend := rest_at ht hmv hsub
    have hled : (Task.move s' _).Led s' a := ha.led
    rw [hnext] at hend
    rw [move_agree hagree (by simp [hn]), hmv] at hled
    have hstart := steps_of_clock hc
    have hs : m.steps = m₁.steps := steps_of_clock hend
    obtain ⟨c, hleads, hdoes⟩ := hled.1
    obtain ⟨b, m', live, hreaches, hlimit⟩ := ih hbr (by omega) (by omega) hdoes
    exact ⟨b, m', live, hreaches.head hleads, hlimit⟩
  | @resumed fuel _ _ t t' sub next y x m₁ m n n' hmv hsub hnext hl ihsub ih =>
    intro a ha
    obtain ⟨hn, hc, hbr, -⟩ := clock_of_waits ht hmv
    have hend := rest_at ht hmv hsub
    have hled : (Task.move s' _).Led s' a := ha.led
    rw [hnext] at hend
    rw [move_agree hagree (by simp [hn]), hmv] at hled
    have hstart := steps_of_clock hc
    have hs : t'.machine.steps = m₁.steps := steps_of_clock hend.1
    by_cases hwithin : m₁.steps ≤ limit
    · have hresumed := hled.2 fuel y m₁ (hsub.agree hagree hbr hwithin (Nat.le_refl _))
      rw [hnext] at hresumed
      obtain ⟨c, hleads, hdoes⟩ := hresumed
      obtain ⟨b, m', live, hreaches, hlimit⟩ := ih hend.2 (by omega) habove hdoes
      exact ⟨b, m', live, hreaches.head hleads, hlimit⟩
    · obtain ⟨c, hleads, hdoes⟩ := hled.1
      obtain ⟨b, m', live, hreaches, hlimit⟩ := ihsub hbr (by omega) (by omega) hdoes
      exact ⟨b, m', live, hreaches.head hleads, hlimit⟩

/-! ## After the limit -/

/-- The clock of the activity is right, and the work that it is about is completed in no time. -/
def Activity.Timed (limit : Nat) : Activity → Prop
  | .loop _ p _ => p.machine.Sane limit ∧ p.Brief
  | .perform .resume job m => m.Sane limit ∧ job.Yields Exec.Ordinary
  | .enter _ _ _ _ m | .apply _ _ _ m | .perform _ _ m | .respond _ m | .force _ m | .produce _ _ m
  | .collect _ _ m | .settle _ m => m.Sane limit

lemma Activity.Timed.sane (h : a.Timed limit) : a.machine.Sane limit := by
  cases a with
  | loop b p live => exact h.1
  | perform purpose job m =>
    cases purpose with
    | resume => exact h.1
    | _ => exact h
  | _ => exact h

lemma Activity.Does.brief {t : Task ρ} (ha : a.Does t) (h : a.Timed limit) : t.Brief := by
  cases ha with
  | loop => exact h.2
  | @perform purpose job m =>
    cases purpose with
    | resume => exact h.2
    | _ => trivial
  | _ => trivial

section

variable (hl : S.limits = { steps := some limit, depth })

include hl

/-- **The clock stays right**, and never goes back. -/
theorem Leads.timed (h : Leads S a c) (ha : a.Timed limit) :
    c.Timed limit ∧ a.machine.steps ≤ c.machine.steps := by
  have hk : ∀ {ρ : Type} {t : Task ρ} {fuel x m}, t.Brief →
      t.machine.Sane limit → t.outcome S fuel = some (x, m) →
      t.Gives x ∧ m.Sane limit ∧ t.machine.steps ≤ m.steps := by
    intro ρ t fuel x m ht hsane hout
    have hran := Task.ran_of_run ((Task.run_eq S fuel t).trans hout)
    exact ⟨Task.gives_of_run ht (Task.run_of_ran hran), hran.sane hl ht hsane, hran.steps_le ht⟩
  cases h with
  | @step b m live =>
    refine ⟨⟨sane_advance hl ha.1, brief_advance S m⟩, ?_⟩
    show m.steps ≤ (m.advance S).machine.steps
    rw [steps_advance]
    exact Nat.le_succ _
  | await => exact ⟨ha, Nat.le_refl _⟩
  | @resume b m m' live job fuel answer hperform =>
    obtain ⟨hgives, hsane, hle⟩ := hk (t := .perform .resume job m) ha.2 ha.1 hperform
    obtain ⟨hc, hbr⟩ := clock_resume (m := m') hgives
    exact ⟨⟨sane_of_clock hc hsane, hbr⟩, hle.trans (steps_of_clock hc).ge⟩
  | enter _ => exact ⟨⟨ha, trivial⟩, Nat.le_refl _⟩
  | @answer purpose held request next m m' fuel response hrespond =>
    have hm : m.Sane limit := Activity.Timed.sane ha
    obtain ⟨-, hsane, hle⟩ := hk (t := .respond request (m.holding (held ++ m.held))) trivial hm
      hrespond
    cases purpose with
    | resume => exact ⟨⟨hsane, ha.2 response⟩, hle⟩
    | _ => exact ⟨hsane, hle⟩
  | ask => exact ⟨Activity.Timed.sane ha, Nat.le_refl _⟩
  | @again id suspension rest m m' fuel hperform =>
    obtain ⟨-, hsane, hle⟩ := hk (t := .perform .produce suspension.produce m) trivial ha hperform
    exact ⟨hsane, hle⟩
  | @tail id tail found m m' fuel head hforce =>
    obtain ⟨-, hsane, hle⟩ := hk (t := .force id m) trivial ha hforce
    exact ⟨hsane, hle⟩
  | @collected id elements rest m m' fuel hcollect =>
    obtain ⟨-, hsane, hle⟩ := hk (t := .collect id [] m) trivial ha hcollect
    exact ⟨hsane, hle⟩
  | _ => exact ⟨ha, Nat.le_refl _⟩

lemma Reaches.timed (h : Reaches S a c) (ha : a.Timed limit) : c.Timed limit := by
  induction h with
  | refl => exact ha
  | tail _ hleads ih => exact (hleads.timed hl ih).1

omit hl in
/-- With a budget spent, an error that is raised in a loop ends it. -/
lemma Raises.uncaught {b} (h : Raises S a b live e m next)
    (hspent : m.exhausted = true) : ∃ e' m', next = .finished (.error (.raised e')) m' := by
  obtain ⟨m', e', hrecover⟩ := recover_exhausted hspent e
  refine ⟨e', m', ?_⟩
  cases h with
  | step hstep => rw [advance, hstep, ofResult, hrecover]
  | answer _ hanswered => rw [resume_eq, hanswered, ofResult, hrecover]

/-- The clock of an error that is raised in a loop. -/
lemma Raises.exhausted {b} (h : Raises S a b live e m next)
    (ha : a.Timed limit) (hspent : limit < a.machine.steps) : m.exhausted = true := by
  cases h with
  | @step b m₀ raised live e hstep =>
    obtain ⟨e', _, _, hstep', -⟩ := advance_refused (refused_of_le hl (Nat.le_of_lt hspent))
    cases hstep.symm.trans hstep'
    rfl
  | @answer b m₀ m' raised live e job fuel answer hperform hanswered =>
    have hran := Task.ran_of_run
      ((Task.run_eq S fuel (.perform .resume job m₀)).trans hperform)
    have hgives : (Task.perform .resume job m₀).Gives answer :=
      Task.gives_of_run ha.2 (Task.run_of_ran hran)
    have hs : m₀.steps ≤ m'.steps := hran.steps_le ha.2
    have hm' : m'.exhausted = true := (hran.sane hl ha.2 ha.1).mpr (Nat.lt_of_lt_of_le hspent hs)
    cases answer with
    | error e' =>
      cases hanswered
      exact hm'
    | ok x =>
      have hc := ((Brief.thenNext (hgives x rfl)).ordinary m').clock
      rw [Exec.ending, show thenNext x m' = _ from hanswered] at hc
      exact (congrArg Prod.snd hc).trans hm'

end

/-- **A limit has cut the activity off**: its loop executes nothing more and catches nothing, and
what it leads to is cut off as well. -/
structure CutOff (S : Setting) (a : Activity) : Prop where
  refused : ∀ b m live, a = .loop b (.running m) live →
    ∃ e, Machine.step S m = .error (.raised e) { m.counted with exhausted := true }
  uncaught : ∀ b live e m next, Raises S a b live e m next →
    ∃ e' m', next = .finished (.error (.raised e')) m'
  lasting : ∀ c, Leads S a c → c.machine.exhausted = true

lemma Activity.Timed.cutOff (hl : S.limits = { steps := some limit, depth }) (ha : a.Timed limit)
    (hspent : a.machine.exhausted = true) : CutOff S a := by
  have hlt : limit < a.machine.steps := ha.sane.mp hspent
  refine ⟨?_, ?_, ?_⟩
  · rintro b m live rfl
    obtain ⟨e, _, _, hstep, -⟩ := advance_refused (refused_of_le hl (Nat.le_of_lt hlt))
    exact ⟨e, hstep⟩
  · intro b live e m next hraises
    exact hraises.uncaught (hraises.exhausted hl ha hlt)
  · intro c hleads
    obtain ⟨hc, hle⟩ := hleads.timed hl ha
    exact hc.sane.mpr (Nat.lt_of_lt_of_le hlt hle)

/-! ## Ending above the limit -/

/-- The task ends. -/
def Task.Ends {ρ : Type} (S : Setting) (t : Task ρ) : Prop := ∃ fuel x m, t.run S fuel = some (x, m)

/-- What remains of a task ends. -/
def Task.Rest.Ends {ρ : Type} (S : Setting) : Task.Rest ρ → Prop
  | .ends _ _ => True
  | .goesOn t => t.Ends S

lemma Task.ends_of_now {t : Task ρ} {rest}
    (hm : t.move S = .now rest) (hr : rest.Ends S) : t.Ends S := by
  cases rest with
  | ends x m =>
    refine ⟨1, x, m, ?_⟩
    rw [run, hm]
    rfl
  | goesOn t' =>
    obtain ⟨fuel, x, m, hrun⟩ := hr
    refine ⟨fuel + 1, x, m, ?_⟩
    rw [run, hm]
    exact hrun

lemma Task.ends_of_waits {σ : Type} {t : Task ρ} {sub : Task σ}
    {next} (ht : t.Brief) (hm : t.move S = .waits sub next)
    {y} (hsub : sub.run S fuel = some (y, m)) (hr : (next y m).Ends S) : t.Ends S := by
  obtain ⟨-, -, hbr, -⟩ := clock_of_waits ht hm
  have hend := rest_at ht hm (ran_of_run hsub)
  cases hnext : next y m with
  | ends x m' =>
    refine ⟨fuel + 1, x, m', ?_⟩
    rw [run, hm]
    dsimp only
    rw [hsub]
    dsimp only
    rw [hnext]
    rfl
  | goesOn t' =>
    rw [hnext] at hend hr
    obtain ⟨fuel', x, m', hrun⟩ := hr
    refine ⟨max fuel fuel' + 1, x, m', ?_⟩
    rw [run, hm]
    dsimp only
    rw [run_mono hbr hsub (Nat.le_max_left fuel fuel')]
    dsimp only
    rw [hnext]
    exact run_mono hend.2 hrun (Nat.le_max_right fuel fuel')

/-- An activity that was cut off leads to another without a loop that runs: this is the host's
work. -/
structure HostLeads (S : Setting) (a c : Activity) : Prop where
  leads : Leads S a c
  exhausted : a.machine.exhausted = true
  idle : ∀ b m live, a ≠ .loop b (.running m) live

/-- **The host does not come back.** After the limit has been exceeded its work goes on and on, and
no loop runs in it. -/
def HostHangs (S : Setting) (main : Activity) : Prop :=
  ∃ chain : Nat → Activity, Reaches S main (chain 0) ∧ ∀ n, HostLeads S (chain n) (chain (n + 1))

lemma acc_of_not_hangs {main} (h : ¬HostHangs S main)
    (hr : Reaches S main a) : Acc (fun c a => HostLeads S a c) a := by
  by_contra hnot
  obtain ⟨chain, rfl, hchain⟩ := not_acc_iff_exists_descending_chain.mp hnot
  exact h ⟨chain, hr, hchain⟩

section Ending

variable (hl : S.limits = { steps := some limit, depth })
include hl

/-- A loop that is at the limit ends. -/
lemma Task.ends_of_refused {t : Task ρ} (hm : t.running? = some m)
    (habove : limit ≤ m.steps) : t.Ends S := by
  obtain ⟨_, e, m', -, hadvance, -⟩ := advance_refused (refused_of_le hl habove)
  cases t with
  | loop p =>
    cases p with
    | running m₀ =>
      cases hm
      refine ⟨2, .error (.raised e), m', ?_⟩
      rw [Task.run_eq]
      show drive S 1 (m.advance S) = _
      rw [hadvance]
      rfl
    | _ => cases hm
  | _ => cases hm

/-- **What was cut off ends**, if the host's work does. -/
theorem Activity.Does.ends_of_acc (hacc : Acc (fun c a => HostLeads S a c) a) :
    ∀ {ρ : Type} {t : Task ρ}, a.Does t → a.Timed limit → limit < a.machine.steps → t.Ends S := by
  induction hacc with
  | intro a _ ih =>
    intro ρ t ha htimed hspent
    cases hr : t.running? with
    | some m =>
      obtain ⟨b, live, rfl⟩ := ha.running hr
      exact Task.ends_of_refused hl hr (Nat.le_of_lt hspent)
    | none =>
      have hidle : ∀ b m live, a ≠ .loop b (.running m) live := by
        rintro b m live rfl
        cases ha
        cases hr
      have hfollow : ∀ {σ : Type} {t' : Task σ} {c : Activity}, Leads S a c → c.Does t' →
          t'.Ends S := by
        intro σ t' c hleads hdoes
        obtain ⟨hc, hle⟩ := hleads.timed hl htimed
        exact ih c ⟨hleads, htimed.sane.mpr hspent, hidle⟩ hdoes hc (Nat.lt_of_lt_of_le hspent hle)
      have hrest : ∀ {rest : Task.Rest ρ}, rest.Led S a → rest.Ends S := by
        intro rest hled
        cases rest with
        | ends x m => trivial
        | goesOn t' =>
          obtain ⟨c, hleads, hdoes⟩ := hled
          exact hfollow hleads hdoes
      have hled : (t.move S).Led S a := ha.led
      cases hm : t.move S with
      | now rest =>
        rw [hm] at hled
        exact Task.ends_of_now hm (hrest hled)
      | waits sub next =>
        rw [hm] at hled
        obtain ⟨⟨c, hleads, hdoes⟩, hnext⟩ := hled
        obtain ⟨fuel, y, m, hsub⟩ := hfollow hleads hdoes
        exact Task.ends_of_waits (ha.brief htimed) hm hsub (hrest (hnext fuel y m hsub))

end Ending

/-- **A run that ends without a limit ends with one**, if the host's work does. -/
theorem Task.Ran.ends_limited {s s' : Setting}
    (hl : s'.limits = { steps := some limit, depth }) (hagree : Agree limit s s')
    (hagree' : Agree limit s' s) {main} (hback : ¬HostHangs s' main) {n}
    {t : Task ρ} {x} (h : Ran s fuel t x m n) :
    ∀ {a : Activity}, Reaches s' main a → a.Does t → a.Timed limit → t.machine.steps ≤ limit →
      t.Ends s' := by
  have hfollow : ∀ {a c : Activity} {σ : Type} {t : Task σ}, Reaches s' main a → a.Timed limit →
      Leads s' a c → c.Does t → limit < t.machine.steps → t.Ends s' := by
    intro a c σ t hr htimed hleads hdoes hspent
    have hc : c.Timed limit := (hleads.timed hl htimed).1
    rw [← hdoes.machine] at hspent
    exact hdoes.ends_of_acc hl (acc_of_not_hangs hback (hr.tail hleads)) hc hspent
  -- A task that is waited for ends as it does without the limit, or is cut off.
  have hwaits : ∀ {a : Activity} {ρ σ : Type} {t : Task ρ} {sub : Task σ}
      {next fuel n y} {m : Machine}, Reaches s' main a →
      a.Does t → a.Timed limit → t.machine.steps ≤ limit → t.move s = .waits sub next →
      Ran s fuel sub y m n → (∀ {c : Activity}, Reaches s' main c → c.Does sub → c.Timed limit →
        sub.machine.steps ≤ limit → sub.Ends s') →
      ((next y m).Led s' a → m.steps ≤ limit → (next y m).Ends s') → t.Ends s' := by
    intro a ρ σ t sub next fuel n y m hr ha htimed hb hmv hsub hends hrest
    have ht : t.Brief := ha.brief htimed
    obtain ⟨hn, hcl, hbr, -⟩ := clock_of_waits ht hmv
    rw [← move_agree hagree (by simp [hn])] at hmv
    have hled : (t.move s').Led s' a := ha.led
    rw [hmv] at hled
    obtain ⟨⟨c, hleads, hdoes⟩, hnext⟩ := hled
    obtain ⟨fuel', y', m', hsub'⟩ := hends (hr.tail hleads) hdoes
      (hleads.timed hl htimed).1 (by rw [steps_of_clock hcl]; exact hb)
    refine ends_of_waits ht hmv hsub' ?_
    by_cases hwithin : m'.steps ≤ limit
    · have hsame := (ran_of_run hsub').agree hagree' hbr hwithin (Nat.le_max_left fuel' fuel)
      have hsame' := run_mono hbr (run_of_ran hsub) (Nat.le_max_right fuel' fuel)
      cases hsame.symm.trans hsame'
      exact hrest (hnext fuel' y m hsub') hwithin
    · have hend := rest_at ht hmv (ran_of_run hsub')
      have hled := hnext fuel' y' m' hsub'
      cases hgoes : next y' m' with
      | ends x m => trivial
      | goesOn t' =>
        rw [hgoes] at hend hled
        obtain ⟨c, hleads, hdoes⟩ := hled
        have hs := steps_of_clock hend.1
        exact hfollow hr htimed hleads hdoes (by omega)
  induction h with
  | @ends fuel _ t x m hmv =>
    intro a hr ha htimed _
    have hn := (clock_of_ends (ha.brief htimed) hmv).1
    have hmove' : t.move s' = .now (.ends x m) := (move_agree hagree (by simp [hn])).trans hmv
    exact ends_of_now hmove' trivial
  | @goesOn fuel _ t t' x m n hmv _ ih =>
    intro a hr ha htimed hb
    have hgo (hwithin : ∀ m', t.running? = some m' → m'.steps < limit)
        (hs : t'.machine.steps ≤ limit) : t.Ends s' := by
      have hled : (t.move s').Led s' a := ha.led
      rw [move_agree hagree hwithin, hmv] at hled
      obtain ⟨c, hleads, hdoes⟩ := hled
      have hends := ih (hr.tail hleads) hdoes (hleads.timed hl htimed).1 hs
      exact ends_of_now ((move_agree hagree hwithin).trans hmv) hends
    obtain ⟨-, ⟨hn, hcl⟩ | ⟨hsome, hm⟩⟩ := clock_of_goesOn (ha.brief htimed) hmv
    · exact hgo (by simp [hn]) (by rw [steps_of_clock hcl]; exact hb)
    · by_cases hhere : t.machine.steps = limit
      · exact ends_of_refused hl hsome hhere.ge
      · have hs : t'.machine.steps = t.machine.steps + 1 := by rw [hm, steps_advance]
        refine hgo (fun m' hm' => ?_) (by omega)
        cases hsome.symm.trans hm'
        omega
  | @waited fuel _ _ t sub next y x m₁ m n hmv hsub hnext ih =>
    intro a hr ha htimed hb
    refine hwaits hr ha htimed hb hmv hsub ih fun _ _ => ?_
    rw [hnext]
    trivial
  | @resumed fuel _ _ t t' sub next y x m₁ m n n' hmv hsub hnext _ ihsub ih =>
    intro a hr ha htimed hb
    have hend := rest_at (ha.brief htimed) hmv hsub
    refine hwaits hr ha htimed hb hmv hsub ihsub fun hled hwithin => ?_
    rw [hnext] at hend hled ⊢
    obtain ⟨c', hleads', hdoes'⟩ := hled
    exact ih (hr.tail hleads') hdoes' (hleads'.timed hl htimed).1
      (by rw [steps_of_clock hend.1]; exact hwithin)

/-! ## The limit of a run -/

/-- The activity of running the program. -/
def Activity.main (heap : Heap) : Activity := .enter 0 .null [] [] (Machine.start heap).started

/-- **How many instructions a run executes**, in all loops that run inside one another. -/
def Machine.executed (S : Setting) (m : Machine) (fuel : Nat) : Nat :=
  (Task.enter 0 .null [] [] m.started).executed S fuel

lemma Machine.run_eq_some {r} :
    Machine.run S m fuel = some (r, m') ↔
      ∃ res m₁, (Task.enter 0 .null [] [] m.started).run S fuel = some (res, m₁) ∧
        r = .ofResult res ∧ m' = m₁.cleared := by
  rw [Task.run_eq]
  simp only [Machine.run, Task.outcome]
  cases Machine.enter S fuel 0 .null [] [] m.started with
  | none =>
    constructor
    · intro h
      cases h
    · rintro ⟨_, _, h, -⟩
      cases h
  | some ended =>
    obtain ⟨res, m₁⟩ := ended
    constructor
    · intro h
      cases h
      exact ⟨res, m₁, rfl, rfl, rfl⟩
    · rintro ⟨_, _, ⟨⟩, rfl, rfl⟩
      rfl

lemma agree_limited (p) (host : Host) (depth limit) :
    Task.Agree limit ⟨p, host, { depth }⟩ ⟨p, host, { steps := some limit, depth }⟩ := by
  refine ⟨rfl, rfl, fun m hm => ?_⟩
  rw [advance_counts (counts_iff.mpr hm), advance_counts (counts_unlimited m)]

lemma agree_unlimited (p) (host : Host) (depth limit) :
    Task.Agree limit ⟨p, host, { steps := some limit, depth }⟩ ⟨p, host, { depth }⟩ :=
  ⟨rfl, rfl, fun m hm => ((agree_limited p host depth limit).advance m hm).symm⟩

/-- The loop of a function. -/
lemma enter_eq_some {target callee args named r}
    (h : (Task.enter target callee args named m).run S fuel = some (r, m')) :
    (m' = m ∧ ∃ e, r = .error (.raised e)) ∨
      ∃ fuel₀ m₁, fuel = fuel₀ + 1 ∧ m.depth < S.limits.depth ∧ m' = m₁.closed m.suspended ∧
        drive S fuel₀ (.running (m.opened target callee args named)) = some (r, m₁) := by
  rw [Task.run_eq] at h
  cases fuel with
  | zero => simp [Task.outcome, Machine.enter] at h
  | succ fuel₀ =>
    simp only [Task.outcome, Machine.enter] at h
    split at h
    · cases h
      exact .inl ⟨rfl, _, rfl⟩
    · next hd =>
      split at h
      · cases h
      · next result' m₁ hdrive =>
        cases h
        exact .inr ⟨fuel₀, m₁, rfl, Nat.lt_of_not_le hd, rfl, hdrive⟩

/-- A run whose loop ends. -/
lemma Machine.run_of_drive {heap r} (hdepth : 0 < S.limits.depth)
    (h : drive S fuel (.running ((Machine.start heap).started.opened 0 .null [] [])) = some
      (r, m)) :
    ∃ m', Machine.run S (Machine.start heap) (fuel + 1) = some (.ofResult r, m') ∧
      m'.steps = m.steps := by
  have hrun : enter S (fuel + 1) 0 .null [] [] (Machine.start heap).started
      = some (r, m.closed (Machine.start heap).started.suspended) := by
    have hnested : ¬S.limits.depth ≤ (Machine.start heap).started.depth := Nat.not_le_of_lt hdepth
    rw [enter, if_neg hnested, h]
  exact ⟨_, run_eq_some.mpr ⟨_, _, (Task.run_eq _ _ _).trans hrun, rfl, rfl⟩, rfl⟩

/-- **A step limit is transparent below the budget and uncatchable above it.** Let a run without a
limit count so many steps. With a limit that is no smaller it is the same run. With a smaller one it
gets to the limit; it can only end in an error, having executed exactly as many instructions as the
limit allows, and it does end unless the host's own work goes on for ever, which takes no steps. As
soon as the limit has been exceeded, no loop executes another instruction and no catch is taken,
whatever host functions make of the error. -/
theorem step_limit {program : Program} {host : Host} {depth fuel : Nat} {heap : Heap} {r : Outcome}
    {m : Machine}
    (hrun : Machine.run ⟨program, host, { depth }⟩ (Machine.start heap) fuel = some (r, m))
    (limit : Nat) :
    let limited : Setting := ⟨program, host, { steps := some limit, depth }⟩
    (m.steps ≤ limit → Machine.run limited (Machine.start heap) fuel = some (r, m)) ∧
    (limit < m.steps →
      (∃ b m' live, Reaches limited (.main heap) (.loop b (.running m') live) ∧ m'.steps = limit) ∧
      (∀ fuel' r' m', Machine.run limited (Machine.start heap) fuel' = some (r', m') →
        (∀ v, r' ≠ .value v) ∧ Machine.executed limited (Machine.start heap) fuel' = limit) ∧
      ((∃ fuel' r' m', Machine.run limited (Machine.start heap) fuel' = some (r', m')) ∨
        HostHangs limited (.main heap))) ∧
    ∀ a, Reaches limited (.main heap) a →
      (a.machine.exhausted = true ↔ limit < a.machine.steps) ∧
      (a.machine.exhausted = true → CutOff limited a) ∧
      ∀ b live e m' next, Raises limited a b live e m' next → m'.exhausted = true →
        ∃ e' m'', next = .finished (.error (.raised e')) m'' := by
  intro limited
  have hagree := agree_limited program host depth limit
  have hagree' := agree_unlimited program host depth limit
  have hsane : (Machine.start heap).started.Sane limit := ⟨nofun, nofun⟩
  obtain ⟨result, m₁, htask, rfl, rfl⟩ := Machine.run_eq_some.mp hrun
  have hran := Task.ran_of_run htask
  refine ⟨fun hbelow => ?_, fun habove => ⟨?_, ?_, ?_⟩, ?_⟩
  · have hsame := hran.agree hagree trivial hbelow (Nat.le_refl _)
    exact Machine.run_eq_some.mpr ⟨result, m₁, hsame, rfl, rfl⟩
  · exact hran.reaches_limit hagree trivial (Nat.zero_le _) habove .enter
  · intro fuel' r' m' hended
    obtain ⟨result', m₁', htask', rfl, rfl⟩ := Machine.run_eq_some.mp hended
    have hran' := Task.ran_of_run htask'
    -- Had it stayed within the limit, it would be the run without one.
    have hover : limit < m₁'.steps := by
      by_contra hnot
      have hsame := hran'.agree hagree' trivial (Nat.le_of_not_lt hnot) (Nat.le_max_left fuel' fuel)
      have hsame' := Task.run_mono (t := .enter 0 .null [] [] (Machine.start heap).started) trivial
        htask (Nat.le_max_right fuel' fuel)
      cases hsame.symm.trans hsame'
      exact hnot habove
    have hspent : m₁'.exhausted = true := (hran'.sane rfl trivial hsane).mpr hover
    refine ⟨fun v hv => ?_, ?_⟩
    · cases result' with
      | error t => cases t <;> cases hv
      | ok w =>
        rcases enter_eq_some htask' with ⟨-, e, herror⟩ | ⟨_, m₂, -, -, rfl, hdrive⟩
        · cases herror
        · exact drive_value (p := .running ((Machine.start heap).started.opened 0 .null [] []))
            (rfl : limited.limits = _) trivial hsane nofun hdrive hspent
    · have hcount := hran'.executed rfl trivial
      rw [Nat.min_eq_left (Nat.le_of_lt hover)] at hcount
      have hzero : (Task.enter 0 .null [] [] (Machine.start heap).started).machine.steps = 0 := rfl
      rw [hzero, Nat.min_zero, Nat.add_zero] at hcount
      exact hcount
  · by_cases hback : HostHangs limited (.main heap)
    · exact .inr hback
    · obtain ⟨fuel', result', m', hended⟩ :=
        hran.ends_limited rfl hagree hagree' hback .refl .enter hsane
        (Nat.zero_le _)
      exact .inl ⟨fuel', _, _, Machine.run_eq_some.mpr ⟨result', m', hended, rfl, rfl⟩⟩
  · intro a hreach
    have ha : a.Timed limit := hreach.timed rfl hsane
    exact ⟨ha.sane, ha.cutOff rfl, fun _ _ _ _ _ hraises hspent => hraises.uncaught hspent⟩

/-- The run of a program that catches an error takes more than four steps, and with a limit of four
it ends as well. -/
lemma readingTooEarly_runs : ∃ p r m, Session.readingTooEarly.lower {} = .ok p
    ∧ Machine.run ⟨p, {}, {}⟩ (Machine.start {}) 20 = some (r, m) ∧ 4 < m.steps
    ∧ (Machine.run ⟨p, {}, { steps := some 4 }⟩ (Machine.start {}) 20).isSome = true := by
  have hruns : (Session.readingTooEarly.lower {}).toOption.any (fun p =>
      (Machine.run ⟨p, {}, {}⟩ (Machine.start {}) 20).any (fun res => 4 < res.2.steps)
        && (Machine.run ⟨p, {}, { steps := some 4 }⟩ (Machine.start {}) 20).isSome) = true := by
    decide +kernel
  obtain ⟨p, hlo, htest⟩ := Expr.lowers_of_any hruns
  obtain ⟨htest, hends⟩ := Bool.and_eq_true_iff.mp htest
  obtain ⟨⟨r, m⟩, hrun, hs⟩ := (Option.any_eq_true _ _).mp htest
  exact ⟨p, r, m, hlo, hrun, of_decide_eq_true hs, hends⟩

/-- With as many steps as it takes the run is the same. With four the limit falls inside its catch,
and the run ends in an error after four instructions. -/
theorem step_limit_readingTooEarly : ∃ p r m r' m', Session.readingTooEarly.lower {} = .ok p
    ∧ Machine.run ⟨p, {}, {}⟩ (Machine.start {}) 20 = some (r, m)
    ∧ Machine.run ⟨p, {}, { steps := some m.steps }⟩ (Machine.start {}) 20 = some (r, m)
    ∧ 4 < m.steps
    ∧ Machine.run ⟨p, {}, { steps := some 4 }⟩ (Machine.start {}) 20 = some (r', m')
    ∧ (∀ v, r' ≠ .value v)
    ∧ Machine.executed ⟨p, {}, { steps := some 4 }⟩ (Machine.start {}) 20 = 4 := by
  obtain ⟨p, r, m, hlower, hrun, hsteps, hends⟩ := readingTooEarly_runs
  obtain ⟨⟨r', m'⟩, hended⟩ := Option.isSome_iff_exists.mp hends
  obtain ⟨hbelow, -, -⟩ := step_limit hrun m.steps
  obtain ⟨-, habove, -⟩ := step_limit hrun 4
  exact ⟨p, r, m, r', m', hlower, hrun, hbelow (Nat.le_refl _), hsteps, hended,
    (habove hsteps).2.1 20 r' m' hended⟩

/-! ## A host that does not give up -/

/-- Calls a function, and where it fails has the host try again. -/
def callUntilDone (f : Value) : Job Value :=
  .ask [] (.call f [] []) fun
    | .ok v => .done (.ok v)
    | .error _ => .ask [] (.call (.native ⟨"retry", 0, 0⟩) [f] []) .done

def retry : Native where
  params := { positional := [{ name := "f", schema := .string "any" }] }
  body b := callUntilDone ((Entries.get? b "f").getD .null)

lemma retry_apply (f) :
    retry.apply [f] [] = (callUntilDone f).holding [.object [("f", f)]] := by
  simp only [Native.apply, retry, Params.bindArguments, Params.bindInOrder, Params.bindPositional,
    Param.value, List.head?, Param.check_any]
  rfl

/-- The call that a job begins with. -/
lemma perform_call {purpose held callee args named next x}
    (h : perform S fuel purpose (.ask held (.call callee args named) next) m = some (x, m')) :
    ∃ fuel' r m₁, fuel' + 2 = fuel ∧
      apply S fuel' callee args named (m.holding (held ++ m.held)) = some (r, m₁) ∧
      perform S (fuel' + 1) purpose (next r) (m₁.holding m.held) = some (x, m') := by
  rcases fuel with - | - | fuel
  · simp [perform] at h
  · simp [perform, respond] at h
  · simp only [perform, respond] at h
    split at h
    · cases h
    · next r m₁ hcall => exact ⟨fuel, r, m₁, rfl, hcall, h⟩

section Retrying

variable (hl : S.limits = { steps := some limit, depth })
include hl

/-- At the limit a call of a closure can only fail, and the limit remains reached. -/
lemma apply_refused {closure args named x} (hm : limit ≤ m.steps)
    (h : apply S fuel (.closure closure) args named m = some (x, m')) :
    (∃ e, x = .error e) ∧ limit ≤ m'.steps := by
  cases fuel with
  | zero => simp [apply] at h
  | succ fuel =>
    simp only [apply] at h
    split at h
    · cases h
    · next ended henter =>
      obtain ⟨r, m₂⟩ := ended
      rw [← Task.outcome, ← Task.run_eq] at henter
      rcases enter_eq_some henter with ⟨rfl, e, rfl⟩ | ⟨fuel₀, m₁, rfl, -, rfl, hdrive⟩
      · cases h
        exact ⟨⟨e, rfl⟩, hm⟩
      · obtain ⟨_, e, m₂, -, hadvance, hclock⟩ := advance_refused
          (refused_of_le hl (m := m.opened closure.target (.closure closure) args named) hm)
        rcases fuel₀ with - | - | fuel₀
        · simp [drive] at hdrive
        · simp [drive] at hdrive
        · rw [drive, hadvance, drive] at hdrive
          cases hdrive
          cases h
          have hcount : m₁.steps = m.steps + 1 := congrArg Prod.fst hclock
          exact ⟨⟨e, rfl⟩, Nat.le_of_lt (hcount ▸ Nat.lt_succ_of_le hm)⟩

/-- **At the limit the host tries again for ever.** -/
theorem perform_retrying (hhost : S.host.native? 0 = some retry) {closure} :
    ∀ fuel {purpose held next m},
      (∀ e, ∃ held' next',
        next (.error e) = .ask held'
          (.call (.native ⟨"retry", 0, 0⟩) [.closure closure] []) next') →
      limit ≤ m.steps →
      perform S fuel purpose (.ask held (.call (.closure closure) [] []) next) m = none := by
  intro fuel
  induction fuel using Nat.strong_induction_on with
  | _ fuel ih =>
    intro purpose held next m hnext hm
    by_contra hsome
    obtain ⟨⟨x, m'⟩, h⟩ := Option.ne_none_iff_exists'.mp hsome
    -- The call of the closure has failed, and so the host is called again, with less fuel.
    obtain ⟨fuel₁, r, m₁, rfl, hcall, h⟩ := perform_call h
    obtain ⟨⟨e, rfl⟩, hm₁⟩ := apply_refused hl (m := m.holding (held ++ m.held)) hm hcall
    obtain ⟨held', next', heq⟩ := hnext e
    rw [heq] at h
    obtain ⟨fuel₂, r, m₂, hfuel, hagain, -⟩ := perform_call h
    cases fuel₂ with
    | zero => simp [apply] at hagain
    | succ fuel₃ =>
      simp only [apply, hhost] at hagain
      rw [retry_apply] at hagain
      have hnone : perform S fuel₃ .call
          ((callUntilDone (.closure closure)).holding [.object [("f", .closure closure)]])
          ((m₁.holding m.held).holding (held' ++ m.held)) = none := by
        refine ih fuel₃ (by omega) ?_ hm₁
        intro e
        exact ⟨_, _, rfl⟩
      cases hnone.symm.trans hagain

end Retrying

/-- A program that calls the host with a function that returns null. -/
def callingRetry : Program where
  code := #[2, 0, 32, 64, 12, 33, 48, 24, 3, 67, 25, 68, 1, 0, 68]
  constants := #[.null]
  platform := #[⟨"retry", .native ⟨"retry", 0, 0⟩⟩]

/-- **A run that does not end because of its limit.** It takes eleven steps. With seven, the
function that the host calls is refused its first one, and the host goes on calling it. -/
theorem step_limit_unending :
    (∃ r m, Machine.run ⟨callingRetry, ⟨#[retry]⟩, {}⟩ (Machine.start {}) 20 = some (r, m)
      ∧ m.steps = 11) ∧
    ∀ fuel, Machine.run ⟨callingRetry, ⟨#[retry]⟩, { steps := some 7 }⟩ (Machine.start {}) fuel
      = none := by
  constructor
  · obtain ⟨closure, rest, m₀, hcall, hends⟩ : ∃ closure rest m,
        drive ⟨callingRetry, ⟨#[retry]⟩, {}⟩ 19
          (.running ((Machine.start {}).started.opened 0 .null [] []))
          = drive ⟨callingRetry, ⟨#[retry]⟩, {}⟩ 12
            (.waiting ((retry.apply [.closure closure] []).andThen rest) m)
        ∧ (drive ⟨callingRetry, ⟨#[retry]⟩, {}⟩ 12
            (.waiting (((callUntilDone (.closure closure)).holding
              [.object [("f", .closure closure)]]).andThen rest) m)).any (·.2.steps == 11) = true :=
      ⟨_, _, _, rfl, by decide +kernel⟩
    rw [← retry_apply, ← hcall] at hends
    obtain ⟨⟨r, m⟩, hdrive, hsteps⟩ := (Option.any_eq_true _ _).mp hends
    obtain ⟨m', hrun, hsame⟩ := Machine.run_of_drive (by decide) hdrive
    exact ⟨_, m', hrun, hsame.trans (beq_iff_eq.mp hsteps)⟩
  · intro fuel
    by_contra hsome
    obtain ⟨⟨r, m'⟩, h⟩ := Option.ne_none_iff_exists'.mp hsome
    obtain ⟨result, m₁, hrun, -, -⟩ := Machine.run_eq_some.mp h
    have hmore := Task.run_mono (t := .enter 0 .null [] [] (Machine.start {}).started) trivial hrun
      (Nat.le_add_right fuel 9)
    obtain ⟨closure, rest, m, hcall, hm⟩ : ∃ closure rest m, (∀ fuel,
        drive ⟨callingRetry, ⟨#[retry]⟩, { steps := some 7 }⟩ (fuel + 8)
          (.running ((Machine.start {}).started.opened 0 .null [] []))
        = drive ⟨callingRetry, ⟨#[retry]⟩, { steps := some 7 }⟩ (fuel + 1)
          (.waiting ((retry.apply [.closure closure] []).andThen rest) m)) ∧ 7 ≤ m.steps :=
      ⟨_, _, _, fun _ => rfl, by decide +kernel⟩
    have hwaits : drive ⟨callingRetry, ⟨#[retry]⟩, { steps := some 7 }⟩ (fuel + 1)
        (.waiting ((retry.apply [.closure closure] []).andThen rest) m) = none := by
      have hnone : perform ⟨callingRetry, ⟨#[retry]⟩, { steps := some 7 }⟩ fuel .resume
          (((callUntilDone (.closure closure)).holding [.object [("f",
            .closure closure)]]).andThen rest)
          m = none := by
        refine perform_retrying (rfl : _ = Limits.mk (some 7) none 128) rfl fuel ?_ hm
        intro e
        exact ⟨_, _, rfl⟩
      rw [retry_apply, drive, hnone]
    rw [Task.run_eq] at hmore
    simp only [Task.outcome, enter] at hmore
    rw [if_neg (by decide), hcall, hwaits] at hmore
    cases hmore

end TreeCode
