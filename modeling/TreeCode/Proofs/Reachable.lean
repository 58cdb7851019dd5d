import Mathlib.Logic.Relation
import TreeCode.Proofs.Sessions

/-!
# What is reached while a program runs

Dispatch loops, calls, jobs and streams run in one another. An activity is one of them with the
machine that it runs on, and it leads to another when it goes on as that one or waits for it
(`Leads`). Of a loop an activity also tells which catches it has executed that are still open, by
the machines that executed them.

Two properties hold of whatever is reached: no more loops run inside one another than the limit
allows (`Leads.nested`), for every program; and in a session with a program that was lowered from a
tree, everything has the layout that the program's code needs (`Leads.sound`).
-/

namespace TreeCode

open Machine

/-- **Something that runs on a machine.** A loop is told with the machine that entered it and with
those that executed its open catches, the innermost first. -/
inductive Activity where
  | loop (entered : Machine) (progress : Progress) (live : List Machine)
  | enter (target : Nat) (callee : Value) (args : List Value) (named : Entries Value) (m : Machine)
  | apply (callee : Value) (args : List Value) (named : Entries Value) (m : Machine)
  | perform (purpose : Purpose) (job : Job purpose.Result) (m : Machine)
  | respond (request : Request) (m : Machine)
  | force (id : StreamId) (m : Machine)
  | produce (id : StreamId) (suspension : Suspension) (m : Machine)
  | collect (id : StreamId) (found : List Value) (m : Machine)
  | settle (values : List Value) (m : Machine)

/-- The machine that the loop runs on. -/
def Progress.machine : Progress → Machine
  | .running m | .waiting _ m | .finished _ m => m

/-- The machine that the activity runs on. -/
def Activity.machine : Activity → Machine
  | .loop _ progress _ => progress.machine
  | .enter _ _ _ _ m | .apply _ _ _ m | .perform _ _ m | .respond _ m | .force _ m | .produce _ _ m
  | .collect _ _ m | .settle _ m => m

/-- There is nothing to settle in the value. -/
def Value.isInert : Value → Bool
  | .array _ | .object _ | .stream _ => false
  | _ => true

/-- **An activity leads to another**: it goes on as the other, or waits for it. -/
inductive Leads (E : Setting) : Activity → Activity → Prop where
  | step {b m : Machine} {live} :
      Leads E (.loop b (.running m) live) (.loop b (m.advance E)
        (liveAfterError (liveAfterStep E m live) (Machine.step E m)))
  | await {b m : Machine} {live job} :
      Leads E (.loop b (.waiting job m) live) (.perform .resume job m)
  | resume {b m m' : Machine} {live job fuel answer}
      (h : Machine.perform E fuel .resume job m = some (answer, m')) :
      Leads E (.loop b (.waiting job m) live)
        (.loop b (.resume m' answer) (liveAfterError live (m'.answered answer)))
  | enter {target callee args named} {m : Machine}
      (h : m.depth < E.limits.depth) :
      Leads E (.enter target callee args named m)
        (.loop m (.running (m.opened target callee args named)) [])
  | closure {c : Closure} {args named} {m : Machine} :
      Leads E (.apply (.closure c) args named m) (.enter c.target (.closure c) args named m)
  | native {ref : NativeRef} {args named} {m : Machine}
      {native : Native} (h : E.host.native? ref.code = some native) :
      Leads E (.apply (.native ref) args named m) (.perform .call (native.apply args named) m)
  | ask {purpose : Purpose} {held} {request : Request}
      {next} {m : Machine} :
      Leads E (.perform purpose (.ask held request next) m)
        (.respond request (m.holding (held ++ m.held)))
  | answer {purpose : Purpose} {held} {request : Request}
      {next} {m m' : Machine} {fuel response}
      (h : Machine.respond E fuel request (m.holding (held ++ m.held)) = some (response, m')) :
      Leads E (.perform purpose (.ask held request next) m)
        (.perform purpose (next response) (m'.holding m.held))
  | call {callee args named} {m : Machine} :
      Leads E (.respond (.call callee args named) m) (.apply callee args named m)
  | force {id} {m : Machine} : Leads E (.respond (.force id) m) (.force id m)
  | collect {id} {m : Machine} :
      Leads E (.respond (.collect id) m) (.collect id [] m)
  | settle {value} {m : Machine} :
      Leads E (.respond (.settle value) m) (.settle [value] m)
  | produce {id} {suspension : Suspension} {m : Machine}
      (h : m.heap.streamCell id = .pending suspension) :
      Leads E (.force id m) (.produce id suspension (m.setStream id .forcing))
  | suspension {id} {suspension : Suspension} {m : Machine} :
      Leads E (.produce id suspension m) (.perform .produce suspension.produce m)
  | again {id} {suspension rest : Suspension} {m m' : Machine} {fuel}
      (h : Machine.perform E fuel .produce suspension.produce m = some (.ok (.again rest), m')) :
      Leads E (.produce id suspension m) (.produce id rest m')
  | node {id found} {m : Machine} :
      Leads E (.collect id found m) (.force id m)
  | tail {id tail found} {m m' : Machine} {fuel head}
      (h : Machine.force E fuel id m = some (.ok (.cons head tail), m')) :
      Leads E (.collect id found m) (.collect tail (head :: found) m')
  | elements {elements rest} {m : Machine} :
      Leads E (.settle (.array elements :: rest) m) (.settle (elements ++ rest) m)
  | entries {entries rest} {m : Machine} :
      Leads E (.settle (.object entries :: rest) m)
        (.settle (Entries.values entries ++ rest) m)
  | stream {id rest} {m : Machine} :
      Leads E (.settle (.stream id :: rest) m) (.collect id [] m)
  | collected {id elements rest} {m m' : Machine} {fuel}
      (h : Machine.collect E fuel id [] m = some (.ok elements, m')) :
      Leads E (.settle (.stream id :: rest) m) (.settle (elements ++ rest) m')
  | skip {v rest m} (h : v.isInert = true) :
      Leads E (.settle (v :: rest) m) (.settle rest m)

/-- What an activity comes to lead to in the end. -/
abbrev Reaches (E : Setting) : Activity → Activity → Prop := Relation.ReflTransGen (Leads E)

variable {E : Setting}

/-- **Every loop that ends leads to its end.** -/
theorem reaches_of_drive {b} :
    ∀ {fuel p live r m},
      drive E fuel p = some (r, m) →
      ∃ live', Reaches E (.loop b p live) (.loop b (.finished r m) live')
  | 0, p, _, _, _, h => by simp [drive] at h
  | fuel + 1, .finished res m₀, live, r, m, h => by
    simp only [drive, Option.some.injEq, Prod.mk.injEq] at h
    obtain ⟨rfl, rfl⟩ := h
    exact ⟨live, .refl⟩
  | fuel + 1, .running m₀, live, r, m, h => by
    obtain ⟨live', hreaches⟩ := reaches_of_drive (b := b) (show drive E fuel _ = _ from h)
    exact ⟨live', hreaches.head .step⟩
  | fuel + 1, .waiting job m₀, live, r, m, h => by
    simp only [drive] at h
    split at h
    · cases h
    · next ans m₁ hp =>
      obtain ⟨live', hreaches⟩ := reaches_of_drive (b := b) h
      exact ⟨live', hreaches.head (.resume hp)⟩

/-! ## How deeply loops run inside one another -/

/-- **The host begins** to run the program or to call a function, on a new machine. -/
inductive Begins : Activity → Prop where
  | run (heap : Heap) : Begins (.enter 0 .null [] [] (Machine.start heap).started)
  | call (heap : Heap) (callee args named) :
      Begins (.apply callee args named (Machine.start heap).started)

variable {a : Activity}

namespace Activity

/-- The activity runs inside no more loops than the limit allows, and a loop stands above the floor
at which it began. -/
def Nested (k : Nat) : Activity → Prop
  | .loop b p _ => p.Above b ∧ b.depth < k
  | .enter _ _ _ _ m | .apply _ _ _ m | .perform _ _ m | .respond _ m | .force _ m | .produce _ _ m
  | .collect _ _ m | .settle _ m => m.depth ≤ k

lemma Nested.depth_le {k} (h : a.Nested k) : a.machine.depth ≤ k := by
  cases a with
  | loop b p live =>
    obtain ⟨habove, hlt⟩ := h
    have hd : p.machine.depth = b.depth + 1 := by
      cases p with
      | running m => exact Machine.Above.depth habove.toAbove
      | waiting job m => exact habove.1.depth
      | finished r m => exact Machine.Above.depth habove.toAbove
    show p.machine.depth ≤ k
    omega
  | _ => exact h

end Activity

lemma Begins.nested (h : Begins a) (k) : a.Nested k := by
  cases h with
  | run _ => exact Nat.zero_le _
  | call _ _ _ _ => exact Nat.zero_le _

variable {c : Activity}

/-- **What an activity leads to is nested as the limit allows**, for every program. -/
theorem Leads.nested (h : Leads E a c)
    (ha : a.Nested E.limits.depth) : c.Nested E.limits.depth := by
  have hk : ∀ {m k}, Spared m k → m.depth ≤ E.limits.depth →
      k.depth ≤ E.limits.depth := fun hr hle => hr.depth ▸ hle
  have hall : ∀ {fuel purpose m k r job},
      perform E fuel purpose job m = some (r, k) → Spared m k := fun h =>
    ((restores E _).perform trivial
      (Job.handles_of_forall (Q := fun _ => True) (fun _ => trivial) (fun _ => trivial) _) h).2
  cases h with
  | @step b m live => exact ⟨Progress.above_ofResult (stays_step E) ha.1, ha.2⟩
  | @await b m live job =>
    have hd := ha.1.1.depth
    have hlt := ha.2
    show m.depth ≤ _
    omega
  | @resume b m m' live job fuel answer hperform =>
    refine ⟨Progress.above_resume ((hall hperform).upholds ha.1.1) ?_, ha.2⟩
    rintro x rfl
    exact yields_of_perform ha.1.2 hperform
  | enter hlt => exact ⟨upholds_opened _ _ _ _ _, hlt⟩
  | @answer purpose held request next m m' fuel response hrespond =>
    exact hk (m := m.holding (held ++ m.held)) (k := m')
      ((restores E _).respond trivial (Request.only_of_forall (fun _ => trivial) _) hrespond).2 ha
  | again hperform => exact hk (hall hperform) ha
  | tail hforce => exact hk ((restores E _).force trivial hforce).2 ha
  | collected hcollect =>
    exact hk ((restores E _).collect trivial (List.forall_mem_nil _) hcollect).2 ha
  | _ => exact ha

lemma Reaches.nested (h : Reaches E a c)
    (ha : a.Nested E.limits.depth) : c.Nested E.limits.depth := by
  induction h with
  | refl => exact ha
  | tail _ hl ih => exact hl.nested ih

/-! ## What is reached in a session -/

variable {S : Parts}

/-- **The activity handles closures of the program only**, and a loop has the layout that the
program's code needs. -/
def Activity.Sound (S : Parts) : Activity → Prop
  | .loop b p live => p.Fits S .all b live
  | .enter t f args named m => Machine.Sound S m ∧ Enterable S t f
      ∧ (∀ v ∈ args, v.Only S.Owns) ∧ Entries.Only S.Owns named
  | .apply f args named m => Machine.Sound S m ∧ f.Only S.Owns
      ∧ (∀ v ∈ args, v.Only S.Owns) ∧ Entries.Only S.Owns named
  | .perform _ job m => Machine.Sound S m ∧ job.Handles S.Owns fun _ => True
  | .respond q m => Machine.Sound S m ∧ q.Only S.Owns
  | .force _ m => Machine.Sound S m
  | .produce _ s m => Machine.Sound S m ∧ s.Only S.Owns
  | .collect _ found m => Machine.Sound S m ∧ ∀ v ∈ found, v.Only S.Owns
  | .settle values m => Machine.Sound S m ∧ ∀ v ∈ values, v.Only S.Owns

/-- **What an activity leads to handles closures of the program only.** -/
theorem Leads.sound (hS : S.Closed) (hprogram : E.program = S.program)
    (hh : E.host.Honest) (h : Leads E a c) (ha : a.Sound S) : c.Sound S := by
  have hs := safeguards hS hprogram hh
  cases h with
  | step => exact Progress.fits_ofResult (Runs.step hS hprogram hh ha fun _ _ => reserves_all)
  | await => exact ⟨ha.1.sound ha.2.1, ha.2.2.weaken fun _ _ => trivial⟩
  | @resume b m m' live job fuel answer hperform =>
    obtain ⟨hunwinds, hops, hjob⟩ := ha
    obtain ⟨hanswer, hk⟩ := (hs fuel).perform (hunwinds.sound hops) hjob hperform
    show (Progress.resume m' answer).Fits S .all b _
    rw [resume_eq]
    exact Progress.fits_ofResult (hunwinds.answered hk hanswer)
  | enter _ =>
    obtain ⟨hm, henter, hargs, hn⟩ := ha
    exact hm.opened henter hargs hn
  | closure =>
    obtain ⟨hm, hc, hargs, hn⟩ := ha
    exact ⟨hm, enterable_closure (Value.only_closure.mp hc), hargs, hn⟩
  | native hnative =>
    obtain ⟨hm, -, hargs, hn⟩ := ha
    exact ⟨hm, ((hh _ _ hnative).apply hargs hn).weaken fun _ _ => trivial⟩
  | @ask purpose held request next m =>
    obtain ⟨hm, hjob⟩ := ha
    cases hjob with
    | ask hrequest _ => exact ⟨(Kept.holding hm _).sound hm, hrequest⟩
  | @answer purpose held request next m m' fuel response hrespond =>
    obtain ⟨hm, hjob⟩ := ha
    cases hjob with
    | ask hrequest hnext =>
      have hheld := (Kept.holding hm (held ++ m.held)).sound hm
      obtain ⟨hgives, hk⟩ := (hs fuel).respond hheld hrequest hrespond
      have hm' := hk.sound hheld
      exact ⟨(Kept.holding hm' _).sound hm', hnext response hgives⟩
  | call =>
    obtain ⟨hm, hcallee, hargs, hn⟩ := ha
    exact ⟨hm, hcallee, hargs, hn⟩
  | force => exact ha.1
  | collect => exact ⟨ha.1, List.forall_mem_nil _⟩
  | settle => exact ⟨ha.1, fun v hv => List.mem_singleton.mp hv ▸ ha.2⟩
  | @produce id suspension m hpending =>
    have hcell := ha.heap.streamCell id
    rw [hpending] at hcell
    have hforcing : Kept S m (m.setStream id .forcing) := .setStream ha id trivial
    exact ⟨hforcing.sound ha, hcell⟩
  | suspension => exact ⟨ha.1, (Suspension.produce_handles ha.2).weaken fun _ _ => trivial⟩
  | again hperform =>
    obtain ⟨hm, hsuspension⟩ := ha
    obtain ⟨hr, hk⟩ := (hs _).perform hm (Suspension.produce_handles hsuspension) hperform
    exact ⟨hk.sound hm, hr⟩
  | node => exact ha.1
  | tail hforce =>
    obtain ⟨hm, hf⟩ := ha
    obtain ⟨hnode, hk⟩ := (hs _).force hm hforce
    exact ⟨hk.sound hm, List.forall_mem_cons.mpr ⟨hnode, hf⟩⟩
  | elements =>
    obtain ⟨hm, hvs⟩ := ha
    rw [List.forall_mem_cons] at hvs
    exact ⟨hm, List.forall_mem_append.mpr ⟨Value.only_array.mp hvs.1, hvs.2⟩⟩
  | entries =>
    obtain ⟨hm, hvs⟩ := ha
    rw [List.forall_mem_cons] at hvs
    exact ⟨hm, List.forall_mem_append.mpr ⟨(Value.only_object.mp hvs.1).values, hvs.2⟩⟩
  | stream => exact ⟨ha.1, List.forall_mem_nil _⟩
  | collected hcollect =>
    obtain ⟨hm, hvs⟩ := ha
    obtain ⟨helements, hk⟩ := (hs _).collect hm (List.forall_mem_nil _) hcollect
    exact ⟨hk.sound hm,
      List.forall_mem_append.mpr ⟨helements, fun v hv => hvs v (List.mem_cons_of_mem _ hv)⟩⟩
  | skip => exact ⟨ha.1, fun v hv => ha.2 v (List.mem_cons_of_mem _ hv)⟩

/-- **The host begins in a session** to run the program or to call a function that it was given. -/
inductive Session.Begins (E : Setting) : Activity → Prop where
  | run {heap given}
      (h : Session E.program E.host heap given) :
      Session.Begins E (.enter 0 .null [] [] (Machine.start heap).started)
  | call {heap given callee args named} (h : Session E.program E.host heap given)
      (hcallee : callee.Only given) (hargs : ∀ v ∈ args, v.Only given)
      (hnamed : Entries.Only given named) :
      Session.Begins E (.apply callee args named (Machine.start heap).started)

/-- **Something that runs in a session.** -/
def Session.Reachable (E : Setting) (a : Activity) : Prop :=
  ∃ first, Session.Begins E first ∧ Reaches E first a

/-- **Whatever runs in a session with a program** handles closures of the program only. -/
theorem Session.Reachable.sound (hS : S.Closed) (hmain : Enterable S 0 .null)
    (hp : E.program = S.program) (hh : E.host.Honest) (h : Session.Reachable E a) : a.Sound S := by
  have hstarted : ∀ {heap}, heap.Only S.Owns → Machine.Sound S (Machine.start heap).started :=
    fun hheap => ⟨nofun, nofun, rfl, hheap⟩
  obtain ⟨first, hbegins, hreaches⟩ := h
  have hfirst : first.Sound S := by
    cases hbegins with
    | run hsession =>
      rw [hp] at hsession
      exact ⟨hstarted (hsession.sound hS hmain hh).1, hmain, List.forall_mem_nil _,
        Entries.only_nil⟩
    | call hsession hf hargs hn =>
      rw [hp] at hsession
      obtain ⟨hheap, hgiven⟩ := hsession.sound hS hmain hh
      exact ⟨hstarted hheap, hf.mono hgiven, fun v hv => (hargs v hv).mono hgiven,
        fun x hx => (hn x hx).mono hgiven⟩
  induction hreaches with
  | refl => exact hfirst
  | tail _ hl ih => exact hl.sound hS hp hh ih

end TreeCode
