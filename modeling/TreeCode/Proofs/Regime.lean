import TreeCode.Machine.Run
import TreeCode.Proofs.Handling

/-!
# What everything that runs keeps

Dispatch loops, calls, jobs and streams run in one another. A regime is a rule about all of them:
which closures they may handle, which machines they may run on and how they may leave a machine. It
says what a loop keeps from step to step, and that the few changes which the work of the host makes
to a machine by itself are allowed. Then everything that runs keeps the rule, whatever it calls
(`Regime.governs`).
-/

namespace TreeCode

open Machine

section Forall

variable {P : Closure → Prop} (hP : ∀ c, P c)
include hP

lemma StreamCell.only_of_forall (cell : StreamCell) : cell.Only P := by
  have hv : ∀ v : Value, v.Only P := fun _ c _ => hP c
  have herror : ∀ e : ErrorValue, e.Only P := fun _ x _ => hv x.2
  cases cell with
  | pending s =>
    cases s with
    | successors seed function => exact ⟨hv seed, hv function⟩
    | mapped src function => exact hv function
    | filtered src cond => exact hv cond
    | listed values failure => exact ⟨fun v _ => hv v, fun e _ => herror e⟩
  | forcing => trivial
  | failed e => exact herror e
  | resolved node =>
    cases node with
    | empty => trivial
    | cons head tail => exact hv head

lemma Heap.only_of_forall (h : Heap) : h.Only P where
  cells cell _ := by
    cases cell with
    | onStack slot => trivial
    | closed content => exact fun _ _ c _ => hP c
  streams cell _ := cell.only_of_forall hP

lemma Request.only_of_forall (q : Request) : q.Only P := by
  have hv : ∀ v : Value, v.Only P := fun _ c _ => hP c
  cases q with
  | call f args named => exact ⟨hv f, fun v _ => hv v, fun x _ => hv x.2⟩
  | force id => trivial
  | collect id => trivial
  | settle v => exact hv v
  | text v => exact hv v
  | allocate cell => exact cell.only_of_forall hP

end Forall

/-- Every function of the host handles closures with a property only. -/
def Host.Handles (host : Host) (P : Closure → Prop) : Prop :=
  ∀ code n, host.native? code = some n → ∀ args named, (∀ v ∈ args, v.Only P) →
    Entries.Only P named → (n.apply args named).Handles P (Value.Only P)

lemma Host.Honest.handles {host : Host} {P} (h : host.Honest) : host.Handles P :=
  fun code n hn _ _ hargs hna => (h code n hn).apply hargs hna

lemma Machine.only_notCallable {P v} (hv : v.Only P) :
    (notCallable v).Only P := ErrorValue.only_of (by simpa using hv)

/-- **A rule that everything keeps which runs.** -/
structure Regime (S : Setting) where
  /-- The closures that may be handled. -/
  Owns : Closure → Prop
  /-- The machines on which something may run. -/
  Holds : Machine → Prop
  /-- How a machine may be left. -/
  Keeps : Machine → Machine → Prop
  /-- The functions that may be entered, and the values that stand for them. -/
  Enters : Nat → Value → Prop
  /-- Where a loop may stand that was entered on a machine. -/
  Loop : Machine → Progress → Prop
  /-- What a loop may come to. -/
  Ends : Except Trap Value → Machine → Prop
  refl : ∀ {m}, Holds m → Keeps m m
  trans : ∀ {m₁ m₂ m₃}, Keeps m₁ m₂ → Keeps m₂ m₃ → Keeps m₁ m₃
  holds : ∀ {m m'}, Keeps m m' → Holds m → Holds m'
  cell : ∀ {m}, Holds m → ∀ id, (m.heap.streamCell id).Only Owns
  holding : ∀ {m}, Holds m → ∀ held, Keeps m (m.holding held)
  /-- A pending node may be marked as being forced. -/
  forcing : ∀ {m id s}, Holds m → m.heap.streamCell id = .pending s →
    Holds (m.setStream id .forcing)
  /-- After its suspension has run, the node may be given what it has come to. -/
  settled : ∀ {m id s m'} {cell : StreamCell}, Holds m → m.heap.streamCell id = .pending s →
    Keeps (m.setStream id .forcing) m' → cell.Only Owns → Keeps m (m'.setStream id cell)
  allocate : ∀ {m}, Holds m → ∀ {cell : StreamCell}, cell.Only Owns →
    Keeps m { m with heap := (m.heap.addStream cell).2 }
  host : S.host.Handles Owns
  closure : ∀ {c}, Owns c → Enters c.target (.closure c)
  opened : ∀ {m target callee args named}, Holds m → Enters target callee →
    (∀ v ∈ args, v.Only Owns) → Entries.Only Owns named →
    Loop m (.running (m.opened target callee args named))
  step : ∀ {b m}, Loop b (.running m) → Loop b (m.advance S)
  waiting : ∀ {b job m}, Loop b (.waiting job m) → Holds m ∧ ∃ Q, job.Handles Owns Q ∧
    ∀ {m' answer}, Keeps m m' → Except.Only Owns Q answer → Loop b (.resume m' answer)
  closed : ∀ {fuel m target callee args named r m'}, Holds m →
    drive S fuel (.running (m.opened target callee args named)) = some (r, m') →
    Loop m (.finished r m') → Ends r (m'.closed m.suspended) ∧ Keeps m (m'.closed m.suspended)
  tooDeep : ∀ {m}, Holds m → Ends (.error (.raised (tooDeep S.limits.depth))) m
  answered : ∀ {m ended}, Ends ended.1 ended.2 → Keeps m ended.2 →
    Except.Only Owns (Value.Only Owns) (answerOf ended).1 ∧ Keeps m (answerOf ended).2

namespace Regime

variable {S : Setting} (R : Regime S)

/-- Work leaves the machine as it may, and gives what it may. -/
def Gives {α : Type} (Q : α → Prop) (r : Except ErrorValue α) (m m' : Machine) : Prop :=
  Except.Only R.Owns Q r ∧ R.Keeps m m'

/-- **The rule, for everything that runs on some fuel.** -/
structure Governs (fuel : Nat) : Prop where
  drive : ∀ {b p r m}, R.Loop b p → drive S fuel p = some (r, m) → R.Loop b (.finished r m)
  enter : ∀ {target callee args named m r m'}, R.Holds m → R.Enters target callee →
    (∀ v ∈ args, v.Only R.Owns) → Entries.Only R.Owns named →
    enter S fuel target callee args named m = some (r, m') → R.Ends r m' ∧ R.Keeps m m'
  apply : ∀ {callee args named m r m'}, R.Holds m → callee.Only R.Owns →
    (∀ v ∈ args, v.Only R.Owns) → Entries.Only R.Owns named →
    apply S fuel callee args named m = some (r, m') → R.Gives (Value.Only R.Owns) r m m'
  perform : ∀ {purpose} {job : Job purpose.Result} {Q : purpose.Result → Prop} {m r m'}, R.Holds m →
    job.Handles R.Owns Q → perform S fuel purpose job m = some (r, m') → R.Gives Q r m m'
  respond : ∀ {request m r m'}, R.Holds m → request.Only R.Owns →
    respond S fuel request m = some (r, m') → request.Gives R.Owns r ∧ R.Keeps m m'
  force : ∀ {id m r m'}, R.Holds m → force S fuel id m = some (r, m') →
    R.Gives (Node.Only R.Owns) r m m'
  /-- The node was pending on the machine `b` and is being forced since. -/
  produce : ∀ {id s suspension b m r m'}, R.Holds b → b.heap.streamCell id = .pending s →
    R.Keeps (b.setStream id .forcing) m → suspension.Only R.Owns →
    produce S fuel id suspension m = some (r, m') → R.Gives (Node.Only R.Owns) r b m'
  collect : ∀ {id found m r m'}, R.Holds m → (∀ v ∈ found, v.Only R.Owns) →
    collect S fuel id found m = some (r, m') →
    R.Gives (fun elements => ∀ v ∈ elements, v.Only R.Owns) r m m'
  settle : ∀ {values m r m'}, R.Holds m → (∀ v ∈ values, v.Only R.Owns) →
    settle S fuel values m = some (r, m') → R.Gives (fun _ => True) r m m'

/-! ## One function after the other -/

section Succ

variable {R} {fuel : Nat} {m m' : Machine} {args : List Value} {named : Entries Value}

variable (ih : R.Governs fuel)

include ih

lemma drive_succ {b p r} (hp : R.Loop b p)
    (h : drive S (fuel + 1) p = some (r, m)) : R.Loop b (.finished r m) := by
  cases p with
  | finished res m₀ =>
    cases h
    exact hp
  | running m₀ => exact ih.drive (R.step hp) h
  | waiting job m₀ =>
    obtain ⟨hm, Q, hjob, hresume⟩ := R.waiting hp
    simp only [drive] at h
    split at h
    · cases h
    · next ans m₁ hperf =>
      obtain ⟨hr, hk⟩ := ih.perform hm hjob hperf
      exact ih.drive (hresume hk hr) h

lemma enter_succ {t f r} (hm : R.Holds m) (hf : R.Enters t f)
    (hargs : ∀ v ∈ args, v.Only R.Owns) (hn : Entries.Only R.Owns named)
    (h : enter S (fuel + 1) t f args named m = some (r, m')) : R.Ends r m' ∧ R.Keeps m m' := by
  simp only [enter] at h
  split at h
  · cases h
    exact ⟨R.tooDeep hm, R.refl hm⟩
  · split at h
    · cases h
    · next res m₁ hd =>
      cases h
      exact R.closed hm hd (ih.drive (R.opened hm hf hargs hn) hd)

lemma apply_succ {f r} (hm : R.Holds m) (hf : f.Only R.Owns)
    (hargs : ∀ v ∈ args, v.Only R.Owns) (hn : Entries.Only R.Owns named)
    (h : apply S (fuel + 1) f args named m = some (r, m')) : R.Gives
      (Value.Only R.Owns) r m m' := by
  cases f with
  | closure c =>
    simp only [apply] at h
    split at h
    · cases h
    · next ended henter =>
      obtain ⟨hends, hk⟩ := ih.enter hm (R.closure (Value.only_closure.mp hf)) hargs hn henter
      have hr := R.answered hends hk
      rw [Option.some.inj h] at hr
      exact hr
  | native ref =>
    simp only [apply] at h
    split at h
    · next native hnative => exact ih.perform hm (R.host _ native hnative _ _ hargs hn) h
    · cases h
      exact ⟨only_notCallable hf, R.refl hm⟩
  | _ =>
    cases h
    exact ⟨only_notCallable hf, R.refl hm⟩

lemma perform_succ {purpose job Q r} (hm : R.Holds m) (hjob : job.Handles R.Owns Q)
    (h : perform S (fuel + 1) purpose job m = some (r, m')) : R.Gives Q r m m' := by
  cases hjob with
  | done hres =>
    cases h
    exact ⟨hres, R.refl hm⟩
  | @ask held q next hq hnext =>
    simp only [perform] at h
    split at h
    · cases h
    · next resp m₁ hrespond =>
      have hheld := R.holding hm (held ++ m.held)
      obtain ⟨hgives, hresponse⟩ := ih.respond (R.holds hheld hm) hq hrespond
      have hanswered := R.trans hheld hresponse
      have hready := R.trans hanswered (R.holding (R.holds hanswered hm) m.held)
      obtain ⟨hres, hrest⟩ := ih.perform (R.holds hready hm) (hnext resp hgives) h
      exact ⟨hres, R.trans hready hrest⟩

lemma respond_succ {q r} (hm : R.Holds m) (hq : q.Only R.Owns)
    (h : respond S (fuel + 1) q m = some (r, m')) : q.Gives R.Owns r ∧ R.Keeps m m' := by
  cases q with
  | call f args named => exact ih.apply hm hq.1 hq.2.1 hq.2.2 h
  | force id => exact ih.force hm h
  | collect id => exact ih.collect hm (List.forall_mem_nil _) h
  | settle value => exact ih.settle hm (List.forall_mem_singleton.mpr hq) h
  | allocate cell =>
    cases h
    exact ⟨trivial, R.allocate hm hq⟩
  | text value =>
    cases h
    exact ⟨trivial, R.refl hm⟩

lemma force_succ {id r} (hm : R.Holds m)
    (h : force S (fuel + 1) id m = some (r, m')) : R.Gives (Node.Only R.Owns) r m m' := by
  have hc := R.cell hm id
  simp only [force] at h
  split at h
  · next node heq =>
    cases h
    exact ⟨by rwa [heq] at hc, R.refl hm⟩
  · next e heq =>
    cases h
    exact ⟨by rwa [heq] at hc, R.refl hm⟩
  · cases h
    exact ⟨ErrorValue.only_of (by simp), R.refl hm⟩
  · next s heq =>
    rw [heq] at hc
    exact ih.produce hm heq (R.refl (R.forcing hm heq)) hc h

lemma produce_succ {id s suspension b r} (hb : R.Holds b) (hpending :
    b.heap.streamCell id = .pending s)
    (hk : R.Keeps (b.setStream id .forcing) m) (hs : suspension.Only R.Owns)
    (h : produce S (fuel + 1) id suspension m = some (r, m')) :
    R.Gives (Node.Only R.Owns) r b m' := by
  have hm := R.holds hk (R.forcing hb hpending)
  simp only [produce] at h
  split at h
  · cases h
  · next hperf =>
    obtain ⟨hrest, hrun⟩ := ih.perform hm (Suspension.produce_handles hs) hperf
    exact ih.produce hb hpending (R.trans hk hrun) hrest h
  · next hperf =>
    obtain ⟨hnode, hrun⟩ := ih.perform hm (Suspension.produce_handles hs) hperf
    cases h
    exact ⟨hnode, R.settled hb hpending (R.trans hk hrun) hnode⟩
  · next hperf =>
    obtain ⟨he, hrun⟩ := ih.perform hm (Suspension.produce_handles hs) hperf
    cases h
    exact ⟨he, R.settled hb hpending (R.trans hk hrun) he⟩

lemma collect_succ {id found r}
    (hm : R.Holds m) (hfound : ∀ v ∈ found, v.Only R.Owns)
    (h : collect S (fuel + 1) id found m = some (r, m')) :
    R.Gives (fun elements => ∀ v ∈ elements, v.Only R.Owns) r m m' := by
  simp only [collect] at h
  split at h
  · cases h
  · next hforce =>
    cases h
    exact ⟨fun v hv => hfound v (List.mem_reverse.mp hv), (ih.force hm hforce).2⟩
  · next hforce =>
    obtain ⟨hhead, hk⟩ := ih.force hm hforce
    exact (ih.collect (R.holds hk hm) (List.forall_mem_cons.mpr ⟨hhead, hfound⟩) h).imp_right
      (R.trans hk)
  · next hforce =>
    cases h
    exact ih.force hm hforce

lemma settle_succ {values r} (hm : R.Holds m)
    (hvs : ∀ v ∈ values, v.Only R.Owns) (h : settle S (fuel + 1) values m = some (r, m')) :
    R.Gives (fun _ => True) r m m' := by
  cases values with
  | nil =>
    cases h
    exact ⟨trivial, R.refl hm⟩
  | cons v rest =>
    obtain ⟨hv, hrest⟩ := List.forall_mem_cons.mp hvs
    cases v with
    | array es => exact ih.settle hm (List.forall_mem_append.mpr ⟨Value.only_array.mp hv, hrest⟩) h
    | object xs =>
      exact ih.settle hm (List.forall_mem_append.mpr ⟨(Value.only_object.mp hv).values, hrest⟩) h
    | stream id =>
      simp only [settle] at h
      split at h
      · cases h
      · next hcollect =>
        obtain ⟨hes, hk⟩ := ih.collect hm (List.forall_mem_nil _) hcollect
        exact (ih.settle (R.holds hk hm) (List.forall_mem_append.mpr ⟨hes, hrest⟩) h).imp_right
          (R.trans hk)
      · next hcollect =>
        cases h
        exact ih.collect hm (List.forall_mem_nil _) hcollect
    | _ => exact ih.settle hm hrest h

end Succ

/-- **Everything that runs keeps the rule.** -/
theorem governs : ∀ fuel, R.Governs fuel
  | 0 => by
    constructor <;> intros <;>
      simp_all [drive, enter, apply, perform, respond, force, produce, collect, settle]
  | fuel + 1 =>
    have ih := governs fuel
    ⟨drive_succ ih, enter_succ ih, apply_succ ih, perform_succ ih, respond_succ ih, force_succ ih,
      produce_succ ih, collect_succ ih, settle_succ ih⟩

end Regime

end TreeCode
