import TreeCode.Proofs.Safety

/-!
# Sessions of the host with a program

The host runs a program on a new machine, gets a value or an error, and calls the functions that it
finds in it, each call on a new machine over the heap that the earlier ones left. A session is any
sequence of runs and calls, with the closures that the host has been given so far.

A program that was lowered from a tree never faults in a session (`Session.never_faults`), whatever
its functions of the host do, as long as no closure of another program comes into play.
-/

namespace TreeCode

open Machine

/-- No closure is in the value. -/
abbrev Value.ClosureFree (v : Value) : Prop := v.Only fun _ => False

/-- The closure is held by a place of the heap. -/
def Heap.Keeps (h : Heap) (c : Closure) : Prop := ∀ P : Closure → Prop, h.Only P → P c

namespace Outcome

/-- The closures in what a run comes to. -/
def closures : Outcome → List Closure
  | .value v => v.closures
  | .uncaught e => e.toValue.closures
  | .fault _ => []

end Outcome

/-- **A session**: the heap after some runs and calls, and the closures that the host was given in
them: those in their values and errors, and those that the heap keeps for their streams. -/
inductive Session (program : Program) (host : Host) : Heap → (Closure → Prop) → Prop where
  | new : Session program host {} fun _ => False
  | run {heap given limits fuel} {outcome : Outcome}
      {m : Machine} (before : Session program host heap given)
      (h : (start heap).run ⟨program, host, limits⟩ fuel = some (outcome, m)) :
      Session program host m.heap fun c => given c ∨ c ∈ outcome.closures ∨ m.heap.Keeps c
  | call {heap given limits fuel} {outcome : Outcome}
      {m callee args named}
      (before : Session program host heap given) (hcallee : callee.Only given)
      (hargs : ∀ v ∈ args, v.Only given) (hnamed : Entries.Only given named)
      (h : (start heap).invoke ⟨program, host, limits⟩ callee args named fuel
        = some (outcome, m)) :
      Session program host m.heap fun c => given c ∨ c ∈ outcome.closures ∨ m.heap.Keeps c

/-! ## Programs that were lowered -/

/-- **Compiled parts** hold no closure in their tables and can be entered. -/
theorem Compiled.closed {env e D body}
    (h : Compiled Value.ClosureFree env e D body) (hs : (D.program body).code.size < UInt32.size) :
    (⟨D.tables, body⟩ : Parts).Closed ∧ Enterable ⟨D.tables, body⟩ 0 .null := by
  refine ⟨⟨fun v hv => ?_, fun entry he => ?_, hs⟩, enterable_main (h.safe [])⟩
  · exact Value.only_of_isData (h.constants v (Array.mem_toList_iff.mpr hv))
  · exact (h.platform entry (Array.mem_toList_iff.mpr he)).mono fun _ => False.elim

/-- **A program that was lowered from a tree** holds no closure in its tables and can be entered. -/
theorem Expr.lower_parts {env : Environment} {e : Expr} {p}
    (henv : env.Gives Value.ClosureFree) (he : ∀ v ∈ e.literals, v.ClosureFree)
    (h : e.lower env = .ok p) (hs : p.code.size < UInt32.size) :
    ∃ S, p = S.program ∧ S.Closed ∧ Enterable S 0 .null := by
  obtain ⟨D, body, rfl, hcompiled⟩ := Expr.lower_compiled henv he h hs
  exact ⟨⟨D.tables, body⟩, rfl, hcompiled.closed hs⟩

namespace Outcome

/-- The outcome is no fault, and its closures are the program's. -/
def Safe (S : Parts) (outcome : Outcome) : Prop :=
  (∀ f, outcome ≠ .fault f) ∧ ∀ c ∈ outcome.closures, S.Owns c

lemma safe_ofResult {S r} (h : Ends S r) : (ofResult r).Safe S := by
  cases r with
  | ok v => exact ⟨nofun, h⟩
  | error t =>
    cases t with
    | raised e => exact ⟨nofun, ErrorValue.only_toValue.mpr h⟩
    | fault f => exact h.elim

end Outcome

variable {S : Parts}

namespace Machine

variable {m m' : Machine} {E : Setting} {fuel : Nat} {outcome : Outcome}

lemma Sound.slotContent (h : Sound S m) {slot v}
    (hv : m.slotContent slot = some v) : v.Only S.Owns := by
  rw [slotContent_eq] at hv
  cases hget : m.operands.reverse[slot]? with
  | none => rw [hget] at hv; cases hv
  | some x =>
    rw [hget, Option.getD_some] at hv
    exact h.operands v (hv ▸ List.mem_reverse.mp (List.mem_of_getElem? hget))

lemma Sound.cleared (h : Sound S m) : m.cleared.heap.Only S.Owns := by
  show (m.truncate 0).heap.Only S.Owns
  rw [heap_truncate]
  refine h.heap.closeCells fun x hx v hv => ?_
  obtain ⟨p, -, rfl⟩ := List.mem_map.mp hx
  exact h.slotContent hv

section Runs

variable (hS : S.Closed) (hp : E.program = S.program) (hhost : E.host.Honest)
  (hm : Sound S m)

include hS hp hhost hm

lemma run_safe (hmain : Enterable S 0 .null) (h : m.run E fuel = some (outcome, m')) :
    outcome.Safe S ∧ m'.heap.Only S.Owns := by
  obtain ⟨⟨r, m₁⟩, henter, hdone⟩ := Option.bind_eq_some_iff.mp h
  cases hdone
  have hstarted : Sound S m.started := ⟨hm.operands, hm.openCells, hm.fault, hm.heap⟩
  obtain ⟨hends, hk⟩ := (safeguards hS hp hhost fuel).enter hstarted hmain
    (List.forall_mem_nil _) Entries.only_nil henter
  exact ⟨Outcome.safe_ofResult hends, (hk.sound hstarted).cleared⟩

lemma invoke_safe {f args named}
    (hf : f.Only S.Owns) (hargs : ∀ v ∈ args, v.Only S.Owns) (hn : Entries.Only S.Owns named)
    (h : m.invoke E f args named fuel = some (outcome, m')) :
    outcome.Safe S ∧ m'.heap.Only S.Owns := by
  obtain ⟨⟨r, m₁⟩, happly, hdone⟩ := Option.bind_eq_some_iff.mp h
  cases hdone
  have hstarted : Sound S m.started := ⟨hm.operands, hm.openCells, hm.fault, hm.heap⟩
  obtain ⟨hr, hk⟩ := (safeguards hS hp hhost fuel).apply hstarted hf hargs hn
    happly
  have hs := hk.sound hstarted
  refine ⟨?_, Sound.cleared ⟨hs.operands, hs.openCells, rfl, hs.heap⟩⟩
  cases r with
  | ok v =>
    simp only [outcomeOfCall, hk.fault]
    exact ⟨nofun, hr⟩
  | error e =>
    simp only [outcomeOfCall, hk.fault]
    exact ⟨nofun, ErrorValue.only_toValue.mpr hr⟩

end Runs

end Machine

/-! ## Sessions -/

namespace Session

variable {host : Host} {heap : Heap} {given : Closure → Prop}

/-- **What holds of the closures that runs and calls give holds of all that the host is given.** -/
theorem given_only {p : Program} {P : Closure → Prop} {Q : Outcome → Prop}
    (hQ : ∀ outcome, Q outcome → ∀ c ∈ outcome.closures, P c)
    (hrun : ∀ {heap limits fuel outcome m}, heap.Only P →
      (start heap).run ⟨p, host, limits⟩ fuel = some (outcome, m) → Q outcome ∧ m.heap.Only P)
    (hcall : ∀ {heap limits fuel f args named outcome m}, heap.Only P → f.Only P →
      (∀ v ∈ args, v.Only P) → Entries.Only P named →
      (start heap).invoke ⟨p, host, limits⟩ f args named fuel = some (outcome, m) →
      Q outcome ∧ m.heap.Only P)
    (h : Session p host heap given) : heap.Only P ∧ ∀ c, given c → P c := by
  have hgrown : ∀ {given : Closure → Prop} {outcome : Outcome} {m : Machine},
      (∀ c, given c → P c) → Q outcome ∧ m.heap.Only P →
      m.heap.Only P ∧ ∀ c, (given c ∨ c ∈ outcome.closures ∨ m.heap.Keeps c) → P c := by
    rintro given outcome m hgiven ⟨houtcome, hheap⟩
    refine ⟨hheap, ?_⟩
    rintro c (hc | hc | hc)
    · exact hgiven c hc
    · exact hQ outcome houtcome c hc
    · exact hc _ hheap
  induction h with
  | new => exact ⟨.empty, fun _ => False.elim⟩
  | run _ h ih => exact hgrown ih.2 (hrun ih.1 h)
  | call _ hf hargs hn h ih =>
    exact hgrown ih.2 (hcall ih.1 (hf.mono ih.2) (fun v hv => (hargs v hv).mono ih.2)
      (fun x hx => (hn x hx).mono ih.2) h)

/-- **In a session with a program the host is given closures of the program only.** -/
theorem sound (hS : S.Closed) (hmain : Enterable S 0 .null) (hhost : host.Honest)
    (h : Session S.program host heap given) : heap.Only S.Owns ∧ ∀ c, given c → S.Owns c :=
  h.given_only (Q := Outcome.Safe S) (fun _ h => h.2)
    (fun hheap => run_safe hS rfl hhost (.start hheap) hmain)
    fun hheap => invoke_safe hS rfl hhost (.start hheap)

/-- **A program that was lowered from a tree never faults**, neither when it is run nor when the
host calls a function that it was given in the session. -/
theorem never_faults {env : Environment} {e : Expr} {p : Program}
    (henv : env.Gives Value.ClosureFree) (he : ∀ v ∈ e.literals, v.ClosureFree)
    (hhost : host.Honest) (hlower : e.lower env = .ok p) (hsize : p.code.size < UInt32.size)
    (hsession : Session p host heap given) (limits : Limits) (fuel : Nat) :
    (∀ outcome m, (Machine.start heap).run ⟨p, host, limits⟩ fuel = some (outcome, m) →
      ∀ f, outcome ≠ .fault f) ∧
    ∀ callee args named, callee.Only given → (∀ v ∈ args, v.Only given) →
      Entries.Only given named → ∀ outcome m,
      (Machine.start heap).invoke ⟨p, host, limits⟩ callee args named fuel = some (outcome, m) →
      ∀ f, outcome ≠ .fault f := by
  obtain ⟨S, rfl, hS, hmain⟩ := Expr.lower_parts henv he hlower hsize
  obtain ⟨hheap, hgiven⟩ := hsession.sound hS hmain hhost
  refine ⟨fun outcome m h => ?_, fun callee args named hcallee hargs hnamed outcome m h => ?_⟩
  · exact (Machine.run_safe hS rfl hhost (.start hheap) hmain h).1.1
  · exact (Machine.invoke_safe hS rfl hhost (.start hheap) (hcallee.mono hgiven)
      (fun v hv => (hargs v hv).mono hgiven) (fun x hx => (hnamed x hx).mono hgiven) h).1.1

/-! ### A session with callbacks -/

/-- A host function that calls the function it is given with that function as the argument. -/
def selfApplication : Native where
  params := { positional := [{ name := "function", schema := .string "any" }] }
  body bs :=
    match Entries.get? bs "function" with
    | some function => Job.invoke function [function] []
    | none => pure .null

def selfApplying : Host := { natives := #[selfApplication] }

/-- A function that hands its argument over to the host. -/
def handingOver : Expr :=
  .given [.required (.name "x")] [] (.calling (.name "apply" none) [.item (.name "x" none)] [])

def handingOverTo : Environment := { names := [("apply", .native ⟨"apply", 0, 0⟩)] }

lemma eq_selfApplication {code n} (h : selfApplying.native? code = some n) :
    n = selfApplication := by
  obtain ⟨hlt, heq⟩ := Array.getElem?_eq_some_iff.mp h
  obtain rfl : code = 0 := Nat.lt_one_iff.mp hlt
  exact heq.symm

lemma selfApplying_honest : selfApplying.Honest := by
  intro code n hn
  obtain rfl := eq_selfApplication hn
  refine ⟨⟨?_, nofun, nofun, nofun⟩, fun P bs hbindings => ?_⟩
  · intro param hparam
    obtain rfl := List.mem_singleton.mp hparam
    exact ⟨Value.alike_diagonal.mpr ⟨rfl, Value.only_string _⟩, nofun⟩
  · show (match Entries.get? bs "function" with
      | some function => Job.invoke function [function] []
      | none => pure .null).Handles P _
    split
    · next function hfunction =>
      have honly := hbindings.get? hfunction
      exact Job.handles_invoke honly (fun v hv => List.mem_singleton.mp hv ▸ honly) Entries.only_nil
    · exact Job.handles_pure Value.only_null

lemma handingOverTo_gives : handingOverTo.Gives Value.ClosureFree where
  names name value h := by
    have hns : Entries.Only (fun _ => False) handingOverTo.names := by simp [handingOverTo]
    exact hns.get? h
  modules := nofun
  library := nofun
  sources := nofun

lemma handingOver_literals : handingOver.literals = [] := rfl

def gaveClosure : Outcome × Machine → Bool
  | (.value (.closure _), _) => true
  | _ => false

/-- The program of the function, and the closure that its run gives. -/
lemma handingOver_runs : ∃ p m c, handingOver.lower handingOverTo = .ok p
    ∧ p.code.size < UInt32.size
    ∧ (start {}).run ⟨p, selfApplying, {}⟩ 10 = some (.value (.closure c), m) := by
  have hruns : (handingOver.lower handingOverTo).toOption.any (fun p =>
      decide (p.code.size < UInt32.size)
        && ((start {}).run ⟨p, selfApplying, {}⟩ 10).any gaveClosure) = true := by decide +kernel
  obtain ⟨p, hl, htest⟩ := Expr.lowers_of_any hruns
  obtain ⟨hs, htest⟩ := Bool.and_eq_true_iff.mp htest
  obtain ⟨r, hrun, hcl⟩ := (Option.any_eq_true _ _).mp htest
  unfold gaveClosure at hcl
  split at hcl
  · next c m => exact ⟨p, m, c, hl, of_decide_eq_true hs, hrun⟩
  · cases hcl

/-- A closure that a run gave is called with itself, and the host calls it back. -/
theorem never_faults_selfApplying : ∃ p m c, handingOver.lower handingOverTo = .ok p
    ∧ (Machine.start {}).run ⟨p, selfApplying, {}⟩ 10 = some (.value (.closure c), m)
    ∧ ∀ limits fuel outcome m',
      (Machine.start m.heap).invoke ⟨p, selfApplying, limits⟩ (.closure c) [.closure c] [] fuel
        = some (outcome, m') → ∀ f, outcome ≠ .fault f := by
  obtain ⟨p, m, c, hlower, hsize, hrun⟩ := handingOver_runs
  refine ⟨p, m, c, hlower, hrun, fun limits fuel => ?_⟩
  have hclosure : (Value.closure c).Only fun d => False ∨ d ∈ [c] ∨ m.heap.Keeps d :=
    Value.only_closure.mpr (.inr (.inl List.mem_cons_self))
  exact (never_faults handingOverTo_gives (handingOver_literals ▸ List.forall_mem_nil _)
    selfApplying_honest hlower hsize (.run .new hrun) limits fuel).2 (.closure c) [.closure c] []
    hclosure (List.forall_mem_singleton.mpr hclosure) Entries.only_nil

end Session

end TreeCode
