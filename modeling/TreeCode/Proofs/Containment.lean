import TreeCode.Proofs.Calls
import TreeCode.Proofs.Needs
import TreeCode.Proofs.StepLimit

/-!
# A catch around everything

The program of an expression inside a catch has its code in three parts. Before the catch it makes
the functions of the library; then comes the guarded code; and after it the program leaves its
scopes and returns. Instructions of the first and the last part raise no error (`Exec.Calm`), and
while the loop is in between, the catch is open and receives what the other catches do not.

So a run of such a program ends with a value (`Expr.catching_contains_errors`): what the guarded
code left on the stack, or the error that ended it.
-/

namespace TreeCode

open Machine List Instruction Progress

/-! ## Instructions that raise no error -/

namespace Exec

variable {α β : Type} {m : Machine}

/-- **The action raises no error**, and it leaves the calls and the place in the code alone. -/
def Calm (x : Exec α) (m : Machine) : Prop :=
  match x m with
  | .ok _ m' => m'.pc = m.pc ∧ m'.calls = m.calls
  | .error t _ => ∃ fault, t = .fault fault

namespace Calm

lemma bind {x : Exec α} {f : α → Exec β} (hx : Calm x m) (hf : ∀ a m', Calm (f a) m') :
    Calm (x >>= f) m := by
  unfold Calm at hx ⊢
  cases hr : x m with
  | ok a m' =>
    rw [hr] at hx
    rw [bind_ok hr]
    have hrest := hf a m'
    unfold Calm at hrest
    split at hrest
    · exact ⟨hrest.1.trans hx.1, hrest.2.trans hx.2⟩
    · exact hrest
  | error t m' =>
    rw [hr] at hx
    rw [bind_error hr]
    exact hx

lemma get {f : Machine → Exec α} (h : Calm (f m) m) : Calm (MonadState.get >>= f) m := h

lemma pure (a : α) : Calm (Pure.pure a) m := ⟨rfl, rfl⟩

lemma fail (fault) : Calm (Machine.fail fault : Exec α) m := ⟨_, rfl⟩

lemma modify {f : Machine → Machine} (h : ∀ m, (f m).pc = m.pc ∧ (f m).calls = m.calls) :
    Calm (MonadStateOf.modifyGet fun m => ((), f m) : Exec Unit) m := h m

end Calm

end Exec

namespace Machine

open Exec

variable (m : Machine)

lemma calm_push (value) : Calm (push value) m := ⟨rfl, rfl⟩

lemma calm_pop : Calm pop m := by
  refine .get ?_
  split
  · exact .fail _
  · split
    · exact ⟨rfl, rfl⟩
    · exact .fail _

lemma calm_top : Calm top m := by
  refine .get ?_
  split
  · exact .pure _
  · exact .fail _

lemma calm_scope : Calm scope m := by
  refine .get ?_
  split
  · exact .fail _
  · split
    · exact .pure _
    · exact .fail _

lemma calm_modifyScope (f) : Calm (modifyScope f) m :=
  .bind (calm_scope m) fun _ _ => .modify fun _ => ⟨rfl, rfl⟩

lemma calm_slotIndex (depth slot : Word) : Calm (slotIndex depth slot) m := by
  refine .get ?_
  split
  · exact .fail _
  · split
    · dsimp only
      split
      · exact .pure _
      · exact .fail _
    · exact .fail _

lemma calm_runningUpvalue (index : Word) : Calm (runningUpvalue index) m := by
  have hf : ∀ m, Calm runningCallee m := by
    intro m
    refine .get ?_
    split
    · exact .fail _
    · split
      · exact .pure _
      · exact .fail _
  refine .bind (hf m) fun v _ => ?_
  split
  · split
    · exact .pure _
    · exact .fail _
  · exact .fail _

lemma calm_captureSlot (slot : Nat) : Calm (captureSlot slot) m := by
  refine .get ?_
  split
  · exact .pure _
  · exact ⟨rfl, rfl⟩

lemma calm_addUpvalue (cell : CellId) : Calm (addUpvalue cell) m := by
  refine .bind (.bind (calm_top m) fun v _ => ?_) fun _ _ => .modify fun _ => ⟨rfl, rfl⟩
  split
  · refine .get ?_
    split
    · exact .pure _
    · exact .fail _
  · exact .fail _

lemma calm_writeLocal (depth slot) : Calm (writeLocal depth slot) m :=
  .bind (calm_pop m) fun _ m => .bind (calm_slotIndex m depth slot) fun _ _ =>
    .modify fun _ => ⟨rfl, rfl⟩

lemma calm_pushScope (size) : Calm (pushScope size) m := by
  refine .get ?_
  split
  · exact .fail _
  · exact ⟨rfl, rfl⟩

lemma calm_popScope : Calm popScope m :=
  .bind (calm_pop m) fun _ m => .bind (calm_scope m) fun _ _ =>
    .bind (.modify fun _ => ⟨rfl, rfl⟩) fun _ m => calm_push m _

lemma calm_capture (slot) : Calm (capture slot) m := by
  refine .bind (calm_scope m) fun s _ => .modify fun m => ?_
  unfold closeSlot
  split <;> exact ⟨rfl, rfl⟩

end Machine

namespace Machine

open Exec

/-! ### The top of the stack -/

/-- The value on top of the stack. -/
def HasTop (v : Value) (m : Machine) : Prop := m.stack.back? = some (some v)

variable {v : Value}

lemma triple_pop_top : Triple (fun _ => True) (HasTop v) pop fun a _ => a = v := by
  refine triple_get.bind fun m => ?_
  split
  · exact triple_fail fun _ _ => trivial
  · split
    · next value heq =>
      rintro _ ⟨rfl, hm⟩
      rw [HasTop, heq] at hm
      cases hm
      rfl
    · exact triple_fail fun _ _ => trivial

lemma triple_scope_same {P} : Triple (fun _ => True) P scope fun _ => P := by
  refine triple_get.bind fun m => ?_
  split
  · exact triple_fail fun _ _ => trivial
  · split
    · exact triple_pure fun _ h => h.2
    · exact triple_fail fun _ _ => trivial

lemma triple_modifyScope_top (f : Scope → Scope) :
    Triple (fun _ => True) (HasTop v) (modifyScope f) fun _ => HasTop v :=
  triple_scope_same.bind fun _ => triple_modify fun _ hm => hm

/-- Leaving a scope keeps the value on top. -/
lemma triple_popScope_top : Triple (fun _ => True) (HasTop v) popScope fun _ => HasTop v := by
  refine triple_pop_top.bind fun a => ?_
  rintro m rfl
  refine Triple.bind (P := fun _ => True) triple_scope_same (fun s => ?_) m trivial
  refine (triple_modify (Q := fun _ _ => True) fun _ _ => trivial).bind fun _ => ?_
  exact triple_modify fun m _ => Array.back?_push

lemma triple_capture_top (slot : Word) :
    Triple (fun _ => True) (HasTop v) (capture slot) fun _ => HasTop v := by
  refine triple_scope_same.bind fun s => triple_modify fun m hm => ?_
  unfold closeSlot
  split <;> exact hm

end Machine

/-- An instruction that raises no error, whatever the machine, and goes on with the next one. -/
def Instruction.Calm : Instruction → Prop
  | .reserve _ | .writeLocal .. | .pushScope _ | .popScope | .function _ | .closure ..
  | .closureUpvalue _ | .capture _ => True
  | _ => False

variable {i : Instruction}

lemma Instruction.Calm.execute (h : i.Calm) (p) (host : Host) :
    ∃ x, Machine.execute p host i = thenNext x ∧ ∀ m, Exec.Calm x m := by
  cases i with
  | reserve count => exact ⟨_, rfl, fun _ => ⟨rfl, rfl⟩⟩
  | writeLocal depth slot => exact ⟨_, rfl, fun m => calm_writeLocal m depth slot⟩
  | pushScope size => exact ⟨_, rfl, fun m => calm_pushScope m _⟩
  | popScope => exact ⟨_, rfl, calm_popScope⟩
  | function t => exact ⟨_, rfl, fun m => ⟨rfl, rfl⟩⟩
  | closure depth slot =>
    exact ⟨_, rfl, fun m => .bind (calm_slotIndex m depth slot) fun index m =>
      .bind (calm_captureSlot m index) fun cell m => calm_addUpvalue m cell⟩
  | closureUpvalue upvalue =>
    exact ⟨_, rfl, fun m => .bind (calm_runningUpvalue m upvalue) fun cell m =>
      calm_addUpvalue m cell⟩
  | capture slot => exact ⟨_, rfl, fun m => calm_capture m slot⟩
  | _ => exact h.elim

/-! ## Code before and after a catch -/

variable {m' : Machine}

namespace CodeItem

/-- The item raises no error. -/
def Calm : CodeItem → Prop
  | .plain i _ => i.Calm
  | .makeFunction _ => True

/-- The item detaches a variable or leaves a scope. -/
def Leaves : CodeItem → Prop
  | .plain (.capture _) _ | .plain .popScope _ => True
  | _ => False

variable {item : CodeItem}

lemma Calm.instruction (h : item.Calm) (offsets) :
    (item.instruction offsets).Calm := by
  cases item with
  | plain i d => exact h
  | makeFunction index => trivial

/-- The value on top stays there. -/
lemma Leaves.top (h : item.Leaves) {offsets p host m v} (htop : m.HasTop v)
    (hexec : execute p host (item.instruction offsets) m = .ok .next m') : m'.HasTop v := by
  have hk : ∀ {x},
      Exec.Triple (fun _ => True) (fun m => m.HasTop v) x (fun _ m => m.HasTop v) →
      thenNext x m = .ok .next m' → m'.HasTop v := by
    intro x htriple hnext
    have hdone := htriple m htop
    cases hr : x m with
    | ok u k =>
      rw [hr] at hdone
      rw [thenNext_ok hr] at hnext
      cases hnext
      exact hdone
    | error t k =>
      rw [thenNext_error hr] at hnext
      cases hnext
  cases item with
  | makeFunction index => exact h.elim
  | plain i d =>
    cases i with
    | capture slot => exact hk (triple_capture_top slot) hexec
    | popScope => exact hk triple_popScope_top hexec
    | _ => exact h.elim

lemma Leaves.calm (h : item.Leaves) : item.Calm := by
  cases item with
  | plain i d => cases i <;> trivial
  | makeFunction index => trivial

end CodeItem

variable {code : Code}

namespace Code

/-- **Code whose first items have `Q`**, up to a place where the rest of the code has `P`. -/
inductive Until (Q : CodeItem → Prop) (P : Code → Prop) : Code → Prop where
  | here {code : Code} (h : P code) : Until Q P code
  | item {item code} (h : Q item) (rest : Until Q P code) :
      Until Q P (item :: code)

lemma Until.append {Q : CodeItem → Prop} {P items}
    (hitems : ∀ item ∈ items, Q item) (h : Until Q P code) : Until Q P (items ++ code) := by
  induction items with
  | nil => exact h
  | cons item items ih =>
    rw [forall_mem_cons] at hitems
    exact .item hitems.1 (ih hitems.2)

/-- **Code that leaves scopes and returns.** -/
def Returns : Code → Prop := Until CodeItem.Leaves fun code => ∃ d rest,
    code = .plain .ret d :: rest

/-- **Code that comes to a catch without raising an error**, and returns after the catch. -/
def Guarded : Code → Prop := Until CodeItem.Calm fun code => ∃ n d guarded rest,
  code = .plain (.enterCatch n) d :: (guarded ++ rest) ∧ n.toNat = width guarded ∧ Returns rest

/-- Two pieces of code at one place begin alike. -/
lemma At.comparable {fs pc code'}
    (h : At fs pc code) (h' : At fs pc code') :
    ∃ more more', code ++ more = code' ++ more' := by
  obtain ⟨pre, after, heq, hwidth⟩ := h
  obtain ⟨before', after', heq', hwidth'⟩ := h'
  have hnil : ∀ {c : Code}, c.width = 0 → c = [] := by
    intro c hc
    cases c with
    | nil => rfl
    | cons item c =>
      have := item.width_pos
      rw [width_cons] at hc
      omega
  refine ⟨after, after', ?_⟩
  rcases append_eq_append_iff.mp (heq.symm.trans heq') with ⟨c, rfl, hr⟩ | ⟨c, rfl, hr⟩
  · rw [width_append] at hwidth'
    rw [hr, hnil (c := c) (by omega), nil_append]
  · rw [width_append] at hwidth
    rw [hr, hnil (c := c) (by omega), nil_append]

/-- Code that begins like code which returns does so, too, if it goes as far as that. -/
lemma Returns.of_append {code' more more'} (h : Returns code)
    (heq : code ++ more = code' ++ more') (hret : ∃ d, CodeItem.plain .ret d ∈ code') :
    Returns code' := by
  obtain ⟨d, hret⟩ := hret
  induction h generalizing code' with
  | here h =>
    obtain ⟨d', rest, rfl⟩ := h
    cases code' with
    | nil => cases hret
    | cons item code' =>
      rw [cons_append, cons_append] at heq
      obtain ⟨rfl, -⟩ := cons.inj heq
      exact .here ⟨_, _, rfl⟩
  | item hleaves _ ih =>
    cases code' with
    | nil => cases hret
    | cons item code' =>
      rw [cons_append, cons_append] at heq
      obtain ⟨rfl, hr⟩ := cons.inj heq
      refine .item hleaves (ih hr ((mem_cons.mp hret).resolve_left ?_))
      rintro rfl
      exact hleaves

end Code

namespace Safe

variable {T : Tables} {rest : Code} {L : Layout} {d : Option Diagnostic}

/-- Code that is safe returns somewhere. -/
lemma mem_ret (h : Safe T code L) : ∃ d, CodeItem.plain .ret d ∈ code := by
  induction h with
  | forget _ _ ih => exact ih
  | ret => exact ⟨_, mem_cons_self⟩
  | step _ _ ih | writeLocal _ _ _ ih | openScope _ ih | openCall _ _ ih | closeScope _ _ ih
  | leaveCatch _ ih | call _ ih | enterCatch _ _ _ ih | arrayPopOrDefault _ _ _ _ ih
  | objectPopOrDefault _ _ _ _ _ ih =>
    obtain ⟨d, hd⟩ := ih
    exact ⟨d, mem_cons_of_mem _ hd⟩
  | makeFunction _ _ _ _ _ _ ih =>
    obtain ⟨d, hd⟩ := ih
    exact ⟨d, mem_cons_of_mem _ (mem_append_right _ hd)⟩

lemma of_leaveCatch (h : Safe T code L) (hc : code = .plain .leaveCatch d :: rest) :
    ∃ ks cs entry outer, L = ⟨ks, rest :: cs, entry⟩ :: outer
      ∧ Safe T rest (⟨ks, cs, entry⟩ :: outer) := by
  induction h with
  | forget hk _ ih =>
    obtain ⟨ks, cs, entry, outer, heq, hr⟩ := ih hc
    cases heq
    exact ⟨_, _, _, _, rfl, .forget hk hr⟩
  | leaveCatch next =>
    cases hc
    exact ⟨_, _, _, _, rfl, next⟩
  | step effect => cases hc; cases effect
  | _ => cases hc

lemma of_ret (h : Safe T code L) (hc : code = .plain .ret d :: rest) :
    ∃ k ks entry outer, L = ⟨k :: ks, [], entry⟩ :: outer ∧ k.Full ∧ entry ≠ .block := by
  induction h with
  | forget hk _ ih =>
    obtain ⟨k, ks, entry, outer, heq, -, he⟩ := ih hc
    cases heq
    exact ⟨_, _, _, _, rfl, hk, he⟩
  | ret hk he => exact ⟨_, _, _, _, rfl, hk, he⟩
  | step effect => cases hc; cases effect
  | _ => cases hc

/-- Code that leaves scopes and returns has a value to return. -/
lemma top_of_returns (hreturns : Code.Returns code) {ks cs entry}
    (h : Safe T code (⟨ks, cs, entry⟩ :: L)) :
    ∃ k below, ks = k :: below ∧ k.Full := by
  induction hreturns generalizing ks cs entry L with
  | here hret =>
    obtain ⟨d, rest, rfl⟩ := hret
    obtain ⟨k, below, _, _, heq, hk, -⟩ := h.of_ret rfl
    cases heq
    exact ⟨k, below, rfl, hk⟩
  | item hleaves _ ih =>
    cases h with
    | forget hk _ => exact ⟨_, _, rfl, hk⟩
    | closeScope hk _ => exact ⟨_, _, rfl, hk⟩
    | step effect next => cases effect <;> first | exact ih next | exact hleaves.elim
    | _ => exact hleaves.elim

end Safe

/-! ## Where the loop stands -/

/-- **The loop is in the program's own code**: its only call is the one by which the host
entered. -/
def Machine.Outermost (b m : Machine) : Prop := ∃ base, m.callList = ⟨base, none⟩ :: b.callList

/-- **A catch that guards the program**: the program's own code has executed it, and returns after
it. -/
structure Guards (S : Parts) (b point : Machine) : Prop where
  outermost : Outermost b point
  returns : ∀ target, S.program.Handler point target →
    ∃ code, Code.At S.functions target code ∧ Code.Returns code

/-- **How guarded code ended**, among what is reached from `first`: its catch, the only one that was
open, was left with a value on top of the stack, or received an error. -/
inductive CatchEnds (E : Setting) (first : Activity) (b : Machine) (v : Value) : Prop where
  | value {m point : Machine} (reached : Reaches E first (.loop b (.running m) [point]))
      (leaves : decode E.program.code m.pc = .ok .leaveCatch)
      (top : m.HasTop v)
  | error {a} {e : ErrorValue} {m m' point left}
      (reached : Reaches E first a) (raises : Raises E a b [point] e m (.running m'))
      (resumes : Resumes E.program point e m m' left)
      (value : v = ErrorValue.toValue { e with trace := e.trace ++ left.filterMap m.calleeName })

/-- **Where a loop of the program stands** in relation to the catch around everything. -/
inductive Machine.Contained (S : Parts) (E : Setting) (first : Activity) (b : Machine) :
    List Machine → Machine → Prop where
  | before {m : Machine} {code} (place : Code.At S.functions m.pc code)
      (guarded : Code.Guarded code) (outermost : Outermost b m) : Contained S E first b [] m
  | inside (inner : List Machine) {point m} (guards : Guards S b point) :
      Contained S E first b (inner ++ [point]) m
  | after {m code v} (place : Code.At S.functions m.pc code)
      (returns : Code.Returns code) (outermost : Outermost b m) (top : m.HasTop v)
      (ends : CatchEnds E first b v) : Contained S E first b [] m

/-- The loop waits for the host only while the catch is open, and ends with a value. -/
def Progress.Contained (S : Parts) (E : Setting) (first : Activity) (b : Machine)
    (live : List Machine) : Progress → Prop
  | .running m => Machine.Contained S E first b live m
  | .waiting _ _ => ∃ inner point, live = inner ++ [point] ∧ Guards S b point
  | .finished r _ => ∃ v, r = .ok v ∧ CatchEnds E first b v

section Stepping

variable {S : Parts} {V : Slots} {E : Setting} {first : Activity} {b m : Machine}
  {live : List Machine}

/-- The item at the machine's place is an instruction that was read. -/
lemma Code.At.plain_of_decode (hi : ∀ t, i ≠ .function t)
    (hp : Code.At S.functions m.pc code) {L} (hs : Safe S.tables code L)
    (hdec : decode S.program.code m.pc = .ok i) :
    ∃ d rest, code = .plain i d :: rest := by
  cases code with
  | nil =>
    obtain ⟨d, hd⟩ := hs.mem_ret
    cases hd
  | cons item rest =>
    have hitem : decode S.program.code m.pc = _ := Code.decode_at hp
    rw [hdec] at hitem
    cases item with
    | plain j d =>
      cases hitem
      exact ⟨d, rest, rfl⟩
    | makeFunction index =>
      cases hitem
      exact absurd rfl (hi _)

variable {point raised : Machine} {rest inner : List Machine}

/-- **A catch is left** in the scope that it was opened in, by code that goes on as it does after an
error. -/
theorem Machine.Runs.leaves_catch (h : Runs S V b (point :: rest) m)
    (hd : decode S.program.code m.pc = .ok .leaveCatch) :
    ∃ d code ks cs outer t,
      Code.At S.functions m.pc (.plain .leaveCatch d :: code) ∧ Code.At S.functions t code
      ∧ S.program.Handler point t ∧ Safe S.tables code (⟨ks, cs, .block⟩ :: outer)
      ∧ Fits S V b (⟨ks, code :: cs, .block⟩ :: outer) (point :: rest) m
      ∧ point.callList = m.callList := by
  obtain ⟨L, code, hf, hp, hs⟩ := h.next hd rfl
  obtain ⟨d, code, rfl⟩ := hp.plain_of_decode (fun _ heq => by cases heq) hs hd
  obtain ⟨ks, cs, entry, outer, rfl, hnext⟩ := hs.of_leaveCatch rfl
  have hstacks := hf.stacked
  generalize hlive : point :: rest = live at hstacks
  generalize m.operands = operands at hstacks
  generalize m.scopeList = scopes at hstacks
  generalize hcallList : m.callList = calls at hstacks
  cases hstacks with
  | block _ _ catching =>
    cases catching with
    | cons os place safe handler hops hsc hcs =>
      cases hlive
      exact ⟨d, code, ks, cs, outer, _, hp, place, handler, hnext, hf, hcs⟩

/-- **A return** gives the value on top to the code that called, or to the host. Then no catch is
open. -/
theorem Machine.Runs.executes_ret (host : Host) (h : Runs S V b live m)
    (hd : decode S.program.code m.pc = .ok .ret) :
    ∃ v base ret rest k, m.HasTop v ∧ m.callList = ⟨base, ret⟩ :: rest
      ∧ Machine.execute S.program host .ret (m.fetched .ret) = returnWith v base ret k
      ∧ (ret = none → live = []) := by
  obtain ⟨v, ops, base, ret, rest, hreturns⟩ := h.returns hd
  refine ⟨v, base, ret, rest, _, ?_, hreturns.calls,
    execute_ret (m := m.fetched .ret) hreturns.operands hreturns.floor hreturns.floor_calls
      hreturns.calls, fun hn => (hreturns.host hn).2.2.2⟩
  rw [HasTop, back?_eq_head?]
  exact congrArg head? hreturns.operands

/-- The place of the machine when the catch has received an error. -/
lemma Progress.contained_raised (hS : S.Closed) (hprog : E.program = S.program)
    (hhost : E.host.Honest) {a : Activity} (ha : a.Sound S) (hr : Reaches E first a)
     {e next}
    (hraises : Raises E a b (inner ++ [point]) e raised next) (hguards : Guards S b point)
    (hl : raised.exhausted = false) :
    next.Contained S E first b (inner ++ [point]).tail := by
  obtain ⟨herror, hunwinds, rfl⟩ := hraises.unwinds hS hprog hhost ha
  cases inner with
  | nil =>
    obtain ⟨m', left, hrec, -, hresumes⟩ := hunwinds.recover_caught hl herror
    have hnext : ofResult (.error (.raised e) raised) = .running m' := by rw [ofResult, hrec]
    rw [hnext] at hraises ⊢
    obtain ⟨code, hp, hreturns⟩ := hguards.returns m'.pc hresumes.handler
    have houtermost : Outermost b m' := by
      obtain ⟨base, hcs⟩ := hguards.outermost
      refine ⟨base, ?_⟩
      rw [callList, hresumes.calls]
      exact hcs
    have htop : m'.HasTop
        (ErrorValue.toValue { e with trace := e.trace ++ left.filterMap raised.calleeName }) := by
      rw [HasTop, hresumes.stack]
      exact Array.back?_push
    exact .after hp hreturns houtermost htop
      (.error hr hraises (hprog ▸ hresumes) rfl)
  | cons other inner =>
    obtain ⟨m', left, hrec, -, -⟩ := hunwinds.recover_caught hl herror
    rw [ofResult, hrec]
    exact .inside _ hguards

section Step

variable (hS : S.Closed) (hprog : E.program = S.program) (hhost : E.host.Honest)
  {depth : Nat} (hlimits : E.limits = { depth })

include hlimits in
lemma countStep_unlimited : countStep E.limits m = .ok () m.counted := by
  rw [hlimits]
  rfl

variable {ans : Except ErrorValue (Exec Unit)} {job : Job (Exec Unit)} {fuel : Nat}

include hlimits in
lemma step_unlimited (hd : decode E.program.code m.pc = .ok i) :
    step E m = execute E.program E.host i (m.fetched i) :=
  step_eq (countStep_unlimited hlimits) hd

include hlimits in
lemma liveAfterStep_unlimited (hd : decode E.program.code m.pc = .ok i) :
    liveAfterStep E m live = liveAfter i m live := by
  rw [liveAfterStep, countStep_unlimited hlimits, hd]

include hlimits in
/-- Without limits nothing is ever spent. -/
lemma exhausted_of_step {t} (h : step E m = .error t raised) :
    raised.exhausted = m.exhausted := by
  have hc := ((brief_uncounted E.program E.host).ordinary m.counted).clock
  rw [step_eq_bind, Exec.bind_ok (countStep_unlimited hlimits)] at h
  rw [Exec.ending, h] at hc
  exact congrArg Prod.snd hc

include hlimits in
lemma exhausted_of_perform (hjob : job.Yields Exec.Ordinary)
    (h : perform E fuel .resume job m = some (ans, m')) : m'.exhausted = m.exhausted := by
  have hran := Task.ran_of_run (t := .perform .resume job m) (by rw [Task.run_eq]; exact h)
  refine hran.clock (Q := fun c c' => c'.2 = c.2) (fun _ => rfl) (fun h h' => h'.trans h)
    (fun k => ?_) hjob
  have hcs : k.Counts E.limits := by
    rw [hlimits]
    rfl
  have hc : (k.advance E).machine.clock.2 = k.exhausted := congrArg Prod.snd (clock_advance hcs).1
  exact hc

include hS hprog hhost hlimits

/-- **An instruction that raises no error** is executed, and the loop goes on. -/
theorem step_calm (hruns : Runs S .all b live m)
    (hd : decode E.program.code m.pc = .ok i) {x}
    (haction : execute E.program E.host i = thenNext x) (hcalm : ∀ m, Exec.Calm x m) :
    ∃ m', step E m = .ok .next m' ∧ x (m.fetched i) = .ok () m'
      ∧ m'.pc = m.pc + i.width ∧ m'.calls = m.calls := by
  have hlands := Runs.step hS hprog hhost hruns fun _ _ => reserves_all
  rw [step_unlimited hlimits hd, haction] at hlands ⊢
  have hfetched := hcalm (m.fetched i)
  unfold Exec.Calm at hfetched
  cases hr : x (m.fetched i) with
  | ok u m' =>
    rw [hr] at hfetched
    exact ⟨m', thenNext_ok hr, rfl, hfetched⟩
  | error t m' =>
    rw [hr] at hfetched
    obtain ⟨fault, rfl⟩ := hfetched
    rw [thenNext_error hr] at hlands
    exact hlands.elim

/-- An item that raises no error is executed, and the loop goes on with the next one. -/
lemma step_calm_item (hruns : Runs S .all b [] m) {item}
    (hp : Code.At S.functions m.pc (item :: code)) (hcalm : item.Calm)
    (houtermost : Outermost b m) :
    ∃ m', step E m = .ok .next m' ∧ Code.At S.functions m'.pc code ∧ Outermost b m'
      ∧ liveAfterStep E m [] = [] := by
  have hd : decode E.program.code m.pc
      = .ok (item.instruction (Code.offsetsFrom 0 S.functions)) := by
    rw [hprog]
    exact Code.decode_at hp
  have hi := hcalm.instruction (Code.offsetsFrom 0 S.functions)
  obtain ⟨x, haction, hactionCalm⟩ := hi.execute E.program E.host
  obtain ⟨m', hstep, -, hpc, hcs⟩ := step_calm hS hprog hhost hlimits hruns hd haction hactionCalm
  refine ⟨m', hstep, ?_, ?_, ?_⟩
  · rw [hpc]
    have hwidth : (item.instruction (Code.offsetsFrom 0 S.functions)).width = item.width := by
      cases item <;> rfl
    rw [hwidth]
    exact hp.next
  · obtain ⟨base, heq⟩ := houtermost
    exact ⟨base, by rw [callList, hcs]; exact heq⟩
  · rw [liveAfterStep_unlimited hlimits hd]
    generalize item.instruction _ = i at hi
    cases i <;> first | rfl | exact hi.elim

/-- **Before the catch** nothing is raised, until the catch is executed. -/
theorem Machine.Contained.advance_before (hruns : Runs S .all b [] m)
    (hp : Code.At S.functions m.pc code) (hguarded : Code.Guarded code)
    (houtermost : Outermost b m) : (m.advance E).Contained S E first b
      (liveAfterError (liveAfterStep E m []) (step E m)) := by
  cases hguarded with
  | item hcalm rest =>
    obtain ⟨m', hstep, hnext, houtermost', hlive⟩ :=
      step_calm_item hS hprog hhost hlimits hruns hp hcalm houtermost
    rw [advance, hstep, hlive]
    exact .before hnext rest houtermost'
  | here h =>
    obtain ⟨n, d, guarded, rest, rfl, hn, hreturns⟩ := h
    have hd : decode E.program.code m.pc = .ok (.enterCatch n) := by
      rw [hprog]
      exact Code.decode_at hp
    obtain ⟨m', hstep, -⟩ := step_calm hS hprog hhost hlimits hruns hd rfl fun m =>
      calm_modifyScope m _
    rw [advance, hstep, liveAfterStep_unlimited hlimits hd]
    refine Machine.Contained.inside [] ⟨houtermost, ?_⟩
    rintro t ⟨k, hk, rfl⟩
    rw [← hprog, hd] at hk
    cases hk
    refine ⟨rest, ?_, hreturns⟩
    have hskip := (Code.At.next hp).skip
    rw [← hn] at hskip
    exact hskip

/-- **After the catch** the value on top is returned. -/
theorem Machine.Contained.advance_after (hruns : Runs S .all b [] m) {v}
    (hp : Code.At S.functions m.pc code) (hreturns : Code.Returns code)
    (houtermost : Outermost b m) (htop : m.HasTop v) (hends : CatchEnds E first b v) :
    (m.advance E).Contained S E first b (liveAfterError (liveAfterStep E m []) (step E m)) := by
  cases hreturns with
  | item hleaves rest =>
    obtain ⟨m', hstep, hnext, houtermost', hlive⟩ :=
      step_calm_item hS hprog hhost hlimits hruns hp hleaves.calm houtermost
    rw [advance, hstep, hlive]
    have hd := Code.decode_at hp
    change decode S.program.code m.pc = _ at hd
    rw [← hprog] at hd
    rw [step_unlimited hlimits hd] at hstep
    exact .after hnext rest houtermost' (hleaves.top (m := m.fetched _) htop hstep) hends
  | here h =>
    obtain ⟨d, rest, rfl⟩ := h
    have hd : decode E.program.code m.pc = .ok .ret := by
      rw [hprog]
      exact Code.decode_at hp
    obtain ⟨w, base, ret, calls, k, hw, hcs, hret, -⟩ := hruns.executes_ret E.host (hprog ▸ hd)
    obtain ⟨base', heq⟩ := houtermost
    rw [hcs] at heq
    cases heq
    rw [HasTop, hw] at htop
    cases htop
    rw [advance, step_unlimited hlimits hd, hprog, hret]
    exact ⟨_, rfl, hends⟩

/-- **Inside the catch** it stays open, or it is left, or it receives an error. -/
theorem Machine.Contained.advance_inside
    (hruns : Runs S .all b (inner ++ [point]) m) (hguards : Guards S b point)
    (hreach : Reaches E first (.loop b (.running m) (inner ++ [point])))
    (hl : m.exhausted = false) : (m.advance E).Contained S E first b
      (liveAfterError (liveAfterStep E m (inner ++ [point])) (step E m)) := by
  obtain ⟨i, hd, -⟩ := hruns.execute hS hhost fun _ _ => reserves_all
  rw [← hprog] at hd
  have hstep := step_unlimited hlimits hd
  have hlive : liveAfterStep E m (inner ++ [point]) = liveAfter i m (inner ++ [point]) :=
    liveAfterStep_unlimited hlimits hd
  have hlands := Runs.step hS hprog hhost hruns fun _ _ => reserves_all
  by_cases henter : ∃ n, i = .enterCatch n
  · obtain ⟨n, rfl⟩ := henter
    obtain ⟨m', hnext, -⟩ := step_calm hS hprog hhost hlimits hruns hd rfl fun m =>
      calm_modifyScope m _
    rw [advance, hnext, hlive]
    exact Machine.Contained.inside (m :: inner) hguards
  by_cases hleave : i = .leaveCatch
  · subst hleave
    obtain ⟨m', hnext, haction, hpc, hcs⟩ := step_calm hS hprog hhost hlimits hruns hd rfl
      fun m => calm_modifyScope m _
    rw [advance, hnext, hlive]
    cases inner with
    | cons other inner => exact Machine.Contained.inside inner hguards
    | nil =>
      obtain ⟨d, code, ks, cs, outer, tgt, hp, ht, hhandler, hs, hf,
        hpoint⟩ := hruns.leaves_catch (hprog ▸ hd)
      obtain ⟨code', hplace', hreturns'⟩ := hguards.returns tgt hhandler
      obtain ⟨more, more', heq⟩ := hplace'.comparable ht
      have hreturns := hreturns'.of_append heq hs.mem_ret
      obtain ⟨k, below, rfl, hk⟩ := hs.top_of_returns hreturns
      obtain ⟨seg, ops, hops, hseg, -⟩ := Fits.split (a := [k]) hf
      obtain ⟨x, rfl, hx⟩ := Content.holds_one hseg
      obtain ⟨v, rfl, -⟩ := hx.full hk
      have htop : m.HasTop v := by
        rw [HasTop, back?_eq_head?]
        exact congrArg head? hops
      have htop' := triple_modifyScope_top (fun s => { s with recovery := s.recovery.tail })
        (m.fetched .leaveCatch) htop
      rw [haction] at htop'
      have houtermost : Outermost b m' := by
        obtain ⟨base, hbase⟩ := hguards.outermost
        refine ⟨base, ?_⟩
        rw [callList, hcs]
        exact hpoint.symm.trans hbase
      exact .after (by rw [hpc]; exact hp.next) hreturns houtermost htop'
        (.value hreach hd htop)
  · have hsame : liveAfterStep E m (inner ++ [point]) = inner ++ [point] := by
      rw [hlive]
      cases i <;> first | rfl | exact absurd ⟨_, rfl⟩ henter | exact absurd rfl hleave
    rw [hsame] at hlands ⊢
    rw [advance]
    cases hr : step E m with
    | ok signal m' =>
      cases signal with
      | next => exact .inside _ hguards
      | «await» job => exact ⟨inner, point, rfl, hguards⟩
      | «yield» v =>
        rw [hstep] at hr
        by_cases hret : i = .ret
        · subst hret
          obtain ⟨w, base, ret, calls, k, -, -, hreturn, hn⟩ :=
            hruns.executes_ret E.host (hprog ▸ hd)
          rw [hprog, hreturn] at hr
          cases ret with
          | none => exact absurd (hn rfl) (by simp)
          | some pc => cases hr
        · exact absurd hr (goesOn_execute _ _ hret _ _ _)
    | error t raised =>
      rw [hr] at hlands
      cases t with
      | fault f => exact hlands.elim
      | raised e =>
        have hraises : Raises E (.loop b (.running m) (inner ++ [point])) b
            (liveAfterStep E m (inner ++ [point])) e raised (m.advance E) := .step hr
        rw [hsame, advance, hr] at hraises
        have hspent : raised.exhausted = false := (exhausted_of_step hlimits hr).trans hl
        rw [liveAfterError, hspent]
        exact contained_raised hS hprog hhost (a := .loop b (.running m) _) hruns hreach
          hraises hguards hspent

/-- **A step of the loop** keeps to the parts of the code around the catch. -/
theorem Machine.Contained.advance (h : Machine.Contained S E first b live m)
    (hruns : Runs S .all b live m) (hr : Reaches E first (.loop b (.running m) live))
    (hlimit : m.exhausted = false) : (m.advance E).Contained S E first b
      (liveAfterError (liveAfterStep E m live) (step E m)) := by
  cases h with
  | before place guarded outermost =>
    exact advance_before hS hprog hhost hlimits hruns place guarded outermost
  | inside _ guards => exact advance_inside hS hprog hhost hlimits hruns guards hr hlimit
  | after place returns outermost top ends =>
    exact advance_after hS hprog hhost hlimits hruns place returns outermost top ends

omit hlimits in
/-- **What the host worked for** is completed inside the catch. -/
theorem Progress.Contained.resume (h : (waiting job m).Contained S E first b live)
    (hf : (waiting job m).Fits S .all b live) (hbr : job.Yields Exec.Ordinary)
    (hreach : Reaches E first (.loop b (.waiting job m) live))
    (hp : perform E fuel .resume job m = some (ans, m'))
    (hl : m'.exhausted = false) : (resume m' ans).Contained S E first b
      (liveAfterError live (m'.answered ans)) := by
  obtain ⟨inner, point, rfl, hguards⟩ := h
  obtain ⟨hunwinds, hops, hjob⟩ := id hf
  obtain ⟨hans, hk⟩ := (safeguards hS hprog hhost fuel).perform (hunwinds.sound hops) hjob
    hp
  have hlands := hunwinds.answered hk hans
  rw [resume_eq]
  cases hr : m'.answered ans with
  | ok signal m₁ =>
    have hnext : signal = .next := by
      cases ans with
      | ok x =>
        change thenNext x m' = _ at hr
        cases hdone : x m' with
        | ok u m₂ => rw [thenNext_ok hdone] at hr; cases hr; rfl
        | error t m₂ => rw [thenNext_error hdone] at hr; cases hr
      | error e => cases hr
    rw [hnext]
    exact .inside _ hguards
  | error t raised =>
    rw [hr] at hlands
    cases t with
    | fault f => exact hlands.elim
    | raised e =>
      have hraises : Raises E (.loop b (.waiting job m) (inner ++ [point])) b
        (inner ++ [point]) e raised (.resume m' ans) := .answer hp hr
      rw [resume_eq, hr] at hraises
      have hspent : raised.exhausted = false := by
        cases ans with
        | error e' =>
          cases hr
          exact hl
        | ok x =>
          have hordinary : Exec.Ordinary x := yields_of_perform hbr hp
          have hc := ((Brief.thenNext hordinary).ordinary m').clock
          rw [Exec.ending, show thenNext x m' = _ from hr] at hc
          exact (congrArg Prod.snd hc).trans hl
      rw [liveAfterError, hspent]
      exact contained_raised hS hprog hhost (a := .loop b (.waiting job m) _) hf hreach
        hraises hguards hspent

/-- **A loop around everything in which a catch stands ends with a value.** -/
theorem Progress.Contained.drive : ∀ {fuel p live r m}, p.Contained S E first b live →
    p.Fits S .all b live → p.Brief → Reaches E first (.loop b p live) →
    p.machine.exhausted = false → Machine.drive E fuel p = some (r, m) →
    ∃ v, r = .ok v ∧ CatchEnds E first b v
  | 0, p, _, _, _, _, _, _, _, _, h => by simp [Machine.drive] at h
  | fuel + 1, .finished res m₀, live, r, m, hp, _, _, _, _, h => by
    simp only [Machine.drive, Option.some.injEq, Prod.mk.injEq] at h
    obtain ⟨rfl, -⟩ := h
    exact hp
  | fuel + 1, .running m₀, live, r, m, hp, hf, _, hr, hlimit, h => by
    have hcs : m₀.Counts E.limits := by
      rw [hlimits]
      rfl
    have hnext := Machine.Contained.advance hS hprog hhost hlimits hp hf hr hlimit
    have hfits' := Leads.sound hS hprog hhost
      (.step : Leads E (.loop b (.running m₀) live) _) hf
    have hc := (clock_advance hcs).1
    exact Contained.drive hnext hfits' (brief_advance E m₀) (hr.tail .step)
      ((congrArg Prod.snd hc).trans hlimit) h
  | fuel + 1, .waiting job m₀, live, r, m, hp, hf, hbr, hr, hlimit, h => by
    simp only [Machine.drive] at h
    split at h
    · cases h
    · next ans m₁ hperf =>
      change job.Yields Exec.Ordinary at hbr
      have hspent := (exhausted_of_perform hlimits hbr hperf).trans hlimit
      have hnext := hp.resume hS hprog hhost hf hbr hr hperf hspent
      have hl : Leads E (.loop b (.waiting job m₀) live) _ := .resume hperf
      have hfits' := hl.sound hS hprog hhost hf
      have hordinary : ∀ x, ans = .ok x → Exec.Ordinary x := fun x heq =>
        yields_of_perform hbr (heq ▸ hperf)
      obtain ⟨hc, hbrief'⟩ := clock_resume (m := m₁) hordinary
      exact Contained.drive hnext hfits' hbrief' (hr.tail hl)
        ((congrArg Prod.snd hc).trans hspent) h

end Step

end Stepping

/-! ## The code of an expression inside a catch -/

section Code

open Code Lower

variable {env : Environment} {D : Draft}

lemma leaves_detachSlots (b) : ∀ item ∈ detachSlots b, item.Leaves := by
  intro item hitem
  obtain ⟨slot, -, hs⟩ := mem_flatMap.mp hitem
  rw [mem_singleton.mp hs]
  trivial

lemma calm_reserveSlots (b) : ∀ item ∈ reserveSlots b, item.Calm := by
  intro item hitem
  unfold reserveSlots at hitem
  split at hitem
  · cases hitem
  · rw [mem_singleton.mp hitem]
    trivial

/-- What follows a block leaves its scope and goes on. -/
lemma Code.Returns.leaving (b) (h : Returns code) :
    Returns (detachSlots b ++ (emit .popScope ++ code)) :=
  .append (leaves_detachSlots b) (.item trivial h)

variable {label : String} {r inner : Expr}

/-- Code that makes a function raises no error. -/
lemma Lowered.calm_given {params nps}
    (h : Lowered env D label (.given params nps r) code) : ∀ item ∈ code, item.Calm := by
  rw [Lowered] at h
  obtain ⟨index, f, -, -, -, -, -, -, -, -, -, -, -, -, rfl⟩ := h
  refine forall_mem_cons.mpr ⟨trivial, fun item hitem => ?_⟩
  obtain ⟨place, -, hp⟩ := mem_flatMap.mp hitem
  rw [mem_singleton.mp hp]
  cases place <;> trivial

lemma LoweredLibrary.calm : ∀ {ds slot code},
    (∀ x ∈ ds, ∃ params nps r, x.2 = .given params nps r) →
    LoweredLibrary env D slot ds code → ∀ item ∈ code, item.Calm
  | [], slot, code, _, h => by
    rw [LoweredLibrary] at h
    rw [h]
    exact forall_mem_nil _
  | (name, e) :: ds, slot, code, hgiven, h => by
    rw [LoweredLibrary] at h
    obtain ⟨first, os, hf, ho, -, rfl⟩ := h
    rw [forall_mem_cons] at hgiven
    obtain ⟨⟨params, nps, r, heq⟩, hgiven⟩ := hgiven
    dsimp only at heq
    subst heq
    have hr := LoweredLibrary.calm hgiven ho
    exact forall_mem_append.mpr ⟨hf.calm_given, forall_mem_cons.mpr ⟨trivial, hr⟩⟩

/-- **Code of a catch** comes to the catch and goes on after it. -/
theorem Lowered.guarded {rest}
    (h : Lowered env D label (.catching inner) code) (hr : Returns rest) :
    Guarded (code ++ rest) := by
  rw [Lowered] at h
  obtain ⟨guarded, captured, -, hwidth, rfl⟩ := h
  simp only [append_assoc]
  refine .item trivial (.here ⟨_, none, guarded ++ emit .leaveCatch, _, ?_,
    UInt32.toNat_ofNat_of_lt' hwidth, hr.leaving { captured }⟩)
  simp only [append_assoc]
  rfl

/-- **The program of a catch** raises no error before it and returns after it. -/
theorem LoweredMain.guarded {body} (h : LoweredMain env D (.catching inner) body)
    (hlib : ∀ name d, (name, .source d) ∈ env.library →
      ∃ params nps r, d = .given params nps r) : Guarded body := by
  obtain ⟨body, rfl, hbody⟩ := h
  have hret : Returns (emit .ret) := .here ⟨none, [], rfl⟩
  split at hbody
  · exact hbody.guarded hret
  · obtain ⟨ds, last, captured, hds, hl, -, rfl⟩ := hbody
    have hcalm := LoweredLibrary.calm (fun x hx => hlib x.1 x.2
      (Library.mem_sources.mp ((env.retained_sublist _).subset hx))) hds
    have hguarded := hl.guarded (hret.leaving { captured })
    simp only [append_assoc] at hguarded ⊢
    have hdefined :=
      Until.append (calm_reserveSlots (libraryScope (env.retained (.catching inner))))
      (.append hcalm hguarded)
    exact Until.item trivial hdefined

end Code

/-- **A catch around an expression contains every error**: whatever functions of the host,
callbacks, streams and loops inside one another are involved, a run that ends does so with a value,
which the expression left or which is the error that the catch received. -/
theorem Expr.catching_contains_errors {env : Environment} {e : Expr} {p : Program} {host : Host}
    {heap : Heap} {given : Closure → Prop} {limits : Limits} {fuel : Nat} {outcome : Outcome}
    {m : Machine} (henv : env.Gives Value.ClosureFree)
    (hlibrary : ∀ name d, (name, .source d) ∈ env.library →
      ∃ params namedParams result, d = .given params namedParams result)
    (he : ∀ v ∈ e.literals, v.ClosureFree) (hhost : host.Honest)
    (hlower : (Expr.catching e).lower env = .ok p) (hsize : p.code.size < UInt32.size)
    (hsession : Session p host heap given) (hsteps : limits.steps = none)
    (htime : limits.nanoseconds = none) (hdepth : 1 ≤ limits.depth)
    (hrun : (Machine.start heap).run ⟨p, host, limits⟩ fuel = some (outcome, m)) :
    ∃ v, outcome = .value v
      ∧ CatchEnds ⟨p, host, limits⟩ (.main heap) (Machine.start heap).started v := by
  obtain ⟨D, body, rfl, hcompiled⟩ := Expr.lower_compiled henv (e := .catching e)
    (by simpa only [Expr.literals] using he) hlower hsize
  obtain ⟨hS, hmain⟩ := hcompiled.closed hsize
  obtain ⟨depth, hlimits⟩ : ∃ depth, limits = { depth } := by
    obtain ⟨steps, time, depth⟩ := limits
    cases hsteps
    cases htime
    exact ⟨depth, rfl⟩
  have hstarted : Machine.Sound ⟨D.tables, body⟩ (Machine.start heap).started :=
    ⟨nofun, nofun, rfl, (hsession.sound (S := ⟨D.tables, body⟩) hS hmain hhost).1⟩
  obtain ⟨⟨result, m₁⟩, henter, hdone⟩ := Option.bind_eq_some_iff.mp hrun
  cases hdone
  cases fuel with
  | zero => cases henter
  | succ fuel =>
    rw [Machine.enter] at henter
    split at henter
    · next hle => exact absurd hdepth (Nat.not_le.mpr (Nat.lt_succ_of_le hle))
    dsimp only at henter
    split at henter
    · cases henter
    · next ended m₂ hdrive =>
      cases henter
      have hopened := hstarted.opened (V := .all) hmain (List.forall_mem_nil _) Entries.only_nil
      have hplace : Code.At (Parts.functions ⟨D.tables, body⟩) 0 body :=
        Code.at_offset (i := 0) (show (Parts.functions ⟨D.tables, body⟩)[0]? = some _ from rfl)
      have hbefore :
        (Progress.running ((Machine.start heap).started.opened 0 .null [] [])).Contained
          ⟨D.tables, body⟩ ⟨D.program body, host, limits⟩ (.main heap) (Machine.start heap).started
          [] := Machine.Contained.before hplace (hcompiled.main.guarded hlibrary) ⟨0, rfl⟩
      obtain ⟨v, rfl, hends⟩ := hbefore.drive hS rfl hhost hlimits hopened trivial
        (.single (.enter hdepth)) rfl hdrive
      exact ⟨v, rfl, hends⟩

/-! ### An error in a callback -/

namespace Session

/-- A host function that calls what cannot be called. -/
def abort : Native where
  params := {}
  body _ := Job.invoke .null [] []

def aborting : Host := { natives := #[abort] }

/-- A library function that the host function stops. -/
def stoppedLibrary : Environment where
  library :=
    [("abort", .value (.native ⟨"abort", 0, 0⟩)),
      ("stop", .source (.given [.required (.name "x")] [] (.calling (.name "abort" none) [] [])))]

def stopping : Expr := .calling (.name "stop" none) [.item (.literal .null)] []

lemma aborting_honest : aborting.Honest := by
  intro code n hn
  obtain rfl : n = abort := by
    obtain ⟨hlt, heq⟩ := Array.getElem?_eq_some_iff.mp hn
    obtain rfl : code = 0 := Nat.lt_one_iff.mp hlt
    exact heq.symm
  exact ⟨⟨nofun, nofun, nofun, nofun⟩, fun P _ _ =>
    Job.handles_invoke Value.only_null (forall_mem_nil _) Entries.only_nil⟩

lemma stoppedLibrary_gives : stoppedLibrary.Gives Value.ClosureFree where
  names _ _ h := by cases h
  modules _ _ _ _ h := by cases h
  library name value h := by
    have hmem := Entries.mem_of_get? h
    simp only [stoppedLibrary, mem_cons, Prod.mk.injEq, Definition.value.injEq,
      reduceCtorEq, and_false, not_mem_nil, or_false] at hmem
    obtain ⟨-, rfl⟩ := hmem
    exact Value.only_native _
  sources name d h := by
    simp only [stoppedLibrary, mem_cons, Prod.mk.injEq, Definition.source.injEq,
      reduceCtorEq, and_false, not_mem_nil, or_false, false_or] at h
    obtain ⟨-, rfl⟩ := h
    exact forall_mem_nil _

def gaveValue : Outcome × Machine → Bool
  | (.value _, _) => true
  | _ => false

lemma stopping_runs : ∃ p m v, (Expr.catching stopping).lower stoppedLibrary = .ok p
    ∧ p.code.size < UInt32.size
    ∧ (Machine.start {}).run ⟨p, aborting, {}⟩ 40 = some (.value v, m) := by
  have hruns : ((Expr.catching stopping).lower stoppedLibrary).toOption.any (fun p =>
      decide (p.code.size < UInt32.size)
        && ((Machine.start {}).run ⟨p, aborting, {}⟩ 40).any gaveValue) = true := by decide +kernel
  obtain ⟨p, hl, htest⟩ := Expr.lowers_of_any hruns
  obtain ⟨hs, htest⟩ := Bool.and_eq_true_iff.mp htest
  obtain ⟨r, hrun, hv⟩ := (Option.any_eq_true _ _).mp htest
  unfold gaveValue at hv
  split at hv
  · next v m => exact ⟨p, m, v, hl, of_decide_eq_true hs, hrun⟩
  · cases hv

end Session

/-- The catch contains the error of the host function. -/
theorem Expr.catching_contains_errors_stopping : ∃ p m v,
    (Expr.catching Session.stopping).lower Session.stoppedLibrary = .ok p
      ∧ (Machine.start {}).run ⟨p, Session.aborting, {}⟩ 40 = some (.value v, m)
      ∧ ∃ w, Outcome.value v = .value w ∧ CatchEnds ⟨p, Session.aborting, {}⟩ (.main {})
        (Machine.start {}).started w := by
  obtain ⟨p, m, v, hlower, hsize, hrun⟩ := Session.stopping_runs
  refine ⟨p, m, v, hlower, hrun, Expr.catching_contains_errors Session.stoppedLibrary_gives ?_
    (e := Session.stopping) (List.forall_mem_cons.mpr ⟨Value.only_null, List.forall_mem_nil _⟩)
    Session.aborting_honest hlower hsize .new rfl rfl (by decide) hrun⟩
  intro name d h
  simp only [Session.stoppedLibrary, List.mem_cons, Prod.mk.injEq, Definition.source.injEq,
    reduceCtorEq, and_false, List.not_mem_nil, or_false, false_or] at h
  exact ⟨_, _, _, h.2⟩

end TreeCode
