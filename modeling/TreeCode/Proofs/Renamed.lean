import TreeCode.Proofs.RoundTrip
import TreeCode.Proofs.Tasks
import TreeCode.Proofs.Uniform

/-!
# A renamed machine runs the same

A machine with its instances of host functions renamed, on the program with its tables renamed, does
step by step what the machine does without the renaming: it comes to the renamed outcome in as many
steps (`Renaming.run_machine`). The host must not tell instances apart (`Host.Uniform`).
-/

namespace TreeCode

open List

namespace Renaming

variable (ρ : Renaming) {α β : Type}

/-! ## Machines -/

/-- **A machine with its values renamed.** -/
def machine (m : Machine) : Machine :=
  { m with
    stack := m.stack.map (Option.map ρ.value)
    held := m.held.map ρ.value
    heap := ρ.heap m.heap }

def trap : Trap → Trap
  | .raised e => .raised (ρ.error e)
  | .fault fault => .fault fault

/-- How an action ended, renamed. -/
def ended (f : α → α) : EStateM.Result Trap Machine α → EStateM.Result Trap Machine α
  | .ok a m => .ok (f a) (ρ.machine m)
  | .error t m => .error (ρ.trap t) (ρ.machine m)

/-- **An action on machines with other names.** -/
def exec (f : α → α) (x : Exec α) : Exec α := fun m => ρ.ended f (x (ρ.machine m))

/-- A program with its tables renamed. -/
def program (p : Program) : Program :=
  { p with
    constants := p.constants.map ρ.value
    platform := p.platform.map fun entry => { entry with value := ρ.value entry.value } }

@[simp]
lemma machine_machine (m) : ρ.machine (ρ.machine m) = m := by
  have hsl : Option.map ρ.value ∘ Option.map ρ.value = id := funext ρ.option_map_value
  simp [machine, hsl]

section Fields

variable (m : Machine)

@[simp]
lemma size_stack : (ρ.machine m).stack.size = m.stack.size := Array.size_map

lemma slotContent_machine (slot) :
    (ρ.machine m).slotContent slot = (m.slotContent slot).map ρ.value := by
  simp only [Machine.slotContent, machine, Array.getElem?_map]
  cases m.stack[slot]? <;> rfl

lemma back?_stack : (ρ.machine m).stack.back? = m.stack.back?.map (Option.map ρ.value) := by
  simp [machine, Array.back?]

lemma contentsOf_machine (cells) : (ρ.machine m).contentsOf cells
    = (m.contentsOf cells).map fun c => (c.1, c.2.map ρ.value) := by
  simp [Machine.contentsOf, slotContent_machine, Function.comp_def]

lemma detachFrom_machine (height : Nat) :
    (ρ.machine m).detachFrom height = ρ.machine (m.detachFrom height) := by
  simp only [Machine.detachFrom, contentsOf_machine]
  simp only [machine, heap_closeCells]

lemma truncate_machine (height : Nat) :
    (ρ.machine m).truncate height = ρ.machine (m.truncate height) := by
  simp only [Machine.truncate, detachFrom_machine]
  simp [machine, Array.shrink_eq_take]

lemma closeSlot_machine (slot) :
    (ρ.machine m).closeSlot slot = ρ.machine (m.closeSlot slot) := by
  rw [Machine.closeSlot, Machine.closeSlot]
  rw [show (ρ.machine m).openCells = m.openCells from rfl]
  cases Machine.cellAt? slot m.openCells with
  | none => rfl
  | some cell =>
    simp only [contentsOf_machine]
    simp only [machine, heap_closeCells]

lemma readCell_machine (cell) :
    (ρ.machine m).readCell cell = (m.readCell cell).map ρ.value := by
  have hc : (ρ.machine m).heap.cell cell = ρ.upvalue (m.heap.cell cell) := ρ.heap_cell m.heap cell
  rw [Machine.readCell, hc, Machine.readCell]
  cases m.heap.cell cell with
  | onStack slot => exact ρ.slotContent_machine m slot
  | closed content => rfl

end Fields

/-! ## Actions -/

/-- **The action `x'` does on a renamed machine what `x` does.** -/
def Turns (f : α → α) (x x' : Exec α) : Prop := ∀ m, x' (ρ.machine m) = ρ.ended f (x m)

/-- The action does the same on a renamed machine. -/
abbrev Keeps (x : Exec α) : Prop := ρ.Turns id x x

variable {ρ} {f : α → α} {g : β → β}

lemma Turns.eq_exec {x x'} (h : ρ.Turns f x x') : x' = ρ.exec f x := by
  funext m
  rw [exec, ← h, machine_machine]

lemma turns_pure (a) : ρ.Turns f (pure a) (pure (f a)) := fun _ => rfl

lemma turns_raise (e) :
    ρ.Turns f (Machine.raise e) (Machine.raise (ρ.error e)) := fun _ => rfl

lemma turns_fail (fault) : ρ.Turns f (Machine.fail fault) (Machine.fail fault) := fun _ => rfl

lemma turns_get : ρ.Turns ρ.machine get get := fun _ => rfl

lemma turns_set (m) : ρ.Turns id (set m) (set (ρ.machine m)) := fun _ => rfl

lemma turns_modify {u u'} (h : ∀ m, u' (ρ.machine m) = ρ.machine (u m)) :
    ρ.Turns id (modify u) (modify u') := fun m => congrArg (EStateM.Result.ok ()) (h m)

lemma Turns.bind {x x' k k'} (hx : ρ.Turns f x x')
    (hk : ∀ a, ρ.Turns g (k a) (k' (f a))) : ρ.Turns g (x >>= k) (x' >>= k') := by
  intro m
  show EStateM.bind x' k' (ρ.machine m) = ρ.ended g (EStateM.bind x k m)
  rw [EStateM.bind, hx m, EStateM.bind]
  cases x m with
  | ok a m' => exact hk a m'
  | error t m' => rfl

open Machine

/-! ### The operand stack -/

lemma turns_push (v : Value) : ρ.Turns id (push v) (push (ρ.value v)) :=
  turns_modify fun m => by simp [machine]

lemma turns_pop : ρ.Turns ρ.value pop pop := by
  refine turns_get.bind fun m => ?_
  rw [size_stack]
  by_cases hfl : m.stack.size ≤ m.floor.stack
  · rw [if_pos hfl, if_pos (show m.stack.size ≤ (ρ.machine m).floor.stack from hfl)]
    exact turns_fail _
  · rw [if_neg hfl, if_neg (show ¬ m.stack.size ≤ (ρ.machine m).floor.stack from hfl), back?_stack]
    cases m.stack.back? with
    | none => exact turns_fail _
    | some slot =>
      cases slot with
      | none => exact turns_fail _
      | some v =>
        refine Turns.bind (f := id) ?_ fun _ => turns_pure v
        have hpop : { ρ.machine m with stack := (ρ.machine m).stack.pop }
            = ρ.machine { m with stack := m.stack.pop } := by simp [machine]
        rw [hpop]
        exact turns_set _

lemma turns_top : ρ.Turns ρ.value top top := by
  refine turns_get.bind fun m => ?_
  rw [back?_stack]
  cases m.stack.back? with
  | none => exact turns_fail _
  | some slot =>
    cases slot with
    | none => exact turns_fail _
    | some v => exact turns_pure v

lemma turns_replaceTop (v : Value) : ρ.Turns id (replaceTop v) (replaceTop (ρ.value v)) :=
  turns_modify fun m => by simp [machine]

lemma turns_topArray : ρ.Turns (map ρ.value) topArray topArray := by
  refine turns_top.bind fun v => ?_
  cases v with
  | array es =>
    rw [value_array]
    exact turns_pure es
  | _ => exact turns_fail _

lemma turns_topObject : ρ.Turns ρ.entries topObject topObject := by
  refine turns_top.bind fun v => ?_
  cases v with
  | object es => exact turns_pure es
  | _ => exact turns_fail _

/-! ### Scopes and calls -/

lemma turns_scope : ρ.Keeps scope := by
  refine turns_get.bind fun m => ?_
  rw [show (ρ.machine m).scopes = m.scopes from rfl, show (ρ.machine m).floor = m.floor from rfl]
  split
  · exact turns_fail _
  · cases m.scopes.back? with
    | none => exact turns_fail _
    | some s => exact turns_pure s

lemma turns_modifyScope (u : Scope → Scope) : ρ.Keeps (modifyScope u) :=
  turns_scope.bind fun _ => turns_modify fun _ => rfl

lemma turns_slotIndex (depth slot) : ρ.Keeps (slotIndex depth slot) := by
  refine turns_get.bind fun m => ?_
  simp only [size_stack, show (ρ.machine m).scopes = m.scopes from rfl]
  split
  · exact turns_fail _
  · cases m.scopes[m.scopes.size - 1 - depth.toNat]? with
    | none => exact turns_fail _
    | some s =>
      dsimp only
      split
      · exact turns_pure _
      · exact turns_fail _

lemma turns_runningCallee : ρ.Turns ρ.value runningCallee runningCallee := by
  refine turns_get.bind fun m => ?_
  rw [show (ρ.machine m).calls = m.calls from rfl]
  cases m.calls.back? with
  | none => exact turns_fail _
  | some call =>
    have hs : (ρ.machine m).stack[call.base]? = m.stack[call.base]?.map (Option.map ρ.value) :=
      Array.getElem?_map
    dsimp only
    rw [hs]
    cases m.stack[call.base]? with
    | none => exact turns_fail _
    | some slot =>
      cases slot with
      | none => exact turns_fail _
      | some v => exact turns_pure v

lemma turns_runningUpvalue (index) : ρ.Keeps (runningUpvalue index) := by
  refine turns_runningCallee.bind fun v => ?_
  cases v with
  | closure c =>
    simp only [value_closure]
    cases c.upvalues[index.toNat]? with
    | none => exact turns_fail _
    | some cell => exact turns_pure cell
  | _ => exact turns_fail _

/-! ### Captured variables -/

lemma turns_captureSlot (slot) : ρ.Keeps (captureSlot slot) := by
  refine turns_get.bind fun m => ?_
  rw [show (ρ.machine m).openCells = m.openCells from rfl]
  cases cellAt? slot m.openCells with
  | some cell => exact turns_pure cell
  | none =>
    dsimp only
    rw [show (ρ.machine m).heap = ρ.heap m.heap from rfl, heap_addCell]
    exact (turns_set _).bind fun _ => turns_pure _

lemma isHeldElsewhere_machine (m : Machine) (c) :
    (ρ.machine m).isHeldElsewhere c = m.isHeldElsewhere c := by
  have hb : Value.referencesOfAll (ρ.machine m).valuesBelowTop
      = Value.referencesOfAll m.valuesBelowTop := by
    have hvs : (ρ.machine m).valuesBelowTop = m.valuesBelowTop.map ρ.value := by
      simp only [valuesBelowTop, machine, ← Array.map_pop, Array.toList_map, map_append,
        filterMap_map, map_filterMap]
      rfl
    rw [hvs, referencesOfAll_map]
  have hheap : (ρ.machine m).heap = ρ.heap m.heap := rfl
  simp only [isHeldElsewhere, hb, hheap, heap_retained, heap_contents]

lemma turns_addUpvalue (cell) : ρ.Keeps (addUpvalue cell) := by
  have hcl : ρ.Keeps unsharedClosure := by
    refine turns_top.bind fun v => ?_
    cases v with
    | closure c =>
      refine turns_get.bind fun m => ?_
      rw [isHeldElsewhere_machine]
      show ρ.Turns id _ (if m.fresh == some c.id || !m.isHeldElsewhere c then return c
        else fail .notAClosure)
      split
      · exact turns_pure c
      · exact turns_fail _
    | _ => exact turns_fail _
  exact hcl.bind fun c => turns_replaceTop (.closure { c with upvalues := c.upvalues ++ [cell] })

/-! ### Budgets and tables -/

lemma turns_exhaust {e} (he : ρ.error e = e) : ρ.Keeps (exhaust e) := by
  refine Turns.bind (turns_modify fun _ => rfl) fun _ => ?_
  have hraise := turns_raise (ρ := ρ) (f := @id Unit) e
  rwa [he] at hraise

lemma turns_countStep (limits : Limits) : ρ.Keeps (countStep limits) := by
  refine Turns.bind (turns_modify fun _ => rfl) fun _ => turns_get.bind fun m => ?_
  rw [show (ρ.machine m).elapsed = m.elapsed from rfl, show (ρ.machine m).steps = m.steps from rfl]
  have hs : ∀ {rest : Exec Unit} {e} (c : Prop) [Decidable c], ρ.error e = e →
      ρ.Keeps rest → ρ.Keeps (if c then exhaust e >>= fun _ => rest else rest) := by
    intro rest e c _ he hr
    split
    · exact (turns_exhaust he).bind fun _ => hr
    · exact hr
  cases limits.nanoseconds with
  | none => cases limits.steps with
    | none => exact turns_pure ()
    | some k => exact hs _ rfl (turns_pure ())
  | some time =>
    have htime : ρ.Keeps (if time < m.elapsed then exhaust (.of "timeLimitExceeded"
        [("timeLimitSeconds", .number (Limits.secondsOf time))]) else pure ()) := by
      split
      · exact turns_exhaust rfl
      · exact turns_pure ()
    cases limits.steps with
    | none => exact htime
    | some k => exact hs _ rfl htime

section

variable (p : Program)

include p

lemma turns_fetch : ρ.Turns id (fetch p) (fetch (ρ.program p)) := by
  refine Turns.bind (turns_modify fun _ => rfl) fun _ => turns_get.bind fun m => ?_
  dsimp only
  rw [show (ρ.program p).code = p.code from rfl, show (ρ.machine m).origin = m.origin from rfl]
  cases Instruction.decode p.code m.origin with
  | ok i => exact Turns.bind (turns_modify fun _ => rfl) fun _ => turns_pure i
  | error e =>
    cases e with
    | unknownOpcode => exact turns_fail _
    | incomplete =>
      dsimp only
      split
      · exact turns_fail _
      · exact turns_fail _

lemma turns_diagnostic? :
    ρ.Turns id (diagnostic? p) (diagnostic? (ρ.program p)) :=
  turns_get.bind fun _ => turns_pure _

lemma turns_boundArgument? :
    ρ.Turns id (boundArgument? p) (boundArgument? (ρ.program p)) :=
  (turns_diagnostic? p).bind fun _ => turns_pure _

lemma turns_constant (index) :
    ρ.Turns ρ.value (constant p index) (constant (ρ.program p) index) := by
  have hconstant : (ρ.program p).constants[index.toNat]?
      = p.constants[index.toNat]?.map ρ.value := Array.getElem?_map
  rw [constant, constant, hconstant]
  cases p.constants[index.toNat]? with
  | none => exact turns_fail _
  | some v => exact turns_pure v

lemma turns_propertyKey (index) :
    ρ.Turns id (propertyKey p index) (propertyKey (ρ.program p) index) := by
  refine (turns_constant p index).bind fun v => ?_
  cases v with
  | string key => exact turns_pure key
  | _ => exact turns_fail _

lemma turns_platformValue (index) :
    ρ.Turns ρ.value (platformValue p index) (platformValue (ρ.program p) index) := by
  have he : (ρ.program p).platform[index.toNat]? = p.platform[index.toNat]?.map
      fun entry => { entry with value := ρ.value entry.value } := Array.getElem?_map
  rw [platformValue, platformValue, he]
  cases p.platform[index.toNat]? with
  | none => exact turns_fail _
  | some entry => exact turns_pure entry.value

/-! ### Variables and scopes -/

lemma turns_pushVariable (content : Option Value) :
    ρ.Turns id (pushVariable p content) (pushVariable (ρ.program p) (content.map ρ.value)) := by
  cases content with
  | some v => exact turns_push v
  | none => exact (turns_diagnostic? p).bind fun _ => turns_raise _

omit p in
lemma turns_writeLocal (depth slot : Word) : ρ.Keeps (writeLocal depth slot) :=
  turns_pop.bind fun v => (turns_slotIndex depth slot).bind fun index =>
    turns_modify fun m => by simp [machine]

lemma turns_readLocal (depth slot) :
    ρ.Turns id (readLocal p depth slot) (readLocal (ρ.program p) depth slot) := by
  refine (turns_slotIndex depth slot).bind fun index => turns_get.bind fun m => ?_
  rw [slotContent_machine]
  exact turns_pushVariable p _

end

lemma turns_reserve (count : Nat) : ρ.Keeps (reserve count) :=
  turns_modify fun m => by simp [machine]

lemma turns_pushScope (size) : ρ.Keeps (pushScope size) := by
  refine turns_get.bind fun m => ?_
  simp only [size_stack]
  show ρ.Turns id _ (if m.stack.size - m.floor.stack < size then _ else _)
  split
  · exact turns_fail _
  · exact turns_set _

lemma turns_popScope : ρ.Keeps popScope :=
  turns_pop.bind fun v => turns_scope.bind fun s =>
    (turns_modify fun m => ρ.truncate_machine { m with scopes := m.scopes.pop } s.base).bind
      fun _ =>
      turns_push v

/-! ### Arrays and objects -/

lemma turns_appendElements (xs : List Value) :
    ρ.Turns id (appendElements xs) (appendElements (xs.map ρ.value)) := by
  refine turns_topArray.bind fun es => ?_
  rw [← map_append, ← value_array]
  exact turns_replaceTop _

lemma turns_arrayPush : ρ.Keeps arrayPush := turns_pop.bind fun v => turns_appendElements [v]

lemma turns_arrayCut (count) : ρ.Keeps (arrayCut count) := by
  refine turns_pop.bind fun v => ?_
  cases v with
  | array es =>
    simp only [value_array, ← map_take, ← map_drop]
    rw [← value_array, ← value_array]
    exact (turns_push _).bind fun _ => turns_push _
  | _ => exact turns_fail _

lemma turns_takeLast? : ρ.Turns (Option.map ρ.value) takeLast? takeLast? := by
  refine turns_topArray.bind fun es => ?_
  rw [← map_dropLast, ← value_array, getLast?_map]
  exact (turns_replaceTop _).bind fun _ => turns_pure es.getLast?

lemma turns_reportMissing (p e) :
    ρ.Turns id (reportMissing p e) (reportMissing (ρ.program p) (ρ.error e)) := by
  refine (turns_boundArgument? p).bind fun name => ?_
  cases name with
  | some name => exact turns_raise _
  | none => exact turns_raise e

lemma turns_arrayPop (p i) :
    ρ.Turns id (arrayPop p i) (arrayPop (ρ.program p) i) := by
  refine turns_takeLast?.bind fun x => ?_
  cases x with
  | some v => exact turns_push v
  | none => exact turns_reportMissing p _

lemma turns_jump (n : Word) : ρ.Keeps (jump n) := turns_modify fun _ => rfl

lemma turns_pushAndSkip (n) (x : Option Value) :
    ρ.Turns id (pushAndSkip n x) (pushAndSkip n (x.map ρ.value)) := by
  cases x with
  | some v => exact (turns_push v).bind fun _ => turns_jump n
  | none => exact turns_pure ()

lemma turns_objectPush : ρ.Keeps objectPush := by
  refine turns_pop.bind fun v => turns_pop.bind fun key => ?_
  cases key with
  | string key =>
    refine turns_topObject.bind fun es => ?_
    rw [insert_entries, ← value_object]
    exact turns_replaceTop _
  | _ => exact turns_raise _

lemma turns_objectMerge : ρ.Keeps objectMerge := by
  refine turns_pop.bind fun v => ?_
  cases v with
  | object more =>
    refine turns_topObject.bind fun es => ?_
    rw [merge_entries, ← value_object]
    exact turns_replaceTop _
  | _ => exact turns_raise _

lemma turns_takeProperty? (key) :
    ρ.Turns (Option.map ρ.value) (takeProperty? key) (takeProperty? key) := by
  refine turns_topObject.bind fun es => ?_
  rw [erase_entries, ← value_object, get?_entries]
  exact (turns_replaceTop _).bind fun _ => turns_pure _

lemma turns_objectPop (p k) :
    ρ.Turns id (objectPop p k) (objectPop (ρ.program p) k) := by
  refine (turns_propertyKey p k).bind fun key => (turns_takeProperty? key).bind fun x => ?_
  cases x with
  | some v => exact turns_push v
  | none => exact turns_reportMissing p _

/-! ### Functions -/

lemma turns_makeClosure (p target) :
    ρ.Turns id (makeClosure p target) (makeClosure (ρ.program p) target) := by
  rw [makeClosure, makeClosure, Program.functionAt?_congr (p := p) (q := ρ.program p) rfl]
  exact turns_get.bind fun m => (turns_set _).bind fun _ => turns_push (.closure
    { id := m.heap.nextClosure, name := ((p.functionAt? target).map (·.name)).getD "<anonymous>",
      target, upvalues := [] })

lemma turns_bundle (base offset : Nat) :
    ρ.Turns ρ.value (bundle base offset) (bundle base offset) := by
  refine turns_get.bind fun m => ?_
  rw [slotContent_machine]
  cases m.slotContent (base + offset) with
  | none => exact turns_fail _
  | some v => exact turns_pure v

lemma turns_takeFault : ρ.Keeps takeFault := by
  refine turns_get.bind fun m => ?_
  rw [show (ρ.machine m).fault = m.fault from rfl]
  cases m.fault with
  | none => exact turns_pure ()
  | some fault => exact (turns_set _).bind fun _ => fun _ => rfl

lemma turns_finishCall (base : Nat) (r : Except ErrorValue Value) :
    ρ.Turns id (finishCall base r) (finishCall base (ρ.result ρ.value r)) := by
  refine turns_takeFault.bind fun _ => ?_
  cases r with
  | ok v => exact Turns.bind (turns_modify fun m => ρ.truncate_machine m base) fun _ => turns_push v
  | error e => exact turns_raise e

/-! ## Instructions -/

variable (ρ) in
/-- How an instruction ends, renamed. -/
def signal : Signal → Signal
  | .next => .next
  | .yield v => .yield (ρ.value v)
  | .await job => .await (ρ.job (ρ.exec id) job)

lemma turns_thenNext {x x'} (h : ρ.Turns id x x') :
    ρ.Turns ρ.signal (thenNext x) (thenNext x') :=
  h.bind fun _ => turns_pure Signal.next

lemma turns_await {job job'} (h : job' = ρ.job (ρ.exec id) job) :
    ρ.Turns ρ.signal (pure (.await job)) (pure (.await job')) := by
  subst h
  exact turns_pure (Signal.await job)

section Execute

variable {host : Host}

lemma turns_arrayExtend : ρ.Turns ρ.signal arrayExtend arrayExtend :=
  turns_pop.bind fun v => turns_await (holding_job (bind_job (ρ.elements_value v) fun es =>
    congrArg Job.pure (turns_appendElements es).eq_exec) rfl)

lemma turns_indexTop : ρ.Turns ρ.signal indexTop indexTop :=
  turns_pop.bind fun key => turns_pop.bind fun coll =>
    turns_await (holding_job (bind_job (ρ.index_job coll key) fun v =>
      congrArg Job.pure (turns_push v).eq_exec) rfl)

lemma turns_reportMismatch (p e) :
    ρ.Turns id (reportMismatch p e) (reportMismatch (ρ.program p) (ρ.error e)) := by
  refine turns_takeFault.bind fun _ => (turns_boundArgument? p).bind fun name => ?_
  cases name with
  | some name =>
    simp only [id_eq, forArgument_error]
    exact turns_raise _
  | none => exact turns_raise e

lemma turns_validateTop (p k) :
    ρ.Turns ρ.signal (validateTop p k) (validateTop (ρ.program p) k) := by
  refine (turns_constant p k).bind fun schema => turns_top.bind fun v => turns_await ?_
  refine andThen_job (holding_job (ρ.validate_job v schema) rfl) fun r => ?_
  cases r with
  | ok => exact congrArg Job.pure (turns_pure (f := id) ()).eq_exec
  | error e => exact congrArg Job.pure (turns_reportMismatch p e).eq_exec

lemma turns_callNative (hh : host.Uniform) (r : NativeRef) (base : Nat) :
    ρ.Turns ρ.signal (callNative host r base) (callNative host (ρ.ref r) base) := by
  rw [callNative_eq, callNative_eq]
  refine (turns_bundle base 1).bind fun v => ?_
  cases v with
  | array args =>
    rw [value_array]
    refine (turns_bundle base 2).bind fun w => ?_
    cases w with
    | object named =>
      dsimp only
      rw [show (ρ.ref r).code = r.code from rfl]
      cases hnative : host.native? r.code with
      | none => exact turns_raise (notCallable (.native r))
      | some native =>
        exact turns_await (andThen_job (hh _ _ hnative ρ args named) fun r =>
          congrArg Job.pure (turns_finishCall base r).eq_exec)
    | _ => exact turns_fail _
  | _ => exact turns_fail _

lemma turns_call (hh : host.Uniform) : ρ.Turns ρ.signal (call host) (call host) := by
  refine turns_scope.bind fun s => (turns_bundle s.base 0).bind fun v => ?_
  cases v with
  | closure c => exact Turns.bind (turns_modify fun _ => rfl) fun _ => turns_pure Signal.next
  | native r => exact turns_callNative hh r s.base
  | _ => exact turns_raise _

lemma turns_ret : ρ.Turns ρ.signal ret ret := by
  refine turns_pop.bind fun v => turns_get.bind fun m => ?_
  rw [show (ρ.machine m).calls = m.calls from rfl, show (ρ.machine m).floor = m.floor from rfl]
  split
  · exact turns_fail _
  · cases m.calls.back? with
    | none => exact turns_fail _
    | some call =>
      obtain ⟨base, returnTo⟩ := call
      dsimp only
      refine Turns.bind (turns_modify fun _ => rfl) fun _ => ?_
      cases returnTo with
      | some pc =>
        exact Turns.bind (turns_modify fun m => ρ.truncate_machine m base) fun _ =>
          (turns_push v).bind
          fun _ => Turns.bind (turns_modify fun _ => rfl) fun _ => turns_pure Signal.next
      | none => exact turns_pure (Signal.yield v)

lemma turns_capture (slot : Word) : ρ.Keeps (capture slot) :=
  turns_scope.bind fun _ => turns_modify fun m => ρ.closeSlot_machine m _

/-- **Every instruction turns.** -/
theorem turns_execute (hh : host.Uniform) (p : Program) (i : Instruction) :
    ρ.Turns ρ.signal (execute p host i) (execute (ρ.program p) host i) := by
  cases i with
  | value k => exact turns_thenNext ((turns_constant p k).bind fun v => turns_push v)
  | platform entry => exact turns_thenNext ((turns_platformValue p entry).bind fun v =>
      turns_push v)
  | discard => exact turns_thenNext (turns_pop.bind fun _ => turns_pure ())
  | reserve count => exact turns_thenNext (turns_reserve _)
  | writeLocal depth slot => exact turns_thenNext (turns_writeLocal depth slot)
  | readLocal depth slot => exact turns_thenNext (turns_readLocal p depth slot)
  | pushScope size => exact turns_thenNext (turns_pushScope _)
  | popScope => exact turns_thenNext turns_popScope
  | array => exact turns_thenNext (turns_push (.array []))
  | arrayPush => exact turns_thenNext turns_arrayPush
  | arrayExtend => exact turns_arrayExtend
  | arrayReverse =>
    refine turns_thenNext (turns_topArray.bind fun es => ?_)
    rw [← map_reverse, ← value_array]
    exact turns_replaceTop _
  | arrayCopy => exact turns_thenNext (turns_topArray.bind fun _ => turns_pure ())
  | arrayCut count => exact turns_thenNext (turns_arrayCut _)
  | arrayPop pos => exact turns_thenNext (turns_arrayPop p pos)
  | arrayPopOrDefault n =>
    exact turns_thenNext (turns_takeLast?.bind fun x => turns_pushAndSkip n x)
  | object => exact turns_thenNext (turns_push (.object []))
  | objectPush => exact turns_thenNext turns_objectPush
  | objectMerge => exact turns_thenNext turns_objectMerge
  | objectCopy => exact turns_thenNext (turns_topObject.bind fun _ => turns_pure ())
  | objectPop k => exact turns_thenNext (turns_objectPop p k)
  | objectPopOrDefault k n =>
    exact turns_thenNext ((turns_propertyKey p k).bind fun key => (turns_takeProperty? key).bind
      fun x => turns_pushAndSkip n x)
  | function t => exact turns_thenNext (turns_makeClosure p _)
  | closure depth slot =>
    exact turns_thenNext ((turns_slotIndex depth slot).bind fun index =>
      (turns_captureSlot index).bind fun cell => turns_addUpvalue cell)
  | closureUpvalue upvalue =>
    exact turns_thenNext ((turns_runningUpvalue upvalue).bind fun cell => turns_addUpvalue cell)
  | call => exact turns_call hh
  | ret => exact turns_ret
  | readUpvalue upvalue =>
    refine turns_thenNext ((turns_runningUpvalue upvalue).bind fun cell => turns_get.bind fun m =>
      ?_)
    rw [id_eq, readCell_machine]
    exact turns_pushVariable p _
  | capture slot => exact turns_thenNext (turns_capture slot)
  | index => exact turns_indexTop
  | enterCatch n => exact turns_thenNext (turns_get.bind fun _ => turns_modifyScope _)
  | leaveCatch => exact turns_thenNext (turns_modifyScope _)
  | validate k => exact turns_validateTop p k

end Execute

/-! ## Steps -/

variable (ρ)

/-- A setting with its program renamed. -/
def setting (S : Setting) : Setting := { S with program := ρ.program S.program }

/-- The result of a loop, renamed. -/
def loopEnd : Except Trap Value → Except Trap Value
  | .ok v => .ok (ρ.value v)
  | .error t => .error (ρ.trap t)

def progress : Progress → Progress
  | .running m => .running (ρ.machine m)
  | .waiting job m => .waiting (ρ.job (ρ.exec id) job) (ρ.machine m)
  | .finished r m => .finished (ρ.loopEnd r) (ρ.machine m)

lemma leaveCalls_machine (m : Machine) (base e) :
    (ρ.machine m).leaveCalls base (ρ.error e)
      = (ρ.machine (m.leaveCalls base e).1, ρ.error (m.leaveCalls base e).2) := by
  have hname : (ρ.machine m).calleeName = m.calleeName := by
    funext call
    rw [calleeName, slotContent_machine, calleeName]
    cases m.slotContent call.base with
    | none => rfl
    | some v => exact ρ.functionName?_value v
  rw [leaveCalls, hname]
  rfl

/-- **An error is routed in the same way.** -/
theorem recover_machine (m : Machine) (e) : (ρ.machine m).recover (ρ.error e)
      = (ρ.machine (m.recover e).1, (m.recover e).2.map ρ.error) := by
  have hopen : (ρ.machine m).openCatch = m.openCatch := rfl
  have hall : ∀ c, { ρ.machine c with scopes := c.scopes.shrink c.floor.scopes }.truncate
      c.floor.stack = ρ.machine ({ c with scopes := c.scopes.shrink c.floor.scopes }.truncate
        c.floor.stack) :=
    fun c => ρ.truncate_machine { c with scopes := c.scopes.shrink c.floor.scopes } c.floor.stack
  have hfl : (ρ.machine m).floor = m.floor := rfl
  rw [recover, hopen, recover]
  cases m.openCatch with
  | none =>
    dsimp only
    rw [hfl, leaveCalls_machine]
    exact congrArg (·, _) (hall _)
  | some found =>
  obtain ⟨index, base, targets⟩ := found
  cases targets with
  | nil =>
    dsimp only
    rw [hfl, leaveCalls_machine]
    exact congrArg (·, _) (hall _)
  | cons t os =>
    dsimp only
    rw [leaveCalls_machine]
    generalize m.leaveCalls base e = left
    obtain ⟨m, e⟩ := left
    have hcut : { ρ.machine m with scopes := (m.scopes.shrink index).push ⟨base, os⟩ }.truncate base
        = ρ.machine ({ m with scopes := (m.scopes.shrink index).push ⟨base, os⟩ }.truncate base) :=
      ρ.truncate_machine { m with scopes := (m.scopes.shrink index).push ⟨base, os⟩ } base
    have hland : ∀ c, { ρ.machine c with
          stack := (ρ.machine c).stack.push (some (ρ.value e.toValue)), pc := t }
        = ρ.machine { c with stack := c.stack.push (some e.toValue), pc := t } := fun c => by
      simp [machine]
    exact congrArg (·, none) ((congrArg (fun c : Machine =>
      { c with stack := c.stack.push (some (ρ.value e.toValue)), pc := t }) hcut).trans (hland _))

lemma ofResult_ended (r) :
    Progress.ofResult (ρ.ended ρ.signal r) = ρ.progress (.ofResult r) := by
  cases r with
  | ok signal m => cases signal <;> rfl
  | error t m =>
    cases t with
    | fault f => rfl
    | raised e =>
      rw [show ρ.ended ρ.signal (.error (.raised e) m) = .error (.raised (ρ.error e))
        (ρ.machine m) from rfl,
        Progress.ofResult, recover_machine, Progress.ofResult]
      obtain ⟨m', e'⟩ := m.recover e
      cases e' <;> rfl

variable {S : Setting}

section Steps

variable (hh : S.host.Uniform)

include hh in
/-- **A step of a renamed machine.** -/
theorem advance_machine (m : Machine) :
    (ρ.machine m).advance (ρ.setting S) = ρ.progress (m.advance S) := by
  have hstep : ρ.Turns ρ.signal (step S) (step (ρ.setting S)) := by
    refine (turns_countStep S.limits).bind fun _ => (turns_fetch S.program).bind fun i => ?_
    have hexec := turns_execute (ρ := ρ) hh S.program i
    show ρ.Turns ρ.signal _ (do
      unless keepsFresh i do modify fun m => { m with fresh := none }
      execute (ρ.program S.program) S.host i)
    cases keepsFresh i with
    | true => exact hexec
    | false => exact Turns.bind (turns_modify fun _ => rfl) fun _ => hexec
  rw [advance, hstep m, ofResult_ended, advance]

lemma resume_machine (m : Machine) (r : Except ErrorValue (Exec Unit)) :
    Progress.resume (ρ.machine m) (ρ.result (ρ.exec id) r)
      = ρ.progress (.resume m r) := by
  cases r with
  | error e => exact ρ.ofResult_ended (.error (.raised e) m)
  | ok x =>
    have hturns : ρ.Turns id x (ρ.exec id x) := fun m => by rw [exec, machine_machine]
    show Progress.ofResult (thenNext (ρ.exec id x) (ρ.machine m)) = _
    rw [turns_thenNext hturns m, ofResult_ended]
    rfl

end Steps

/-! ## Runs -/

lemma opened_machine (m : Machine) (t f) (args : List Value)
    (named) :
    (ρ.machine m).opened t (ρ.value f) (args.map ρ.value) (ρ.entries named)
      = ρ.machine (m.opened t f args named) := by
  simp [opened, machine, heights]

lemma closed_machine (m : Machine) (outer) :
    (ρ.machine m).closed outer = ρ.machine (m.closed outer) := by
  have hcut := ρ.truncate_machine { m with
    calls := m.calls.shrink m.floor.calls
    scopes := m.scopes.shrink m.floor.scopes } m.floor.stack
  exact congrArg (fun c : Machine => { c with
    depth := outer.depth
    floor := outer.floor
    pc := outer.pc
    origin := outer.origin
    fresh := none }) hcut

/-- What the results of a purpose become. -/
def purpose : (p : Purpose) → p.Result → p.Result
  | .call => ρ.value
  | .produce => ρ.produced
  | .resume => ρ.exec id

/-- What something that ran gave, renamed. -/
def given {α β : Type} (f : α → β) (x : Option (α × Machine)) : Option (β × Machine) :=
  x.map (Prod.map f ρ.machine)

/-- **A task on the renamed machine**, by what becomes of its result. -/
inductive Mirrors : {τ τ' : Type} → (τ → τ') → Task τ → Task τ' → Prop where
  | loop (p : Progress) : Mirrors ρ.loopEnd (.loop p) (.loop (ρ.progress p))
  | enter (target callee) (args : List Value) (named m) :
      Mirrors ρ.loopEnd (.enter target callee args named m)
        (.enter target (ρ.value callee) (args.map ρ.value) (ρ.entries named) (ρ.machine m))
  | apply (callee) (args : List Value) (named m) :
      Mirrors (ρ.result ρ.value) (.apply callee args named m)
        (.apply (ρ.value callee) (args.map ρ.value) (ρ.entries named) (ρ.machine m))
  | perform (p : Purpose) (job m) :
      Mirrors (ρ.result (ρ.purpose p)) (.perform p job m)
        (.perform p (ρ.job (ρ.purpose p) job) (ρ.machine m))
  | respond (request m) :
      Mirrors (ρ.answer request) (.respond request m) (.respond (ρ.request request) (ρ.machine m))
  | force (id m) :
      Mirrors (ρ.result ρ.node) (.force id m) (.force id (ρ.machine m))
  | produce (id suspension m) :
      Mirrors (ρ.result ρ.node) (.produce id suspension m)
        (.produce id (ρ.suspension suspension) (ρ.machine m))
  | collect (id) (found : List Value) (m) :
      Mirrors (ρ.result (map ρ.value)) (.collect id found m)
        (.collect id (found.map ρ.value) (ρ.machine m))
  | settle (values : List Value) (m) :
      Mirrors (ρ.result id) (.settle values m) (.settle (values.map ρ.value) (ρ.machine m))

section Runs

variable {τ τ' : Type} {f : τ → τ'}

inductive RestMirrors (f : τ → τ') : Task.Rest τ → Task.Rest τ' → Prop where
  | ends (x : τ) (m) : RestMirrors f (.ends x m) (.ends (f x) (ρ.machine m))
  | goesOn {t t'} (h : ρ.Mirrors f t t') :
      RestMirrors f (.goesOn t) (.goesOn t')

inductive MoveMirrors (f : τ → τ') : Task.Move τ → Task.Move τ' → Prop where
  | now {r : Task.Rest τ} {r' : Task.Rest τ'} (h : ρ.RestMirrors f r r') :
      MoveMirrors f (.now r) (.now r')
  | waits {υ υ' : Type} {g : υ → υ'} {sub : Task υ} {sub' : Task υ'} {next next'}
      (hsub : ρ.Mirrors g sub sub')
      (hnext : ∀ x m, ρ.RestMirrors f (next x m) (next' (g x) (ρ.machine m))) :
      MoveMirrors f (.waits sub next) (.waits sub' next')

lemma setStream_machine (m : Machine) (id cell) :
    (ρ.machine m).setStream id (ρ.streamCell cell) = ρ.machine (m.setStream id cell) :=
  congrArg (fun heap => { ρ.machine m with heap }) (ρ.heap_setStream m.heap id cell)

variable {ρ}

lemma RestMirrors.of_eq {r : Task.Rest τ'} {x m} (h : r = .ends (f x) (ρ.machine m)) :
    ρ.RestMirrors f (.ends x m) r := h ▸ .ends x m

lemma mirrors_settle_append (more rest : List Value) (m) :
    ρ.Mirrors (ρ.result id) (.settle (more ++ rest) m)
      (.settle (more.map ρ.value ++ rest.map ρ.value) (ρ.machine m)) := by
  rw [← map_append]
  exact .settle _ m

/-- **The moves of a task are mirrored.** -/
theorem Mirrors.moves (hh : S.host.Uniform) {t t'} (h : ρ.Mirrors f t t') :
    ρ.MoveMirrors f (t.move S) (t'.move (ρ.setting S)) := by
  cases h with
  | loop p =>
    cases p with
    | finished r m => exact .now (.ends r m)
    | running m =>
      refine .now (.goesOn ?_)
      rw [ρ.advance_machine hh]
      exact .loop _
    | waiting job m =>
      refine .waits (.perform .resume job m) fun ans m' => .goesOn ?_
      have hloop := Mirrors.loop (ρ := ρ) (.resume m' ans)
      rwa [← resume_machine] at hloop
  | enter tgt fn args named m =>
    show ρ.MoveMirrors _ _ (if S.limits.depth ≤ m.depth then _ else _)
    rw [Task.move]
    split
    · exact .now (.ends ..)
    · have hopened := Mirrors.loop (ρ := ρ) (.running (m.opened tgt fn args named))
      rw [progress, ← opened_machine] at hopened
      exact .waits hopened fun r m' => .of_eq (congrArg _ (ρ.closed_machine m' m.suspended))
  | apply fn args named m =>
    cases fn with
    | closure c =>
      refine .waits (.enter c.target (.closure c) args named m) fun r m' => .of_eq ?_
      cases r with
      | ok v => rfl
      | error t => cases t <;> rfl
    | native r =>
      rw [Task.move, show ρ.value (.native r) = .native (ρ.ref r) from rfl, Task.move,
        show (ρ.setting S).host = S.host from rfl, show (ρ.ref r).code = r.code from rfl]
      cases hnative : S.host.native? r.code with
      | none => exact .now (.ends ..)
      | some native =>
        dsimp only
        rw [hh _ _ hnative ρ args named]
        exact .now (.goesOn (.perform .call (native.apply args named) m))
    | _ => exact .now (.ends ..)
  | perform p job m =>
    cases job with
    | done r => exact .now (.ends r m)
    | ask held q next =>
      have hrespond := Mirrors.respond (ρ := ρ) q (m.holding (held ++ m.held))
      have hheld : ρ.machine (m.holding (held ++ m.held))
          = (ρ.machine m).holding (held.map ρ.value ++ (ρ.machine m).held) := by
        simp [machine, holding]
      rw [hheld] at hrespond
      refine .waits hrespond fun resp m' => .goesOn ?_
      have hnext : ρ.Mirrors (ρ.result (ρ.purpose p)) (.perform p (next resp) (m'.holding m.held))
          (.perform p (ρ.job (ρ.purpose p) (next (ρ.back q (ρ.answer q resp))))
            (ρ.machine (m'.holding m.held))) := by
        rw [back_answer]
        exact .perform p (next resp) (m'.holding m.held)
      exact hnext
  | respond q m =>
    cases q with
    | call fn args named => exact .now (.goesOn (.apply fn args named m))
    | force stream => exact .now (.goesOn (.force stream m))
    | collect stream => exact .now (.goesOn (.collect stream [] m))
    | settle v => exact .now (.goesOn (.settle [v] m))
    | allocate cell =>
      have hadd := ρ.heap_addStream m.heap cell
      exact .now (.of_eq (congrArg (fun added : StreamId × Heap =>
        Task.Rest.ends added.1 { ρ.machine m with heap := added.2 }) hadd))
    | text v =>
        exact .now (.of_eq (congrArg (Task.Rest.ends · (ρ.machine m)) (ρ.text_value m.heap v)))
  | force id m =>
    have hc : (ρ.machine m).heap.streamCell id = ρ.streamCell (m.heap.streamCell id) :=
      ρ.heap_streamCell m.heap id
    rw [Task.move, Task.move, hc]
    cases m.heap.streamCell id with
    | pending s =>
      have hproduce := Mirrors.produce (ρ := ρ) id s (m.setStream id .forcing)
      rw [← setStream_machine] at hproduce
      exact .now (.goesOn hproduce)
    | _ => exact .now (.ends ..)
  | produce id s m =>
    have hp := Mirrors.perform (ρ := ρ) .produce s.produce m
    rw [show ρ.job (ρ.purpose .produce) s.produce = _ from
      (ρ.produce_job s).symm] at hp
    refine .waits hp fun r m' => ?_
    cases r with
    | error e => exact .of_eq (congrArg _ (ρ.setStream_machine m' id (.failed e)))
    | ok produced =>
      cases produced with
      | again rest => exact .goesOn (.produce id rest m')
      | node n => exact .of_eq (congrArg _ (ρ.setStream_machine m' id (.resolved n)))
  | collect id found m =>
    refine .waits (.force id m) fun r m' => ?_
    cases r with
    | error e => exact .ends ..
    | ok n =>
      cases n with
      | empty =>
        exact .of_eq (congrArg (fun found => (Task.Rest.ends (Except.ok found) (ρ.machine m') :
          Task.Rest (Except ErrorValue (List Value)))) map_reverse.symm)
      | cons head tail => exact .goesOn (.collect tail (head :: found) m')
  | settle values m =>
    cases values with
    | nil => exact .now (.ends ..)
    | cons v rest =>
      cases v with
      | array es =>
        rw [map_cons, value_array]
        exact .now (.goesOn (mirrors_settle_append es rest m))
      | object xs =>
        rw [map_cons, value_object, Task.move, Task.move, values_entries]
        exact .now (.goesOn (mirrors_settle_append (Entries.values xs) rest m))
      | stream id =>
        refine .waits (.collect id [] m) fun r m' => ?_
        cases r with
        | error e => exact .ends ..
        | ok es => exact .goesOn (mirrors_settle_append es rest m')
      | _ => exact .now (.goesOn (.settle rest m))

/-- **Everything that runs is mirrored.** -/
theorem Mirrors.run (hh : S.host.Uniform) : ∀ fuel {τ τ' : Type} {f : τ → τ'} {t t'},
    ρ.Mirrors f t t' → t'.run (ρ.setting S) fuel = ρ.given f (t.run S fuel)
  | 0, _, _, _, _, _, _ => rfl
  | fuel + 1, τ, τ', f, t, t', h => by
    have hr : ∀ {r r'}, ρ.RestMirrors f r r' →
        r'.run (Task.run (ρ.setting S) fuel) = ρ.given f (r.run (Task.run S fuel)) := by
      intro r r' h
      cases h with
      | ends x m => rfl
      | goesOn h => exact h.run hh fuel
    have hmoves := h.moves hh
    rw [Task.run, Task.run]
    generalize t.move S = move, t'.move (ρ.setting S) = move' at hmoves
    cases hmoves with
    | now h => exact hr h
    | @waits _ _ _ sub _ _ _ hsub hnext =>
      dsimp only
      rw [hsub.run hh fuel]
      cases Task.run S fuel sub with
      | none => rfl
      | some ended => exact hr (hnext ended.1 ended.2)

end Runs

/-- What a run comes to, renamed. -/
def outcome : Outcome → Outcome
  | .value v => .value (ρ.value v)
  | .uncaught e => .uncaught (ρ.error e)
  | .fault f => .fault f

/-- **A run of a renamed machine** comes to the renamed outcome, on the renamed machine. -/
theorem run_machine (hh : S.host.Uniform) (m : Machine) (fuel) :
    (ρ.machine m).run (ρ.setting S) fuel = ρ.given ρ.outcome (m.run S fuel) := by
  have henter := (Mirrors.enter (ρ := ρ) 0 .null [] [] m.started).run hh fuel
  simp only [Task.run_eq, Task.outcome] at henter
  have hstarted : (ρ.machine m).started = ρ.machine m.started := rfl
  rw [run, hstarted, show Machine.enter (ρ.setting S) fuel 0 .null [] [] (ρ.machine m.started) = _
    from henter, run]
  cases Machine.enter S fuel 0 .null [] [] m.started with
  | none => rfl
  | some ended =>
    obtain ⟨r, m'⟩ := ended
    have hcleared : (ρ.machine m').cleared = ρ.machine m'.cleared := by
      rw [cleared, truncate_machine]
      rfl
    have houtcome : Outcome.ofResult (ρ.loopEnd r) = ρ.outcome (.ofResult r) := by
      cases r with
      | ok v => rfl
      | error t => cases t <;> rfl
    show some (Outcome.ofResult (ρ.loopEnd r), (ρ.machine m').cleared) = _
    rw [hcleared, houtcome]
    rfl

end Renaming

end TreeCode
