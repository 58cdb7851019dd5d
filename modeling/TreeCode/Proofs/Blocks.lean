import TreeCode.Proofs.Moves
import TreeCode.Proofs.Signatures

/-!
# Blocks of a function

What a piece of code does on the operands of one function that the host has called: `Below.Block`.
It works above whatever lay on the stacks before (`Below`), and blocks that follow one another make
a block. A block that ends before the return tells what the call comes to (`Below.Block.returns`).
-/

namespace TreeCode

open Machine Progress

/-- **What lies below a function that the host called**: operands, scopes and calls that it leaves
alone. -/
structure Below where
  operands : List (Option Value)
  scopes : List Scope
  calls : List Call

variable {pc depth : Nat} {ops : List (Option Value)} {m : Machine} {S : Parts} {host : Host}

namespace Below

variable (B : Below)

/-- **The function stands at `pc`**, on operands of its own and in its outermost scope. -/
structure Stands (pc : Nat) (ops : List (Option Value)) (m : Machine) : Prop where
  pc : m.pc = pc
  operands : m.operands = ops ++ B.operands
  scopes : m.scopeList = ⟨B.operands.length, []⟩ :: B.scopes
  calls : m.callList = ⟨B.operands.length, none⟩ :: B.calls
  floor : m.floor = ⟨B.scopes.length, B.calls.length, B.operands.length⟩
  fault : m.fault = none

/-- **What a piece of code does**: from `pc` on some operands the function comes to `finish` on
others, or raises an error. -/
def Block (E : Setting) (pc : Nat) (ops : List (Option Value)) (finish : Nat) :
    Except ErrorValue (List (Option Value)) → Prop
  | .ok ops' => ∀ m, B.Stands pc ops m →
      ∃ n m', Goes E n (.running m) (.running m') ∧ B.Stands finish ops' m'
  | .error e => ∀ m, B.Stands pc ops m →
      ∃ n m' pc' ops', Goes E n (.running m) (.ofResult (.error (.raised e) m'))
        ∧ B.Stands pc' ops' m'

variable {B}

namespace Stands

variable (h : B.Stands pc ops m)

include h

lemma fetched (i : Instruction) :
    B.Stands (pc + i.width) ops (m.fetched i) where
  pc := congrArg (· + i.width) h.pc
  operands := h.operands
  scopes := h.scopes
  calls := h.calls
  floor := h.floor
  fault := h.fault

lemma withOperands (ops') :
    B.Stands pc ops' (m.withOperands (ops' ++ B.operands)) where
  pc := h.pc
  operands := operands_withOperands m _
  scopes := h.scopes
  calls := h.calls
  floor := h.floor
  fault := h.fault

lemma jump (n) :
    B.Stands (pc + n) ops { m with pc := m.pc + n } where
  pc := congrArg (· + n) h.pc
  operands := h.operands
  scopes := h.scopes
  calls := h.calls
  floor := h.floor
  fault := h.fault

lemma closeSlot (slot) : B.Stands pc ops (m.closeSlot slot) := by
  unfold Machine.closeSlot
  split
  · exact ⟨h.pc, h.operands, h.scopes, h.calls, h.floor, h.fault⟩
  · exact h

/-- The operands above the floor are the function's own. -/
lemma above (more) :
    m.floor.stack ≤ (more ++ B.operands).length := by
  rw [h.floor, List.length_append]
  exact Nat.le_add_left _ _

omit h in
lemma operands_cons {x} (h : B.Stands pc (x :: ops) m) :
    m.operands = x :: (ops ++ B.operands) := h.operands

lemma scope : m.scopeList[(0 : Word).toNat]?
    = some ⟨B.operands.length, []⟩ := by
  rw [h.scopes]
  rfl

lemma size : m.stack.size = ops.length + B.operands.length := by
  rw [← length_operands, h.operands, List.length_append]

/-- The function's operands, counted from its base. -/
lemma slotContent (slot) :
    m.slotContent (B.operands.length + slot) = (ops.reverse[slot]?).getD none := by
  rw [slotContent_eq, h.operands, List.reverse_append,
    List.getElem?_append_right (by simp), List.length_reverse, Nat.add_sub_cancel_left]

end Stands

variable {ops' : List (Option Value)}

namespace Block

variable {E : Setting} {mid finish : Nat}

lemma refl : B.Block E pc ops pc (.ok ops) := fun m hm => ⟨0, m, .refl _, hm⟩

/-- **One block after another.** -/
theorem trans {r}
    (h : B.Block E pc ops mid (.ok ops')) (h' : B.Block E mid ops' finish r) :
    B.Block E pc ops finish r := by
  cases r with
  | ok last =>
    intro m hm
    obtain ⟨n, m', hgo, hm'⟩ := h m hm
    obtain ⟨k, m'', hgo', hm''⟩ := h' m' hm'
    exact ⟨n + k, m'', hgo.trans hgo', hm''⟩
  | error e =>
    intro m hm
    obtain ⟨n, m', hgo, hm'⟩ := h m hm
    obtain ⟨k, m'', pc', ops'', hgo', hm''⟩ := h' m' hm'
    exact ⟨n + k, m'', pc', ops'', hgo.trans hgo', hm''⟩

/-- A block that may raise an error, and one after it that does not. -/
lemma bindMap {α : Type} {r : Except ErrorValue α} {f g}
    (h : B.Block E pc ops mid (r.map f))
    (h' : ∀ a, r = .ok a → B.Block E mid (f a) finish (.ok (g a))) :
    B.Block E pc ops finish (r.map g) := by
  cases r with
  | ok a => exact trans h (h' a rfl)
  | error e => exact h

end Block

/-! ## Instructions -/

section Instructions

variable {i : Instruction} {diagnostic : Option Diagnostic} {code : Code}

section

variable (hat : Code.At S.functions pc (.plain i diagnostic :: code))

include hat

/-- **One instruction.** -/
theorem Block.step {finish} (hexec : ∀ m, B.Stands (pc + i.width) ops m → ∃ m',
      execute S.program host i m = .ok .next m' ∧ B.Stands finish ops' m') :
    B.Block (S.setting host depth) pc ops finish (.ok ops') := by
  intro m hm
  obtain ⟨m', hm', hstands⟩ := hexec _ (hm.fetched i)
  refine ⟨1, m', .one (.step ?_), hstands⟩
  rw [advance_at hm.pc hat rfl]
  exact congrArg ofResult hm'

/-- An instruction that works on operands alone. -/
lemma Block.operates (hexec : ∀ m, B.Stands (pc + i.width) ops m →
      execute S.program host i m = .ok .next (m.withOperands (ops' ++ B.operands))) :
    B.Block (S.setting host depth) pc ops (pc + i.width) (.ok ops') :=
  .step hat fun m hm => ⟨_, hexec m hm, hm.withOperands ops'⟩

/-- An instruction that raises an error. -/
lemma Block.raises {e}
    (hexec : ∀ m, B.Stands (pc + i.width) ops m → S.program.diagnostic? m.origin = diagnostic →
      ∃ ops', execute S.program host i m = .error (.raised e) (m.withOperands (ops' ++ B.operands)))
    (finish) : B.Block (S.setting host depth) pc ops finish (.error e) := by
  intro m hm
  obtain ⟨ops', hraise⟩ := hexec _ (hm.fetched i) (diagnostic_at_fetched hm.pc hat)
  refine ⟨1, _, _, ops', .one (.step ?_), (hm.fetched i).withOperands ops'⟩
  rw [advance_at hm.pc hat rfl]
  exact congrArg ofResult hraise

end

lemma alone_validateJob (v schema) : (validateJob S.program v schema).alone
    = match (Schema.validate v schema).alone with
      | .ok () => .ok (pure ())
      | .error e => .ok (reportMismatch S.program e) := by
  rw [validateJob, Job.alone_andThen, Job.alone_holding]
  cases (Schema.validate v schema).alone <;> rfl

lemma idle_validateJob (v) {schema} (h : schema.isData = true) :
    (validateJob S.program v schema).Idle := by
  refine ((Schema.idle_validate v h).holding _).andThen fun x => ?_
  cases x <;> exact .done _

/-- **An argument is checked.** -/
theorem Block.validate {k : Word} {p : Param} {v} (hat : Code.At S.functions pc
      (.plain (.validate k) (some { name := p.name, isArgument := true }) :: code))
    (hk : S.program.constants[k.toNat]? = some p.schema) (hdata : p.schema.isData = true) :
    B.Block (S.setting host depth) pc (some v :: ops) (pc + (Instruction.validate k).width)
      ((p.check v).alone.map fun _ => some v :: ops) := by
  have hmv : ∀ m, B.Stands pc (some v :: ops) m → Moves (S.setting host depth) m
      (.resume (m.fetched (.validate k)) (validateJob S.program v p.schema).alone) := by
    intro m hm
    refine .work ?_ (perform_idle _ (idle_validateJob v hdata) _)
    exact (advance_at hm.pc hat rfl).trans
      (congrArg ofResult (execute_validate hk (hm.fetched _).operands))
  rw [Param.check, Job.alone_mapError]
  cases hv : (Schema.validate v p.schema).alone with
  | ok x =>
    intro m hm
    refine ⟨1, _, .one ?_, hm.fetched _⟩
    have := hmv m hm
    rwa [alone_validateJob, hv] at this
  | error e =>
    intro m hm
    refine ⟨1, m.fetched (.validate k), _, _, .one ?_, hm.fetched _⟩
    have hreport : resume (m.fetched (.validate k)) (.ok (reportMismatch S.program e))
        = .ofResult (.error (.raised (e.forArgument p.name)) (m.fetched (.validate k))) := by
      have hmismatch : mismatch S.program (m.fetched (.validate k)) e = e.forArgument p.name := by
        rw [mismatch, diagnostic_at_fetched hm.pc hat]
        rfl
      rw [← hmismatch]
      exact congrArg ofResult
        (thenNext_error (reportMismatch_eq (hm.fetched _).fault e))
    have := hmv m hm
    rwa [alone_validateJob, hv, hreport] at this

end Instructions

end Below

/-! ## Returning -/

/-- **The same answer**: the same value, or errors of the same kind with the same details. -/
def SameAnswer : Except ErrorValue Value → Except ErrorValue Value → Prop
  | .ok v, .ok w => v = w
  | .error e, .error e' => e.kind = e'.kind ∧ e.details = e'.details
  | _, _ => False

namespace Below

variable {B : Below}

/-- An error ends the function. -/
lemma Stands.uncaught (h : B.Stands pc ops m) (e) : ∃ m' trace,
    ofResult (.error (.raised e) m) = .finished (.error (.raised { e with trace })) m' := by
  have hsc : m.scopeList = [⟨B.operands.length, []⟩] ++ B.scopes := h.scopes
  have hcs : m.callList = [⟨B.operands.length, none⟩] ++ B.calls := h.calls
  have hrec := recover_uncaught hsc (.inr (by simp)) (by rw [h.floor]) hcs
    (by rw [h.floor]) (by simp [h.floor]) e
  rw [ofResult, hrec]
  exact ⟨_, _, rfl⟩

/-- A closure is made of a function, whose offset is a word. -/
lemma Stands.makeFunction {index f}
    (hindex : S.functions[index]? = some f) (hs : S.program.code.size < UInt32.size)
    {code} (hat : Code.At S.functions pc (.makeFunction index :: code))
    (h : B.Stands pc ops m) : ∃ c m', m.advance (S.setting host depth) = .running m'
      ∧ c.target = Code.offset S.functions index
      ∧ B.Stands (pc + (CodeItem.makeFunction index).width) (some (.closure c) :: ops) m' := by
  have hi : (CodeItem.makeFunction index).instruction (Code.offsetsFrom 0 S.functions)
      = .function (UInt32.ofNat (Code.offset S.functions index)) := by
    rw [← Code.offset_eq hindex]
    rfl
  have ht : (UInt32.ofNat (Code.offset S.functions index)).toNat
      = Code.offset S.functions index := by
    refine UInt32.toNat_ofNat_of_lt' (Nat.lt_of_le_of_lt ?_ hs)
    have hle := (Code.at_offset hindex).le_width
    rw [← Code.size_link] at hle
    exact Nat.le_trans (Nat.le_add_right _ _) hle
  generalize UInt32.ofNat (Code.offset S.functions index) = t at hi ht
  have hfetched := h.fetched (.function t)
  refine ⟨newClosure S.program (m.fetched (.function t)) t.toNat, _,
    (advance_at h.pc hat hi).trans (congrArg ofResult (execute_function _)), ht, ?_⟩
  exact ⟨hfetched.pc, by rw [operands_withOperands, hfetched.operands]; rfl, hfetched.scopes,
    hfetched.calls, hfetched.floor, hfetched.fault⟩

/-- **What the function returns**, or raises. -/
theorem Block.returns {α : Type} {r : Except ErrorValue α} {v : α → Value}
    {f : α → List (Option Value)} {finish}
    (h : B.Block (S.setting host depth) pc ops finish (r.map fun a => some (v a) :: f a))
    (hret : Code.At S.functions finish (Code.emit .ret)) (hm : B.Stands pc ops m) :
    ∃ ans m', SameAnswer ans (r.map v) ∧ ∃ least, ∀ fuel, least ≤ fuel →
      drive (S.setting host depth) fuel (.running m) = some (ans.mapError .raised, m') := by
  have hfinished : ∀ res m', ∃ least, ∀ fuel, least ≤ fuel →
      drive (S.setting host depth) fuel (.finished res m') = some (res, m') := by
    refine fun res m' => ⟨1, fun fuel hfuel => ?_⟩
    obtain ⟨fuel, rfl⟩ := Nat.exists_eq_add_of_le' hfuel
    rfl
  cases r with
  | ok a =>
    obtain ⟨n, m', hgo, hm'⟩ := h m hm
    have hyield : m'.advance (S.setting host depth) = .finished (.ok (v a)) _ :=
      (advance_at hm'.pc hret rfl).trans (congrArg ofResult
        (execute_ret_host (hm'.fetched _).operands_cons ((hm'.fetched .ret).above _)
          (by rw [(hm'.fetched .ret).floor]) (hm'.fetched _).calls))
    exact ⟨.ok (v a), _, rfl, (hgo.trans (.one (.step hyield))).drive (hfinished _ _)⟩
  | error e =>
    obtain ⟨n, m', pc', ops', hgo, hm'⟩ := h m hm
    obtain ⟨m'', trace, huncaught⟩ := hm'.uncaught e
    rw [huncaught] at hgo
    exact ⟨.error { e with trace }, m'', ⟨rfl, rfl⟩, hgo.drive (hfinished _ _)⟩

end Below

end TreeCode
