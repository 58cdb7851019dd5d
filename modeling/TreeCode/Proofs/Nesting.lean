import TreeCode.Proofs.Reachable

/-!
# Nested loops

A host function, or a stream that the host reads, may call back into the program. The loop that runs
the callee works on the machine of the loop outside, above its floor, and puts it back however it
ends.
-/

namespace TreeCode.Machine

/-- An entry into a loop that is too deep changes nothing. -/
lemma enter_tooDeep {S m} (h : S.limits.depth ≤ m.depth)
    (fuel t f args named) :
    enter S (fuel + 1) t f args named m
      = some (.error (.raised (tooDeep S.limits.depth)), m) := by
  rw [enter, if_pos h]

/-- **A nested loop restores the machine**, for every program and however it ends: the scopes with
their open catches, the calls, the height of the operand stack, the place in the code, the floor and
the depth are as before. An entry that is too deep is refused and changes nothing, so loops are
never nested more deeply than the limit. Where the program was lowered from a tree, and the host
uses no closure but those that it was given, the operands are as before too. -/
theorem nested_loop_restores (setting : Setting) : (∀ fuel target callee args named m result m',
      enter setting fuel target callee args named m = some (result, m') → Restored m m') ∧
    (∀ fuel target callee args named m, setting.limits.depth ≤ m.depth →
      enter setting (fuel + 1) target callee args named m
        = some (.error (.raised (tooDeep setting.limits.depth)), m)) ∧
    (∀ first a, Begins first → Reaches setting first a → a.machine.depth ≤ setting.limits.depth) ∧
    ∀ (env : Environment) (e : Expr), env.Gives Value.ClosureFree →
      (∀ v ∈ e.literals, v.ClosureFree) → setting.host.Honest →
      e.lower env = .ok setting.program → setting.program.code.size < UInt32.size →
      ∀ target callee args named m, Session.Reachable setting (.enter target callee args named m) →
      ∀ fuel result m', enter setting fuel target callee args named m = some (result, m') →
        m'.stack = m.stack := by
  refine ⟨fun fuel target callee args named m result m' h =>
    ((restores setting fuel).enter trivial trivial
      (fun _ _ _ _ => trivial) (fun _ _ _ _ => trivial) h).2.toRestored,
    fun fuel target callee args named m h => enter_tooDeep h fuel target callee args named,
    fun first a hbegins hreaches => (hreaches.nested (hbegins.nested _)).depth_le, ?_⟩
  intro env e henv he hhost hlower hsize target callee args named m hreach fuel result m' h
  obtain ⟨S, hprogram, hS, hmain⟩ := Expr.lower_parts henv he hlower hsize
  obtain ⟨hm, henter, hargs, hnamed⟩ := hreach.sound hS hmain hprogram hhost
  exact ((safeguards hS hprogram hhost fuel).enter hm henter hargs hnamed h).2.stack

/-- A closure that a run gave is called, and its loop leaves the stacks as they were, even where a
second loop inside it is refused. -/
theorem nested_loop_restores_selfApplying : ∃ p m c,
    Session.handingOver.lower Session.handingOverTo = .ok p
      ∧ (start {}).run ⟨p, Session.selfApplying, {}⟩ 10 = some (.value (.closure c), m)
      ∧ ∀ fuel result m',
        enter ⟨p, Session.selfApplying, { depth := 1 }⟩ fuel c.target (.closure c) [.closure c] []
          (start m.heap).started = some (result, m') →
        Restored (start m.heap).started m' ∧ m'.stack = (start m.heap).started.stack := by
  obtain ⟨p, m, c, hlower, hsize, hrun⟩ := Session.handingOver_runs
  refine ⟨p, m, c, hlower, hrun, fun fuel result m' h => ?_⟩
  obtain ⟨hrestores, -, -, hkeeps⟩ := nested_loop_restores ⟨p, Session.selfApplying, { depth := 1 }⟩
  have hclosure : (Value.closure c).Only fun d => False ∨ d ∈ [c] ∨ m.heap.Keeps d :=
    Value.only_closure.mpr (.inr (.inl List.mem_cons_self))
  refine ⟨hrestores _ _ _ _ _ _ _ _ h, hkeeps Session.handingOverTo Session.handingOver
    Session.handingOverTo_gives (Session.handingOver_literals ▸ List.forall_mem_nil _)
    Session.selfApplying_honest hlower hsize _ _ _ _ _
    ⟨_, .call (.run .new hrun) hclosure (List.forall_mem_singleton.mpr hclosure) Entries.only_nil,
      .single .closure⟩ _ _ _ h⟩

end TreeCode.Machine
