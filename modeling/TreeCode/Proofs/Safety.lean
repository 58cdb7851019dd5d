import TreeCode.Proofs.Stepping

/-!
# Programs never fault

A machine of a program goes on without a fault until its loop ends, and an error that an instruction
raises goes to the innermost open catch, where the machine goes on. What the host does in between
leaves the stacks as they were. So, by induction on the fuel, nothing that runs on a machine of a
program leaves a fault behind, and every closure that it hands out is one of the program's
(`Machine.safeguards`).
-/

namespace TreeCode

open List

variable {S : Parts} {V : Slots} {b m m' : Machine} {live : List Machine}

namespace Machine

variable {L : Layout} {e : ErrorValue}

/-! ## Recovery -/

/-- **The machine after an error was caught** has the stacks of the one that executed the catch,
with the error on top, and goes on at the catch's target. Of the scopes those up to the catch's are
left, without that one target; and the error's trace has grown by the names of the calls that were
left. -/
structure Resumes (program : Program) (point : Machine) (e : ErrorValue) (m m' : Machine)
    (left : List Call) : Prop where
  scopes : m'.scopes = point.scopes
  calls : m'.calls = point.calls
  stack : m'.stack = point.stack.push
    (some (ErrorValue.toValue { e with trace := e.trace ++ left.filterMap m.calleeName }))
  handler : program.Handler point m'.pc
  scopes_before : ∃ above targets below,
    m.scopeList = above ++ ⟨point.stack.size, m'.pc :: targets⟩ :: below
      ∧ m'.scopeList = ⟨point.stack.size, targets⟩ :: below
  calls_before : m.callList = left ++ point.callList
  operands_before : ∃ cut, m.operands = cut ++ point.operands

/-- **The machine after an error was not caught** has the stacks that the loop was entered with, and
the error's trace has grown by the names of the calls that were left. -/
structure Abandons (b : Machine) (e : ErrorValue) (m m' : Machine) (e' : ErrorValue)
    (left : List Call) : Prop where
  scopes : m'.scopes = b.scopes
  calls : m'.calls = b.calls
  stack : m'.stack = b.stack
  error : e' = { e with trace := e.trace ++ left.filterMap m.calleeName }
  calls_before : m.callList = left ++ b.callList

lemma scopes_of_scopeList (h : m'.scopeList = m.scopeList) : m'.scopes = m.scopes := by
  simpa [scopeList] using h

lemma calls_of_callList (h : m'.callList = m.callList) : m'.calls = m.calls := by
  simpa [callList] using h

lemma stack_of_operands (h : m'.operands = m.operands) : m'.stack = m.stack := by
  simpa [operands] using h

/-- **An error goes to the innermost open catch.** -/
theorem Unwinds.recover_caught {point} (h : Unwinds S V b (point :: live) m)
    (hl : m.exhausted = false) (he : e.Only S.Owns) :
    ∃ m' left, m.recover e = (m', none) ∧ Runs S V b live m' ∧
      Resumes S.program point e m m' left := by
  obtain ⟨junk, ops, hops, hf⟩ := h
  obtain ⟨t, targets, above, below, made, code, cs, outer, hc⟩ := hf.stacked.caught rfl
  obtain ⟨cut, hcut⟩ := hc.ops_eq
  obtain ⟨more, hmore⟩ := Layout.contents_of_suffix hc.inside
  rw [operands_withOperands] at hcut
  obtain ⟨kept, hk, hbases⟩ := hc.stacked.calls_eq
  have hb : m.floor.scopes ≤ below.length := by
    obtain ⟨_, _, _, rest, _, _, -, hsc, -, -, -, hstacked⟩ := hc.stacked.of_block
    rw [hc.point_scopes] at hsc
    obtain ⟨-, rfl⟩ := cons.inj hsc
    obtain ⟨own, hown⟩ := hstacked.scopes_eq
    rw [show m.floor = b.heights from hf.floor, hown, length_append, length_scopeList]
    show b.scopes.size ≤ _
    omega
  have hrec := Machine.recover_caught hl hc.scopes_eq hc.above_none hb
    (show m.callList = made ++ (kept ++ b.callList) by rw [← hk]; exact hc.calls_eq)
    (by rw [show m.floor = b.heights from hf.floor, length_callList]; rfl) hc.made_above
    (fun c hc => (hbases c hc).2) e
  have hw : m.operands = (junk ++ cut) ++ point.operands := by rw [hops, hcut, append_assoc]
  have hdrop : m.operands.drop (m.stack.size - point.operands.length) = point.operands := by
    rw [← length_operands m, hw, length_append, Nat.add_sub_cancel, drop_left]
  rw [hdrop, ← hk, ← hc.point_scopes] at hrec
  let level := ((m.withCallList point.callList).withScopeList point.scopeList).truncate
    point.operands.length
  have hlow : level.operands = point.operands := operands_truncate_append _ hw
  have hraised : (ErrorValue.toValue
      { e with trace := e.trace ++ made.filterMap m.calleeName }).Only S.Owns :=
    ErrorValue.only_toValue.mpr he
  refine ⟨_, made, hrec, ?_, ?_⟩
  · have hside : Beside (m.withOperands ops)
        ((m.withCallList point.callList).withScopeList point.scopeList) := ⟨rfl, rfl, rfl, rfl, rfl⟩
    have hlevel : Fits S V b (⟨[] ++ [], cs, .block⟩ :: outer) live level := by
      refine hf.truncate hside (by rw [operands_withOperands]; exact hops)
        ((operands_withOperands ..).trans hcut) hmore ((hf.slots.suffix hc.inside).level nofun) ?_
      rw [scopeList_withScopeList]
      show Stacked S b _ _ _ (m.withCallList point.callList).callList _
      rw [callList_withCallList]
      exact hc.stacked
    exact .safe (Fits.swap (a := []) (s := []) (d := [.value]) hlevel nofun hlow rfl
      (.cons (Content.holds_value hraised) .nil) (hlevel.slots.replace (by simp))
      ⟨⟨rfl, rfl, rfl, rfl, rfl⟩, rfl, rfl⟩ (level.operands_withOperands _)) hc.place hc.safe
  · refine ⟨scopes_of_scopeList ?_, calls_of_callList ?_, ?_, hc.handler,
      ⟨above, targets, below, ?_, ?_⟩, hc.calls_eq, ⟨_, hw⟩⟩
    · exact (m.withCallList point.callList).scopeList_withScopeList point.scopeList
    · exact m.callList_withCallList point.callList
    · show (_ :: point.operands).reverse.toArray = _
      apply Array.toList_inj.mp
      simp [operands]
    · rw [← length_operands]
      exact hc.scopes_eq
    · rw [← length_operands]
      exact ((m.withCallList point.callList).scopeList_withScopeList _).trans hc.point_scopes

/-- A machine of a layout may end its loop. -/
lemma Fits.leaves (h : Fits S V b L live m) : Leaves S V b m where
  operands := by
    obtain ⟨segs, heq, -⟩ := h.stacked.contents
    exact ⟨segs, heq⟩
  scopes := h.stacked.scopes_eq
  calls := by
    obtain ⟨own, heq, -⟩ := h.stacked.calls_eq
    exact ⟨own, heq⟩
  openCells := h.own_cells
  below := h.cells.below
  contents := h.cell_only ⟨rfl, rfl, rfl, rfl, rfl⟩ (nil_append _).symm
  floor := h.floor
  depth := h.depth
  fault := h.fault
  heap := h.heap

/-- **An error that nothing catches ends the loop.** -/
theorem Unwinds.recover_uncaught (h : Unwinds S V b live m) (hn : m.exhausted = true ∨ live = [])
    (he : e.Only S.Owns) :
    ∃ m' e' left, m.recover e = (m', some e') ∧ e'.Only S.Owns ∧ Leaves S V b m'
      ∧ Abandons b e m m' e' left := by
  obtain ⟨junk, ops, hops, hf⟩ := h
  obtain ⟨segs, hsegs, -⟩ := hf.stacked.contents
  rw [operands_withOperands] at hsegs
  obtain ⟨made, hmade, hbases⟩ := hf.stacked.calls_eq
  obtain ⟨above, habove, hrecovery⟩ : ∃ above, m.scopeList = above ++ b.scopeList
      ∧ (m.exhausted = true ∨ ∀ s ∈ above, s.recovery = []) := by
    rcases hn with hl | rfl
    · obtain ⟨above, heq⟩ := hf.stacked.scopes_eq
      exact ⟨above, heq, .inl hl⟩
    · obtain ⟨above, heq, hrecovery⟩ := hf.stacked.uncaught rfl
      exact ⟨above, heq, .inr hrecovery⟩
  have hfl : m.floor = b.heights := hf.floor
  have hrec := Machine.recover_uncaught habove hrecovery
    (by rw [hfl, length_scopeList]; rfl) hmade (by rw [hfl, length_callList]; rfl)
    (fun c hc => by rw [hfl]; exact (hbases c hc).1) e
  rw [show m.floor.stack = b.operands.length by rw [hfl, length_operands]; rfl] at hrec
  have hw : m.operands = (junk ++ segs) ++ b.operands := by rw [hops, hsegs, append_assoc]
  have hside : Beside (m.withOperands ops)
      ((m.withCallList b.callList).withScopeList b.scopeList) := ⟨rfl, rfl, rfl, rfl, rfl⟩
  have hleft : Fits S V b [] []
      (((m.withCallList b.callList).withScopeList b.scopeList).truncate b.operands.length) := by
    refine hf.truncate hside (by rw [operands_withOperands]; exact hops)
      ((operands_withOperands ..).trans hsegs) (append_nil _).symm trivial ?_
    rw [scopeList_withScopeList]
    show Stacked S b _ _ _ (m.withCallList b.callList).callList _
    rw [callList_withCallList]
    exact .base fun v hv => hf.stacked.only v (by
      rw [operands_withOperands, hsegs]
      exact mem_append_right _ hv)
  refine ⟨_, _, made, hrec, he, hleft.leaves, scopes_of_scopeList ?_, calls_of_callList ?_,
    stack_of_operands ?_, rfl, hmade⟩
  · exact (m.withCallList b.callList).scopeList_withScopeList b.scopeList
  · exact m.callList_withCallList b.callList
  · exact operands_truncate_append _ hw

/-! ## Loops -/

/-- The catches that are still open after an error was raised: the innermost one has received it,
unless a budget is spent. -/
def liveAfterError {α : Type} (live : List Machine) : EStateM.Result Trap Machine α → List Machine
  | .error (.raised _) m => if m.exhausted then live else live.tail
  | _ => live

/-- The closures in what a loop ends with are the program's, and it is no fault. -/
def Ends (S : Parts) : Except Trap Value → Prop
  | .ok v => v.Only S.Owns
  | .error (.raised e) => e.Only S.Owns
  | .error (.fault _) => False

end Machine

open Machine

/-- **A loop of a program**, where it stands. -/
def Progress.Fits (S : Parts) (V : Slots) (b : Machine) (live : List Machine) : Progress → Prop
  | .running m => Runs S V b live m
  | .waiting job m => Unwinds S V b live m ∧ (∀ v, some v ∈ m.operands → v.Only S.Owns)
      ∧ job.Handles S.Owns fun x => ∀ m', Kept S m m' → Continues S V b live (x m')
  | .finished r m => Ends S r ∧ Leaves S V b m

namespace Progress

lemma fits_raised {e} (he : e.Only S.Owns) (h : Unwinds S V b live m) :
    (ofResult (.error (.raised e) m)).Fits S V b
      (liveAfterError live (.error (.raised e) m : EStateM.Result Trap Machine Unit)) := by
  have huncaught : m.exhausted = true ∨ live = [] → ∀ live',
      (ofResult (.error (.raised e) m)).Fits S V b live' := by
    intro hn live'
    obtain ⟨m', e', left, hrec, he', hleaves, -⟩ := h.recover_uncaught hn he
    rw [ofResult, hrec]
    exact ⟨he', hleaves⟩
  cases hl : m.exhausted with
  | true => exact huncaught (.inl hl) _
  | false =>
    cases live with
    | nil => exact huncaught (.inr rfl) _
    | cons point live =>
      obtain ⟨m', left, hrec, hruns, -⟩ := h.recover_caught hl he
      rw [ofResult, hrec, liveAfterError, hl]
      exact hruns

lemma fits_ofResult {r} (h : Lands S V b live r) :
    (ofResult r).Fits S V b (liveAfterError live r) := by
  cases r with
  | ok signal m =>
    cases signal with
    | next => exact h
    | «yield» v => exact h
    | «await» job => exact h
  | error trap m =>
    cases trap with
    | raised e => exact fits_raised h.1 h.2
    | fault f => exact h.elim

end Progress

namespace Machine

lemma Unwinds.congr (h : Unwinds S V b live m) (halong : Alongside m m')
    (hops : m'.operands = m.operands) : Unwinds S V b live m' := by
  obtain ⟨junk, ops, heq, hf⟩ := h
  refine .intro junk ops (hops.trans heq) (hf.congr ⟨⟨halong.openCells, halong.floor, halong.depth,
    halong.fault, halong.heap⟩, halong.scopes, halong.calls⟩ ?_)
  rw [operands_withOperands, operands_withOperands]

lemma Runs.unwinds (h : Runs S V b live m) : Unwinds S V b live m := by
  cases h with
  | safe fits _ _ => exact fits.unwinds
  | constructs h => exact .intro [_] _ h.operands h.fits

/-- The machines that executed the open catches, after a step that raised no error. -/
def liveAfterStep (E : Setting) (m : Machine) (live : List Machine) : List Machine :=
  match countStep E.limits m, Instruction.decode E.program.code m.pc with
  | .ok _ _, .ok i => liveAfter i m live
  | _, _ => live

/-- **A machine of a program takes a step without a fault.** -/
theorem Runs.step (hS : S.Closed) {E} (hprog : E.program = S.program)
    (hh : E.host.Honest) (h : Runs S V b live m)
    (hreserves : ∀ i, Instruction.decode E.program.code m.pc = .ok i → Reserves V i m) :
    Lands S V b (liveAfterStep E m live) (step E m) := by
  obtain ⟨i, hd, hlands⟩ := h.execute hS hh (hprog ▸ hreserves)
  rw [← hprog] at hd hlands
  rcases m.countStep_cases E.limits with hn | ⟨e, hn, hdata⟩
  · rw [step_eq hn hd, liveAfterStep, hn, hd]
    exact hlands
  · rw [step_exhausted hn, liveAfterStep, hn]
    exact ⟨fun x hx => Value.only_of_isData (hdata x hx),
      h.unwinds.congr ⟨⟨rfl, rfl, rfl, rfl, rfl⟩, rfl, rfl⟩ rfl⟩

/-- What an instruction comes to when the host has answered. -/
def answered (m : Machine) : Except ErrorValue (Exec Unit) → EStateM.Result Trap Machine Signal
  | .ok x => thenNext x m
  | .error e => .error (.raised e) m

lemma resume_eq (m : Machine) (r) :
    Progress.resume m r = .ofResult (m.answered r) := by
  cases r <;> rfl

/-- **An instruction that the host has worked for is completed without a fault.** -/
theorem Unwinds.answered (h : Unwinds S V b live m) (hk : Kept S m m')
    {r}
    (hans : Except.Only S.Owns (fun x => ∀ m', Kept S m m' → Continues S V b live (x m'))
      r) : Lands S V b live (m'.answered r) := by
  cases r with
  | ok x =>
    have hdone := hans m' hk
    show Lands S V b live (thenNext x m')
    cases hr : x m' with
    | ok u m₁ =>
      rw [hr] at hdone
      rw [thenNext_ok hr]
      exact hdone
    | error t m₁ =>
      rw [hr] at hdone
      rw [thenNext_error hr]
      cases t with
      | raised e => exact hdone
      | fault f => exact hdone
  | error e =>
    obtain ⟨junk, ops, hops, hf⟩ := h
    have hb : Kept S (m.withOperands ops) (m'.withOperands ops) :=
      ⟨⟨hk.scopes, hk.calls, rfl, hk.pc, hk.origin, hk.floor, hk.depth⟩, rfl,
        hk.openCells, hk.fault, hk.heap⟩
    exact ⟨hans, .intro junk ops (hk.operands.trans hops) (hb.fits hf)⟩

/-! ## Sound machines -/

/-- **A machine that holds closures of the program only.** -/
structure Sound (S : Parts) (m : Machine) : Prop where
  operands : ∀ v, some v ∈ m.operands → v.Only S.Owns
  openCells : ∀ p ∈ m.openCells, p.1 < m.stack.size
  fault : m.fault = none
  heap : m.heap.Only S.Owns

lemma Unwinds.sound (h : Unwinds S V b live m) (hops : ∀ v, some v ∈ m.operands → v.Only S.Owns) :
    Sound S m := by
  obtain ⟨junk, ops, heq, hf⟩ := h
  refine ⟨hops, fun p hp => ?_, hf.fault, hf.heap⟩
  have hlt := hf.cells.lt_length p hp
  have hlen := hf.stacked.length_contents
  rw [operands_withOperands] at hlen
  rw [← length_operands, heq, length_append]
  omega

lemma Sound.start {heap} (h : heap.Only S.Owns) : Sound S (start heap) := ⟨nofun, nofun, rfl, h⟩

/-- Only the heap and what no instruction depends on is changed. -/
lemma Sound.kept (h : Sound S m) (hrestored : Restored m m') (hs : m'.stack = m.stack)
    (hcells : m'.openCells = m.openCells) (hfault : m'.fault = m.fault)
    (hheap : m'.heap.Only S.Owns) : Kept S m m' :=
  ⟨hrestored, hs, hcells, hfault.trans h.fault, hheap⟩

namespace Kept

lemma refl (h : Sound S m) : Kept S m m := h.kept (.refl m) rfl rfl rfl h.heap

lemma sound (h : Kept S m m') (hm : Sound S m) : Sound S m' :=
  ⟨h.operands ▸ hm.operands, by rw [h.openCells, h.stack]; exact hm.openCells, h.fault, h.heap⟩

lemma trans {m₁ m₂ m₃} (h : Kept S m₁ m₂) (h' : Kept S m₂ m₃) : Kept S m₁ m₃ :=
  ⟨h.toRestored.trans h'.toRestored, h'.stack.trans h.stack, h'.openCells.trans h.openCells,
    h'.fault,
    h'.heap⟩

lemma setStream (h : Sound S m) (id) {cell} (hc : cell.Only S.Owns) :
    Kept S m (m.setStream id cell) :=
  h.kept (restored_setStream m id cell) rfl rfl rfl (h.heap.setStream id hc)

lemma holding (h : Sound S m) (held : List Value) : Kept S m (m.holding held) :=
  h.kept (restored_holding m held) rfl rfl rfl h.heap

lemma allocate (h : Sound S m) {cell} (hc : cell.Only S.Owns) :
    Kept S m { m with heap := (m.heap.addStream cell).2 } :=
  h.kept ⟨rfl, rfl, rfl, rfl, rfl, rfl, rfl⟩ rfl rfl rfl (h.heap.addStream hc)

end Kept

/-! ## Nested loops -/

/-- **Code that the host may enter** with a callee. -/
def Enterable (S : Parts) (t : Nat) (f : Value) : Prop :=
  ∃ code n, Code.At S.functions t code
    ∧ Safe S.tables code [⟨[.object, .array, .callee n], [], .host⟩]
    ∧ Content.Holds S (.callee n) (some f)

lemma enterable_main (h : Safe S.tables S.body [⟨[.object, .array, .callee 0], [], .host⟩]) :
    Enterable S 0 .null :=
  ⟨S.body, 0, Code.at_offset (show S.functions[0]? = some _ from rfl), h, _, rfl, Value.only_null,
    nofun⟩

lemma enterable_closure {c} (h : S.Owns c) : Enterable S c.target (.closure c) := by
  have hc := h
  obtain ⟨index, f, hf, ht, hle, hbody⟩ := h
  have hfunction : S.functions[index + 1]? = some f := by
    rw [Parts.functions, getElem?_cons_succ, Array.getElem?_toList, hf]
  exact ⟨f.body, f.captures.length, ht ▸ Code.at_offset hfunction,
    hbody .host [] (fun h => by cases h), _, rfl,
    Value.only_closure.mpr hc, fun _ => ⟨c, rfl, hle⟩⟩

/-- **A nested loop begins.** -/
theorem Sound.opened (h : Sound S m) {t f args named} (henter : Enterable S t f)
    (hargs : ∀ v ∈ args, v.Only S.Owns)
    (hn : Entries.Only S.Owns named) : Runs S V m [] (m.opened t f args named) := by
  obtain ⟨code, n, hp, hs, hf⟩ := henter
  have hfits : Fits S V m [⟨[.object, .array] ++ [.callee n], [], .host⟩] []
      (m.opened t f args named) := by
    refine ⟨?_, ⟨h.openCells, [], rfl, .nil, nofun⟩, Layout.Within.level trivial (by simp), rfl,
      rfl,
      h.fault, h.heap⟩
    have hholds : Forall₂ (Content.Holds S) ([.object, .array] ++ [.callee n])
        [some (.object named), some (.array args), some f] :=
      .cons (Content.holds_object hn) (.cons (Content.holds_array hargs) (.cons hf .nil))
    have hstacked := Stacked.call (.base h.operands) hholds .host
    rw [length_operands] at hstacked
    rw [show (m.opened t f args named).operands
        = [some (.object named), some (.array args), some f] ++ m.operands by
          simp [Machine.opened, Machine.operands],
      show (m.opened t f args named).scopeList = ⟨m.stack.size, []⟩ :: m.scopeList by
        simp [Machine.opened, scopeList, heights],
      show (m.opened t f args named).callList = ⟨m.stack.size, none⟩ :: m.callList by
        simp [Machine.opened, callList, heights]]
    exact hstacked
  exact .safe hfits hp hs

/-- **A nested loop ends.** -/
theorem Leaves.closed (h : Leaves S V b m) (hrestored : Restored b (m.closed b.suspended)) :
    Kept S b (m.closed b.suspended) where
  toRestored := hrestored
  stack := by
    obtain ⟨above, hops⟩ := h.operands
    refine stack_of_operands ?_
    show (Machine.truncate _ m.floor.stack).operands = _
    rw [show m.floor.stack = b.operands.length by rw [h.floor, length_operands]; rfl]
    exact operands_truncate_append _ hops
  openCells := by
    obtain ⟨above, hcells, habove⟩ := h.openCells
    show (Machine.truncate _ m.floor.stack).openCells = _
    rw [openCells_truncate, show m.floor.stack = b.stack.size by rw [h.floor]; rfl]
    show m.openCells.dropWhile _ = _
    rw [hcells, dropWhile_append_below h.below, dropWhile_eq_nil_iff.mpr, nil_append]
    exact fun p hp => by simpa using (habove p hp).1
  fault := h.fault
  heap := by
    show (Machine.truncate _ m.floor.stack).heap.Only S.Owns
    rw [heap_truncate]
    refine h.heap.closeCells fun x hx v hv => ?_
    obtain ⟨p, hp, rfl⟩ := mem_map.mp hx
    exact h.contents p (mem_takeWhile hp).1 v hv

/-! ## Everything that runs -/

lemma Kept.answerOf {ended} (hends : Ends S ended.1)
    (hk : Kept S m ended.2) :
    Except.Only S.Owns (Value.Only S.Owns) (answerOf ended).1 ∧ Kept S m (answerOf ended).2 := by
  obtain ⟨r, m₁⟩ := ended
  cases r with
  | ok v => exact ⟨hends, hk⟩
  | error t =>
    cases t with
    | raised e => exact ⟨hends, hk⟩
    | fault f => exact hends.elim

section Safeguarding

variable (hS : S.Closed) {E : Setting} (hprog : E.program = S.program)
  (hh : E.host.Honest)
include hS hprog hh

/-- Machines of a program have the layout that its code needs. -/
abbrev safeguarding : Regime E where
  Owns := S.Owns
  Holds := Sound S
  Keeps := Kept S
  Enters := Enterable S
  Loop b p := ∃ live, p.Fits S .all b live
  Ends r _ := Ends S r
  refl := .refl
  trans := .trans
  holds := Kept.sound
  cell hm := hm.heap.streamCell
  holding := .holding
  forcing {m id _} hm _ :=
    have hforcing : Kept S m (m.setStream id .forcing) := .setStream hm id trivial
    hforcing.sound hm
  settled {m id _ _ _} hm _ h hcell :=
    have hforcing : Kept S m (m.setStream id .forcing) := .setStream hm id trivial
    hforcing.trans (h.trans (.setStream (h.sound (hforcing.sound hm)) id hcell))
  allocate hm _ := .allocate hm
  host := hh.handles
  closure := enterable_closure
  opened hm henter hargs hn := ⟨[], hm.opened henter hargs hn⟩
  step := by
    rintro b m ⟨live, hp⟩
    exact ⟨_, Progress.fits_ofResult (Runs.step hS hprog hh hp fun _ _ => reserves_all)⟩
  waiting := by
    rintro b job m ⟨live, hunwinds, hops, hjob⟩
    refine ⟨hunwinds.sound hops, _, hjob, fun {m' ans} hk hr => ?_⟩
    rw [resume_eq]
    exact ⟨_, Progress.fits_ofResult (hunwinds.answered hk hr)⟩
  closed := by
    rintro fuel m t f args named r m' hm hd ⟨live, hends, hleaves⟩
    have habove : Upholds m m' := (restores E fuel).drive (p := .running _) (upholds_opened m ..) hd
    exact ⟨hends, hleaves.closed habove.closed⟩
  tooDeep _ := ErrorValue.only_of (by simp)
  answered := Kept.answerOf

/-- **Nothing that runs on a machine of a program faults**: the closures that it gives are the
program's, and it leaves the stacks of the machine as they were. -/
theorem safeguards (fuel : Nat) : (safeguarding hS hprog hh).Governs fuel := Regime.governs _ fuel

end Safeguarding

end Machine

end TreeCode
