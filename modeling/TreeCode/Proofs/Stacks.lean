import TreeCode.Proofs.Handling
import TreeCode.Proofs.Layout
import TreeCode.Proofs.Unwinding

/-!
# Stacks of a layout

A layout describes the three stacks of a dispatch loop, from the machine `b` on that entered the
loop: `Stacked S b L ops scopes calls live`. Each scope has its base where its part of the operand
stack begins, each call its callee there, and the targets of the open catches are code that is safe
once the stacks have been cut to the catch's scope. `live` are the machines that executed the
catches that are open, innermost first.

`Machine.Fits` adds what holds of the rest of a machine: the captured variables on the stack are
slots of the layout, every closure anywhere is one of the program's, and there is no fault.
-/

namespace TreeCode

open List Content

/-- **The parts of a program**: its functions, the first of which is the main code, and the tables
beside them. -/
structure Parts where
  tables : Tables
  body : Code

namespace Parts

variable (S : Parts)

def functions : List CodeFunction :=
  { name := Lower.main, body := S.body } :: S.tables.finished.toList

/-- The program that is linked from the parts. -/
def program : Program :=
  { Code.link S.functions with
    constants := S.tables.constants
    platform := S.tables.platform }

/-- **A closure of the program**: its code is that of a function, which can be executed on the
closure's captured variables. -/
def Owns (c : Closure) : Prop :=
  ∃ index f, S.tables.finished[index]? = some f ∧ c.target = Code.offset S.functions (index + 1)
    ∧ f.captures.length ≤ c.upvalues.length
    ∧ ∀ entry outer, entry ≠ .block →
      Safe S.tables f.body (⟨[.object, .array, .callee f.captures.length], [], entry⟩ :: outer)

end Parts

variable {S : Parts}

/-! ## Operands -/

namespace Content

/-- **What lies at a place is what the layout says.** -/
def Holds (S : Parts) : Content → Option Value → Prop
  | .value, x => ∃ v, x = some v ∧ v.Only S.Owns
  | .slot, x => ∀ v, x = some v → v.Only S.Owns
  | .array, x => ∃ es, x = some (.array es) ∧ (Value.array es).Only S.Owns
  | .object, x => ∃ xs, x = some (.object xs) ∧ (Value.object xs).Only S.Owns
  | .callee n, x => ∃ v, x = some v ∧ v.Only S.Owns
      ∧ (0 < n → ∃ c, v = .closure c ∧ n ≤ c.upvalues.length)

variable {k : Content} {v : Value}

lemma Holds.only (h : Holds S k (some v)) : v.Only S.Owns := by
  cases k with
  | value => obtain ⟨w, heq, hw⟩ := h; cases heq; exact hw
  | slot => exact h v rfl
  | array => obtain ⟨es, heq, hes⟩ := h; cases heq; exact hes
  | object => obtain ⟨xs, heq, hxs⟩ := h; cases heq; exact hxs
  | callee n => obtain ⟨w, heq, hw, -⟩ := h; cases heq; exact hw

lemma Holds.full (hk : k.Full) {x} (h : Holds S k x) :
    ∃ v, x = some v ∧ v.Only S.Owns := by
  cases k with
  | value => exact h
  | array => obtain ⟨es, rfl, hes⟩ := h; exact ⟨_, rfl, hes⟩
  | object => obtain ⟨xs, rfl, hxs⟩ := h; exact ⟨_, rfl, hxs⟩
  | slot => exact hk.elim
  | callee n => exact hk.elim

lemma holds_getElem? {ps : List Content} {xs : List (Option Value)}
    (h : Forall₂ (Holds S) ps xs) {i : Nat} (hk : ps[i]? = some k) :
    ∃ x, xs[i]? = some x ∧ k.Holds S x := by
  induction h generalizing i with
  | nil => cases hk
  | cons hx _ ih =>
    cases i with
    | zero => cases hk; exact ⟨_, rfl, hx⟩
    | succ i => exact ih hk

variable {seg : List (Option Value)}

lemma holds_one (h : Forall₂ (Holds S) [k] seg) : ∃ x, seg = [x] ∧ k.Holds S x := by
  obtain ⟨x, rest, hx, hr, rfl⟩ := forall₂_cons_left_iff.mp h
  cases hr
  exact ⟨x, rfl, hx⟩

variable {l : Content}

lemma holds_two (h : Forall₂ (Holds S) [k, l] seg) :
    ∃ x y, seg = [x, y] ∧ k.Holds S x ∧ l.Holds S y := by
  obtain ⟨x, rest, hx, hr, rfl⟩ := forall₂_cons_left_iff.mp h
  obtain ⟨y, rfl, hy⟩ := holds_one hr
  exact ⟨x, y, rfl, hx, hy⟩

lemma holds_three {n} (h : Forall₂ (Holds S) [k, l, n] seg) :
    ∃ x y z, seg = [x, y, z] ∧ k.Holds S x ∧ l.Holds S y ∧ n.Holds S z := by
  obtain ⟨x, rest, hx, hr, rfl⟩ := forall₂_cons_left_iff.mp h
  obtain ⟨y, z, rfl, hy, hz⟩ := holds_two hr
  exact ⟨x, y, z, rfl, hx, hy, hz⟩

lemma holds_value (h : v.Only S.Owns) : Holds S .value (some v) := ⟨v, rfl, h⟩

lemma holds_array {es} (h : ∀ v ∈ es, v.Only S.Owns) :
    Holds S .array (some (.array es)) := ⟨es, rfl, Value.only_array.mpr h⟩

lemma holds_object {xs} (h : Entries.Only S.Owns xs) :
    Holds S .object (some (.object xs)) := ⟨xs, rfl, Value.only_object.mpr h⟩

/-- What is read from a variable or an argument is what the layout says. -/
lemma Holds.read (hread : k.read? = some l) (h : Holds S k (some v)) : Holds S l (some v) := by
  cases k with
  | slot => cases hread; exact ⟨v, rfl, h v rfl⟩
  | array => cases hread; exact h
  | object => cases hread; exact h
  | value => cases hread
  | callee n => cases hread

end Content

/-! ## Scopes and calls -/

/-- **The catch that a machine executed continues at the target.** -/
def Program.Handler (program : Program) (point : Machine) (t : Nat) : Prop :=
  ∃ n : Word, Instruction.decode program.code point.pc = .ok (.enterCatch n)
    ∧ t = point.pc + (Instruction.enterCatch n).width + n.toNat

/-- **The open catches of a scope** whose base is the height of `ops`: the code that each continues
with, its target, and the machine that executed the catch. -/
inductive Catching (S : Parts) (L : Layout) (ops : List (Option Value)) (scopes : List Scope)
    (calls : List Call) : List Code → List Nat → List Machine → Prop where
  | nil : Catching S L ops scopes calls [] [] []
  | cons {code cs target targets point points}
      (others : Catching S L ops scopes calls cs targets points)
      (place : Code.At S.functions target code)
      (safe : Safe S.tables code (⟨[.value], cs, .block⟩ :: L))
      (handler : S.program.Handler point target) (hops : point.operands = ops)
      (hscopes : point.scopeList = ⟨ops.length, targets⟩ :: scopes)
      (hcalls : point.callList = calls) :
      Catching S L ops scopes calls (code :: cs) (target :: targets) (point :: points)

/-- **Where a call returns to**: to the host, which entered the loop with it, or to the code after
it. -/
inductive Entered (S : Parts) : Layout → Entry → Option Nat → Prop where
  | host : Entered S [] .host none
  | call {L rest pc} (place : Code.At S.functions pc rest)
      (safe : Safe S.tables rest (⟨[.value], [], .block⟩ :: L)) :
      Entered S L (.call rest) (some pc)

/-- **Stacks of a layout** above the machine that entered the loop. -/
inductive Stacked (S : Parts) (b : Machine) : Layout → List (Option Value) → List Scope →
    List Call → List Machine → Prop where
  | base (h : ∀ v, some v ∈ b.operands → v.Only S.Owns) :
      Stacked S b [] b.operands b.scopeList b.callList []
  | block {L ks cs s ops targets scopes calls points live}
      (outer : Stacked S b L ops scopes calls live)
      (holds : Forall₂ (Holds S) ks s)
      (catching : Catching S L ops scopes calls cs targets points) :
      Stacked S b (⟨ks, cs, .block⟩ :: L) (s ++ ops) (⟨ops.length, targets⟩ :: scopes)
        calls (points ++ live)
  | call {L above n entry s ops scopes calls live returnTo}
      (outer : Stacked S b L ops scopes calls live)
      (holds : Forall₂ (Holds S) (above ++ [.callee n]) s)
      (entered : Entered S L entry returnTo) :
      Stacked S b (⟨above ++ [.callee n], [], entry⟩ :: L) (s ++ ops) (⟨ops.length, []⟩ :: scopes)
        (⟨ops.length, returnTo⟩ :: calls) live

/-- The scope of a call has the callee at its bottom. -/
def Rooted (entry : Entry) (ks : List Content) : Prop :=
  entry ≠ .block → ∃ above n, ks = above ++ [.callee n]

variable {entry : Entry}

lemma Rooted.replace {a ks} (h : Rooted entry (a ++ ks))
    (ha : ∀ n, callee n ∉ a) (b) : Rooted entry (b ++ ks) := by
  intro he
  obtain ⟨above, n, heq⟩ := h he
  rcases eq_nil_or_concat' ks with rfl | ⟨front, last, rfl⟩
  · rw [append_nil] at heq
    exact absurd (heq ▸ mem_append_right above mem_cons_self) (ha n)
  · rw [← append_assoc] at heq
    obtain ⟨-, hl⟩ := append_inj' heq rfl
    cases hl
    exact ⟨b ++ front, n, (append_assoc ..).symm⟩

/-- What lies on the operand stack above the floor, the top first. -/
def Layout.contents (L : Layout) : List Content := L.flatMap (·.places)

/-- The scopes outside lie below. -/
lemma Layout.contents_of_suffix {outer L : Layout} (h : outer <:+ L) :
    ∃ more, L.contents = more ++ outer.contents := by
  obtain ⟨inner, rfl⟩ := h
  exact ⟨Layout.contents inner, flatMap_append⟩

namespace Stacked

variable {b : Machine} {L : Layout} {ops : List (Option Value)} {scopes : List Scope}
  {calls : List Call} {live : List Machine}

section

variable (h : Stacked S b L ops scopes calls live)

include h

lemma contents :
    ∃ segs, ops = segs ++ b.operands ∧ Forall₂ (Holds S) L.contents segs := by
  induction h with
  | base _ => exact ⟨[], rfl, .nil⟩
  | @block L ks cs seg _ _ _ _ _ _ _ ho _ ih =>
    obtain ⟨segs, rfl, hsegs⟩ := ih
    exact ⟨seg ++ segs, (append_assoc ..).symm, rel_append ho hsegs⟩
  | @call L above n entry seg _ _ _ _ _ _ ho _ ih =>
    obtain ⟨segs, rfl, hsegs⟩ := ih
    exact ⟨seg ++ segs, (append_assoc ..).symm, rel_append ho hsegs⟩

lemma length_contents :
    ops.length = L.contents.length + b.stack.size := by
  obtain ⟨segs, rfl, hsegs⟩ := h.contents
  rw [length_append, hsegs.length_eq, Machine.length_operands]

lemma only : ∀ v, some v ∈ ops → v.Only S.Owns := by
  have hseg : ∀ {ks seg}, Forall₂ (Holds S) ks seg → ∀ v, some v ∈ seg → v.Only S.Owns := by
    intro ks seg hholds v hv
    induction hholds with
    | nil => cases hv
    | cons hx _ ih =>
      rcases mem_cons.mp hv with rfl | hv
      · exact hx.only
      · exact ih hv
  induction h with
  | base hb => exact hb
  | block _ ho _ ih => exact fun v hv => (mem_append.mp hv).elim (hseg ho v) (ih v)
  | call _ ho _ ih => exact fun v hv => (mem_append.mp hv).elim (hseg ho v) (ih v)

lemma scopes_eq :
    ∃ above, scopes = above ++ b.scopeList := by
  induction h with
  | base _ => exact ⟨[], rfl⟩
  | block _ _ _ ih => obtain ⟨above, rfl⟩ := ih; exact ⟨_ :: above, rfl⟩
  | call _ _ _ ih => obtain ⟨above, rfl⟩ := ih; exact ⟨_ :: above, rfl⟩

/-- Each call of the loop has its callee on the loop's part of the operand stack. -/
lemma calls_eq :
    ∃ own, calls = own ++ b.callList ∧ ∀ c ∈ own, b.stack.size ≤ c.base ∧ c.base < ops.length := by
  induction h with
  | base _ => exact ⟨[], rfl, nofun⟩
  | block _ _ _ ih =>
    obtain ⟨own, rfl, hown⟩ := ih
    refine ⟨own, rfl, fun c hc => ⟨(hown c hc).1, ?_⟩⟩
    have := (hown c hc).2
    rw [length_append]
    omega
  | call outer ho _ ih =>
    obtain ⟨own, rfl, hown⟩ := ih
    have hseg := ho.length_eq
    have hlen := outer.length_contents
    simp only [length_append, length_cons, length_nil] at hseg
    refine ⟨_ :: own, rfl, fun c hc => ?_⟩
    rw [length_append]
    rcases mem_cons.mp hc with rfl | hc
    · dsimp only
      omega
    · have := hown c hc
      omega

end

variable {ks : List Content} {cs : List Code}

section

variable (h : Stacked S b (⟨ks, cs, entry⟩ :: L) ops scopes calls live)

include h

/-- **The innermost scope**: its part of the operand stack can be replaced. -/
theorem top :
    ∃ seg below targets outer, ops = seg ++ below ∧ scopes = ⟨below.length, targets⟩ :: outer
      ∧ Forall₂ (Holds S) ks seg ∧ Rooted entry ks
      ∧ b.stack.size ≤ below.length ∧ b.scopes.size ≤ outer.length
      ∧ ∀ places' seg', Forall₂ (Holds S) places' seg' → Rooted entry places' →
        Stacked S b (⟨places', cs, entry⟩ :: L) (seg' ++ below) scopes calls live := by
  have hbounds : ∀ {L ops scopes calls live}, Stacked S b L ops scopes calls live →
      b.stack.size ≤ ops.length ∧ b.scopes.size ≤ scopes.length := by
    intro L ops scopes calls live h
    obtain ⟨above, rfl⟩ := h.scopes_eq
    rw [h.length_contents, length_append, Machine.length_scopeList]
    omega
  cases h with
  | block outer ho catching =>
    obtain ⟨hops, hsc⟩ := hbounds outer
    exact ⟨_, _, _, _, rfl, rfl, ho, fun h => absurd rfl h, hops, hsc,
      fun _ _ holds' _ => .block outer holds' catching⟩
  | call outer ho entered =>
    obtain ⟨hops, hsc⟩ := hbounds outer
    refine ⟨_, _, _, _, rfl, rfl, ho, fun _ => ⟨_, _, rfl⟩, hops, hsc,
      fun places' seg' holds' hroot => ?_⟩
    obtain ⟨above, n, rfl⟩ := hroot (by cases entered <;> nofun)
    exact .call outer holds' entered

omit h in
/-- A scope inside a function. -/
lemma of_block (h : Stacked S b (⟨ks, cs, .block⟩ :: L) ops scopes calls live) :
    ∃ seg below targets outer points rest, ops = seg ++ below
      ∧ scopes = ⟨below.length, targets⟩ :: outer ∧ live = points ++ rest
      ∧ Forall₂ (Holds S) ks seg
      ∧ Catching S L below outer calls cs targets points
      ∧ Stacked S b L below outer calls rest := by
  generalize hL : (⟨ks, cs, .block⟩ :: L : Layout) = whole at h
  cases h with
  | base _ => cases hL
  | block outer ho catching =>
    cases hL
    exact ⟨_, _, _, _, _, _, rfl, rfl, rfl, ho, catching, outer⟩
  | call _ _ entered =>
    obtain ⟨hlevel, -⟩ := cons.inj hL
    cases (Level.mk.inj hlevel).2.2
    cases entered

/-- The scope of a call. -/
lemma of_call (he : entry ≠ .block) :
    ∃ seg below outer rest ret, ops = seg ++ below ∧ scopes = ⟨below.length, []⟩ :: outer
      ∧ calls = ⟨below.length, ret⟩ :: rest ∧ Forall₂ (Holds S) ks seg
      ∧ Entered S L entry ret ∧ Stacked S b L below outer rest live := by
  cases h with
  | block => exact absurd rfl he
  | call outer ho entered => exact ⟨_, _, _, _, _, rfl, rfl, rfl, ho, entered, outer⟩

end

section

variable (h : Stacked S b L ops scopes calls live)

include h

/-- **A variable's slot** is on the operand stack, where the layout has it, and holds what the
layout says. -/
theorem slot {depth slot : Nat} {k : Content} (hk : L.place? depth slot = some k) :
    ∃ s x i, scopes[depth]? = some s ∧ ops.reverse[s.base + slot]? = some x ∧ k.Holds S x
      ∧ s.base + slot = b.stack.size + i ∧ L.contents.reverse[i]? = some k := by
  have hin : ∀ {L : Layout} {ks : List Content} {cs : List Code} {entry : Entry}
      {seg ops : List (Option Value)}, List.Forall₂ (Holds S) ks seg →
      ops.length = L.contents.length + b.stack.size → ks.reverse[slot]? = some k →
      ∃ x i, (seg ++ ops).reverse[ops.length + slot]? = some x ∧ k.Holds S x
        ∧ ops.length + slot = b.stack.size + i
        ∧ (Layout.contents (⟨ks, cs, entry⟩ :: L)).reverse[i]? = some k := by
    intro L ks cs entry seg ops ho hlen hp
    obtain ⟨x, hx, hkx⟩ := holds_getElem? (List.rel_reverse ho) hp
    refine ⟨x, L.contents.length + slot, ?_, hkx, by omega, ?_⟩
    · rw [List.reverse_append, List.getElem?_append_right (by simp), List.length_reverse,
        Nat.add_sub_cancel_left, hx]
    · show (ks ++ L.contents).reverse[_]? = _
      rw [List.reverse_append, List.getElem?_append_right (by simp), List.length_reverse,
        Nat.add_sub_cancel_left, hp]
  have houter : ∀ {L : Layout} {ks : List Content} {cs : List Code} {entry : Entry}
      {seg ops : List (Option Value)} {j i : Nat} {x : Option Value}, ops.reverse[j]? = some x →
      L.contents.reverse[i]? = some k → (seg ++ ops).reverse[j]? = some x
        ∧ (Layout.contents (⟨ks, cs, entry⟩ :: L)).reverse[i]? = some k := by
    intro L ks cs entry seg ops j i x hx hi
    obtain ⟨hltx, -⟩ := List.getElem?_eq_some_iff.mp hx
    obtain ⟨hlti, -⟩ := List.getElem?_eq_some_iff.mp hi
    refine ⟨by rw [List.reverse_append, List.getElem?_append_left hltx, hx], ?_⟩
    show (ks ++ L.contents).reverse[_]? = _
    rw [List.reverse_append, List.getElem?_append_left hlti, hi]
  induction h generalizing depth with
  | base _ => cases hk
  | block outer ho _ ih | call outer ho _ ih =>
    cases depth with
    | zero =>
      obtain ⟨x, i, hx, hkx, hi, hget⟩ := hin ho outer.length_contents hk
      exact ⟨_, x, i, rfl, hx, hkx, hi, hget⟩
    | succ depth =>
      obtain ⟨s, x, i, hs, hx, hkx, hi, hget⟩ := ih hk
      obtain ⟨hx, hget⟩ := houter hx hget
      exact ⟨s, x, i, hs, hx, hkx, hi, hget⟩

/-- **The running closure** has the captured variables that the layout says. -/
theorem running {n : Nat} (hn : L.captured? = some n) (hpos : 0 < n) :
    ∃ call rest c, calls = call :: rest ∧ ops.reverse[call.base]? = some (some (.closure c))
      ∧ n ≤ c.upvalues.length := by
  induction h with
  | base _ => cases hn
  | @block L ks cs seg ops _ _ _ _ _ outer ho _ ih =>
    obtain ⟨call, rest, c, hcs, hc, hle⟩ := ih hn
    refine ⟨call, rest, c, hcs, ?_, hle⟩
    obtain ⟨hlt, -⟩ := List.getElem?_eq_some_iff.mp hc
    rw [List.reverse_append, List.getElem?_append_left hlt, hc]
  | @call L above k entry seg ops _ _ _ _ outer ho entered ih =>
    obtain rfl : k = n := by cases entered <;> simpa [Layout.captured?] using hn
    obtain ⟨x, hx, v, rfl, -, hcl⟩ :=
      holds_getElem? (i := 0) (List.rel_reverse ho) (by rw [List.reverse_append]; rfl)
    obtain ⟨c, rfl, hle⟩ := hcl hpos
    refine ⟨_, _, c, rfl, ?_, hle⟩
    rw [List.reverse_append, List.getElem?_append_right (by simp), List.length_reverse,
      Nat.sub_self, hx]

/-- Without an open catch no scope of the loop has a target. -/
lemma uncaught (hlive : live = []) :
    ∃ above, scopes = above ++ b.scopeList ∧ ∀ s ∈ above, s.recovery = [] := by
  induction h with
  | base _ => exact ⟨[], rfl, nofun⟩
  | block _ _ catching ih =>
    obtain ⟨hpoints, hr⟩ := append_eq_nil_iff.mp hlive
    obtain ⟨above, rfl, hn⟩ := ih hr
    refine ⟨_ :: above, rfl, ?_⟩
    cases catching with
    | nil => simpa using hn
    | cons => cases hpoints
  | call _ _ _ ih =>
    obtain ⟨above, rfl, hn⟩ := ih hlive
    exact ⟨_ :: above, rfl, by simpa using hn⟩

end

/-- **The innermost open catch**: the stacks of the machine that executed it are below, and code
that is safe on them with the error on top lies at its target. -/
structure CaughtAt (S : Parts) (b : Machine) (L : Layout) (ops : List (Option Value))
    (scopes : List Scope) (calls : List Call) (point : Machine) (live : List Machine) (target : Nat)
    (targets : List Nat) (above below : List Scope) (made : List Call) (code : Code)
    (cs : List Code) (outer : Layout) : Prop where
  scopes_eq : scopes = above ++ ⟨point.operands.length, target :: targets⟩ :: below
  above_none : ∀ s ∈ above, s.recovery = []
  point_scopes : point.scopeList = ⟨point.operands.length, targets⟩ :: below
  calls_eq : calls = made ++ point.callList
  made_above : ∀ c ∈ made, point.operands.length ≤ c.base
  ops_eq : ∃ junk, ops = junk ++ point.operands
  inside : outer <:+ L
  handler : S.program.Handler point target
  place : Code.At S.functions target code
  safe : Safe S.tables code (⟨[.value], cs, .block⟩ :: outer)
  stacked : Stacked S b (⟨[], cs, .block⟩ :: outer) point.operands point.scopeList
    point.callList live

lemma caught (h : Stacked S b L ops scopes calls live) {point rest}
    (hlive : live = point :: rest) :
    ∃ t targets above below made code cs outer,
      CaughtAt S b L ops scopes calls point rest t targets above below made code cs
        outer := by
  induction h with
  | base _ => cases hlive
  | @block L ks cs seg ops targets scopes calls points live outer ho catching ih =>
    cases catching with
    | nil =>
      obtain ⟨t, targets, above, below, made, code, cs, inner, hc⟩ := ih hlive
      obtain ⟨junk, hjunk⟩ := hc.ops_eq
      exact ⟨t, targets, ⟨ops.length, []⟩ :: above, below, made, code, cs, inner,
        { hc with
          scopes_eq := by rw [hc.scopes_eq]; rfl
          above_none := by simpa using hc.above_none
          ops_eq := ⟨seg ++ junk, by rw [append_assoc, ← hjunk]⟩
          inside := hc.inside.trans (suffix_cons ..) }⟩
    | @cons code cs t targets p points os place safe handler hops hsc hcs =>
      obtain ⟨rfl, rfl⟩ := cons.inj hlive
      refine ⟨t, targets, [], scopes, [], code, cs, L, ?_⟩
      exact {
        scopes_eq := by rw [hops]; rfl
        above_none := nofun
        point_scopes := by rw [hops, hsc]
        calls_eq := by rw [hcs]; rfl
        made_above := nofun
        ops_eq := ⟨seg, by rw [hops]⟩
        inside := suffix_cons ..
        handler := handler
        place := place
        safe := safe
        stacked := by
          rw [hops, hsc, hcs]
          exact .block (s := []) outer .nil os }
  | @call L above n entry seg ops scopes calls live ret outer ho entered ih =>
    obtain ⟨t, targets, scopesAbove, below, made, code, cs, inner, hc⟩ := ih hlive
    obtain ⟨junk, hjunk⟩ := hc.ops_eq
    refine ⟨t, targets, ⟨ops.length, []⟩ :: scopesAbove, below,
      ⟨ops.length, ret⟩ :: made, code, cs, inner, ?_⟩
    exact { hc with
      scopes_eq := by rw [hc.scopes_eq]; rfl
      above_none := by simpa using hc.above_none
      calls_eq := by rw [hc.calls_eq]; rfl
      made_above := by
        have hlen : point.operands.length ≤ ops.length := by
          rw [hjunk, length_append]
          omega
        exact forall_mem_cons.mpr ⟨hlen, hc.made_above⟩
      ops_eq := ⟨seg ++ junk, by rw [append_assoc, ← hjunk]⟩
      inside := hc.inside.trans (suffix_cons ..) }

end Stacked

end TreeCode
