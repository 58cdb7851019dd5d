import TreeCode.Proofs.Catches
import TreeCode.Proofs.Wiring

/-!
# Captured variables of a program

Which slots have been reserved for variables, and for which scope, is tracked along everything that
runs in a session with a program (`Session.Tracks`). In a program that was lowered from a tree only
reserved slots of scopes that are still open are ever captured (`Activity.Placed`), and no
instruction reaches down to them: what it takes are operands above (`Machine.Runs.margin`). So the
variable of a captured slot stays in its slot, changed by assignments only, until it is detached
with what the slot holds at that moment (`Session.captured_never_dangle`).
-/

namespace TreeCode

open Machine List Instruction

variable {S : Parts} {V W : Slots}

/-! ## Fewer slots -/

variable {b m : Machine} {L : Layout} {live : List Machine}

namespace Machine

/-- Only the slots below the heights of the stacks matter. -/
lemma Fits.restrict (h : Fits S V b L live m)
    (hVW : ∀ d i, d < m.scopes.size → i < m.stack.size → V d i → W d i) : Fits S W b L live m where
  __ := h
  slots := by
    have hsc := h.stacked.length_scopes
    have hops := h.stacked.length_contents
    rw [length_scopeList] at hsc
    rw [length_operands] at hops
    exact h.slots.restrict fun d i hd hi => hVW d i (by omega) (by omega)

lemma Houses.restrict {i} (h : m.Houses V i) (hVW : ∀ d, d < m.scopes.size → V d i → W d i) :
    m.Houses W i := by
  obtain ⟨d, s, hV, hs, hbase⟩ := h
  exact ⟨d, s, hVW d (Array.getElem?_eq_some_iff.mp hs).1 hV, hs, hbase⟩

lemma size_withOperands {junk ops} (h : m.operands = junk ++ ops) :
    (m.withOperands ops).stack.size ≤ m.stack.size := by
  rw [← length_operands, ← length_operands, operands_withOperands, h, length_append]
  omega

lemma Runs.restrict (h : Runs S V b live m)
    (hVW : ∀ d i, d < m.scopes.size → i < m.stack.size → V d i → W d i) : Runs S W b live m := by
  cases h with
  | safe fits place safe => exact .safe (fits.restrict hVW) place safe
  | @constructs _ _ _ _ _ _ _ c _ _ h =>
    have hle := size_withOperands (show m.operands = [some (.closure c)] ++ _ from h.operands)
    exact .constructs { h with fits := h.fits.restrict fun d i hd hi => hVW d i hd (by omega) }

lemma Unwinds.restrict (h : Unwinds S V b live m)
    (hVW : ∀ d i, d < m.scopes.size → i < m.stack.size → V d i → W d i) : Unwinds S W b live m := by
  obtain ⟨junk, ops, hops, hf⟩ := h
  have hle := size_withOperands hops
  exact ⟨junk, ops, hops, hf.restrict fun d i hd hi => hVW d i hd (by omega)⟩

lemma Leaves.restrict (h : Leaves S V b m)
    (hVW : ∀ d i, d < m.scopes.size → i < m.stack.size → V d i → W d i) : Leaves S W b m where
  __ := h
  openCells := by
    obtain ⟨above, heq, habove⟩ := h.openCells
    refine ⟨above, heq, fun p hp => ?_⟩
    obtain ⟨hle, hlt, hhouses⟩ := habove p hp
    exact ⟨hle, hlt, hhouses.restrict fun d hd => hVW d _ hd hlt⟩

lemma Continues.mono (hVW : ∀ d i, V d i → W d i) :
    ∀ {r}, Continues S V b live r → Continues S W b live r
  | .ok () _, h => Runs.restrict h fun d i _ _ => hVW d i
  | .error (.raised _) _, h => ⟨h.1, h.2.restrict fun d i _ _ => hVW d i⟩
  | .error (.fault _) _, h => h

end Machine

/-- **The slots that lie on the stacks of a loop**, or any while an instruction is not complete. -/
def Progress.spans : Progress → Slots
  | .running m, d, i | .finished _ m, d, i => d < m.scopes.size ∧ i < m.stack.size
  | .waiting _ _, _, _ => True

variable {setting : Setting} {a : Activity} {i : Instruction}

lemma Progress.Fits.restrict :
    ∀ {p : Progress}, p.Fits S V b live → (∀ d i, p.spans d i → V d i → W d i) → p.Fits S W b live
  | .running _, h, hVW => Runs.restrict h fun d i hd hi => hVW d i ⟨hd, hi⟩
  | .finished _ _, h, hVW => ⟨h.1, h.2.restrict fun d i hd hi => hVW d i ⟨hd, hi⟩⟩
  | .waiting _ _, h, hVW => by
    obtain ⟨hunwinds, hops, hjob⟩ := h
    have hmono : ∀ d i, V d i → W d i := fun d i => hVW d i trivial
    refine ⟨hunwinds.restrict fun d i _ _ => hmono d i, hops, ?_⟩
    exact hjob.weaken fun x h m' hk => (h m' hk).mono hmono

/-! ## Reserved slots -/

namespace Activity

/-- The slots that the next instruction of a loop reserves, if it reserves any: they belong to the
innermost scope. -/
def reserves (setting : Setting) : Activity → Slots
  | .loop _ (.running m) _, d, i => ∃ n,
      decode setting.program.code m.pc = .ok (.reserve n)
        ∧ d = m.scopes.size - 1 ∧ m.stack.size ≤ i ∧ i < m.stack.size + n.toNat
  | _, _, _ => False

def spans : Activity → Slots
  | .loop _ p _ => p.spans
  | _ => .all

end Activity

/-- **The slots that have been reserved**, and for which scopes, when something runs in a session:
those that instructions of the loops have reserved and that are still on the stacks. -/
inductive Session.Tracks (setting) : Activity → Slots → Prop where
  | begins {a : Activity} (h : Session.Begins setting a) : Tracks setting a fun _ _ => False
  | leads {a c V} (h : Tracks setting a V) (hleads : Leads setting a c) :
      Tracks setting c fun d i => (V d i ∨ a.reserves setting d i) ∧ c.spans d i

lemma Session.Reachable.tracks
    (h : Session.Reachable setting a) : ∃ V, Session.Tracks setting a V := by
  obtain ⟨first, hbegins, hreaches⟩ := h
  induction hreaches with
  | refl => exact ⟨_, .begins hbegins⟩
  | tail _ hl ih =>
    obtain ⟨V, hV⟩ := ih
    exact ⟨_, hV.leads hl⟩

namespace Machine

variable {m' : Machine}

/-- **The captured variables on the stack** are in given slots of scopes that are on the scope
stack. -/
def Housed (V : Slots) (m : Machine) : Prop :=
  ∀ p ∈ m.openCells, p.1 < m.stack.size ∧ m.Houses V p.1

lemma Housed.restrict (h : m.Housed V)
    (hVW : ∀ d i, d < m.scopes.size → i < m.stack.size → V d i → W d i) : m.Housed W :=
  fun p hp => ⟨(h p hp).1, (h p hp).2.restrict fun d hd => hVW d _ hd (h p hp).1⟩

/-- A loop keeps the stacks at least as high as they were when it was entered. -/
lemma Leaves.sizes (h : Leaves S V b m) :
    b.scopes.size ≤ m.scopes.size ∧ b.stack.size ≤ m.stack.size := by
  obtain ⟨scopes, hsc⟩ := h.scopes
  obtain ⟨operands, hops⟩ := h.operands
  rw [← length_scopeList, ← length_scopeList, hsc, ← length_operands, ← length_operands,
    hops, length_append, length_append]
  omega

/-- The slots that were housed when a loop was entered still are. -/
lemma Leaves.housed (h : Leaves S V b m) (hb : b.Housed V) : m.Housed V := by
  obtain ⟨above, hcells, habove⟩ := h.openCells
  obtain ⟨scopes, hsc⟩ := h.scopes
  intro p hp
  rw [hcells, mem_append] at hp
  rcases hp with hp | hp
  · exact (habove p hp).2
  · obtain ⟨hlt, d, s, hV, hs, hbase⟩ := hb p hp
    refine ⟨Nat.lt_of_lt_of_le hlt h.sizes.2, d, s, hV, ?_, hbase⟩
    have hd := (Array.getElem?_eq_some_iff.mp hs).1
    rw [m.scopes_eq hsc, reverse_append, getElem?_toArray,
      getElem?_append_left (by rwa [length_reverse, length_scopeList])]
    simpa [scopeList] using hs

/-- An instruction that is not complete leaves the captured variables where they are. -/
lemma Unwinds.housed (h : Unwinds S V b live m) (hb : b.Housed V) :
    m.Housed V := by
  obtain ⟨junk, ops, hops, hf⟩ := h
  intro p hp
  obtain ⟨hlt, hhouses⟩ := hf.leaves.housed hb p hp
  exact ⟨Nat.lt_of_lt_of_le hlt (size_withOperands hops), hhouses⟩

/-- Work of the host leaves the captured variables where they are. -/
lemma Kept.housed (h : Kept S m m') (hm : m.Housed V) : m'.Housed V := by
  intro p hp
  rw [h.openCells] at hp
  rw [Houses, h.scopes, h.stack]
  exact hm p hp

end Machine

lemma Progress.Fits.spans {d i} (hd : d < b.scopes.size) (hi : i < b.stack.size) :
    ∀ {p : Progress}, p.Fits S V b live → p.spans d i
  | .running _, h => by
    obtain ⟨junk, ops, hops, hf⟩ := Runs.unwinds h
    obtain ⟨hsc, hs⟩ := hf.leaves.sizes
    have hle := size_withOperands hops
    exact ⟨Nat.lt_of_lt_of_le hd hsc, by omega⟩
  | .finished _ _, h => ⟨Nat.lt_of_lt_of_le hd h.2.sizes.1, Nat.lt_of_lt_of_le hi h.2.sizes.2⟩
  | .waiting _ _, _ => trivial

namespace Activity

/-- **Only given slots are captured**, and all of them belong to scopes that are on the scope
stack. -/
def Placed (S : Parts) (V : Slots) : Activity → Prop
  | .loop b p live => p.Fits S V b live ∧ b.Housed V
  | a => a.machine.Housed V

/-- The captured variables of an activity are housed. -/
lemma Placed.housed (h : a.Placed S V) : a.machine.Housed V := by
  cases a with
  | loop b p live =>
    obtain ⟨hf, hb⟩ := h
    cases p with
    | running m => exact (Runs.unwinds hf).housed hb
    | waiting job m => exact hf.1.housed hb
    | finished r m => exact hf.2.housed hb
  | _ => exact h

/-- The loop that the activity is, if it is one. -/
def loop? : Activity → Option Progress
  | .loop _ p _ => some p
  | _ => none

/-- A loop that goes on keeps the slots that are on its stacks. -/
lemma placed_loop {p : Progress} (h : p.Fits S V b live)
    (hb : b.Housed V) (hVW : ∀ d i, p.spans d i → V d i → W d i) : (loop b p live).Placed S W :=
  ⟨h.restrict hVW, hb.restrict fun d i hd hi => hVW d i (h.spans hd hi)⟩

end Activity

/-! ## Instructions stay above the captured variables -/

namespace Machine

variable {a ks : List Content} {cs : List Code} {entry : Entry} {code : Code}

lemma taken_le_of_effect {T d}
    (h : Effect T L i a d) : i.taken ≤ a.length := by
  cases h <;> first | exact Nat.zero_le _ | exact Nat.le_refl _

lemma Fits.cells_lt (h : Fits S V b L live m) : ∀ p ∈ m.openCells, p.1 < m.stack.size := by
  have hs := h.stacked.length_contents
  rw [length_operands] at hs
  exact fun p hp => hs ▸ h.cells.lt_length p hp

/-- **Captured variables lie below the operands on top.** -/
theorem Fits.below_top (h : Fits S V b (⟨a ++ ks, cs, entry⟩ :: L) live m)
    (ha : ∀ k ∈ a, k.Full) {n} (hn : n ≤ a.length) :
    ∀ p ∈ m.openCells, p.1 + n < m.stack.size := by
  have hcontents : Layout.contents (⟨a ++ ks, cs, entry⟩ :: L)
      = a ++ Layout.contents (⟨ks, cs, entry⟩ :: L) := by simp [Layout.contents]
  have hslot : Content.slot ∉ a := fun hmem => absurd (ha _ hmem) (by simp [Content.Full])
  have hb : OpenCells b (⟨ks, cs, entry⟩ :: L) m.openCells :=
    h.cells.replace hcontents hslot (nil_append _).symm
  have hs := h.stacked.length_contents
  rw [hcontents, length_append, length_operands] at hs
  intro p hp
  have hlt := hb.lt_length p hp
  omega

/-- Code that is safe takes operands above the captured variables only. -/
lemma margin_of_safe (hs : Safe S.tables code L) :
    Fits S V b L live m → Code.At S.functions m.pc code →
    decode S.program.code m.pc = .ok i →
    ∀ p ∈ m.openCells, p.1 + i.taken < m.stack.size := by
  intro h hp hd
  have hplain : ∀ {j d rest}, Code.At S.functions m.pc (.plain j d :: rest) → i = j := fun hat => by
    rw [decode_plain hat, Except.ok.injEq] at hd
    exact hd.symm
  have hone : ∀ {k : Content}, k.Full → ∀ l ∈ [k], l.Full := fun hk l hl => mem_singleton.mp hl ▸ hk
  induction hs with
  | forget hk _ ih => exact ih (h.forget hk) hp
  | step effect _ =>
    cases hplain hp
    exact h.below_top (full_of_effect effect) (taken_le_of_effect effect)
  | writeLocal hk _ _ | closeScope hk _ | ret hk _ =>
    cases hplain hp
    exact h.below_top (a := [_]) (hone hk) (Nat.le_refl 1)
  | arrayPopOrDefault | objectPopOrDefault =>
    cases hplain hp
    exact h.below_top (a := [_]) (hone trivial) (Nat.le_refl 1)
  | openScope | openCall | enterCatch | leaveCatch | call =>
    cases hplain hp
    exact h.cells_lt
  | makeFunction =>
    rw [show decode S.program.code m.pc = _ from Code.decode_at hp] at hd
    cases hd
    exact h.cells_lt

/-- **The next instruction of a loop takes operands above the captured variables only.** -/
theorem Runs.margin (h : Runs S V b live m) (hd : decode S.program.code m.pc = .ok i) :
    ∀ p ∈ m.openCells, p.1 + i.taken < m.stack.size := by
  cases h with
  | safe fits place safe => exact margin_of_safe safe fits place hd
  | @constructs ks cs entry L captures code ops c index f h =>
    cases captures with
    | nil => exact absurd rfl h.more
    | cons j captures =>
      rw [show decode S.program.code m.pc = _ from decode_plain h.place] at hd
      cases hd
      have htaken : i.taken = 1 := by cases h.capturable i mem_cons_self <;> rfl
      have hs : m.stack.size = (m.withOperands ops).stack.size + 1 := by
        rw [← length_operands, ← length_operands, h.operands, operands_withOperands, length_cons]
      intro p hp
      have hlt := h.fits.cells_lt p hp
      omega

end Machine

variable {c : Activity}

namespace Leads

variable {a : Activity}

section Lowered

variable (hS : S.Closed) (hprog : setting.program = S.program) (hhost : setting.host.Honest)

include hS hprog hhost

/-- **Outside loops the host works on machines as they were.** -/
theorem kept (h : Leads setting a c) (hs : a.Sound S) (ha : a.loop? = none)
    (hc : c.loop? = none) : Kept S a.machine c.machine := by
  have hsf := safeguards hS hprog hhost
  cases h with
  | step | await | resume _ => cases ha
  | enter _ => cases hc
  | closure | native _ | call | force | collect | settle | suspension | elements | entries | stream
  | skip => exact .refl hs.1
  | node => exact .refl hs.1
  | @ask purpose held request next m => exact .holding hs.1 _
  | @answer purpose held request next m m' fuel response hrespond =>
    obtain ⟨hm, hjob⟩ := hs
    cases hjob with
    | ask hrequest _ =>
      have hheld : Kept S m (m.holding (held ++ m.held)) := .holding hm _
      have hk := ((hsf fuel).respond (hheld.sound hm) hrequest hrespond).2
      have hm' := hk.sound (hheld.sound hm)
      exact (hheld.trans hk).trans (.holding hm' _)
  | produce _ => exact .setStream hs _ trivial
  | again hperform => exact ((hsf _).perform hs.1 (Suspension.produce_handles hs.2) hperform).2
  | tail hforce => exact ((hsf _).force hs.1 hforce).2
  | collected hcollect => exact ((hsf _).collect hs.1 (forall_mem_nil _) hcollect).2

/-- **Only reserved slots are captured.** -/
theorem placed (h : Leads setting a c) (hs : a.Sound S) (hplaced : a.Placed S V) :
    c.Placed S fun d i => (V d i ∨ a.reserves setting d i) ∧ c.spans d i := by
  have hold : ∀ {d i}, c.spans d i → V d i → (V d i ∨ a.reserves setting d i) ∧ c.spans d i :=
    fun hspans hV => ⟨.inl hV, hspans⟩
  have hk := h.kept hS hprog hhost hs
  cases h with
  | @step b m live =>
    obtain ⟨hruns, hb⟩ := hplaced
    -- The slots that the instruction reserves are among those that it is executed with.
    let V' : Slots := fun d i => V d i ∨ (Activity.loop b (.running m) live).reserves setting d i
    have hruns' : Runs S V' b live m := Runs.restrict hruns fun _ _ _ _ => .inl
    have hlands := hruns'.step hS hprog hhost fun i hd n hn j hle hlt =>
      .inr ⟨n, hn ▸ hd, rfl, hle, hlt⟩
    exact Activity.placed_loop (Progress.fits_ofResult hlands)
      (hb.restrict fun _ _ _ _ => .inl) fun _ _ hspans hV => ⟨hV, hspans⟩
  | await => exact (hplaced.1.1.housed hplaced.2).restrict fun _ _ _ _ => hold trivial
  | @resume b m m' live job fuel r hp =>
    obtain ⟨⟨hunwinds, hops, hjob⟩, hb⟩ := hplaced
    obtain ⟨hr, hperformed⟩ :=
      (safeguards hS hprog hhost fuel).perform (hunwinds.sound hops) hjob hp
    have hlands := Progress.fits_ofResult (hunwinds.answered hperformed hr)
    rw [← resume_eq] at hlands
    exact Activity.placed_loop hlands hb fun _ _ => hold
  | enter _ =>
    obtain ⟨hm, henter, hargs, hna⟩ := hs
    exact Activity.placed_loop (hm.opened henter hargs hna) hplaced fun _ _ => hold
  | _ => exact ((hk rfl rfl).housed hplaced).restrict fun _ _ _ _ => hold trivial

end Lowered

end Leads

/-! ## What runs leaves the captured variables alone -/

/-- **The instruction that a loop waits for is completed above the captured variables.** -/
def Progress.Careful : Progress → Prop
  | .waiting job m => ∀ p ∈ m.openCells, ∃ k, m.Margin (p.1 + 1) k ∧
      job.Yields (Exec.Takes none k 0)
  | _ => True

namespace Progress

/-- Only work that is left to the host is to be completed. -/
lemma careful_ofResult {r}
    (h : ∀ job m, r = .ok (.await job) m → (waiting job m).Careful) : (ofResult r).Careful := by
  match r with
  | .ok .next _ | .ok (.yield _) _ | .error (.fault _) _ => trivial
  | .ok (.await job) m => exact h job m rfl
  | .error (.raised e) m =>
    rw [ofResult]
    split <;> trivial

lemma careful_resume (m ans) :
    (resume m ans).Careful := by
  cases ans with
  | ok x => exact careful_ofResult fun _ _ h => absurd h thenNext_ne_await
  | error e => exact careful_ofResult (r := .error (.raised e) m) nofun

end Progress

lemma Machine.Runs.decoded {host : Host} (hS : S.Closed)
    (hhost : host.Honest) (h : Runs S V b live m) :
    ∃ i, decode S.program.code m.pc = .ok i := by
  have hall : Runs S .all b live m := h.restrict fun _ _ _ _ _ => trivial
  obtain ⟨i, hd, -⟩ := hall.execute hS hhost fun _ _ => reserves_all
  exact ⟨i, hd⟩

lemma Machine.Runs.careful_advance (hprog : setting.program = S.program) (h : Runs S V b live m)
    (hd : decode S.program.code m.pc = .ok i) : (m.advance setting).Careful := by
  by_cases hcs : m.Counts setting.limits
  · rw [advance, step_eq hcs (hprog ▸ hd)]
    refine Progress.careful_ofResult fun job m' hr p hp => ?_
    rw [openCells_of_await hr] at hp
    have hmargin : (m.fetched i).Margin (p.1 + 1) i.taken := by
      have hlt : p.1 + i.taken < m.stack.size := h.margin hd p hp
      show min (p.1 + 1) m.stack.size ≤ m.stack.size - i.taken
      omega
    refine (takes_execute setting.program setting.host i (fun depth slot hi => ?_) (p.1 + 1)
      (m.fetched i) hmargin.poised).2 hr
    subst hi
    exact thenNext_ne_await hr
  · obtain ⟨e, e', m', -, hadvance, -⟩ := advance_refused hcs
    rw [hadvance]
    trivial

/-- Work of the host leaves the variables in their slots. -/
lemma Machine.Kept.carries {m'} (h : Kept S m m') {i c}
    (hc : (i, c) ∈ m.openCells) (hi : i < m.stack.size) : m'.Carries i c (m.slotContent i) := by
  refine .inl ⟨h.openCells ▸ hc, h.stack ▸ hi, ?_⟩
  rw [slotContent, slotContent, h.stack]

namespace Activity

def Careful : Activity → Prop
  | .loop _ p _ => p.Careful
  | _ => True

/-- **The activity assigns a value to a slot** by the next instruction of a loop. -/
def Assigns (p : Program) (i : Nat) (v : Value) : Activity → Prop
  | .loop _ (.running m) _ => m.Assigns p i v
  | _ => False

/-- **What holds of whatever runs in a session with a program.** -/
structure Guarded (S : Parts) (V : Slots) (a : Activity) : Prop where
  sound : a.Sound S
  placed : a.Placed S V
  wired : a.machine.Wired
  brief : a.Brief
  careful : a.Careful

end Activity

namespace Leads

variable {a : Activity}

section Lowered

variable (hS : S.Closed) (hprog : setting.program = S.program) (hhost : setting.host.Honest)

include hS hprog hhost

lemma guarded (h : Leads setting a c) (ha : a.Guarded S V) :
    c.Guarded S fun d i => (V d i ∨ a.reserves setting d i) ∧ c.spans d i where
  sound := h.sound hS hprog hhost ha.sound
  placed := h.placed hS hprog hhost ha.sound ha.placed
  wired := (h.evolves ha.brief).wired ha.wired
  brief := h.brief ha.brief
  careful := by
    cases h with
    | step =>
      obtain ⟨i, hd⟩ := Runs.decoded hS hhost ha.placed.1
      exact Runs.careful_advance hprog ha.placed.1 hd
    | resume _ => exact Progress.careful_resume ..
    | _ => trivial

/-- **The variable of a captured slot stays there**, or is detached with what the slot held; unless
the activity assigns to it. -/
theorem carries (h : Leads setting a c) (ha : a.Guarded S V) {i cell}
    (hc : (i, cell) ∈ a.machine.openCells) :
    ∃ x, c.machine.Carries i cell x
      ∧ (x = a.machine.slotContent i ∨ ∃ v, x = some v ∧ a.Assigns setting.program i v) := by
  obtain ⟨hlt, -⟩ := ha.placed.housed _ hc
  have hk := h.kept hS hprog hhost ha.sound
  cases h with
  | @step b m live =>
    obtain ⟨ins, hd⟩ := Runs.decoded hS hhost ha.placed.1
    exact follows_advance ha.wired hc (hprog ▸ hd)
      (Runs.margin ha.placed.1 hd _ hc)
  | await => exact ⟨_, .inl ⟨hc, hlt, rfl⟩, .inl rfl⟩
  | @resume b m m' live job fuel r hp =>
    obtain ⟨hunwinds, hops, hjob⟩ := ha.placed.1
    have hperformed := ((safeguards hS hprog hhost fuel).perform (hunwinds.sound hops) hjob
      hp).2
    have hevolved := Task.evolves_of_outcome (t := .perform .resume job m) ha.brief hp
    refine ⟨_, Touches.carries ?_ (hevolved.wired ha.wired) (hperformed.carries hc hlt), .inl rfl⟩
    obtain ⟨k, hmargin, hyields⟩ := ha.careful _ hc
    cases r with
    | error e => exact Progress.touches_ofResult (x := fun m => .error (.raised e) m) .refl
    | ok act =>
      have htakes := TakesTop.thenNext (yields_of_perform hyields hp)
      have hleft : m'.Margin (i + 1) k := by rwa [Margin, hperformed.stack]
      exact Progress.touches_ofResult (htakes (i + 1) m' hleft.poised).1.touches
  | enter _ => exact ⟨_, (Task.touches_opened ..).carries ha.wired (.inl ⟨hc, hlt, rfl⟩), .inl rfl⟩
  | _ => exact ⟨_, (hk rfl rfl).carries hc hlt, .inl rfl⟩

end Lowered

end Leads

/-- **Whatever runs in a session with a program keeps its captured variables.** -/
theorem Session.Tracks.guarded (hS : S.Closed) (hmain : Enterable S 0 .null)
    (hprog : setting.program = S.program) (hhost : setting.host.Honest)
    (h : Session.Tracks setting a V) : a.Guarded S V := by
  induction h with
  | begins h =>
    have hs := Session.Reachable.sound hS hmain hprog hhost ⟨_, h, .refl⟩
    cases h with
    | run hsession => exact ⟨hs, forall_mem_nil _, wired_start hsession.detached, trivial, trivial⟩
    | call hsession _ _ _ =>
      exact ⟨hs, forall_mem_nil _, wired_start hsession.detached, trivial, trivial⟩
  | leads _ hl ih => exact hl.guarded hS hprog hhost ih

namespace Session

/-- **Captured variables never dangle.** In whatever runs in a session with a program that was
lowered from a tree, the cells on the stack are those that the machine knows, each under its slot,
and their slots are reserved ones of scopes that are still there. From one activity to the next a
detached cell stays as it is, and a cell on the stack stays in its slot, with the slot's content or
a value that is just assigned, or is detached with it; and so does the end of a loop. When a run or
a call by the host has ended, for any program and in any way, every cell that it made is
detached. -/
theorem captured_never_dangle {env : Environment} {e : Expr} {p : Program} {host : Host}
    (henv : env.Gives Value.ClosureFree) (he : ∀ v ∈ e.literals, v.ClosureFree)
    (hhost : host.Honest) (hlower : e.lower env = .ok p) (hsize : p.code.size < UInt32.size)
    (limits : Limits) : (∀ a, Reachable ⟨p, host, limits⟩ a → ∃ V, Tracks ⟨p, host, limits⟩ a V) ∧
    (∀ a V, Tracks ⟨p, host, limits⟩ a V →
      (∀ (i : Nat) (c : CellId), a.machine.heap.cells[c]? = some (.onStack i)
        ↔ cellAt? i a.machine.openCells = some c) ∧
      (∀ (i : Nat) (c : CellId), a.machine.heap.cells[c]? = some (.onStack i) →
        i < a.machine.stack.size ∧ a.machine.Houses V i) ∧
      (∀ next, Leads ⟨p, host, limits⟩ a next →
        (∀ (c : CellId) x, a.machine.heap.cells[c]? = some (.closed x) →
          next.machine.heap.cells[c]? = some (.closed x)) ∧
        ∀ (i : Nat) (c : CellId), a.machine.heap.cells[c]? = some (.onStack i) →
          ∃ x, next.machine.Carries i c x
            ∧ (x = a.machine.slotContent i ∨ ∃ v, x = some v ∧ a.Assigns p i v)) ∧
      (∀ b result m live, a = .loop b (.finished result m) live →
        (∀ (c : CellId) x, m.heap.cells[c]? = some (.closed x) →
          (m.closed b.suspended).heap.cells[c]? = some (.closed x)) ∧
        ∀ (i : Nat) (c : CellId), m.heap.cells[c]? = some (.onStack i) →
          (m.closed b.suspended).Carries i c (m.slotContent i))) ∧
    (∀ (setting : Setting) (m : Machine) (fuel : Nat) (outcome : Outcome) (m' : Machine),
      (m.run setting fuel = some (outcome, m') ∨
        ∃ callee args named, m.invoke setting callee args named fuel = some (outcome, m')) →
      ∀ c : CellId, m.heap.cells.size ≤ c → c < m'.heap.cells.size →
        ∃ x, m'.heap.cells[c]? = some (.closed x)) := by
  obtain ⟨S, rfl, hS, hmain⟩ := Expr.lower_parts henv he hlower hsize
  refine ⟨fun a h => h.tracks, fun a V h => ?_, fun setting m fuel outcome m' hended c => ?_⟩
  · have hguarded := h.guarded hS hmain rfl hhost
    have hwired := hguarded.wired
    refine ⟨fun i c => hwired.cellAt?_iff.symm, fun i c hc => ?_, fun next hleads => ⟨?_, ?_⟩, ?_⟩
    · exact hguarded.placed.housed _ (hwired.mem_iff.mpr hc)
    · exact fun c x => (hleads.evolves hguarded.brief).closed hwired
    · exact fun i c hc => hleads.carries hS rfl hhost hguarded (hwired.mem_iff.mpr hc)
    · rintro b result m live rfl
      refine ⟨fun c x => (Task.touches_closed 0 m _).evolves.closed hwired, fun i c hc => ?_⟩
      have hmem := hwired.mem_iff.mpr hc
      exact (Task.touches_closed (i + 1) m _).carries hwired
        (.inl ⟨hmem, (hguarded.placed.housed _ hmem).1, rfl⟩)
  · obtain ⟨m₁, hevolves, hheap⟩ : ∃ m₁, Evolves m m₁ ∧ m'.heap = m₁.cleared.heap := by
      rcases hended with hrun | ⟨callee, args, named, hinvoke⟩
      · exact run_evolves hrun
      · exact invoke_evolves hinvoke
    exact hevolves.detached (listed_self m) hheap

/-! ### A function that refers to itself -/

/-- A function captures the variable that it is about to be assigned to. -/
def referringToItself : Expr :=
  .defining [(.name "f", .given [] [] (.name "f" none))] (.name "f" none)

def capturedInSlot (_ : Program) (s : Machine × List Machine) : Bool :=
  match s.1.heap.cells[0]?, s.1.slotContent 3 with
  | some (Upvalue.onStack 3), none => true
  | _, _ => false

/-- After the fourth instruction of the program the variable is captured, and still in its slot. -/
lemma referringToItself_captures : ∃ p b m live,
    referringToItself.lower {} = .ok p ∧ p.code.size < UInt32.size
      ∧ Reachable ⟨p, {}, {}⟩ (.loop b (.running m) live)
      ∧ m.heap.cells[0]? = some (.onStack 3) ∧ m.slotContent 3 = none := by
  obtain ⟨p, m, live, hl, hs, hr, htest⟩ :=
    reachable_of_any (e := referringToItself) (n := 4) (t := capturedInSlot) (by decide +kernel)
  unfold capturedInSlot at htest
  split at htest
  · next hcells hc => exact ⟨p, _, m, live, hl, hs, hr, hcells, hc⟩
  · cases htest

/-- The slot that the function captures is a reserved one, and the function's first assignment shows
in it or in the cell. -/
theorem captured_never_dangle_referringToItself : ∃ p a V,
    referringToItself.lower {} = .ok p ∧ Tracks ⟨p, {}, {}⟩ a V
      ∧ cellAt? 3 a.machine.openCells = some 0 ∧ a.machine.Houses V 3
      ∧ ∀ next, Leads ⟨p, {}, {}⟩ a next → ∃ x, next.machine.Carries 3 0 x
        ∧ (x = none ∨ ∃ v, x = some v ∧ a.Assigns p 3 v) := by
  obtain ⟨p, b, m, live, hlower, hsize, hreach, hcell, hcontent⟩ := referringToItself_captures
  have hhost : ({} : Host).Honest := fun code n hn => by cases hn
  obtain ⟨htracks, hheld, -⟩ := captured_never_dangle empty_gives
    (show ∀ v ∈ referringToItself.literals, v.ClosureFree from List.forall_mem_nil _) hhost hlower
    hsize {}
  obtain ⟨V, hV⟩ := htracks _ hreach
  obtain ⟨hknown, hhouses, hleads, -⟩ := hheld _ V hV
  refine ⟨p, _, V, hlower, hV, (hknown 3 0).mp hcell, (hhouses 3 0 hcell).2, fun next hnext => ?_⟩
  obtain ⟨x, hx, hcontents⟩ := (hleads next hnext).2 3 0 hcell
  exact ⟨x, hx, hcontents.imp_left fun heq => heq.trans hcontent⟩

end Session

end TreeCode
