import TreeCode.Proofs.Confinement
import TreeCode.Proofs.Disassembly

/-!
# Faults of decoding

`Program.validate` reads the code from its start, instruction by instruction. A run reads it where
control comes to, which may be between two of these instructions: a jump, a catch and a function can
start anywhere. So a program that passes the check may still come to a word that is no opcode, or to
an operand that was never checked.

`confining` carries `Machine.confined_advance` to everything that runs: whatever loops, calls, jobs
and streams do, control stays within `L`, and a fault that comes of the code has its reason at a
place within `L`. Where control stays on the instructions that the check has read, the only such
fault that is left is that of a property's key which is no string, as the check asks of a key no
more than that the constant is there.
-/

namespace TreeCode

open Machine

/-- The fault that is kept occurred within `L`, and the program has the reason for it. -/
def Program.Accounts (p : Program) (L : Nat → Prop) (kept : Option Fault) : Prop :=
  ∀ f, kept = some f → L f.offset ∧ p.Explains f

lemma Program.route_all (p : Program) : p.Route fun _ => True :=
  ⟨trivial, fun _ _ => trivial, fun _ _ _ _ => trivial, fun _ _ _ _ => trivial, fun _ _ _ _ =>
    trivial⟩

/-! ## Everything that runs stays within `L` -/

/-- **The action completes the instruction** at `origin`, which is about to go on at `pc`. -/
def Machine.Completes (prog : Program) (L : Nat → Prop) (o pc : Nat) (act : Exec Unit) :
    Prop :=
  Exec.Spec (Trap.Within L (prog.Accounts L) prog) (Stands L (prog.Accounts L) o pc)
    act fun _ m => m.Confined L (prog.Accounts L) ∧ L m.pc

variable {tgt offset : Nat} {act : Exec Unit} {r : Except ErrorValue Value}
  {i j : Instruction} {k : Word} {f : Fault}
  {host : Host} {L : Nat → Prop} {J : Option Fault → Prop} {m m' : Machine}

namespace Machine

variable {prog : Program} {o pc : Nat}

section

variable (h : m.Confined L J)

include h

lemma Confined.holding (held : List Value) : (m.holding held).Confined L J :=
  h.congr rfl rfl rfl rfl rfl

lemma Confined.setStream (id) {cell}
    (hc : cell.Only (Closure.Lands L)) : (m.setStream id cell).Confined L J :=
  ⟨h.stack, h.scopes, h.calls, h.heap.setStream id hc, h.fault⟩

/-- The machine where it stands. -/
lemma Confined.stands : m.Stands L J m.origin m.pc := ⟨h, rfl, rfl⟩

lemma Confined.opened {f args named} (hf : f.Only (Closure.Lands L))
    (hargs : ∀ v ∈ args, v.Only (Closure.Lands L)) (hn : Entries.Only (Closure.Lands L) named) :
    (m.opened tgt f args named).Confined L J where
  stack v hv := by
    rcases Array.mem_append.mp hv with hv | hv
    · exact h.stack v hv
    · simp only [List.mem_toArray, List.mem_cons, Option.some.injEq, List.not_mem_nil,
        or_false] at hv
      rcases hv with rfl | rfl | rfl
      · exact hf
      · exact Value.only_array.mpr hargs
      · exact Value.only_object.mpr hn
  scopes s hs := by
    rcases Array.mem_push.mp hs with hs | rfl
    · exact h.scopes s hs
    · nofun
  calls c hc := by
    rcases Array.mem_push.mp hc with hc | rfl
    · exact h.calls c hc
    · nofun
  heap := h.heap
  fault := h.fault

lemma Confined.closed (outer : Suspended) :
    (m.closed outer).Stands L J outer.origin outer.pc := by
  have hcut : Confined L J { m with
      calls := m.calls.shrink m.floor.calls, scopes := m.scopes.shrink m.floor.scopes } :=
    ⟨h.stack, fun s hs => h.scopes s (mem_of_mem_shrink hs),
      fun c hc => h.calls c (mem_of_mem_shrink hc), h.heap, h.fault⟩
  exact ⟨(hcut.truncate m.floor.stack).congr rfl rfl rfl rfl rfl, rfl, rfl⟩

end

/-! ### Completing an instruction -/

/-- An action that stays where it is completes the instruction. -/
lemma completes_of_stays (horigin : L o) (hpc : L pc)
    (h : Stays L (prog.Accounts L) prog o pc act) :
    Completes prog L o pc act := by
  refine Exec.Spec.weaken h (fun t m ht => ⟨o, horigin, ht⟩) fun _ m hm => ⟨hm.1.toConfined, ?_⟩
  rw [hm.1.pc_eq]
  exact hpc

/-- A fault that was kept is reported where it occurred. -/
lemma completes_takeFault (h : Completes prog L o pc act) :
    Completes prog L o pc (do takeFault; act) := by
  refine Exec.Spec.bind (Q := fun _ => Stands L (prog.Accounts L) o pc) ?_ fun _ => h
  intro m hm
  cases hk : m.fault with
  | none =>
    rw [takeFault_eq hk]
    exact hm
  | some f =>
    rw [takeFault_kept hk]
    obtain ⟨hoffset, hexplains⟩ := hm.fault f hk
    exact ⟨f.offset, hoffset, ⟨hm.stack, hm.scopes, hm.calls, hm.heap, nofun⟩, rfl, hexplains⟩

lemma completes_finishCall (horigin : L o) (hpc : L pc) (base)
    (hr : Except.Only (Closure.Lands L) (Value.Only (Closure.Lands L)) r) :
    Completes prog L o pc (finishCall base r) := by
  refine completes_takeFault (completes_of_stays horigin hpc ?_)
  cases r with
  | ok value =>
    exact (stays_modify fun m hm => ⟨hm.truncate base, hm.origin_eq, hm.pc_eq⟩).bind fun _ _ =>
      stays_push hr
  | error e => exact stays_raise hr

lemma completes_reportMismatch (horigin : L o) (hpc : L pc) {e}
    (he : e.Only (Closure.Lands L)) :
    Completes prog L o pc (reportMismatch prog e) := by
  refine completes_takeFault
    (completes_of_stays horigin hpc (stays_boundArgument?.bind fun name _ => ?_))
  split
  · exact stays_raise (only_forArgument he _)
  · exact stays_raise he

/-- **The work that an instruction leaves to the host** completes it within `L`. -/
theorem Delegates.handles (hroute : prog.Route L) (hhost : host.Handles (Closure.Lands L))
    (horigin : L o) (hpc : L pc) {job} (h : Delegates prog host L i job) :
    job.Handles (Closure.Lands L) (Completes prog L o pc) := by
  cases h with
  | extend h =>
    exact ((Value.elements_handles h).bind fun es hes => Job.handles_pure
      (completes_of_stays horigin hpc (stays_appendElements hes))).holding _
  | call hnative hargs hn =>
    exact (hhost _ _ hnative _ _ hargs hn).andThen fun r hr => Job.handles_pure
      (completes_finishCall horigin hpc _ hr)
  | index h hkey =>
    exact ((Value.index_handles h hkey).bind fun v hv => Job.handles_pure
      (completes_of_stays horigin hpc (stays_push hv))).holding _
  | validate hget hvalue =>
    have hs := hroute.constants _ (Array.mem_of_getElem? hget)
    refine ((Schema.validate_handles hs hvalue).holding _).andThen fun r hr => ?_
    cases r with
    | ok _ => exact Job.handles_pure (completes_of_stays horigin hpc (stays_pure trivial))
    | error e => exact Job.handles_pure (completes_reportMismatch horigin hpc hr)

end Machine

variable {S : Setting}

namespace Progress

lemma Confined.machine {p : Progress} (h : p.Confined S L J) : p.machine.Confined L J := by
  cases p with
  | running m => exact h.1
  | waiting job m => exact h.1
  | finished r m =>
    cases r with
    | ok v => exact h.1
    | error t =>
      cases t with
      | raised e => exact h.1
      | fault f => exact h.1

/-- What a loop came to may be looked at on another machine. -/
lemma Confined.on {r} (h : (finished r m).Confined S L J)
    (hm : m'.Confined L J) : (finished r m').Confined S L J := by
  cases r with
  | ok v => exact ⟨hm, h.2⟩
  | error t =>
    cases t with
    | raised e => exact ⟨hm, h.2⟩
    | fault f => exact ⟨hm, h.2⟩

lemma confined_resume {o pc} (hm : m.Stands L (S.program.Accounts L) o pc)
    (horigin : L o) {r}
    (h : Except.Only (Closure.Lands L) (Completes S.program L o pc) r) :
    (resume m r).Confined S L (S.program.Accounts L) := by
  cases r with
  | error e =>
    have htrap : (Trap.raised e).Within L (S.program.Accounts L) S.program m :=
      ⟨o, horigin, hm.toConfined, h⟩
    exact confined_trap htrap
  | ok act =>
    have hends := h m hm
    show (ofResult (thenNext act m)).Confined S L _
    cases hr : act m with
    | ok _ m' =>
      rw [hr] at hends
      rw [thenNext_ok hr]
      exact hends
    | error t m' =>
      rw [hr] at hends
      rw [thenNext_error hr]
      exact confined_trap hends

end Progress

section Confining

variable (hroute : S.program.Route L) (hhost : S.host.Handles (Closure.Lands L))
include hroute hhost

/-- **Control stays within `L`.** All that runs but loops leaves the machine where it stood. -/
def confining : Regime S where
  Owns := Closure.Lands L
  Holds m := m.Confined L (S.program.Accounts L)
  Keeps m m' := m'.Stands L (S.program.Accounts L) m.origin m.pc
  Enters tgt fn := L tgt ∧ fn.Only (Closure.Lands L)
  Loop _ p := p.Confined S L (S.program.Accounts L)
  Ends r m := (Progress.finished r m).Confined S L (S.program.Accounts L)
  refl hm := hm.stands
  trans h h' := ⟨h'.toConfined, h'.origin_eq.trans h.origin_eq, h'.pc_eq.trans h.pc_eq⟩
  holds h _ := h.toConfined
  cell hm := hm.heap.streamCell
  holding hm held := (hm.holding held).stands
  forcing hm _ := hm.setStream _ trivial
  settled _ _ h hcell :=
    have hset := h.toConfined.setStream _ hcell
    ⟨hset, h.origin_eq, h.pc_eq⟩
  allocate hm _ hcell := ⟨⟨hm.stack, hm.scopes, hm.calls, hm.heap.addStream hcell, hm.fault⟩, rfl,
    rfl⟩
  host := hhost
  closure h := ⟨h, Value.only_closure.mpr h⟩
  opened hm henter hargs hn := ⟨hm.opened henter.2 hargs hn, henter.1⟩
  step h := confined_advance hroute h.1 h.2
  waiting := by
    rintro b job m ⟨hm, hpc, horigin, i, -, hdelegates⟩
    exact ⟨hm, _, hdelegates.handles hroute hhost horigin hpc,
      fun hstands hr => Progress.confined_resume hstands horigin hr⟩
  closed _ _ h :=
    have hclosed := h.machine.closed _
    ⟨h.on hclosed.toConfined, hclosed⟩
  tooDeep hm := ⟨hm, ErrorValue.only_of (by simp)⟩
  answered := by
    rintro m ⟨r, m'⟩ h hm
    cases r with
    | ok v => exact ⟨h.2, hm⟩
    | error t =>
      cases t with
      | raised e => exact ⟨h.2, hm⟩
      | fault f =>
        have hkept : S.program.Accounts L (some f) := by
          rintro _ ⟨⟩
          exact h.2
        refine ⟨ErrorValue.only_of (by simp), ?_⟩
        exact ⟨⟨hm.stack, hm.scopes, hm.calls, hm.heap, hkept⟩, hm.origin_eq, hm.pc_eq⟩

end Confining

/-! ## Runs and calls by the host -/

namespace Outcome

/-- **An outcome within `L`**: its closures start there, and a fault has its reason there. -/
def Within (p : Program) (L : Nat → Prop) (outcome : Outcome) : Prop :=
  (∀ c ∈ outcome.closures, Closure.Lands L c) ∧ ∀ f, outcome = .fault f → L f.offset ∧ p.Explains f

lemma within_ofResult {r}
    (h : (Progress.finished r m).Confined S L J) : (ofResult r).Within S.program L := by
  cases r with
  | ok v => exact ⟨h.2, nofun⟩
  | error t =>
    cases t with
    | raised e => exact ⟨ErrorValue.only_toValue.mpr h.2, nofun⟩
    | fault f =>
      refine ⟨nofun, ?_⟩
      rintro _ ⟨⟩
      exact h.2

lemma within_outcomeOfCall (hr : Except.Only (Closure.Lands L) (Value.Only (Closure.Lands L)) r)
    (hm : S.program.Accounts L m.fault) : (outcomeOfCall r m).Within S.program L := by
  unfold outcomeOfCall
  split
  · next f hk =>
    refine ⟨nofun, ?_⟩
    rintro _ ⟨⟩
    exact hm f hk
  · exact ⟨hr, nofun⟩
  · exact ⟨ErrorValue.only_toValue.mpr hr, nofun⟩

end Outcome

variable {heap : Heap}

namespace Machine

variable {fuel : Nat} {outcome : Outcome}

lemma Confined.cleared (h : m.Confined L J) :
    m.cleared.heap.Only (Closure.Lands L) := (h.truncate 0).heap

lemma confined_started (hheap : heap.Only (Closure.Lands L)) :
    (start heap).started.Confined L (S.program.Accounts L) :=
  ⟨nofun, nofun, nofun, hheap, nofun⟩

section Runs

variable (hroute : S.program.Route L) (hhost : S.host.Handles (Closure.Lands L))
  (hheap : heap.Only (Closure.Lands L))

include hroute hhost hheap

lemma run_within (h : (start heap).run S fuel = some (outcome, m)) :
    outcome.Within S.program L ∧ m.heap.Only (Closure.Lands L) := by
  obtain ⟨⟨r, m₁⟩, henter, hdone⟩ := Option.bind_eq_some_iff.mp h
  cases hdone
  have hleaves := ((confining hroute hhost).governs fuel).enter (confined_started hheap)
    ⟨hroute.start, Value.only_null⟩ (List.forall_mem_nil _) Entries.only_nil henter
  exact ⟨Outcome.within_ofResult hleaves.1, hleaves.2.cleared⟩

lemma invoke_within {f args named}
    (hf : f.Only (Closure.Lands L)) (hargs : ∀ v ∈ args, v.Only (Closure.Lands L))
    (hn : Entries.Only (Closure.Lands L) named)
    (h : (start heap).invoke S f args named fuel = some (outcome, m)) :
    outcome.Within S.program L ∧ m.heap.Only (Closure.Lands L) := by
  obtain ⟨⟨r, m₁⟩, happly, hdone⟩ := Option.bind_eq_some_iff.mp h
  cases hdone
  have hleaves := ((confining hroute hhost).governs fuel).apply (confined_started hheap) hf hargs
    hn happly
  exact ⟨Outcome.within_outcomeOfCall hleaves.1 hleaves.2.fault, hleaves.2.cleared⟩

end Runs

end Machine

variable {p : Program}

namespace Session

variable {given : Closure → Prop}

/-- **What the host does next in a session comes to the outcome**: a run of the program, or a call
of a function that it was given. -/
inductive Comes (p) (host : Host) (heap : Heap) (given : Closure → Prop)
    (outcome) : Prop where
  | run {limits fuel m}
      (h : (start heap).run ⟨p, host, limits⟩ fuel = some (outcome, m)) :
      Comes p host heap given outcome
  | call {limits fuel m callee args named} (hcallee : callee.Only given)
      (hargs : ∀ v ∈ args, v.Only given)
      (hnamed : Entries.Only given named)
      (h : (start heap).invoke ⟨p, host, limits⟩ callee args named fuel = some (outcome, m)) :
      Comes p host heap given outcome

section Sessions

variable (hroute : p.Route L) (hhost : host.Handles (Closure.Lands L))

include hroute hhost

/-- **In a session the host is given closures that start within `L` only.** -/
theorem confined (h : Session p host heap given) :
    heap.Only (Closure.Lands L) ∧ ∀ c, given c → Closure.Lands L c :=
  h.given_only (Q := fun outcome => outcome.Within p L) (fun _ h => h.1) (run_within hroute hhost)
    fun hheap => invoke_within hroute hhost hheap

lemma within_of_comes (h : Session p host heap given) {outcome}
    (hcomes : Comes p host heap given outcome) : outcome.Within p L := by
  obtain ⟨hheap, hgiven⟩ := h.confined hroute hhost
  cases hcomes with
  | run hrun => exact (run_within hroute hhost hheap hrun).1
  | call hf hargs hn hcall =>
    exact (invoke_within hroute hhost hheap (hf.mono hgiven)
      (fun v hv => (hargs v hv).mono hgiven) (fun x hx => (hn x hx).mono hgiven) hcall).1

end Sessions

end Session

/-! ## What the check reads -/

namespace Instruction

variable {code : Array Word} {start : Nat}

lemma decode_of_mem
    (h : .ok (offset, i) ∈ decodeFrom code start) : decode code offset = .ok i := by
  fun_induction decodeFrom code start with
  | case1 start _ j hd _ ih =>
    rcases List.mem_cons.mp h with heq | hmem
    · cases heq
      exact hd
    · exact ih hmem
  | case2 => simp at h
  | case3 => simp at h

variable (hok : ∀ x ∈ decodeFrom code start, ∃ offset i, x = .ok (offset, i))

include hok

/-- Where reading starts, it finds an instruction or the end of the code. -/
lemma starts_of_decodes : (∃ i, .ok (start, i) ∈ decodeFrom code start) ∨ code.size ≤ start := by
  by_cases hlt : start < code.size
  · left
    rw [decodeFrom, dif_pos hlt] at hok ⊢
    split at hok
    · next i _ => exact ⟨i, List.mem_cons_self⟩
    · obtain ⟨_, _, heq⟩ := hok _ List.mem_cons_self
      cases heq
  · exact .inr (Nat.le_of_not_lt hlt)

/-- After each instruction that is read there is another one, or the end of the code. -/
lemma starts_next (h : .ok (offset, i) ∈ decodeFrom code start) :
    (∃ j, .ok (offset + i.width, j) ∈ decodeFrom code start) ∨ code.size ≤ offset + i.width := by
  fun_induction decodeFrom code start with
  | case1 start _ j _ _ ih =>
    have hr := (List.forall_mem_cons.mp hok).2
    rcases List.mem_cons.mp h with heq | hmem
    · cases heq
      exact (starts_of_decodes hr).imp_left fun ⟨k, hk⟩ => ⟨k, List.mem_cons_of_mem _ hk⟩
    · exact (ih hr hmem).imp_left fun ⟨k, hk⟩ => ⟨k, List.mem_cons_of_mem _ hk⟩
  | case2 => simp at h
  | case3 => simp at h

end Instruction

namespace Program

/-- **An instruction that the check has read starts at the offset**, or the code has ended. -/
def Boundary (p : Program) (offset : Nat) : Prop := (∃ i, p.Starts offset i) ∨ p.code.size ≤ offset

/-- **Control goes to instructions that the check has read**: those that jumps and catches lead to,
and those at which the functions and the closures in the tables start. -/
structure Aligned (p : Program) : Prop where
  targets : ∀ {offset i}, p.Starts offset i → ∀ place ∈ i.targets (offset + i.width),
    p.Boundary place
  constants : ∀ v ∈ p.constants, v.Only (Closure.Lands p.Boundary)
  platform : ∀ entry ∈ p.platform, entry.value.Only (Closure.Lands p.Boundary)

lemma of_checkItems : ∀ {found},
    p.checkItems found = .ok () →
    ∀ x ∈ found, ∃ offset i, x = .ok (offset, i) ∧ p.checkInstruction offset i = .ok ()
  | [], _ => by simp
  | .error e :: _, h => by cases h
  | .ok (offset, i) :: rest, h => by
    rw [checkItems] at h
    cases hcheck : p.checkInstruction offset i with
    | error e =>
      rw [hcheck] at h
      cases h
    | ok _ =>
      rw [hcheck] at h
      exact List.forall_mem_cons.mpr ⟨⟨offset, i, rfl, hcheck⟩, of_checkItems h⟩

lemma Starts.decode (h : p.Starts offset i) :
    Instruction.decode p.code offset = .ok i := Instruction.decode_of_mem h

lemma Starts.unique (h : p.Starts offset i)
    (hd : Instruction.decode p.code offset = .ok j) : i = j :=
  Except.ok.inj (h.decode.symm.trans hd)

section Valid

variable (hvalid : p.validate = .ok ())

include hvalid

lemma checked (h : p.Starts offset i) : p.checkInstruction offset i = .ok () := by
  obtain ⟨_, _, heq, hcheck⟩ := of_checkItems hvalid _ h
  cases heq
  exact hcheck

/-- Programs whose jumps and functions are aligned keep control on the instructions that were
read. -/
lemma Aligned.route (h : p.Aligned) : p.Route p.Boundary := by
  have hok : ∀ x ∈ Instruction.decodeFrom p.code 0, ∃ offset i, x = .ok (offset, i) := by
    intro x hx
    obtain ⟨offset, i, heq, -⟩ := of_checkItems hvalid x hx
    exact ⟨offset, i, heq⟩
  have hstarts : ∀ {offset i}, p.Boundary offset → Instruction.decode p.code offset = .ok i →
      p.Starts offset i := by
    rintro offset i (⟨j, hj⟩ | hend) hd
    · exact hj.unique hd ▸ hj
    · rw [Instruction.decode, Array.getElem?_eq_none hend] at hd
      cases hd
  exact {
    start := Instruction.starts_of_decodes hok
    next := fun hoffset hd => Instruction.starts_next hok (hstarts hoffset hd)
    target := fun hoffset hd => h.targets (hstarts hoffset hd)
    constants := h.constants
    platform := h.platform }

end Valid

/-- **The fault of a key that is no string**, at an instruction that the check has read. -/
def BadKey (p : Program) (f : Fault) : Prop :=
  ∃ offset i k v, f = .constantOutOfRange offset k.toNat ∧ p.Starts offset i ∧ i.takesKey = true ∧
    i.constant? = some k ∧ p.constants[k.toNat]? = some v ∧ ¬v.IsString

end Program

/-- **The faults of decoding**: a word that is no opcode, an instruction that the code ends in, and
an operand that refers to no constant or to no value of the host. -/
def Fault.OfDecoding : Fault → Prop
  | .invalidOpcode _ | .missingOperand _ | .constantOutOfRange .. | .platformOutOfRange .. => True
  | _ => False

namespace Program

lemma lt_of_checkOperand {lim}
    (h : checkOperand offset k lim = .ok ()) : k.toNat < lim := by
  unfold checkOperand at h
  split at h
  · assumption
  · cases h

/-- The check has looked the operand up that refers to a constant. -/
lemma constant_of_check
    (hcheck : p.checkInstruction offset i = .ok ()) (hk : i.constant? = some k) :
    k.toNat < p.constants.size := by
  cases i with
  | value c => cases hk; exact lt_of_checkOperand hcheck
  | validate c => cases hk; exact lt_of_checkOperand hcheck
  | objectPop c => cases hk; exact lt_of_checkOperand hcheck
  | objectPopOrDefault c jump =>
    cases hk
    rw [checkInstruction] at hcheck
    cases hf : checkOperand offset k p.constants.size with
    | ok _ => exact lt_of_checkOperand hf
    | error e =>
      rw [hf] at hcheck
      cases hcheck
  | _ => cases hk

/-- **At an instruction that the check has read the only fault of decoding is that of a key.** -/
theorem badKey_of_starts (hvalid : p.validate = .ok ()) (hdecoding : f.OfDecoding)
    (hexplains : p.Explains f) (hstarts : p.Starts f.offset i) : p.BadKey f := by
  cases f with
  | invalidOpcode offset =>
    obtain ⟨word, herror⟩ := hexplains
    cases hstarts.decode.symm.trans herror
  | missingOperand offset =>
    obtain ⟨-, e, herror⟩ := hexplains
    cases hstarts.decode.symm.trans herror
  | platformOutOfRange offset index =>
    obtain ⟨k, hd, rfl, hn⟩ := hexplains
    obtain rfl := hstarts.unique hd
    have hlt : k.toNat < p.platform.size := lt_of_checkOperand (checked hvalid hstarts)
    rw [Array.getElem?_eq_getElem hlt] at hn
    cases hn
  | constantOutOfRange offset index =>
    obtain ⟨j, k, hd, hk, rfl, hreason⟩ := hexplains
    obtain rfl := hstarts.unique hd
    have hget := Array.getElem?_eq_getElem (constant_of_check (checked hvalid hstarts) hk)
    obtain ⟨hkey, hstring⟩ := hreason _ hget
    exact ⟨offset, i, k, _, rfl, hstarts, hkey, hk, hget, hstring⟩
  | _ => exact hdecoding.elim

/-- Where the code has ended there is another fault. -/
lemma lt_size_of_decoding (hdecoding : f.OfDecoding) (hexplains : p.Explains f) :
    f.offset < p.code.size := by
  have hdecoded : ∀ {offset}, (∀ e, Instruction.decode p.code offset ≠ .error (.incomplete e)) →
      offset < p.code.size := by
    intro offset h
    by_contra hend
    refine h offset ?_
    rw [Instruction.decode, Array.getElem?_eq_none (Nat.le_of_not_lt hend)]
  cases f with
  | invalidOpcode offset =>
    obtain ⟨word, herror⟩ := hexplains
    exact hdecoded fun e h => by cases herror.symm.trans h
  | missingOperand offset => exact hexplains.1
  | platformOutOfRange offset index =>
    obtain ⟨k, hd, -⟩ := hexplains
    exact hdecoded fun e h => by cases hd.symm.trans h
  | constantOutOfRange offset index =>
    obtain ⟨j, k, hd, -⟩ := hexplains
    exact hdecoded fun e h => by cases hd.symm.trans h
  | _ => exact hdecoding.elim

end Program

/-- **Where faults of decoding occur** in a session with a program that passes the check: at a key
that is no string, or where the check has read no instruction. If jumps and functions are aligned
and the host brings no closures of its own, such a key is the only reason that is left. -/
theorem Session.decoding_faults {p : Program} {host : Host} {heap : Heap} {given : Closure → Prop}
    (hvalid : p.validate = .ok ()) (hsession : Session p host heap given) {f : Fault}
    (hcomes : Session.Comes p host heap given (.fault f)) (hdecoding : f.OfDecoding) :
    (p.BadKey f ∨ ∀ i, ¬p.Starts f.offset i) ∧ (p.Aligned → host.Honest → p.BadKey f) := by
  constructor
  · have hhost : host.Handles (Closure.Lands fun _ => True) := fun _ _ _ _ _ _ _ =>
      Job.handles_of_forall (fun _ => trivial) (fun _ _ _ => trivial) _
    obtain ⟨-, hexplains⟩ := (hsession.within_of_comes p.route_all hhost hcomes).2 f rfl
    by_cases hstarts : ∃ i, p.Starts f.offset i
    · obtain ⟨i, hi⟩ := hstarts
      exact .inl (Program.badKey_of_starts hvalid hdecoding hexplains hi)
    · exact .inr fun i hi => hstarts ⟨i, hi⟩
  · intro haligned hhonest
    obtain ⟨hboundary, hexplains⟩ :=
      (hsession.within_of_comes (haligned.route hvalid) hhonest.handles hcomes).2 f rfl
    rcases hboundary with ⟨i, hi⟩ | hend
    · exact Program.badKey_of_starts hvalid hdecoding hexplains hi
    · exact absurd (Program.lt_size_of_decoding hdecoding hexplains) (Nat.not_lt_of_le hend)

namespace Program

/-- An object's property is taken, whose key is to be a number. -/
def keyedByNumber : Program := { code := #[0x30, 0x34, 0, 0x44], constants := #[.ofNat 1] }

/-- A jump leads to an operand: from the array's last element over the word of an instruction. -/
def skippingWord : Program :=
  { code := #[0x20, 0x01, 0, 0x21, 0x27, 1, 0x01, 0, 0x44], constants := #[.ofNat 1] }

lemma decodeAll_keyedByNumber : Instruction.decodeAll keyedByNumber.code
    = [.ok (0, .object), .ok (1, .objectPop 0), .ok (3, .ret)] := by decide +kernel

lemma aligned_keyedByNumber : keyedByNumber.Aligned where
  targets {offset i} h place hplace := by
    rw [Starts, decodeAll_keyedByNumber] at h
    simp only [List.mem_cons, Except.ok.injEq, Prod.mk.injEq, List.not_mem_nil, or_false] at h
    rcases h with ⟨-, rfl⟩ | ⟨-, rfl⟩ | ⟨-, rfl⟩ <;> cases hplace
  constants v hv := by
    obtain rfl : v = .ofNat 1 := by simpa [keyedByNumber] using hv
    exact Value.only_ofNat 1
  platform := by simp [keyedByNumber]

lemma validate_keyedByNumber : keyedByNumber.validate = .ok () := by
  rw [validate, decodeAll_keyedByNumber]
  rfl

lemma keyedByNumber_runs : ∃ m, (start {}).run ⟨keyedByNumber, {}, {}⟩ 10
    = some (.fault (.constantOutOfRange 1 0), m) := ⟨_, rfl⟩

lemma skippingWord_runs : ∃ m, (start {}).run ⟨skippingWord, {}, {}⟩ 10
    = some (.fault (.invalidOpcode 7), m) := ⟨_, rfl⟩

/-- **Programs that pass the check stop with faults of decoding**: at a key that is no string, and
at an operand that a jump leads to. -/
theorem valid_misdecoded :
    (keyedByNumber.validate = .ok () ∧ ∃ m, (start {}).run ⟨keyedByNumber, {}, {}⟩ 10
      = some (.fault (.constantOutOfRange 1 0), m)) ∧
    (skippingWord.validate = .ok () ∧ ∃ m, (start {}).run ⟨skippingWord, {}, {}⟩ 10
      = some (.fault (.invalidOpcode 7), m)) := by
  refine ⟨⟨validate_keyedByNumber, keyedByNumber_runs⟩, ?_, skippingWord_runs⟩
  have hdecode : Instruction.decodeAll skippingWord.code = [.ok (0, .array), .ok (1, .value 0),
      .ok (3, .arrayPush), .ok (4, .arrayPopOrDefault 1), .ok (6, .value 0), .ok (8, .ret)] := by
    decide +kernel
  rw [validate, hdecode]
  rfl

end Program

/-- The program is aligned, and its fault is that of the key. -/
theorem Session.decoding_faults_keyedByNumber :
    Program.keyedByNumber.validate = .ok () ∧ Program.keyedByNumber.Aligned
      ∧ Session.Comes Program.keyedByNumber {} {} (fun _ => False)
        (.fault (.constantOutOfRange 1 0))
      ∧ Program.keyedByNumber.BadKey (.constantOutOfRange 1 0) := by
  obtain ⟨m, hrun⟩ := Program.keyedByNumber_runs
  have hhost : Host.Honest {} := nofun
  exact ⟨Program.validate_keyedByNumber, Program.aligned_keyedByNumber, .run hrun,
    (decoding_faults Program.validate_keyedByNumber .new (.run hrun) trivial).2
      Program.aligned_keyedByNumber hhost⟩

end TreeCode
