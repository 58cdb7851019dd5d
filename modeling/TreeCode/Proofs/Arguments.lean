import TreeCode.Proofs.Blocks
import TreeCode.Proofs.WellFormed

/-!
# How code binds arguments

A function literal begins with code that takes its arguments apart: it cuts the rest off, takes
arguments from the front or else evaluates their defaults, checks each with its schema, and writes
it to a slot. For a literal with a `Signature` that comes to the same as what the host's binder
does, and the object that it returns then is the one that the host's function of the signature
returns, or the error has the same kind and details (`Signature.calls_agree`).
-/

namespace TreeCode

open Machine Entries Code Signature TreeCode.Expr Block Param Option

/-! ## The frame of a function -/

/-- **A call**: the callee and its arguments. -/
structure Called where
  callee : Value
  args : List Value
  named : Entries Value

/-- **The lowest operands of a function**: the callee, the arguments, and the slots of its names,
which hold what has been bound. -/
def Called.frame (C : Called) (names : List String) (bound : Entries Value) :
    List (Option Value) :=
  (names.map (Entries.get? bound)).reverse ++ [some (.object C.named), some (.array C.args),
    some C.callee]

variable {n : String} {names : List String} {i mid pos index : Nat} {code absent : Code}
  {p : Param} {s : Signature} {bound : Entries Value} {m : Machine}

/-- Binding a name writes its slot. -/
lemma map_get?_insert (hnames : names.Nodup)
    (hi : names[i]? = some n) (bound : Entries Value) (v) :
    names.map (get? (insert bound n v))
      = (names.map (get? bound)).set i (some v) := by
  apply List.ext_getElem?
  intro j
  by_cases hij : i = j
  · subst hij
    obtain ⟨hlt, rfl⟩ := List.getElem?_eq_some_iff.mp hi
    rw [List.getElem?_set_self (by simpa using hlt), List.getElem?_map, hi]
    exact congrArg some (get?_insert_self bound _ v)
  · rw [List.getElem?_set_ne hij, List.getElem?_map, List.getElem?_map]
    cases hj : names[j]? with
    | none => rfl
    | some other =>
      have hne : other ≠ n := by
        rintro rfl
        exact hij ((List.getElem?_inj (List.getElem?_eq_some_iff.mp hi).1 hnames).mp
          (hi.trans hj.symm))
      exact congrArg some (get?_insert_of_ne hne)

lemma Block.names_declareAll (names : List String) : ∀ b : Block,
    (b.declareAll names).names = merge b.names (names.zipIdx b.nextSlot) := by
  induction names with
  | nil => exact fun _ => rfl
  | cons name names ih => exact fun b => ih (b.declare name)

/-- The innermost scope has its names in the slots after those of the call. -/
def Draft.Slots (D : Draft) (names : List String) : Prop :=
  ∀ n slot, Entries.get? D.block.names n = some slot → ∃ i, slot = 3 + i ∧ names[i]? = some n

/-- The names are those of the function's outermost scope, and no others are inside it. -/
def Draft.Holds (D : Draft) (names : List String) : Prop :=
  ∃ b captures outer, D.frames = ⟨[b], captures⟩ :: outer ∧ b.isLibrary = false
    ∧ ∀ n ∈ names, (Entries.get? b.names n).isSome

/-- The code of a name reads its slot. -/
lemma Draft.Holds.nameCode {env D}
    (h : D.Holds names) (hsl : D.Slots names) (hn : n ∈ names)
    (hc : NameCode env D n code) : ∃ i, names[i]? = some n ∧ 3 + i < UInt32.size
      ∧ code = emitNamed (.readLocal 0 (UInt32.ofNat (3 + i))) n := by
  obtain ⟨b, captures, outer, hframes, hlibrary, hall⟩ := h
  obtain ⟨slot, hs⟩ := isSome_iff_exists.mp (hall n hn)
  have hlookup : Frame.lookupIn false n [b] = some (0, slot) := by
    rw [Frame.lookupIn, if_pos (by simpa using hlibrary), hs]
  have hhead : (⟨[b], captures⟩ : Frame) ∈ D.frames := hframes ▸ List.mem_cons_self
  cases hc with
  | inScope found small =>
    rw [hframes] at found
    cases found with
    | own found =>
      rw [hlookup] at found
      cases found
      have hblock : D.block = b := by
        rw [Draft.block, Draft.frame, hframes]
        rfl
      obtain ⟨i, rfl, hi⟩ := hsl n slot (hblock ▸ hs)
      exact ⟨i, hi, small.2, rfl⟩
    | captured absent => cases hlookup.symm.trans absent
  | host absent => cases hlookup.symm.trans (absent _ hhead)
  | library absent => cases hlookup.symm.trans (absent _ hhead)
  | libraryValue absent => cases hlookup.symm.trans (absent _ hhead)

/-- A literal that is no data is told from the host values of the program by equality. -/
def Parts.Tells (S : Parts) (d : Value) : Prop :=
  d.isData = false → ∀ entry ∈ S.tables.platform.toList, entry.value == d → entry.value = d

variable {B : Below} {C : Called} {pc depth : Nat} {S : Parts} {host : Host} {env : Environment}
  {D : Draft}

namespace Below

variable {temps : List (Option Value)}

section Frame

lemma length_frame : (C.frame names bound).length = names.length + 3 := by simp [Called.frame]

/-- The operands of the function from its base on. -/
lemma reverse_frame : (temps ++ C.frame names bound).reverse
    = some C.callee :: some (.array C.args) :: some (.object C.named)
      :: (names.map (get? bound) ++ temps.reverse) := by
  simp [Called.frame]

/-- Writing the slot of a name binds it. -/
lemma set_frame (hnames : names.Nodup) (hi : names[i]? = some n) (v) :
    (((temps ++ C.frame names bound) ++ B.operands).reverse.set (B.operands.length + (3 + i))
      (some v)).reverse = (temps ++ C.frame names (insert bound n v)) ++ B.operands := by
  obtain ⟨hlt, -⟩ := List.getElem?_eq_some_iff.mp hi
  rw [Called.frame, Called.frame, map_get?_insert hnames hi]
  simp only [List.reverse_append, List.reverse_reverse, List.append_assoc]
  rw [List.set_append_right _ _ (by simp), List.set_append_right _ _ (by simp),
    List.set_append_left _ _ (by simp; omega)]
  simp

end Frame

/-! ## Patterns -/

variable {v d : Value} {ops : List (Option Value)}

section Patterns

lemma constant_of_tables (hD : D.tables = S.tables) {k} (h : D.HasConstant k v) :
    S.program.constants[k.toNat]? = some v := by
  have : D.tables.constants[k.toNat]? = some v := h
  rwa [hD] at this

/-- **A value is bound to a name.** -/
theorem Block.name (hnames : names.Nodup) (hsl : D.Slots names) {a}
    (h : LoweredPattern env D a (.name n) code) (hat : At S.functions pc code) :
    B.Block (S.setting host depth) pc (some v :: (temps ++ C.frame names bound))
      (pc + code.width) (.ok (temps ++ C.frame names (insert bound n v))) := by
  rw [LoweredPattern] at h
  obtain ⟨slot, hs, hsmall, rfl⟩ := h
  obtain ⟨i, rfl, hi⟩ := hsl n slot hs
  obtain ⟨hlt, -⟩ := List.getElem?_eq_some_iff.mp hi
  have hword : (UInt32.ofNat (3 + i)).toNat = 3 + i := UInt32.toNat_ofNat_of_lt' hsmall
  refine .operates hat fun m hm => ?_
  have hl : B.operands.length + (UInt32.ofNat (3 + i)).toNat
      < ((temps ++ C.frame names bound) ++ B.operands).length := by
    rw [hword]
    simp [length_frame]
    omega
  refine (execute_writeLocal hm.operands_cons (hm.above _) hm.scope hl).trans ?_
  rw [hword]
  exact congrArg (fun l => EStateM.Result.ok Signal.next (m.withOperands l))
    (set_frame hnames hi v)

/-- **An argument is checked and bound** to its parameter. -/
theorem Block.checked (hnames : names.Nodup) (hsl : D.Slots names) (hD : D.tables = S.tables)
    (h : LoweredPattern env D (some p.name) p.pattern code) (hat : At S.functions pc code) :
    B.Block (S.setting host depth) pc (some v :: (temps ++ C.frame names bound)) (pc + code.width)
      ((p.check v).alone.map fun _ => temps ++ C.frame names (insert bound p.name v)) := by
  rw [pattern, LoweredPattern] at h
  obtain ⟨k, inner, hk, hdata, hi, rfl⟩ := h
  rw [width_append, ← Nat.add_assoc]
  exact (validate hat.left (constant_of_tables hD hk) hdata).bindMap fun _ _ =>
    .name hnames hsl hi hat.skip

/-- **What was found for a parameter is checked and bound.** -/
theorem Block.found {a}
    (h : B.Block (S.setting host depth) pc ops mid ((p.found a).map fun v =>
      some v :: (temps ++ C.frame names bound))) (hnames : names.Nodup) (hsl : D.Slots names)
    (hD : D.tables = S.tables) (hp : p.Proper)
    (hc : LoweredPattern env D (some p.name) p.pattern code) (hat : At S.functions mid code) :
    B.Block (S.setting host depth) pc ops (mid + code.width) ((p.value a).alone.map fun v =>
      temps ++ C.frame names (insert bound p.name v)) := by
  rw [hp.alone_value]
  cases hf : p.found a with
  | error e =>
    rw [hf] at h
    exact h
  | ok v =>
    rw [hf] at h
    refine h.trans ?_
    have hchecked : B.Block (S.setting host depth) mid (some v :: (temps ++ C.frame names bound))
        (mid + code.width) ((p.check v).alone.map fun _ =>
          temps ++ C.frame names (insert bound p.name v)) :=
      .checked hnames hsl hD hc hat
    show B.Block _ _ _ _ (((p.check v).alone.map fun _ => v).map _)
    cases hcheck : (p.check v).alone <;> rw [hcheck] at hchecked <;> exact hchecked

lemma Block.literal (hD : D.tables = S.tables) (htells : S.Tells d)
    (h : LiteralCode D d code) (hat : At S.functions pc code) :
    B.Block (S.setting host depth) pc ops (pc + code.width) (.ok (some d :: ops)) := by
  obtain ⟨name, -, h⟩ := h
  unfold ValueCode at h
  split at h
  next hdata =>
    obtain ⟨k, hk, rfl⟩ := h
    refine .operates hat fun m hm => ?_
    rw [execute_value (constant_of_tables hD hk), hm.operands]
    rfl
  next hdata =>
    obtain ⟨k, ⟨entry, he, -, hv⟩, rfl⟩ := h
    have hpl : S.program.platform[k.toNat]? = some entry := by
      have : D.tables.platform[k.toNat]? = some entry := he
      rwa [hD] at this
    have hsame : entry.value = d := by
      refine hv.elim id fun heq => htells (by simpa using hdata) entry ?_ heq
      exact Array.mem_toList_iff.mpr (Array.mem_of_getElem? hpl)
    refine .operates hat fun m hm => ?_
    rw [execute_platform hpl, hsame, hm.operands]
    rfl

end Patterns

/-! ## Parameters -/

section Parameters

/-- The argument of a required parameter is taken from the front. -/
lemma Block.arrayPop (hdef : p.default = none) {i} (hat : At S.functions pc
      (emitBinding (.arrayPop i) (some p.name) ++ code))
    (args : List Value) (ops) :
    B.Block (S.setting host depth) pc (some (.array args.reverse) :: ops)
      (pc + (Instruction.arrayPop i).width)
      ((p.found args.head?).map fun v => some v :: some (.array args.tail.reverse) :: ops) := by
  cases args with
  | nil =>
    have hf : p.found (List.head? []) = .error (Mismatch.missingArgument p.name) := by
      simp [Param.found, hdef]
    rw [hf]
    refine .raises hat (fun m hm hdiagnostic => ⟨some (.array []) :: ops, ?_⟩) _
    refine (execute_arrayPop_none hm.operands_cons rfl).trans ?_
    rw [missing, hdiagnostic]
    rfl
  | cons v vs =>
    refine .operates hat fun m hm => ?_
    have hl : (v :: vs).reverse.getLast? = some v := by simp
    refine (execute_arrayPop_some hm.operands_cons hl).trans ?_
    simp

variable {k : Word}

/-- The argument of a required parameter is taken by its name. -/
lemma Block.objectPop (hdef : p.default = none)
    (hk : S.program.constants[k.toNat]? = some (.string p.name))
    (hat : At S.functions pc (emitBinding (.objectPop k) (some p.name) ++ code))
    (named ops) :
    B.Block (S.setting host depth) pc (some (.object named) :: ops)
      (pc + (Instruction.objectPop k).width) ((p.found (get? named p.name)).map fun v =>
        some v :: some (.object (erase named p.name)) :: ops) := by
  cases hv : get? named p.name with
  | none =>
    have hf : p.found none = .error (Mismatch.missingArgument p.name) := by simp [Param.found, hdef]
    rw [hf]
    refine .raises hat (fun m hm hdiagnostic => ⟨some (.object (erase named p.name)) :: ops, ?_⟩) _
    refine (execute_objectPop_none hk hm.operands_cons hv).trans ?_
    rw [missing, hdiagnostic]
    rfl
  | some v => exact .operates hat fun m hm => execute_objectPop_some hk hm.operands_cons hv

variable (hD : D.tables = S.tables)

include hD

/-- The argument of an optional parameter is taken from the front, or its default is evaluated. -/
lemma Block.arrayPopOrDefault (hdefault : p.default = some d)
    (htells : S.Tells d) (habsent : LiteralCode D d absent)
    (hsmall : absent.width < UInt32.size) (hat : At S.functions pc
      (emit (.arrayPopOrDefault (distance absent)) ++ (absent ++ code)))
    (args : List Value) (ops) :
    B.Block (S.setting host depth) pc (some (.array args.reverse) :: ops)
      (pc + (Instruction.arrayPopOrDefault (distance absent)).width + absent.width)
      ((p.found args.head?).map fun v => some v :: some (.array args.tail.reverse) :: ops) := by
  cases args with
  | nil =>
    have hf : p.found (List.head? []) = .ok d := by simp [Param.found, hdefault]
    rw [hf]
    have hpop : B.Block (S.setting host depth) pc (some (.array []) :: ops) _
        (.ok (some (.array []) :: ops)) :=
      .operates hat fun m hm => execute_arrayPopOrDefault_none hm.operands_cons rfl
    exact hpop.trans (.literal hD htells habsent hat.skip.left)
  | cons v vs =>
    have hl : (v :: vs).reverse.getLast? = some v := by simp
    have hothers : (v :: vs).reverse.dropLast = vs.reverse := by simp
    refine .step hat fun m hm => ⟨_, execute_arrayPopOrDefault_some hm.operands_cons hl, ?_⟩
    rw [toNat_distance hsmall, hothers]
    exact (hm.withOperands (some v :: some (.array vs.reverse) :: ops)).jump absent.width

/-- The argument of an optional parameter is taken by its name, or its default is evaluated. -/
lemma Block.objectPopOrDefault (hdefault : p.default = some d) (htells : S.Tells d)
    (hk : S.program.constants[k.toNat]? = some (.string p.name)) (habsent : LiteralCode D d absent)
    (hsmall : absent.width < UInt32.size) (hat : At S.functions pc
      (emit (.objectPopOrDefault k (distance absent)) ++ (absent ++ code)))
    (named ops) :
    B.Block (S.setting host depth) pc (some (.object named) :: ops)
      (pc + (Instruction.objectPopOrDefault k (distance absent)).width + absent.width)
      ((p.found (get? named p.name)).map fun v =>
        some v :: some (.object (erase named p.name)) :: ops) := by
  cases hv : get? named p.name with
  | none =>
    have hf : p.found none = .ok d := by simp [Param.found, hdefault]
    rw [hf]
    have hpop : B.Block (S.setting host depth) pc (some (.object named) :: ops) _
        (.ok (some (.object (erase named p.name)) :: ops)) :=
      .operates hat fun m hm => execute_objectPopOrDefault_none hk hm.operands_cons hv
    exact hpop.trans (.literal hD htells habsent hat.skip.left)
  | some v =>
    refine .step hat fun m hm => ⟨_, execute_objectPopOrDefault_some hk hm.operands_cons hv, ?_⟩
    rw [toNat_distance hsmall]
    exact (hm.withOperands (some v :: some (.object (erase named p.name)) :: ops)).jump
      absent.width

variable (hnames : names.Nodup) (hsl : D.Slots names)

include hnames hsl

/-- **A positional parameter gets its argument.** -/
theorem Block.element (hp : p.Proper) (htells : ∀ d, p.default = some d → S.Tells d)
    {later} (h : LoweredFixed env D true i (p.element :: later) code)
    (hat : At S.functions pc code) (args : List Value) (bound) :
    ∃ os, LoweredFixed env D true (i + 1) later os ∧ ∃ mid,
      At S.functions mid os ∧ mid + os.width = pc + code.width ∧
      B.Block (S.setting host depth) pc (some (.array args.reverse) :: C.frame names bound) mid
        ((p.value args.head?).alone.map fun v =>
          some (.array args.tail.reverse) :: C.frame names (insert bound p.name v)) := by
  obtain ⟨hdef, helement⟩ | ⟨d, hdef, helement⟩ := p.element_cases
  · rw [helement, LoweredFixed] at h
    obtain ⟨inner, os, hi, ho, -, rfl⟩ := h
    refine ⟨os, ho, _, hat.skip.skip, by simp; omega, ?_⟩
    have hpop : B.Block (S.setting host depth) pc _ _ ((p.found args.head?).map fun v =>
        some v :: ([some (.array args.tail.reverse)] ++ C.frame names bound)) :=
      .arrayPop hdef hat args _
    exact hpop.found hnames hsl hD hp hi hat.skip.left
  · rw [helement, LoweredFixed] at h
    obtain ⟨absent, inner, os, habsent, hi, ho, hsmall, rfl⟩ := h
    rw [Lowered] at habsent
    refine ⟨os, ho, _, hat.skip.skip.skip, by simp; omega, ?_⟩
    have hpop : B.Block (S.setting host depth) pc _ _ ((p.found args.head?).map fun v =>
        some v :: ([some (.array args.tail.reverse)] ++ C.frame names bound)) :=
      .arrayPopOrDefault hD hdef (htells d hdef) habsent hsmall hat args _
    exact hpop.found hnames hsl hD hp hi hat.skip.skip.left

/-- **Positional parameters get their arguments.** -/
theorem Block.fixed (rest : Option String) : ∀ {ps}, (∀ p ∈ ps, p.Proper) →
    (∀ p ∈ ps, ∀ d, p.default = some d → S.Tells d) → ∀ {i code pc},
    LoweredFixed env D true i
      (ps.map Param.element ++ (rest.map fun n => .rest (.name n)).toList) code →
    At S.functions pc code → ∀ args bound,
    B.Block (S.setting host depth) pc (some (.array args.reverse) :: C.frame names bound)
      (pc + code.width) ((takeInOrder ps args).map fun first =>
        some (.array (args.drop ps.length).reverse) :: C.frame names (merge bound first)) := by
  intro ps
  induction ps with
  | nil =>
    intro _ _ i code pc h hat args bound
    have hc : code = [] := by cases rest <;> simpa [LoweredFixed] using h
    subst hc
    exact .refl
  | cons p ps ih =>
    intro hps htells i code pc h hat args bound
    rw [List.forall_mem_cons] at hps htells
    obtain ⟨os, ho, mid, hmid, hwidth, hblock⟩ :=
      element (B := B) (C := C) hD hnames hsl hps.1 htells.1 h hat args bound
    rw [takeInOrder, ← hwidth]
    cases hv : (p.value args.head?).alone with
    | error e =>
      rw [hv] at hblock
      exact hblock
    | ok v =>
      rw [hv] at hblock
      have hr := ih hps.2 htells.2 ho hmid args.tail (insert bound p.name v)
      have hdrop : args.tail.drop ps.length = args.drop (p :: ps).length := by
        rw [List.drop_tail]
        rfl
      rw [hdrop] at hr
      refine hblock.trans ?_
      cases ho : takeInOrder ps args.tail <;> rw [ho] at hr <;> exact hr

/-- **A named parameter gets its argument.** -/
theorem Block.property (hp : p.Proper) (htells : ∀ d, p.default = some d → S.Tells d)
    {later}
    (h : LoweredProperties env D true (p.property :: later) code)
    (hat : At S.functions pc code) (named bound) :
    ∃ os, LoweredProperties env D true later os ∧ ∃ mid,
      At S.functions mid os ∧ mid + os.width = pc + code.width ∧
      B.Block (S.setting host depth) pc (some (.object named) :: C.frame names bound) mid
        ((p.value (get? named p.name)).alone.map fun v =>
          some (.object (erase named p.name))
            :: C.frame names (insert bound p.name v)) := by
  unfold Param.property at h
  cases hdef : p.default with
  | none =>
    rw [hdef, map_none, LoweredProperties] at h
    obtain ⟨k, inner, os, hk, hi, ho, rfl⟩ := h
    refine ⟨os, ho, _, hat.skip.skip, by simp; omega, ?_⟩
    have hpop : B.Block (S.setting host depth) pc _ _
        ((p.found (get? named p.name)).map fun v =>
          some v :: ([some (.object (erase named p.name))] ++ C.frame names bound)) :=
      .objectPop hdef (constant_of_tables hD hk) hat named _
    exact hpop.found hnames hsl hD hp hi hat.skip.left
  | some d =>
    rw [hdef, map_some, LoweredProperties] at h
    obtain ⟨k, absent, inner, os, hk, habsent, hi, ho, hsmall, rfl⟩ := h
    rw [Lowered] at habsent
    refine ⟨os, ho, _, hat.skip.skip.skip, by simp; omega, ?_⟩
    have hpop : B.Block (S.setting host depth) pc _ _
        ((p.found (get? named p.name)).map fun v =>
          some v :: ([some (.object (erase named p.name))] ++ C.frame names bound)) :=
      .objectPopOrDefault hD hdef (htells d hdef) (constant_of_tables hD hk) habsent hsmall
        hat named _
    exact hpop.found hnames hsl hD hp hi hat.skip.skip.left

/-- **Named parameters get their arguments**, and the rest what they leave over. -/
theorem Block.properties (rest : Option String) : ∀ {ps}, (∀ p ∈ ps, p.Proper) →
    (∀ p ∈ ps, ∀ d, p.default = some d → S.Tells d) → ∀ {code pc},
    LoweredProperties env D true
      (ps.map Param.property ++ (rest.map fun n => .rest (.name n)).toList) code →
    At S.functions pc code → ∀ named bound,
    B.Block (S.setting host depth) pc (some (.object named) :: C.frame names bound)
      (pc + code.width) ((takeByName ps named).map fun (second, left) =>
        C.frame names (merge bound (second ++ takeRest rest (.object left)))) := by
  intro ps
  induction ps with
  | nil =>
    intro _ _ code pc h hat named bound
    cases rest with
    | none =>
      simp only [List.map_nil, map_none, toList_none, List.append_nil, LoweredProperties] at h
      subst h
      exact .operates hat fun m hm => execute_discard hm.operands_cons (hm.above _)
    | some n =>
      simp only [List.map_nil, map_some, toList_some, List.nil_append, LoweredProperties] at h
      have hname : B.Block (S.setting host depth) pc
          (some (.object named) :: ([] ++ C.frame names bound)) (pc + code.width)
          (.ok ([] ++ C.frame names (insert bound n (.object named)))) :=
        .name hnames hsl h hat
      exact hname
  | cons p ps ih =>
    intro hps htells code pc h hat named bound
    rw [List.forall_mem_cons] at hps htells
    obtain ⟨os, ho, mid, hmid, hwidth, hblock⟩ :=
      property (B := B) (C := C) hD hnames hsl hps.1 htells.1 h hat named bound
    rw [takeByName, ← hwidth]
    cases hv : (p.value (get? named p.name)).alone with
    | error e =>
      rw [hv] at hblock
      exact hblock
    | ok v =>
      rw [hv] at hblock
      have hr := ih hps.2 htells.2 ho hmid (erase named p.name)
        (insert bound p.name v)
      refine hblock.trans ?_
      cases ho : takeByName ps (erase named p.name) <;>
        rw [ho] at hr <;> exact hr

omit hD in
/-- **The rest is cut off.** -/
theorem Block.rest (rest : Option String) (args : List Value) (bound)
    : ∀ {ps : List Param} {count}, LoweredRest env D count
      (ps.map Param.element ++ (rest.map fun n => .rest (.name n)).toList) code →
    At S.functions pc code →
    B.Block (S.setting host depth) pc (some (.array args) :: C.frame names bound)
      (pc + code.width)
        (.ok (some (.array (if rest.isSome then args.take (count + ps.length) else args))
        :: C.frame names (merge bound
          (takeRest rest (.array (args.drop (count + ps.length))))))) := by
  intro ps
  induction ps with
  | nil =>
    intro count h hat
    cases rest with
    | none =>
      simp only [List.map_nil, map_none, toList_none, List.append_nil, LoweredRest] at h
      subst h
      exact .refl
    | some n =>
      simp only [List.map_nil, map_some, toList_some, List.nil_append, LoweredRest] at h
      obtain ⟨inner, hi, hsmall, rfl⟩ := h
      have hn : (UInt32.ofNat count).toNat = count := UInt32.toNat_ofNat_of_lt' hsmall
      have hcut : B.Block (S.setting host depth) pc (some (.array args) :: C.frame names bound) _
          (.ok (some (.array (args.drop count)) :: ([some (.array (args.take count))]
            ++ C.frame names bound))) :=
        .operates hat fun m hm => by
          have hexec : execute S.program host (.arrayCut (UInt32.ofNat count)) m = _ :=
            execute_arrayCut hm.operands_cons (hm.above _)
          rwa [hn] at hexec
      rw [width_append, ← Nat.add_assoc]
      exact hcut.trans (.name hnames hsl hi hat.skip)
  | cons p ps ih =>
    intro count h hat
    have hnext : LoweredRest env D (count + 1)
        (ps.map Param.element ++ (rest.map fun n => .rest (.name n)).toList) code := by
      rw [List.map_cons, List.cons_append] at h
      obtain ⟨-, helement⟩ | ⟨d, -, helement⟩ := p.element_cases <;>
        rwa [helement, LoweredRest] at h
    have hlength : count + 1 + ps.length = count + (p :: ps).length := by
      rw [List.length_cons]
      omega
    rw [← hlength]
    exact ih hnext hat

/-- **The positional arguments are taken apart.** -/
theorem Block.array (hproper : ∀ p ∈ s.positional, p.Proper)
    (htells : ∀ p ∈ s.positional, ∀ d, p.default = some d → S.Tells d)
    (h : ArrayCode D true s.elements (LoweredRest env D 0 s.elements)
      (LoweredFixed env D true 1 s.elements) code) (hat : At S.functions pc code)
    (args : List Value) (bound) :
    B.Block (S.setting host depth) pc (some (.array args) :: C.frame names bound)
      (pc + code.width) ((takeInOrder s.positional args).map fun first =>
        C.frame names (merge bound
          (takeRest s.rest (.array (args.drop s.positional.length)) ++ first))) := by
  obtain ⟨check, rest, fixed, -, hcheck, hr, hfixed, rfl⟩ := h
  obtain rfl : check = [] := hcheck
  rw [List.nil_append] at hat ⊢
  -- Only the arguments that the rest leaves are reversed, all that the parameters look at.
  obtain ⟨front, hfront, htaken⟩ : ∃ front, (if s.rest.isSome then
      args.take (0 + s.positional.length) else args) = front
      ∧ takeInOrder s.positional front = takeInOrder s.positional args := by
    refine ⟨_, rfl, ?_⟩
    split
    · rw [Nat.zero_add, takeInOrder_take]
    · rfl
  have hcopy : B.Block (S.setting host depth) pc (some (.array args) :: C.frame names bound) _
      (.ok (some (.array args) :: C.frame names bound)) :=
    .step hat fun m hm => ⟨m, execute_arrayCopy hm.operands_cons, hm⟩
  have hcut : B.Block (S.setting host depth) _ (some (.array args) :: C.frame names bound) _ _ :=
    .rest hnames hsl s.rest args bound hr hat.skip.left
  rw [hfront, Nat.zero_add] at hcut
  have hreverse : ∀ ops, B.Block (S.setting host depth) _ (some (.array front) :: ops) _
      (.ok (some (.array front.reverse) :: ops)) :=
    fun ops => .operates hat.skip.skip fun m hm => execute_arrayReverse hm.operands_cons
  have htake :
    B.Block (S.setting host depth) _ (some (.array front.reverse) :: C.frame names _) _ _ :=
    .fixed hD hnames hsl s.rest hproper htells hfixed hat.skip.skip.skip.left front
      (merge bound (takeRest s.rest (.array (args.drop s.positional.length))))
  rw [htaken] at htake
  simp only [width_append, ← Nat.add_assoc]
  refine hcopy.trans (hcut.trans ((hreverse _).trans (htake.bindMap fun first _ => ?_)))
  rw [← merge_append]
  exact .operates hat.skip.skip.skip.skip fun m hm => execute_discard hm.operands_cons (hm.above _)

/-- **The named arguments are taken apart.** -/
theorem Block.object (hproper : ∀ p ∈ s.named, p.Proper)
    (htells : ∀ p ∈ s.named, ∀ d, p.default = some d → S.Tells d)
    (h : ObjectCode D true s.entries (LoweredProperties env D true s.entries) code)
    (hat : At S.functions pc code) (named bound) :
    B.Block (S.setting host depth) pc (some (.object named) :: C.frame names bound)
      (pc + code.width) ((takeByName s.named named).map fun (second, left) =>
        C.frame names (merge bound
          (second ++ takeRest s.namedRest (.object left)))) := by
  obtain ⟨check, properties, -, hcheck, hps, rfl⟩ := h
  obtain rfl : check = [] := hcheck
  rw [List.nil_append] at hat ⊢
  have hcopy : B.Block (S.setting host depth) pc (some (.object named) :: C.frame names bound) _
      (.ok (some (.object named) :: C.frame names bound)) :=
    .step hat fun m hm => ⟨m, execute_objectCopy hm.operands_cons, hm⟩
  rw [width_append, ← Nat.add_assoc]
  exact hcopy.trans (.properties hD hnames hsl s.namedRest hproper htells hps hat.skip
    named bound)

end Parameters

/-! ## The rest of the function -/

section Function

/-- The slots of the names are reserved. -/
lemma Block.reserve {b} (hreserved : b.reserved = names.length)
    (hsmall : b.reserved < UInt32.size) (hat : At S.functions pc (Lower.reserveSlots b)) :
    B.Block (S.setting host depth) pc (C.frame [] [])
      (pc + (Lower.reserveSlots b).width) (.ok (C.frame names [])) := by
  have hframe : C.frame names [] = List.replicate names.length none ++ C.frame [] [] := by
    have he : get? ([] : Entries Value) = fun _ => none := rfl
    simp [Called.frame, he]
  unfold Lower.reserveSlots at hat ⊢
  split at hat
  next hzero =>
    rw [if_pos hzero, hframe, ← hreserved, hzero]
    exact .refl
  next hzero =>
    rw [if_neg hzero, width_emit]
    refine .operates hat fun m hm => ?_
    rw [execute_reserve, UInt32.toNat_ofNat_of_lt' hsmall, hreserved, hframe, hm.operands,
      List.append_assoc]

/-- Captured slots are detached. -/
lemma Block.detach : ∀ captured {pc},
    At S.functions pc (Lower.detachSlots { captured }) →
    B.Block (S.setting host depth) pc ops (pc + (Lower.detachSlots { captured }).width) (.ok ops)
  | [], pc, _ => .refl
  | slot :: captured, pc, hat => by
    have hcapture : B.Block (S.setting host depth) pc ops _ (.ok ops) :=
      .step hat fun m hm => ⟨_, execute_capture hm.scopes (by rw [hm.floor]), hm.closeSlot _⟩
    have hwidth : (Lower.detachSlots { captured := slot :: captured }).width
        = (Instruction.capture (UInt32.ofNat slot)).width
          + (Lower.detachSlots { captured }).width := rfl
    rw [hwidth, ← Nat.add_assoc]
    exact hcapture.trans (detach captured hat.next)

/-- An operand of the function is read, counted from its base. -/
lemma Block.readLocal {slot diagnostic}
    (hat : At S.functions pc (.plain (.readLocal 0 slot) diagnostic :: code))
    (hv : ops.reverse[slot.toNat]? = some (some v)) :
    B.Block (S.setting host depth) pc ops (pc + (Instruction.readLocal 0 slot).width)
      (.ok (some v :: ops)) := by
  obtain ⟨hlt, -⟩ := List.getElem?_eq_some_iff.mp hv
  refine .operates hat fun m hm => ?_
  have hs : B.operands.length + slot.toNat < m.stack.size := by
    rw [hm.size]
    rw [List.length_reverse] at hlt
    omega
  have hc : m.slotContent (B.operands.length + slot.toNat) = some v := by
    rw [hm.slotContent, hv]
    rfl
  refine (execute_readLocal_some hm.scope hs hc).trans ?_
  rw [hm.operands]
  rfl

/-- **A bound name is read.** -/
theorem Block.readName (hsl : D.Slots names) (hholds : D.Holds names) (hn : n ∈ names)
    (hv : get? bound n = some v) (h : NameCode env D n code) (hat : At S.functions pc code) :
    B.Block (S.setting host depth) pc (temps ++ C.frame names bound) (pc + code.width)
      (.ok (some v :: (temps ++ C.frame names bound))) := by
  obtain ⟨i, hi, hsmall, rfl⟩ := hholds.nameCode hsl hn h
  have hword : (UInt32.ofNat (3 + i)).toNat = 3 + i := UInt32.toNat_ofNat_of_lt' hsmall
  obtain ⟨hlt, hget⟩ := List.getElem?_eq_some_iff.mp hi
  refine .readLocal hat ?_
  rw [hword, reverse_frame, Nat.add_comm 3 i]
  simp [List.getElem?_append_left, hlt, hget, hv]

/-- **The object of the names is made.** -/
theorem Block.pairs (hD : D.tables = S.tables) (hsl : D.Slots names) (hholds : D.Holds names)
    : ∀ {pairs code pc},
    (∀ n v, (n, v) ∈ pairs → n ∈ names ∧ get? bound n = some v) →
    LoweredEntries env D
      (pairs.map fun pair => .entry (.literal (.string pair.1)) (.name pair.1 none)) code →
    At S.functions pc code → ∀ made,
    B.Block (S.setting host depth) pc (some (.object made) :: C.frame names bound)
      (pc + code.width) (.ok (some (.object (merge made pairs)) :: C.frame names bound)) := by
  intro pairs
  induction pairs with
  | nil =>
    intro code pc _ h _ made
    rw [List.map_nil, LoweredEntries] at h
    subst h
    exact .refl
  | cons pair pairs ih =>
    intro code pc hpairs h hat made
    obtain ⟨n, v⟩ := pair
    rw [List.map_cons, LoweredEntries] at h
    obtain ⟨first, second, os, hf, hsecond, ho, rfl⟩ := h
    rw [Lowered] at hf
    rw [Lowered] at hsecond
    obtain ⟨hn, hv⟩ := hpairs n v List.mem_cons_self
    have hkey : B.Block (S.setting host depth) pc (some (.object made) :: C.frame names bound) _
        (.ok (some (.string n) :: some (.object made) :: C.frame names bound)) :=
      .literal hD (fun hdata => nomatch hdata) hf hat.left
    have hvalue : B.Block (S.setting host depth) _
        ([some (.string n), some (.object made)] ++ C.frame names bound) _ _ :=
      .readName hsl hholds hn hv hsecond hat.skip.left
    have hpush : B.Block (S.setting host depth) _
        (some v :: some (.string n) :: some (.object made) :: C.frame names bound) _
        (.ok (some (.object (insert made n v)) :: C.frame names bound)) :=
      .operates hat.skip.skip fun m hm => execute_objectPush hm.operands_cons (hm.above _)
    simp only [width_append, ← Nat.add_assoc]
    refine hkey.trans (hvalue.trans (hpush.trans ?_))
    exact ih (fun n v h => hpairs n v (List.mem_cons_of_mem _ h)) ho hat.skip.skip.skip
      (insert made n v)

end Function

end Below

/-! ## Function literals with a signature -/

variable {f : CodeFunction}

namespace Signature

lemma elementNames_append (rest : Option String) : ∀ ps : List Param,
    Pattern.elementNames (ps.map element ++ (rest.map fun n => .rest (.name n)).toList)
      = ps.map (·.name) ++ rest.toList
  | [] => by cases rest <;> simp [Pattern.elementNames, Pattern.names]
  | p :: ps => by
    rw [List.map_cons, List.cons_append]
    obtain ⟨-, helement⟩ | ⟨d, -, helement⟩ := p.element_cases <;>
      simp [helement, Pattern.elementNames, Pattern.names, pattern, elementNames_append rest ps]

lemma entryNames_append (rest : Option String) : ∀ ps : List Param,
    Pattern.entryNames (ps.map property ++ (rest.map fun n => .rest (.name n)).toList)
      = ps.map (·.name) ++ rest.toList
  | [] => by cases rest <;> simp [Pattern.entryNames, Pattern.names]
  | p :: ps => by
    simp [property, Pattern.entryNames, Pattern.names, pattern, entryNames_append rest ps]

/-- The literal declares the names of the signature. -/
lemma names_eq : Pattern.elementNames s.elements ++ Pattern.entryNames s.entries = s.names := by
  rw [elements, entries, elementNames_append, entryNames_append, names, List.append_assoc]

/-- The outermost scope of the literal. -/
def scope (s : Signature) : Block := functionScope s.elements s.entries

lemma scope_eq : s.scope = ofFunction.declareAll s.names := by rw [scope, functionScope, names_eq]

lemma reserved_scope : s.scope.reserved = s.names.length := by
  rw [scope_eq, reserved, nextSlot_declareAll, firstSlot_declareAll]
  exact Nat.add_sub_cancel_left _ _

lemma slots_scope (D : Draft) (captures) :
    (D.inFunction s.scope captures).Slots s.names := by
  intro n slot hs
  have hblock : (D.inFunction s.scope captures).block = s.scope := rfl
  rw [hblock, scope_eq, names_declareAll] at hs
  have hmem := mem_of_mem_ofPairs (mem_of_get? hs)
  obtain ⟨hge, hlt, hget⟩ := List.mem_zipIdx hmem
  exact ⟨slot - 3, (Nat.add_sub_cancel' hge).symm, List.getElem?_eq_some_iff.mpr ⟨_, hget.symm⟩⟩

lemma holds_scope (D : Draft) (captures) :
    (D.inFunction s.scope captures).Holds s.names := by
  refine ⟨s.scope, captures, D.frames, rfl, ?_, fun n hn => ?_⟩
  · rw [scope_eq, isLibrary_declareAll]
    rfl
  · rw [scope_eq, names_declareAll]
    refine contains_iff_mem_keys.mpr (mem_keys_merge.mpr (.inr ?_))
    rw [keys, List.zipIdx_map_fst]
    exact hn

/-- The rest is bound first, and the slots hold what the parameters get all the same. -/
lemma frame_taken {first second rest left}
    (hks : keys (first ++ (rest ++ (second ++ left))) = s.names) (hnames : s.names.Nodup) :
    C.frame s.names (merge (merge [] (rest ++ first)) (second ++ left))
      = C.frame s.names (first ++ (rest ++ (second ++ left))) := by
  have hperm : ((rest ++ first) ++ (second ++ left)).Perm (first ++
    (rest ++ (second ++ left))) := by
    rw [← List.append_assoc first]
    exact List.perm_append_comm.append_right _
  have hnodup : (keys (first ++ (rest ++ (second ++ left)))).Nodup := hks ▸ hnames
  have hnodup' : (keys ((rest ++ first) ++ (second ++ left))).Nodup :=
    (hperm.map _).nodup_iff.mpr hnodup
  rw [merge_append, show merge [] ((rest ++ first) ++ (second ++ left)) = _ from
    ofPairs_of_nodup hnodup']
  unfold Called.frame
  rw [List.map_congr_left fun n hn => ?_]
  rw [← hks] at hn
  obtain ⟨⟨n, v⟩, hmem, rfl⟩ := List.mem_map.mp hn
  rw [get?_of_mem hnodup hmem, get?_of_mem hnodup' (hperm.mem_iff.mpr hmem)]

section Literal

variable (hD : D.tables = S.tables) (hs : s.Proper)
  (htells : ∀ p ∈ s.parameters, ∀ d, p.default = some d → S.Tells d) {captures : List Capture}

include hD hs htells

/-- The positional arguments are bound, if there are parameters for them. -/
lemma block_positional (h : if s.elements.isEmpty then code = [] else ∃ taken,
      ArrayCode (D.inFunction s.scope captures) true s.elements
        (LoweredRest env (D.inFunction s.scope captures) 0 s.elements)
        (LoweredFixed env (D.inFunction s.scope captures) true 1 s.elements) taken
      ∧ code = emit (.readLocal 0 1) ++ taken) (hat : At S.functions pc code) :
    B.Block (S.setting host depth) pc (C.frame s.names []) (pc + code.width)
      ((takeInOrder s.positional C.args).map fun first => C.frame s.names (merge []
        (takeRest s.rest (.array (C.args.drop s.positional.length)) ++ first))) := by
  split at h
  next he =>
    subst h
    obtain ⟨hpos, hr⟩ : s.positional = [] ∧ s.rest = none := by simpa [elements] using he
    rw [hpos, hr]
    exact .refl
  next he =>
    obtain ⟨taken, htaken, rfl⟩ := h
    have hread : B.Block (S.setting host depth) pc (C.frame s.names []) _
        (.ok (some (.array C.args) :: C.frame s.names [])) :=
      .readLocal hat (by rw [← List.nil_append (C.frame s.names []), Below.reverse_frame]; rfl)
    rw [width_append, ← Nat.add_assoc]
    have hD' : (D.inFunction s.scope captures).tables = S.tables := hD
    refine hread.trans (.array hD' hs.names (slots_scope D captures) (fun p hp => ?_)
      (fun p hp => ?_)
      htaken hat.skip C.args [])
    · exact hs.parameters p (List.mem_append_left _ hp)
    · exact htells p (List.mem_append_left _ hp)

/-- The named arguments are bound, if there are parameters for them. -/
lemma block_named (bound) (h : if s.entries.isEmpty then code = [] else ∃ taken,
      ObjectCode (D.inFunction s.scope captures) true s.entries
        (LoweredProperties env (D.inFunction s.scope captures) true s.entries) taken
      ∧ code = emit (.readLocal 0 2) ++ taken) (hat : At S.functions pc code) :
    B.Block (S.setting host depth) pc (C.frame s.names bound) (pc + code.width)
      ((takeByName s.named C.named).map fun (second, left) => C.frame s.names
        (merge bound (second ++ takeRest s.namedRest (.object left)))) := by
  split at h
  next he =>
    subst h
    obtain ⟨hn, hr⟩ : s.named = [] ∧ s.namedRest = none := by simpa [entries] using he
    rw [hn, hr]
    exact .refl
  next he =>
    obtain ⟨taken, htaken, rfl⟩ := h
    have hread : B.Block (S.setting host depth) pc (C.frame s.names bound) _
        (.ok (some (.object C.named) :: C.frame s.names bound)) :=
      .readLocal hat (by rw [← List.nil_append (C.frame s.names bound), Below.reverse_frame]; rfl)
    rw [width_append, ← Nat.add_assoc]
    have hD' : (D.inFunction s.scope captures).tables = S.tables := hD
    refine hread.trans (.object hD' hs.names (slots_scope D captures) (fun p hp => ?_)
      (fun p hp => ?_) htaken hat.skip C.named bound)
    · exact hs.parameters p (List.mem_append_right _ hp)
    · exact htells p (List.mem_append_right _ hp)

omit hs htells in
/-- The object of all names is the result. -/
lemma block_result (hks : keys bound = s.names) (hnames : s.names.Nodup)
    (h : Lowered env (D.inFunction s.scope captures) Lower.anonymous (objectOf s.names) code)
    (hat : At S.functions pc code) :
    B.Block (S.setting host depth) pc (C.frame s.names bound) (pc + code.width)
      (.ok (some (.object bound) :: C.frame s.names bound)) := by
  rw [objectOf, ← hks, keys, List.map_map, Lowered] at h
  obtain ⟨items, hitems, rfl⟩ := h
  have hnodup : (keys bound).Nodup := hks ▸ hnames
  have ho : B.Block (S.setting host depth) pc (C.frame s.names bound) _
      (.ok (some (.object []) :: C.frame s.names bound)) :=
    .operates hat fun m hm => by
      rw [execute_object, hm.operands]
      rfl
  have hD' : (D.inFunction s.scope captures).tables = S.tables := hD
  have hpairs : B.Block (S.setting host depth) _ (some (.object []) :: C.frame s.names bound) _ _ :=
    .pairs hD' (slots_scope D captures) (holds_scope D captures)
      (fun n v hmem => ⟨hks ▸ List.mem_map_of_mem hmem, get?_of_mem hnodup hmem⟩)
      hitems hat.skip []
  rw [show merge [] bound = bound from ofPairs_of_nodup hnodup] at hpairs
  rw [width_append, ← Nat.add_assoc]
  exact ho.trans hpairs

/-- **The function of the literal** takes its arguments and makes the object of what its parameters
get. -/
theorem block_literal (hf : LiteralFunction env D s.elements s.entries (objectOf s.names) f)
    (hat : At S.functions pc f.body) : ∃ finish, At S.functions finish (emit .ret) ∧
      B.Block (S.setting host depth) pc (C.frame [] []) finish
        ((s.taken C.args C.named).map fun bound =>
          some (.object bound) :: C.frame s.names bound) := by
  obtain ⟨pos, named, last, captured, hpos, hn, hl, hsmall, hbody, -⟩ := hf
  rw [hbody] at hat
  refine ⟨_, hat.skip.skip.skip.skip.skip, ?_⟩
  refine (Below.Block.reserve reserved_scope hsmall hat.left).trans ?_
  have hfirst : B.Block (S.setting host depth) _ (C.frame s.names []) _ _ :=
    block_positional hD hs htells hpos hat.skip.left
  have hsecond : ∀ bound, B.Block (S.setting host depth) _ (C.frame s.names bound) _ _ :=
    fun bound => block_named hD hs htells bound hn hat.skip.skip.left
  rw [taken]
  cases htaken : takeInOrder s.positional C.args with
  | error e =>
    rw [htaken] at hfirst
    exact hfirst
  | ok first =>
    rw [htaken] at hfirst
    refine hfirst.trans ?_
    cases hnamedTaken : takeByName s.named C.named with
    | error e =>
      have := hsecond (merge []
        (takeRest s.rest (.array (C.args.drop s.positional.length)) ++ first))
      rw [hnamedTaken] at this
      exact this
    | ok second =>
      have := hsecond (merge []
        (takeRest s.rest (.array (C.args.drop s.positional.length)) ++ first))
      rw [hnamedTaken] at this
      refine this.trans ?_
      have hbound : s.taken C.args C.named = .ok (first
          ++ (takeRest s.rest (.array (C.args.drop s.positional.length)) ++ (second.1
          ++ takeRest s.namedRest (.object second.2)))) := by
        rw [taken, htaken, hnamedTaken]
        rfl
      have hks := keys_taken s hbound
      show B.Block _ _ (C.frame s.names (merge (merge [] _)
        (second.1 ++ takeRest s.namedRest (.object second.2)))) _ _
      rw [frame_taken hks hs.names]
      exact (block_result hD hks hs.names hl hat.skip.skip.skip.left).trans
        (.detach captured hat.skip.skip.skip.skip.left)

end Literal

end Signature

/-! ## The call -/

/-- A machine that the host has just entered stands at the beginning of the function. -/
lemma Machine.opened_stands (hfault : m.fault = none) (t) (C : Called) :
    (Below.mk m.operands m.scopeList m.callList).Stands t (C.frame [] [])
      (m.opened t C.callee C.args C.named) where
  pc := rfl
  operands := by simp [opened, operands, Called.frame]
  scopes := by simp [opened, scopeList, heights]
  calls := by simp [opened, callList, heights]
  floor := by simp [opened, heights]
  fault := hfault

namespace Signature

/-- **A call of the literal's closure** gives what its parameters get. -/
theorem apply_literal (hD : D.tables = S.tables) (hs : s.Proper)
    (htells : ∀ p ∈ s.parameters, ∀ d, p.default = some d → S.Tells d)
    (hi : S.functions[index]? = some f)
    (hf : LiteralFunction env D s.elements s.entries (objectOf s.names) f) {c}
    (hc : c.target = offset S.functions index) (hfault : m.fault = none)
    (hd : m.depth < depth) (args named) :
    ∃ r m', SameAnswer r ((s.taken args named).map .object) ∧ ∃ least, ∀ fuel,
      least ≤ fuel → apply (S.setting host depth) fuel (.closure c) args named m
        = some (r, m') := by
  obtain ⟨finish, hret, hblock⟩ := block_literal (B := ⟨m.operands, m.scopeList, m.callList⟩)
    (C := ⟨.closure c, args, named⟩) hD hs htells hf (at_offset hi)
  obtain ⟨r, m', hsame, least, hdrive⟩ :=
    hblock.returns hret (opened_stands hfault _ ⟨.closure c, args, named⟩)
  refine ⟨r, m'.closed m.suspended, hsame, least + 2, fun fuel hfuel => ?_⟩
  obtain ⟨fuel, rfl⟩ := Nat.exists_eq_add_of_le' hfuel
  have henter : enter (S.setting host depth) (fuel + least + 1) c.target (.closure c) args named m
      = some (r.mapError .raised, m'.closed m.suspended) := by
    have hl : ¬ (S.setting host depth).limits.depth ≤ m.depth := Nat.not_le.mpr hd
    rw [enter, if_neg hl, hc, hdrive _ (Nat.le_add_left _ _)]
  show apply (S.setting host depth) (fuel + least + 1 + 1) (.closure c) args named m = _
  rw [apply, henter]
  cases r <;> rfl

/-- **A call of the host's function** gives what its parameters get, and leaves the machine as it
was. -/
theorem apply_native {S} (hs : s.Proper) {ref}
    (href : S.host.native? ref.code = some s.native) (args named m) :
    ∃ least, ∀ fuel, least ≤ fuel → apply S fuel (.native ref) args named m
      = some ((s.taken args named).map .object, m) := by
  have hidle := idle_apply_native (fun p hp => (hs.parameters p hp).schema) args named
  have hdone : ∃ least, ∀ fuel, least ≤ fuel →
      perform S fuel .call (s.native.apply args named) m = _ := perform_idle S hidle m
  obtain ⟨least, hperf⟩ := hdone
  refine ⟨least + 1, fun fuel hfuel => ?_⟩
  obtain ⟨fuel, rfl⟩ := Nat.exists_eq_add_of_le' hfuel
  show apply S (fuel + least + 1) (.native ref) args named m = _
  rw [apply, href, ← alone_apply_native hs.names]
  exact hperf _ (Nat.le_add_left _ _)

/-! ### The program of the literal -/

lemma freeInParams_elements (bound) (rest : Option String) : ∀ ps : List Param,
    freeInParams bound (ps.map element ++ (rest.map fun n => .rest (.name n)).toList)
      = []
  | [] => by cases rest <;> simp [freeInParams, freeInPattern]
  | p :: ps => by
    rw [List.map_cons, List.cons_append]
    obtain ⟨-, helement⟩ | ⟨d, -, helement⟩ := p.element_cases <;>
      simp [helement, freeInParams, freeInPattern, pattern, freeIn,
        freeInParams_elements bound rest ps]

lemma freeInNamedParams_entries (bound) (rest : Option String) : ∀ ps : List Param,
    freeInNamedParams bound (ps.map property ++ (rest.map fun n => .rest (.name n)).toList) = []
  | [] => by cases rest <;> simp [freeInNamedParams, freeInPattern]
  | p :: ps => by
    rw [List.map_cons, List.cons_append, property]
    cases p.default <;>
      simp [freeInNamedParams, freeInPattern, pattern, freeIn,
        freeInNamedParams_entries bound rest ps]

lemma freeInEntries_names (bound) : ∀ names : List String, (∀ n ∈ names, n ∈ bound) →
    freeInEntries bound (names.map fun n => .entry (.literal (.string n)) (.name n none)) = []
  | [], _ => by simp [freeInEntries]
  | n :: names, h => by
    rw [List.forall_mem_cons] at h
    simp [freeInEntries, freeIn, h.1, freeInEntries_names bound names h.2]

/-- The literal uses no names but its own. -/
lemma freeNames_literal : s.literal.freeNames = [] := by
  rw [literal, freeNames, freeIn, names_eq, objectOf, freeIn]
  simp only [elements, entries, freeInParams_elements, freeInNamedParams_entries, List.nil_append]
  exact freeInEntries_names _ _ fun n hn => List.mem_append_left _ hn

lemma retained_literal : env.retained s.literal = [] := by
  have hn : ∀ sources, Library.named sources [] = [] := fun sources => by simp [Library.named]
  have hrounds : ∀ sources count, Library.rounds sources count [] = [] := by
    intro sources count
    cases count <;> simp [Library.rounds, hn]
  rw [Environment.retained, freeNames_literal, List.filter_nil, Library.reachable]
  simp only [hn, hrounds, List.map_nil]

/-! #### Its literals -/

lemma literalsOfParams_elements (rest : Option String) : ∀ ps : List Param,
    literalsOfParams (ps.map element ++ (rest.map fun n => .rest (.name n)).toList)
      = ps.filterMap (·.default)
  | [] => by cases rest <;> simp [literalsOfParams, Pattern.literals]
  | p :: ps => by
    rw [List.map_cons, List.cons_append]
    obtain ⟨hdefault, helement⟩ | ⟨d, hdefault, helement⟩ := p.element_cases <;>
      simp [hdefault, helement, literalsOfParams, Pattern.literals, pattern, literals,
        literalsOfParams_elements rest ps]

lemma literalsOfNamedParams_entries (rest : Option String) : ∀ ps : List Param,
    literalsOfNamedParams (ps.map property ++ (rest.map fun n => .rest (.name n)).toList)
      = ps.filterMap (·.default)
  | [] => by cases rest <;> simp [literalsOfNamedParams, Pattern.literals]
  | p :: ps => by
    rw [List.map_cons, List.cons_append, property]
    cases hdefault : p.default <;>
      simp [hdefault, literalsOfNamedParams, Pattern.literals, pattern, literals,
        literalsOfNamedParams_entries rest ps]

lemma literalsOfEntries_names : ∀ (names : List String) (v), v ∈ literalsOfEntries
    (names.map fun n => .entry (.literal (.string n)) (.name n none)) → ∃ n, v = .string n
  | [], v, h => by simp [literalsOfEntries] at h
  | n :: names, v, h => by
    simp only [List.map_cons, literalsOfEntries, literals, List.append_nil,
      List.cons_append, List.nil_append, List.mem_cons] at h
    exact h.elim (fun h => ⟨n, h⟩) (literalsOfEntries_names names v)

lemma mem_literals {v} (h : v ∈ s.literal.literals) :
    v ∈ s.defaults ∨ ∃ n, v = .string n := by
  rw [literal, literals, objectOf, literals, elements, entries, literalsOfParams_elements,
    literalsOfNamedParams_entries, List.mem_append, ← List.filterMap_append] at h
  exact h.imp_right (literalsOfEntries_names _ v)

/-- **Functions among the defaults are told from the others that the program may refer to**: those
of the environment and the other defaults, in that no other is equal. -/
structure Tells (s : Signature) (env : Environment) : Prop where
  given : ∀ d ∈ s.defaults, d.isData = false → env.Gives fun v => v == d → v = d
  own : ∀ d ∈ s.defaults, d.isData = false → ∀ v ∈ s.defaults, v == d → v = d

lemma string_beq_of_not_data {d} (hd : d.isData = false) :
    ((.string n : Value) == d) = false := by
  cases d <;> first | rfl | cases hd

/-- The program of the literal consists of its function and code that makes a closure of it. -/
lemma lower_literal {p} (htells : s.Tells env) (h : s.literal.lower env = .ok p)
    (hs : p.code.size < UInt32.size) :
    ∃ (S : Parts) (D : Draft) (index : Nat) (f : CodeFunction), p = S.program
      ∧ D.tables = S.tables ∧ S.functions[index]? = some f
      ∧ LiteralFunction env D s.elements s.entries (objectOf s.names) f
      ∧ S.body = .makeFunction index :: emit .ret
      ∧ ∀ d ∈ s.defaults, S.Tells d := by
  have hgives : env.Gives fun v => ∀ d ∈ s.defaults, d.isData = false → v == d → v = d := by
    constructor
    · exact fun name v h d hd hdata => (htells.given d hd hdata).names name v h
    · exact fun module exports name v hm h d hd hdata =>
        (htells.given d hd hdata).modules module exports name v hm h
    · exact fun name v h d hd hdata => (htells.given d hd hdata).library name v h
    · exact fun name e h v hv d hd hdata => (htells.given d hd hdata).sources name e h v hv
  have hliterals : ∀ v ∈ s.literal.literals, ∀ d ∈ s.defaults, d.isData = false → v == d →
    v = d := by
    intro v hv d hd hdata heq
    rcases mem_literals hv with hv | ⟨n, rfl⟩
    · exact htells.own d hd hdata v hv heq
    · rw [string_beq_of_not_data hdata] at heq
      cases heq
  obtain ⟨D, body, rfl, hcompiled⟩ := lower_compiled hgives hliterals h hs
  obtain ⟨code, hbody, hc⟩ := hcompiled.main
  rw [retained_literal, List.isEmpty_nil, if_pos rfl, literal, lowered_given] at hc
  obtain ⟨index, f, hf, -, hliteral, rfl⟩ := hc
  have hcaptures : f.captures = [] := by
    obtain ⟨-, -, -, -, -, -, -, -, -, hplaces⟩ := hliteral
    refine List.eq_nil_iff_forall_not_mem.mpr fun place hp => ?_
    obtain ⟨-, lib, name, hresolves⟩ := hplaces place hp
    rw [hcompiled.frames] at hresolves
    cases hresolves with
    | own found =>
      -- The main code's own scope declares nothing.
      cases lib <;> cases found
    | captured _ around => cases around
  refine ⟨⟨D.tables, body⟩, D, index + 1, f, rfl, rfl, ?_, hliteral, ?_, fun d hd hdata entry he =>
    hcompiled.platform entry he d hd hdata⟩
  · rw [Parts.functions, List.getElem?_cons_succ, Array.getElem?_toList]
    exact hf
  · rw [hbody, hcaptures]
    rfl

/-- **A run of that program** returns a closure of the function. -/
theorem run_literal (hi : S.functions[index]? = some f)
    (hbody : S.body = .makeFunction index :: emit .ret)
    (hs : S.program.code.size < UInt32.size) (hd : 0 < depth) (heap : Heap) :
    ∃ c m', c.target = offset S.functions index ∧ ∃ least, ∀ fuel, least ≤ fuel →
      Machine.run (S.setting host depth) (Machine.start heap) fuel
        = some (.value (.closure c), m') := by
  have hmain : S.functions[0]? = some { name := Lower.main, body := S.body } := rfl
  have hat : At S.functions 0 (.makeFunction index :: emit .ret) := hbody ▸ at_offset hmain
  let C : Called := ⟨.null, [], []⟩
  let m := (Machine.start heap).started
  let B : Below := ⟨m.operands, m.scopeList, m.callList⟩
  have hopened : B.Stands 0 (C.frame [] []) (m.opened 0 .null [] []) :=
    opened_stands (m := m) rfl 0 C
  have hmade : ∃ c m', (m.opened 0 .null [] []).advance (S.setting host depth) = .running m' ∧ _ :=
    hopened.makeFunction hi hs hat
  obtain ⟨c, m₁, hadvance, hc, hm₁⟩ := hmade
  have hreturn : B.Block (S.setting host depth) (0 + (CodeItem.makeFunction index).width)
      (some (.closure c) :: C.frame [] []) (0 + (CodeItem.makeFunction index).width)
      ((Except.ok ()).map fun _ => some (.closure c) :: C.frame [] []) := .refl
  obtain ⟨r, m₂, hr, hdrive⟩ := hreturn.returns hat.next hm₁
  obtain ⟨least, hdrive⟩ := (Goes.one (.step hadvance)).drive hdrive
  obtain ⟨v, rfl, rfl⟩ : ∃ v, r = .ok v ∧ v = .closure c := by
    cases r with
    | ok v => exact ⟨v, rfl, hr⟩
    | error e => exact hr.elim
  refine ⟨c, (m₂.closed m.suspended).cleared, hc, least + 1, fun fuel hfuel => ?_⟩
  obtain ⟨fuel, rfl⟩ := Nat.exists_eq_add_of_le' hfuel
  have hl : ¬ (S.setting host depth).limits.depth ≤ m.depth := Nat.not_le.mpr hd
  have henter : enter (S.setting host depth) (fuel + least + 1) 0 .null [] [] m
      = some (.ok (.closure c), m₂.closed m.suspended) := by
    rw [enter, if_neg hl, hdrive _ (Nat.le_add_left _ _)]
    rfl
  show (enter (S.setting host depth) (fuel + least + 1) 0 .null [] [] m >>= _) = _
  rw [henter]
  rfl

/-- **Calls of the literal's closure and of the host's function agree.** The program of the literal
returns a closure, and a call of it gives the same object as the host's function, or an error with
the same kind and details, whatever the arguments are and whatever the machine is that the call is
made on. -/
theorem calls_agree {p : Program} (hs : s.Proper) (htells : s.Tells env)
    (hlower : s.literal.lower env = .ok p) (hsize : p.code.size < UInt32.size) (host : Host)
    (ref : NativeRef) (href : host.native? ref.code = some s.native) (depth : Nat)
    (hdepth : 0 < depth) (heap : Heap) :
    let setting : Setting := { program := p, host, limits := { depth } }
    ∃ c, (∃ m least, ∀ fuel, least ≤ fuel →
        Machine.run setting (Machine.start heap) fuel = some (.value (.closure c), m)) ∧
      ∀ (m : Machine) (args : List Value) (named : Entries Value), m.fault = none →
        m.depth < depth → ∃ byCode byHost m₁ m₂, SameAnswer byCode byHost ∧
          (∀ v, byHost = .ok v → ∃ bound, v = .object bound ∧ Entries.keys bound = s.names) ∧
          ∃ least, ∀ fuel, least ≤ fuel →
            apply setting fuel (.closure c) args named m = some (byCode, m₁) ∧
            apply setting fuel (.native ref) args named m = some (byHost, m₂) := by
  obtain ⟨S, D, index, f, rfl, hD, hindex, hf, hbody, hdefaults⟩ :=
    lower_literal htells hlower hsize
  have hran : ∃ c m', _ ∧ ∃ least, ∀ fuel, least ≤ fuel →
      Machine.run (S.setting host depth) (Machine.start heap) fuel = _ :=
    run_literal hindex hbody hsize hdepth heap
  obtain ⟨c, m₀, hc, hrun⟩ := hran
  refine ⟨c, ⟨m₀, hrun⟩, fun m args named hfault hroom => ?_⟩
  have hown : ∀ p ∈ s.parameters, ∀ d, p.default = some d → S.Tells d := fun p hp d hd =>
    hdefaults d (List.mem_filterMap.mpr ⟨p, hp, hd⟩)
  obtain ⟨byCode, m₁, hsame, first, hfirst⟩ := apply_literal hD hs hown hindex hf hc hfault hroom
    args named
  have hnative : ∃ least, ∀ fuel, least ≤ fuel →
      apply (S.setting host depth) fuel (.native ref) args named m = _ :=
    apply_native hs href args named m
  obtain ⟨second, hsecond⟩ := hnative
  refine ⟨byCode, (s.taken args named).map .object, m₁, m, hsame, ?_, first + second,
    fun fuel hfuel => ⟨hfirst fuel (by omega), hsecond fuel (by omega)⟩⟩
  intro v hv
  cases htaken : s.taken args named with
  | error e => rw [htaken] at hv; cases hv
  | ok bound =>
    rw [htaken] at hv
    cases hv
    exact ⟨bound, rfl, keys_taken s htaken⟩

/-- A number, a text that may be absent, a flag by name, and both rests. -/
def labelled : Signature where
  positional := [{ name := "x", schema := .string "number" },
    { name := "y", schema := .string "string", default := some (.string "none") }]
  rest := some "more"
  named := [{ name := "flag", schema := .string "boolean", default := some (.boolean false) }]
  namedRest := some "others"

theorem calls_agree_labelled : ∃ p, labelled.literal.lower {} = .ok p ∧ ∃ c,
    ∀ (args : List Value) (named : Entries Value), ∃ byCode byHost, SameAnswer byCode byHost ∧
      ∃ fuel m₁ m₂,
        apply ⟨p, ⟨#[labelled.native]⟩, {}⟩ fuel (.closure c) args named {} = some (byCode, m₁) ∧
        apply ⟨p, ⟨#[labelled.native]⟩, {}⟩ fuel (.native ⟨"labelled", 0, 0⟩) args named {}
          = some (byHost, m₂) := by
  obtain ⟨p, hp, hsize⟩ : ∃ p, labelled.literal.lower {} = .ok p ∧ p.code.size < UInt32.size := by
    have hshort : (labelled.literal.lower {}).toOption.any (·.code.size < UInt32.size) = true := by
      decide +kernel
    cases hp : labelled.literal.lower {} with
    | error e => rw [hp] at hshort; cases hshort
    | ok p => exact ⟨p, rfl, by simpa [hp, Except.toOption] using hshort⟩
  have hnames : ∀ (name : String) (kind : TypeTest) (v : Value),
      TypeTest.ofName? name = some kind → kind.accepts v = true →
      (Schema.validate v (.string name)).alone = .ok () := by
    intro name kind v hname hv
    rw [Schema.validate, Schema.bindValue, Schema.ofValue, hname]
    simp only [Schema.bindInto, Schema.checkType, hv, if_true]
    rfl
  have hproper : labelled.Proper := by
    refine ⟨by decide, fun p hmem => ?_⟩
    simp only [parameters, labelled, List.cons_append, List.nil_append, List.mem_cons,
      List.not_mem_nil, or_false] at hmem
    rcases hmem with rfl | rfl | rfl
    · exact ⟨rfl, fun d hd => by cases hd⟩
    · exact ⟨rfl, fun d hd => by cases hd; exact hnames _ _ _ rfl rfl⟩
    · exact ⟨rfl, fun d hd => by cases hd; exact hnames _ _ _ rfl rfl⟩
  have hdata : ∀ d ∈ labelled.defaults, d.isData = true := by
    intro d hd
    simp only [defaults, parameters, labelled, List.cons_append, List.nil_append,
      List.filterMap_cons, List.filterMap_nil, List.mem_cons, List.not_mem_nil, or_false] at hd
    rcases hd with rfl | rfl <;> rfl
  have htells : labelled.Tells {} :=
    ⟨fun d hd hfalse => absurd (hdata d hd) (by simp [hfalse]),
      fun d hd hfalse => absurd (hdata d hd) (by simp [hfalse])⟩
  obtain ⟨c, -, hcalls⟩ := calls_agree hproper htells hp hsize ⟨#[labelled.native]⟩
    ⟨"labelled", 0, 0⟩ rfl 128 (by decide) {}
  refine ⟨p, hp, c, fun args named => ?_⟩
  obtain ⟨byCode, byHost, m₁, m₂, hsame, -, least, hleast⟩ := hcalls {} args named rfl (by decide)
  exact ⟨byCode, byHost, hsame, least, m₁, m₂, hleast least (Nat.le_refl _)⟩

end Signature

end TreeCode
