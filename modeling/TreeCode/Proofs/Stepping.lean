import TreeCode.Proofs.Loops

/-!
# No instruction of a program faults

Each instruction finds on stacks of the layout what it needs. For instructions that only replace
what lies on top, the effects of the layout say what (`Effect.lands`); the others change the scopes,
the calls or the place in the code. `Machine.Runs.execute` is the whole: a machine that is about to
execute an instruction of a program does so without a fault.
-/

namespace TreeCode

open Content List Code ErrorValue

/-- **What the tables of a program hold** are closures of the program only, and the code is not too
long for its operands. -/
structure Parts.Closed (S : Parts) : Prop where
  constants : ∀ v ∈ S.tables.constants, v.Only S.Owns
  platform : ∀ entry ∈ S.tables.platform, entry.value.Only S.Owns
  size : S.program.code.size < UInt32.size

/-- The machines that executed the open catches, after one more instruction. -/
def liveAfter (i : Instruction) (m : Machine) (live : List Machine) : List Machine :=
  match i with
  | .enterCatch _ => m :: live
  | .leaveCatch => live.tail
  | _ => live

variable {v : Value}

/-- A validation against a kind of value is done at once. -/
lemma Schema.validate_kind_handles {name k P Q} (hname : TypeTest.ofName? name = some
    (.exactly k)) (hv : v.Only P)
    (hQ : v.kind = k → Q ()) : (Schema.validate v (.string name)).Handles P Q := by
  have hvalidate : Schema.validate v (.string name) = if v.kind = k then .done (.ok ())
      else .done (.error (Mismatch.notOfType v k.name)) := by
    rw [validate, bindValue, ofValue, hname]
    dsimp only
    rw [bindInto, checkType]
    simp only [TypeTest.accepts, beq_iff_eq, TypeTest.name]
    split <;> rfl
  rw [hvalidate]
  split
  · next hkind => exact .done (hQ hkind)
  · exact .done (only_of (by simpa using hv))

lemma Value.eq_array_of_kind (h : v.kind = .array) : ∃ es, v = .array es := by
  cases v with
  | array es => exact ⟨es, rfl⟩
  | _ => cases h

lemma Value.eq_object_of_kind (h : v.kind = .object) : ∃ xs, v = .object xs := by
  cases v with
  | object xs => exact ⟨xs, rfl⟩
  | _ => cases h

namespace Machine

variable {S : Parts} {V : Slots} {b m : Machine} {L : Layout} {live : List Machine}
    {ks a d : List Content}
  {cs : List Code} {entry : Entry} {code : Code} {s t ops : List (Option Value)}

section

variable (h : Fits S V b (⟨a ++ ks, cs, entry⟩ :: L) live m)

include h

lemma lands_next (ha : ∀ k ∈ a, k.Full)
    (hops : m.operands = s ++ ops) (hlen : s.length = a.length) (ht : Forall₂ (Holds S) d t)
    (hsl : Layout.Within V b (⟨d ++ ks, cs, entry⟩ :: L)) (hp : At S.functions m.pc code)
    (hsf : Safe S.tables code (⟨d ++ ks, cs, entry⟩ :: L)) :
    Lands S V b live (.ok .next (m.withOperands (t ++ ops))) :=
  .safe (h.swap ha hops hlen ht hsl (alongside_withOperands m _) (operands_withOperands ..)) hp
    hsf

lemma unwinds_of_swap
    (ha : ∀ k ∈ a, k.Full) (hops : m.operands = s ++ ops) (hlen : s.length = a.length)
    (junk) : Unwinds S V b live (m.withOperands (junk ++ ops)) :=
  .intro junk ops (operands_withOperands ..) (h.popped ha hops hlen)

end

variable {e : ErrorValue}

lemma lands_raised (h : Fits S V b (⟨a ++ ks, cs, entry⟩ :: L) live m)
    (ha : ∀ k ∈ a, k.Full) (hops : m.operands = s ++ ops) (hlen : s.length = a.length)
    (junk) (he : e.Only S.Owns) :
    Lands S V b live (.error (.raised e) (m.withOperands (junk ++ ops))) :=
  ⟨he, unwinds_of_swap h ha hops hlen junk⟩

lemma Fits.unwinds (h : Fits S V b L live m) : Unwinds S V b live m :=
  .intro [] m.operands rfl (by rwa [withOperands_operands])

variable {m' : Machine}

/-- Work of the host leaves the stacks of a machine alone. -/
lemma Kept.fits (hk : Kept S m m') (h : Fits S V b L live m) : Fits S V b L live m' where
  stacked := by
    rw [show m'.operands = m.operands by rw [operands, hk.stack]; rfl,
      show m'.scopeList = m.scopeList by rw [scopeList, hk.scopes]; rfl,
      show m'.callList = m.callList by rw [callList, hk.calls]; rfl]
    exact h.stacked
  cells := hk.openCells ▸ h.cells
  slots := h.slots
  floor := hk.floor.trans h.floor
  depth := hk.depth.trans h.depth
  fault := hk.fault
  heap := hk.heap

lemma Kept.operands (h : Kept S m m') : m'.operands = m.operands := by
  rw [Machine.operands, h.stack]
  rfl

/-- An instruction that the host has worked for replaces what lies on top. -/
lemma continues_next (hk : Kept S m m')
    (h : Fits S V b (⟨a ++ ks, cs, entry⟩ :: L) live m) (ha : ∀ k ∈ a, k.Full)
    (hops : m.operands = s ++ ops) (hlen : s.length = a.length) (ht : Forall₂ (Holds S) d t)
    (hsl : Layout.Within V b (⟨d ++ ks, cs, entry⟩ :: L)) (hp : At S.functions m.pc code)
    (hsf : Safe S.tables code (⟨d ++ ks, cs, entry⟩ :: L)) :
    Continues S V b live (.ok () (m'.withOperands (t ++ ops))) :=
  .safe ((hk.fits h).swap ha (hk.operands.trans hops) hlen ht hsl
    (alongside_withOperands m' _) (operands_withOperands ..)) (by rw [← hk.pc] at hp; exact hp) hsf

lemma only_unassigned (p m) :
    (unassigned p m).Only S.Owns := only_of (by simp)

lemma only_missing (p m) {other}
    (hother : other.Only S.Owns) : (missing p m other).Only S.Owns := by
  unfold missing
  split
  · exact only_of (by simp)
  · exact hother

lemma only_forArgument {P} (he : e.Only P) (name) :
    (e.forArgument name).Only P := by
  have hself : (Likeness.diagonal P).Error e e := ⟨rfl, Entries.only_iff_diagonal.mp he, rfl⟩
  exact Entries.only_iff_diagonal.mpr (hself.forArgument name).details

lemma only_mismatch (p m) (he : e.Only S.Owns) :
    (mismatch p m e).Only S.Owns := by
  unfold mismatch
  split
  · exact only_forArgument he _
  · exact he

/-! ## Instructions that replace what lies on top -/

variable {T : Tables} {i : Instruction} {k : Content}

lemma full_of_effect (h : Effect T L i a d) : ∀ k ∈ a, k.Full := by
  cases h <;> simp only [forall_mem_cons, not_mem_nil, false_implies, implies_true,
    and_true] <;> simp_all [Full]

/-- Only reserving makes slots. -/
lemma slot_notMem_of_effect (h : Effect T L i a d) (hi : ∀ n, i ≠ .reserve n) : slot ∉ d := by
  cases h with
  | reserve n => exact absurd rfl (hi n)
  | @readLocal depth slot k l _ hread => cases k <;> cases hread <;> simp
  | @validate k v l _ hl => cases l <;> simp_all [Full]
  | _ => simp

/-- **The instruction reserves some of the given slots**, if any. -/
def Reserves (V : Slots) (i : Instruction) (m : Machine) : Prop :=
  ∀ n, i = .reserve n → ∀ j, m.stack.size ≤ j → j < m.stack.size + n.toNat → V (m.scopes.size - 1) j

lemma reserves_all : Reserves .all i m := fun _ _ _ _ _ => trivial

/-- The variables have the given slots after an instruction that reserves some of them. -/
lemma Fits.slots_effect (h : Fits S V b (⟨a ++ ks, cs, entry⟩ :: L) live m)
    (heffect : Effect T (⟨a ++ ks, cs, entry⟩ :: L) i a d) (hreserves : Reserves V i m) :
    Layout.Within V b (⟨d ++ ks, cs, entry⟩ :: L) := by
  by_cases hi : ∃ n, i = .reserve n
  · obtain ⟨n, rfl⟩ := hi
    cases heffect
    have hs := h.stacked.length_contents
    rw [length_operands, show Layout.contents (⟨[] ++ ks, cs, entry⟩ :: L)
      = ks ++ L.contents from rfl, List.length_append] at hs
    have hsc := h.stacked.length_scopes
    rw [length_scopeList, List.length_cons] at hsc
    refine ⟨fun k hk => ?_, h.slots.2⟩
    have hlen := (List.getElem?_eq_some_iff.mp hk).1
    rw [List.length_reverse, List.length_append, List.length_replicate] at hlen
    rcases Nat.lt_or_ge k ks.length with hlt | hge
    · refine h.slots.1 k ?_
      rw [List.reverse_append, List.getElem?_append_left (by simpa using hlt)] at hk
      exact hk
    · have hnew := hreserves n rfl (b.stack.size + L.contents.length + k) (by omega) (by omega)
      rwa [show m.scopes.size - 1 = b.scopes.size + L.length by omega] at hnew
  · exact h.slots.replace (slot_notMem_of_effect heffect fun n hn => hi ⟨n, hn⟩)

variable {host : Host}

section Effects

variable (hS : S.Closed) (h : Fits S V b (⟨a ++ ks, cs, entry⟩ :: L) live m)
  (hsl : Layout.Within V b (⟨d ++ ks, cs, entry⟩ :: L))
  (hp : Code.At S.functions m.pc code)
  (hsf : Safe S.tables code (⟨d ++ ks, cs, entry⟩ :: L))

include h hsl hp hsf

/-- A value is pushed. -/
lemma lands_push (ha : a = []) (hd : d = [k]) (hv : k.Holds S (some v)) :
    Lands S V b live (.ok .next (m.withOperands (some v :: m.operands))) := by
  subst ha hd
  exact lands_next (s := []) (t := [some v]) h nofun rfl rfl (.cons hv .nil) hsl hp hsf

/-- The host checks the value on top. -/
lemma lands_validate {k schema} (hfull : ∀ l ∈ a, l.Full)
    (hk : S.tables.constants[k.toNat]? = some schema) (hops : m.operands = some v :: ops)
    (ha : a.length = 1) (hvalid : (Schema.validate v schema).Handles S.Owns
      fun _ => Forall₂ (Holds S) d [some v]) :
    Lands S V b live (execute S.program host (.validate k) m) := by
  rw [execute_validate hk hops]
  refine ⟨h.unwinds, h.stacked.only, ?_⟩
  refine (hvalid.holding [v]).andThen fun r hr => ?_
  cases r with
  | ok _ =>
    refine .done fun m' hkept => ?_
    have hnext := continues_next (s := [some v]) hkept h hfull hops ha.symm hr hsl hp hsf
    rw [show m'.withOperands ([some v] ++ ops) = m' by
      rw [← show m'.operands = [some v] ++ ops from hkept.operands.trans hops,
        withOperands_operands]] at hnext
    exact hnext
  | error e =>
    refine .done fun m' hkept => ?_
    rw [reportMismatch_eq hkept.fault]
    exact ⟨only_mismatch _ _ hr, (hkept.fits h).unwinds⟩

include hS

/-- **An instruction with an effect on the top of the stack has it**, or raises an error. -/
theorem lands_effect (heffect : Effect S.tables (⟨a ++ ks, cs, entry⟩ :: L) i a d) :
    Lands S V b live (execute S.program host i m) := by
  have hfull := full_of_effect heffect
  obtain ⟨seg, ops, hops, hseg, hfl⟩ := h.split
  cases heffect with
  | @value k v hk =>
    rw [execute_value hk]
    exact lands_push h hsl hp hsf rfl rfl
      (holds_value (hS.constants v (Array.mem_of_getElem? hk)))
  | @platform k entry hk =>
    rw [execute_platform hk]
    exact lands_push h hsl hp hsf rfl rfl
      (holds_value (hS.platform entry (Array.mem_of_getElem? hk)))
  | @discard k hk =>
    obtain ⟨x, rfl, hx⟩ := holds_one hseg
    obtain ⟨v, rfl, hv⟩ := hx.full hk
    rw [execute_discard hops hfl]
    exact lands_next (t := []) h hfull hops rfl .nil hsl hp hsf
  | reserve n =>
    rw [execute_reserve]
    refine lands_next (s := []) h hfull rfl rfl ?_ hsl hp hsf
    rw [List.forall₂_iff_get]
    exact ⟨by simp, fun i _ _ => by simp [Holds]⟩
  | @readLocal depth slot k l hk hread =>
    obtain ⟨s, x, -, hs, hx, hkx, -, -⟩ := h.stacked.slot hk
    have hlt : s.base + slot.toNat < m.stack.size := by
      simpa using (List.getElem?_eq_some_iff.mp hx).1
    have hcontent : m.slotContent (s.base + slot.toNat) = x := by
      rw [slotContent_eq, hx, Option.getD_some]
    cases x with
    | none =>
      rw [execute_readLocal_none hs hlt hcontent]
      exact ⟨only_unassigned _ _, h.unwinds⟩
    | some v =>
      rw [execute_readLocal_some hs hlt hcontent]
      exact lands_push h hsl hp hsf rfl rfl (hkx.read hread)
  | array =>
    rw [execute_array]
    exact lands_push h hsl hp hsf rfl rfl ⟨[], rfl, by simp⟩
  | @arrayPush k hk =>
    obtain ⟨x, y, rfl, hx, es, rfl, hes⟩ := holds_two hseg
    obtain ⟨v, rfl, hv⟩ := hx.full hk
    rw [execute_arrayPush hops hfl]
    rw [Value.only_array] at hes
    exact lands_next (t := [_]) h hfull hops rfl (.cons (holds_array
      (List.forall_mem_append.mpr ⟨hes, by simpa using hv⟩)) .nil) hsl hp hsf
  | @arrayExtend k hk =>
    obtain ⟨x, y, rfl, hx, es, rfl, hes⟩ := holds_two hseg
    obtain ⟨v, rfl, hv⟩ := hx.full hk
    rw [execute_arrayExtend hops (Nat.le_succ_of_le hfl)]
    have hpopped : Fits S V b (⟨[.array] ++ ks, cs, entry⟩ :: L) live
        (m.withOperands (some (.array es) :: ops)) :=
      h.swap hfull hops rfl (t := [_]) (.cons ⟨es, rfl, hes⟩ .nil) (h.slots.replace (by simp))
        (alongside_withOperands m _)
        (operands_withOperands ..)
    refine ⟨hpopped.unwinds, hpopped.stacked.only, ?_⟩
    refine ((Value.elements_handles hv).bind fun more hmore => .done ?_).holding _
    intro m' hkept
    rw [appendElements_eq (hkept.operands.trans (operands_withOperands ..))]
    rw [Value.only_array] at hes
    exact continues_next (s := [some (.array es)]) (t := [_]) hkept hpopped
      (by simp [Full]) (operands_withOperands ..) rfl (.cons (holds_array
        (List.forall_mem_append.mpr ⟨hes, hmore⟩)) .nil) hsl hp hsf
  | arrayReverse =>
    obtain ⟨x, rfl, es, rfl, hes⟩ := holds_one hseg
    rw [execute_arrayReverse hops]
    exact lands_next (t := [_]) h hfull hops rfl
      (.cons (holds_array (by simpa using hes)) .nil) hsl hp hsf
  | arrayCopy =>
    obtain ⟨x, rfl, hx⟩ := holds_one hseg
    obtain ⟨es, rfl, -⟩ := id hx
    rw [execute_arrayCopy hops]
    exact .safe h hp hsf
  | arrayCut n =>
    obtain ⟨x, rfl, es, rfl, hes⟩ := holds_one hseg
    rw [execute_arrayCut hops hfl]
    rw [Value.only_array] at hes
    exact lands_next (t := [_, _]) h hfull hops rfl
      (.cons (holds_array fun v hv => hes v (List.mem_of_mem_drop hv))
        (.cons (holds_array fun v hv => hes v (List.mem_of_mem_take hv)) .nil))
      hsl hp hsf
  | arrayPop n =>
    obtain ⟨x, rfl, es, rfl, hes⟩ := holds_one hseg
    rw [Value.only_array] at hes
    cases hlast : es.getLast? with
    | none =>
      rw [execute_arrayPop_none hops hlast]
      exact lands_raised h hfull hops rfl [_] (only_missing _ _ (only_of (by simp)))
    | some v =>
      rw [execute_arrayPop_some hops hlast]
      exact lands_next (t := [_, _]) h hfull hops rfl
        (.cons (holds_value (hes v (List.mem_of_getLast? hlast)))
          (.cons (holds_array fun v hv => hes v ((List.dropLast_sublist es).subset hv)) .nil))
        hsl hp hsf
  | object =>
    rw [execute_object]
    exact lands_push h hsl hp hsf rfl rfl ⟨[], rfl, by simp⟩
  | @objectPush k l hk hl =>
    obtain ⟨x, y, z, rfl, hx, hy, xs, rfl, hxs⟩ := holds_three hseg
    obtain ⟨v, rfl, hv⟩ := hx.full hk
    obtain ⟨w, rfl, hw⟩ := hy.full hl
    rw [Value.only_object] at hxs
    by_cases hkey : ∃ key, w = .string key
    · obtain ⟨key, rfl⟩ := hkey
      rw [execute_objectPush hops hfl]
      exact lands_next (t := [_]) h hfull hops rfl
        (.cons (holds_object (hxs.insert key hv)) .nil) hsl hp hsf
    · rw [execute_objectPush_other (fun key heq => hkey ⟨key, heq⟩) hops hfl]
      refine lands_raised h hfull hops rfl [_] (only_of ?_)
      simpa using hw
  | @objectMerge k hk =>
    obtain ⟨x, y, rfl, hx, xs, rfl, hxs⟩ := holds_two hseg
    obtain ⟨v, rfl, hv⟩ := hx.full hk
    rw [Value.only_object] at hxs
    by_cases ho : ∃ os, v = .object os
    · obtain ⟨os, rfl⟩ := ho
      rw [execute_objectMerge hops hfl]
      exact lands_next (t := [_]) h hfull hops rfl
        (.cons (holds_object (hxs.merge (Value.only_object.mp hv))) .nil)
        hsl hp hsf
    · rw [execute_objectMerge_other (fun os heq => ho ⟨os, heq⟩) hops
        (Nat.le_succ_of_le hfl)]
      refine lands_raised h hfull hops rfl [_] (only_of ?_)
      simpa using hv
  | objectCopy =>
    obtain ⟨x, rfl, hx⟩ := holds_one hseg
    obtain ⟨xs, rfl, -⟩ := id hx
    rw [execute_objectCopy hops]
    exact .safe h hp hsf
  | @objectPop k key hk =>
    obtain ⟨x, rfl, xs, rfl, hxs⟩ := holds_one hseg
    rw [Value.only_object] at hxs
    cases hget : Entries.get? xs key with
    | none =>
      rw [execute_objectPop_none hk hops hget]
      exact lands_raised h hfull hops rfl [_] (only_missing _ _ (only_of (by simp)))
    | some v =>
      rw [execute_objectPop_some hk hops hget]
      exact lands_next (t := [_, _]) h hfull hops rfl (.cons (holds_value (hxs.get? hget))
        (.cons (holds_object (hxs.erase key)) .nil)) hsl hp hsf
  | @readUpvalue i n hn hlt =>
    obtain ⟨call, rest, c, hcs, hc, hle⟩ := h.stacked.running hn (by omega)
    have hcell : c.upvalues[i.toNat]? = some (c.upvalues[i.toNat]) :=
      List.getElem?_eq_getElem (by omega)
    cases hread : m.readCell c.upvalues[i.toNat] with
    | none =>
      rw [execute_readUpvalue_none hcs hc hcell hread]
      exact ⟨only_unassigned _ _, h.unwinds⟩
    | some v =>
      rw [execute_readUpvalue_some hcs hc hcell hread]
      exact lands_push h hsl hp hsf rfl rfl (holds_value (h.readCell_only hread))
  | capture slot =>
    obtain ⟨base, targets, outer, hscope, hsc⟩ := h.scope
    rw [execute_capture hscope hsc]
    exact .safe (h.closeSlot hscope slot.toNat) (by rwa [pc_closeSlot]) hsf
  | @index k l hk hl =>
    obtain ⟨x, y, rfl, hx, hy⟩ := holds_two hseg
    obtain ⟨v, rfl, hv⟩ := hx.full hk
    obtain ⟨w, rfl, hw⟩ := hy.full hl
    rw [execute_index hops hfl]
    have hpopped := h.popped hfull hops rfl
    refine ⟨hpopped.unwinds, hpopped.stacked.only, ?_⟩
    refine ((Value.index_handles hw hv).bind fun found hf => .done ?_).holding _
    intro m' hkept
    rw [push_eq, hkept.operands, operands_withOperands]
    exact continues_next (a := []) (s := []) (t := [_]) hkept hpopped nofun
      (operands_withOperands ..) rfl (.cons (holds_value hf) .nil) hsl hp hsf
  | @validate k schema l hk hl =>
    obtain ⟨x, rfl, hx⟩ := holds_one hseg
    obtain ⟨v, rfl, hv⟩ := hx.full hl
    have hschema := hS.constants schema (Array.mem_of_getElem? hk)
    exact lands_validate h hsl hp hsf hfull hk hops rfl
      ((Schema.validate_handles hschema hv).weaken fun _ _ => .cons hx .nil)
  | @validateArray k l hk hl =>
    obtain ⟨x, rfl, hx⟩ := holds_one hseg
    obtain ⟨v, rfl, hv⟩ := hx.full hl
    refine lands_validate h hsl hp hsf hfull hk hops rfl
      (Schema.validate_kind_handles (k := .array) (by decide) hv fun hkind => ?_)
    obtain ⟨es, rfl⟩ := Value.eq_array_of_kind hkind
    exact .cons ⟨es, rfl, hv⟩ .nil
  | @validateObject k l hk hl =>
    obtain ⟨x, rfl, hx⟩ := holds_one hseg
    obtain ⟨v, rfl, hv⟩ := hx.full hl
    refine lands_validate h hsl hp hsf hfull hk hops rfl
      (Schema.validate_kind_handles (k := .object) (by decide) hv fun hkind => ?_)
    obtain ⟨xs, rfl⟩ := Value.eq_object_of_kind hkind
    exact .cons ⟨xs, rfl, hv⟩ .nil

end Effects

/-! ## Variables and scopes -/

section Scopes

variable (hp : Code.At S.functions m.pc code)

include hp

lemma lands_writeLocal (hk : k.Full) {slot}
    (h : Fits S V b (⟨k :: ks, cs, entry⟩ :: L) live m)
    (hs : Layout.place? (⟨ks, cs, entry⟩ :: L) 0 slot.toNat = some .slot)
    (hsf : Safe S.tables code (⟨ks, cs, entry⟩ :: L)) :
    Lands S V b live (execute S.program host (.writeLocal 0 slot) m) := by
  have hfull : ∀ l ∈ [k], l.Full := by simpa using hk
  obtain ⟨seg, ops, hops, hseg, hfl⟩ := Fits.split (a := [k]) h
  obtain ⟨x, rfl, hx⟩ := holds_one hseg
  obtain ⟨v, rfl, hv⟩ := hx.full hk
  have hpopped := Fits.popped (a := [k]) h hfull hops rfl
  obtain ⟨base, targets, outer, hscope, -⟩ := hpopped.scope
  obtain ⟨hlt, hassigned⟩ := hpopped.assign hs hscope hv
  rw [operands_withOperands] at hlt hassigned
  have hzero : m.scopeList[(0 : Word).toNat]? = some ⟨base, targets⟩ := by
    show m.scopeList[0]? = _
    rw [show m.scopeList = ⟨base, targets⟩ :: outer from hscope]
    rfl
  rw [execute_writeLocal hops hfl hzero hlt]
  exact .safe hassigned hp hsf

lemma lands_openScope (h : Fits S V b L live m)
    (hsf : Safe S.tables code (⟨[], [], .block⟩ :: L)) :
    Lands S V b live (execute S.program host (.pushScope 0) m) := by
  rw [execute_pushScope (Nat.zero_le _)]
  have hblock := Stacked.block (s := []) h.stacked .nil .nil
  rw [length_operands] at hblock
  have hopened : Fits S V b (⟨[], [], .block⟩ :: L) live
      (m.withScopeList ({ base := m.stack.size } :: m.scopeList)) :=
    ⟨by rw [scopeList_withScopeList]; exact hblock,
      h.cells.congr rfl, h.slots.level nofun, h.floor, h.depth, h.fault, h.heap⟩
  exact .safe hopened hp hsf

lemma lands_openCall (hk : k.Full)
    (h : Fits S V b (⟨.object :: .array :: k :: ks, cs, entry⟩ :: L) live m)
    (hsf : Safe S.tables code
      (⟨[.object, .array, .value], [], .block⟩ :: ⟨ks, cs, entry⟩ :: L)) :
    Lands S V b live (execute S.program host (.pushScope 3) m) := by
  have hfull : ∀ l ∈ [object, .array, k], l.Full := by simpa [Full] using hk
  obtain ⟨seg, ops, hops, hseg, hfl⟩ := Fits.split (a := [.object, .array, k]) h
  obtain ⟨x, y, z, rfl, hx, hy, hz⟩ := holds_three hseg
  have hb := Fits.popped (a := [.object, .array, k]) h hfull hops rfl
  have hs : m.stack.size = ops.length + 3 := by
    rw [← length_operands, hops]
    rfl
  rw [execute_pushScope (by rw [hs]; show 3 ≤ _; omega)]
  refine .safe ⟨?_, ?_, hb.slots.level (by simp), h.floor, h.depth, h.fault, h.heap⟩ hp hsf
  · have hblock := Stacked.block (s := [x, y, z]) hb.stacked
      (show Forall₂ (Holds S) [.object, .array, .value] _ from .cons hx
        (.cons hy (.cons (hz.full hk) .nil))) .nil
    rw [operands_withOperands] at hblock
    rw [scopeList_withScopeList, hs]
    show Stacked S b _ m.operands _ _ _
    rw [hops]
    exact hblock
  · exact h.cells.replace (a := [.object, .array, k]) rfl (fun hslot => hfull _ hslot) rfl

lemma lands_closeScope (hk : k.Full) {inner}
    (h : Fits S V b (⟨k :: inner, [], .block⟩ :: ⟨ks, cs, entry⟩ :: L) live m)
    (hsf : Safe S.tables code (⟨.value :: ks, cs, entry⟩ :: L)) :
    Lands S V b live (execute S.program host .popScope m) := by
  obtain ⟨seg, ops, hops, hseg, hfl⟩ := Fits.split (a := [k]) h
  obtain ⟨x, rfl, hx⟩ := holds_one hseg
  obtain ⟨v, rfl, hv⟩ := hx.full hk
  obtain ⟨base, targets, outer, hscope, hsc⟩ := h.scope
  rw [execute_popScope hops hfl hscope hsc]
  obtain ⟨seg, below, os, rest, points, outside, hw, hscope', rfl, ho, catching, hstacked⟩ :=
    h.stacked.of_block
  cases catching
  rw [hscope] at hscope'
  obtain ⟨hbase, rfl⟩ := cons.inj hscope'
  obtain ⟨rfl, -⟩ := Scope.mk.inj hbase
  have hcut : ops = seg.tail ++ below := by
    rw [hops] at hw
    cases ho with
    | cons _ _ => exact (cons.inj hw).2
  have hpopped := Fits.popped (a := [k]) h (by simpa using hk) hops rfl
  have hc : Fits S V b (⟨ks, cs, entry⟩ :: L) outside
      (((m.withOperands ops).withScopeList outer).truncate below.length) := by
    have hside : Beside (m.withOperands ops) ((m.withOperands ops).withScopeList outer) :=
      ⟨rfl, rfl, rfl, rfl, rfl⟩
    refine hpopped.truncate hside (nil_append _).symm ((operands_withOperands ..).trans hcut)
      (show _ = inner ++ _ from rfl) h.slots.2 ?_
    rw [scopeList_withScopeList]
    exact hstacked
  exact .safe (hc.pushed hv) hp hsf

end Scopes

/-! ## Catches -/

section Catches

lemma lands_enterCatch {point : Machine} {n guarded}
    (h : Fits S V b (⟨[], cs, .block⟩ :: L) live m)
    (hops : point.operands = m.operands) (hscopeList : point.scopeList = m.scopeList)
    (hcallList : point.callList = m.callList)
    (hd : Instruction.decode S.program.code point.pc = .ok (.enterCatch n))
    (hpc : m.pc = point.pc + (Instruction.enterCatch n).width)
    (hp : At S.functions m.pc (guarded ++ code)) (hn : n.toNat = guarded.width)
    (hsf : Safe S.tables (guarded ++ code) (⟨[], code :: cs, .block⟩ :: L))
    (hcaught : Safe S.tables code (⟨[.value], cs, .block⟩ :: L)) :
    Lands S V b (point :: live) (execute S.program host (.enterCatch n) m) := by
  obtain ⟨base, targets, outer, hscope, hsc⟩ := h.scope
  rw [execute_enterCatch hscope hsc]
  obtain ⟨seg, below, os, rest, points, outside, hw, hscope', rfl, ho, catching, hstacked⟩ :=
    h.stacked.of_block
  cases ho
  rw [hscope] at hscope'
  obtain ⟨hbase, rfl⟩ := cons.inj hscope'
  obtain ⟨rfl, rfl⟩ := Scope.mk.inj hbase
  have hmore : Catching S L below outer m.callList (code :: cs)
      ((m.pc + n.toNat) :: targets) (point :: points) :=
    .cons catching (by rw [hn]; exact hp.skip) hcaught ⟨n, hd, by rw [hpc]⟩
      (hops.trans hw) (hscopeList.trans hscope) hcallList
  have hentered : Fits S V b (⟨[], code :: cs, .block⟩ :: L) (point :: (points ++ outside))
      (m.withScopeList (⟨below.length, (m.pc + n.toNat) :: targets⟩ :: outer)) := by
    refine ⟨?_, h.cells.congr rfl, h.slots, h.floor, h.depth, h.fault, h.heap⟩
    rw [scopeList_withScopeList]
    show Stacked S b _ m.operands _ m.callList _
    rw [hw]
    exact .block (s := []) hstacked .nil hmore
  exact .safe hentered hp hsf

lemma lands_leaveCatch {tgt} (h : Fits S V b (⟨ks, tgt :: cs, entry⟩ :: L) live m)
    (hp : At S.functions m.pc code) (hsf : Safe S.tables code (⟨ks, cs, entry⟩ :: L)) :
    Lands S V b live.tail (execute S.program host .leaveCatch m) := by
  obtain ⟨base, targets, outer, hscope, hsc⟩ := h.scope
  rw [execute_leaveCatch hscope hsc]
  have hstacks := h.stacked
  generalize hoperands : m.operands = whole at hstacks
  generalize hscopeList : m.scopeList = scopes at hstacks
  generalize hcallList : m.callList = calls at hstacks
  cases hstacks with
  | @block _ _ _ seg below _ scopes _ points outside hstacked ho catching =>
    cases catching with
    | @cons _ _ t ts point points os place safe handler hops hpoint hcs =>
      rw [hscope] at hscopeList
      obtain ⟨hbase, rfl⟩ := cons.inj hscopeList
      obtain ⟨rfl, rfl⟩ := Scope.mk.inj hbase
      have hleft : Fits S V b (⟨ks, cs, .block⟩ :: L) (points ++ outside)
          (m.withScopeList (⟨below.length, ts⟩ :: outer)) := by
        refine ⟨?_, h.cells.congr rfl, h.slots, h.floor, h.depth, h.fault, h.heap⟩
        rw [scopeList_withScopeList]
        show Stacked S b _ m.operands _ m.callList _
        rw [hoperands, hcallList]
        exact .block hstacked ho os
      exact .safe hleft hp hsf

end Catches

/-! ## Defaults -/

section Defaults

variable {absent : Code} {n : Word} (hn : n.toNat = absent.width)
  (hp : Code.At S.functions m.pc (absent ++ code))

include hn hp

/-- The default is skipped if there is a value. -/
lemma lands_default (hk : k.Full) (h : Fits S V b (⟨k :: ks, cs, entry⟩ :: L) live m)
    {x y} (hops : m.operands = x :: ops) (hr : Holds S k y)
    (hf : Safe S.tables code (⟨.value :: k :: ks, cs, entry⟩ :: L))
    (hmissing : Safe S.tables (absent ++ code) (⟨k :: ks, cs, entry⟩ :: L)) :
    Lands S V b live (.ok .next (m.withOperands (y :: ops))) ∧ ∀ v, v.Only S.Owns →
      Lands S V b live (.ok .next
        { m.withOperands (some v :: y :: ops) with pc := m.pc + n.toNat }) := by
  have hfull : ∀ l ∈ [k], l.Full := by simpa using hk
  have hput := Fits.swap (a := [k]) (d := [k]) (s := [x]) (t := [y]) h hfull hops rfl
    (.cons hr .nil) h.slots
    (alongside_withOperands m _) (operands_withOperands ..)
  refine ⟨.safe hput hp hmissing, fun v hv => .safe ?_ (by rw [hn]; exact hp.skip) hf⟩
  have hpushed := Fits.pushed hput hv
  rw [operands_withOperands] at hpushed
  exact hpushed.congr ⟨⟨rfl, rfl, rfl, rfl, rfl⟩, rfl, rfl⟩ rfl

lemma lands_arrayPopOrDefault (h : Fits S V b (⟨.array :: ks, cs, entry⟩ :: L) live m)
    (hf : Safe S.tables code (⟨.value :: .array :: ks, cs, entry⟩ :: L))
    (hmissing : Safe S.tables (absent ++ code) (⟨.array :: ks, cs, entry⟩ :: L)) :
    Lands S V b live (execute S.program host (.arrayPopOrDefault n) m) := by
  obtain ⟨seg, ops, hops, hseg, hfl⟩ := Fits.split (a := [.array]) h
  obtain ⟨x, rfl, es, rfl, hes⟩ := holds_one hseg
  rw [Value.only_array] at hes
  have hlands := lands_default (k := .array) hn hp trivial h hops
    (holds_array fun v hv => hes v ((dropLast_sublist es).subset hv)) hf hmissing
  cases hl : es.getLast? with
  | none =>
    rw [execute_arrayPopOrDefault_none hops hl]
    exact hlands.1
  | some v =>
    rw [execute_arrayPopOrDefault_some hops hl]
    exact hlands.2 v (hes v (mem_of_getLast? hl))

lemma lands_objectPopOrDefault {k key}
    (hk : S.tables.constants[k.toNat]? = some (.string key))
    (h : Fits S V b (⟨.object :: ks, cs, entry⟩ :: L) live m)
    (hf : Safe S.tables code (⟨.value :: .object :: ks, cs, entry⟩ :: L))
    (hmissing : Safe S.tables (absent ++ code) (⟨.object :: ks, cs, entry⟩ :: L)) :
    Lands S V b live (execute S.program host (.objectPopOrDefault k n) m) := by
  obtain ⟨seg, ops, hops, hseg, hfl⟩ := Fits.split (a := [.object]) h
  obtain ⟨x, rfl, xs, rfl, hxs⟩ := holds_one hseg
  rw [Value.only_object] at hxs
  have hlands := lands_default (k := .object) hn hp trivial h hops
    (holds_object (hxs.erase key)) hf hmissing
  cases hget : Entries.get? xs key with
  | none =>
    rw [execute_objectPopOrDefault_none hk hops hget]
    exact hlands.1
  | some v =>
    rw [execute_objectPopOrDefault_some hk hops hget]
    exact hlands.2 v (hxs.get? hget)

end Defaults

/-! ## Functions -/

section Functions

variable {index : Nat} {f : CodeFunction} {captures : List Instruction} {c : Closure}

/-- A slot that is captured has a cell. -/
lemma Fits.cellFor (h : Fits S V b L live m) {i}
    (hi : L.contents.reverse[i]? = some .slot) :
    Fits S V b L live (m.cellFor (b.stack.size + i)).2 := by
  unfold Machine.cellFor
  split
  · exact h
  · next hnew =>
    exact ⟨h.stacked, h.cells.insert hi hnew _, h.slots, h.floor, h.depth, h.fault,
      h.heap.addCell _⟩

lemma pc_cellFor (slot) : (m.cellFor slot).2.pc = m.pc := by
  unfold Machine.cellFor
  split <;> rfl

lemma cellFor_withOperands (slot ops) :
    ((m.withOperands ops).cellFor slot).2 = (m.cellFor slot).2.withOperands ops := by
  unfold Machine.cellFor
  rw [show (m.withOperands ops).openCells = m.openCells from rfl]
  cases cellAt? slot m.openCells <;> rfl

section

variable (hp : At S.functions m.pc (captures.map (.plain · none) ++ code))
  (hcaptures : ∀ i ∈ captures, Captures (⟨ks, cs, entry⟩ :: L) i)
  (hsf : Safe S.tables code (⟨.value :: ks, cs, entry⟩ :: L))
  (hf : S.tables.finished[index]? = some f) (hbody : ∀ entry outer, entry ≠ .block →
    Safe S.tables f.body (⟨[.object, .array, .callee f.captures.length], [], entry⟩ :: outer))

include hp hcaptures hsf hf hbody

/-- A closure on top of the stack is under construction or, when all its variables have been
captured, a value. -/
lemma runs_of_capturing (h : Fits S V b (⟨ks, cs, entry⟩ :: L) live (m.withOperands ops))
    (hops : m.operands = some (.closure c) :: ops) (hfresh : m.fresh = some c.id)
    (ht : c.target = offset S.functions (index + 1))
    (hn : c.upvalues.length + captures.length = f.captures.length) :
    Runs S V b live m := by
  cases captures with
  | nil =>
    have howns : S.Owns c := ⟨index, f, hf, ht, Nat.le_of_eq hn.symm, hbody⟩
    have hpushed : Fits S V b (⟨[.value] ++ ks, cs, entry⟩ :: L) live m :=
      Fits.swap (a := []) (s := []) h nofun (operands_withOperands ..) rfl
        (.cons (holds_value (Value.only_closure.mpr howns)) .nil)
        (h.slots.replace (a := []) (by simp))
        ⟨⟨rfl, rfl, rfl, rfl, rfl⟩, rfl, rfl⟩ hops
    exact .safe hpushed hp hsf
  | cons i captures =>
    exact .constructs ⟨h, hops, hfresh, cons_ne_nil _ _, hp, hcaptures, hsf, hf, ht, hn, hbody⟩

lemma lands_makeFunction (h : Fits S V b (⟨ks, cs, entry⟩ :: L) live m) {t}
    (ht : t.toNat = offset S.functions (index + 1)) (hn : captures.length = f.captures.length) :
    Lands S V b live (execute S.program host (.function t) m) := by
  rw [execute_function]
  refine runs_of_capturing hp hcaptures hsf hf hbody ?_ (operands_withOperands ..) rfl ht
    ((Nat.zero_add _).trans hn)
  have hheap : ({ m.heap with nextClosure := m.heap.nextClosure + 1 } : Heap).Only S.Owns :=
    ⟨h.heap.cells, h.heap.streams⟩
  refine ⟨?_, h.cells, h.slots, h.floor, h.depth, h.fault, hheap⟩
  rw [operands_withOperands]
  exact h.stacked

/-- **One more variable is captured.** -/
theorem lands_capture (hi : Captures (⟨ks, cs, entry⟩ :: L) i)
    (h : Fits S V b (⟨ks, cs, entry⟩ :: L) live (m.withOperands ops))
    (hops : m.operands = some (.closure c) :: ops) (hfresh : m.fresh = some c.id)
    (ht : c.target = offset S.functions (index + 1))
    (hcount : c.upvalues.length + (captures.length + 1) = f.captures.length) :
    Lands S V b live (execute S.program host i m) := by
  have hcount' : ∀ cell, (c.upvalues ++ [cell]).length + captures.length
      = f.captures.length := by
    intro cell
    rw [List.length_append, List.length_singleton]
    omega
  have hsl := h.stacked
  rw [operands_withOperands] at hsl
  cases hi with
  | @closure depth slot hslot =>
    obtain ⟨s, x, i, hs, hx, -, hi, hget⟩ := hsl.slot hslot
    have hlt : s.base + slot.toNat < m.stack.size := by
      have := (List.getElem?_eq_some_iff.mp hx).1
      rw [List.length_reverse] at this
      rw [← length_operands, hops, List.length_cons]
      omega
    rw [execute_closure hops hfresh hs hlt, hi]
    refine runs_of_capturing (c := { c with
      upvalues := c.upvalues ++ [(m.cellFor (b.stack.size + i)).1] })
      (by rw [← pc_cellFor (b.stack.size + i)] at hp; exact hp) hcaptures hsf hf hbody ?_
      (operands_withOperands ..) ((fresh_cellFor _).trans hfresh) ht (hcount' _)
    have hcell := h.cellFor hget
    rw [cellFor_withOperands] at hcell
    exact hcell
  | @closureUpvalue upvalue n hn hlt =>
    obtain ⟨call, rest, running, hcs, hc, hle⟩ := hsl.running hn (by omega)
    have hcell : running.upvalues[upvalue.toNat]? = some (running.upvalues[upvalue.toNat]) :=
      List.getElem?_eq_getElem (by omega)
    have hfn : m.operands.reverse[call.base]? = some (some (.closure running)) := by
      rw [hops, List.reverse_cons, List.getElem?_append_left (List.getElem?_eq_some_iff.mp hc).1,
        hc]
    rw [execute_closureUpvalue hops hfresh hcs hfn hcell]
    exact runs_of_capturing (c := { c with
      upvalues := c.upvalues ++ [running.upvalues[upvalue.toNat]] }) hp hcaptures hsf hf hbody h
      (operands_withOperands ..) hfresh ht (hcount' _)

end

end Functions

/-! ## Calls -/

section Calls

lemma lands_call (hh : host.Honest)
    (h : Fits S V b (⟨[.object, .array, .value], [], .block⟩ :: L) live m)
    (hp : At S.functions m.pc code) (hsf : Safe S.tables code (⟨[.value], [], .block⟩ :: L)) :
    Lands S V b live (execute S.program host .call m) := by
  obtain ⟨base, targets, outer, hscope, hsc⟩ := h.scope
  obtain ⟨seg, below, os, rest, points, outside, hw, hscope', rfl, ho, catching, hstacked⟩ :=
    h.stacked.of_block
  cases catching
  rw [hscope] at hscope'
  obtain ⟨hbase, rfl⟩ := cons.inj hscope'
  obtain ⟨rfl, rfl⟩ := Scope.mk.inj hbase
  obtain ⟨x, y, z, rfl, ⟨xs, rfl, hxs⟩, ⟨es, rfl, hes⟩, v, rfl, hv⟩ := holds_three ho
  have hs : ∀ i, m.slotContent (below.length + i)
      = ([some v, some (.array es), some (.object xs)][i]?).getD none := by
    intro i
    rw [slotContent_eq, hw, reverse_append, getElem?_append_right (by simp),
      length_reverse, Nat.add_sub_cancel_left]
    rfl
  have hfn : m.slotContent below.length = some v := hs 0
  by_cases hcl : ∃ c, v = .closure c
  · obtain ⟨c, rfl⟩ := hcl
    rw [execute_call_closure hscope hsc hfn]
    obtain ⟨index, f, hf, ht, hle, hbody⟩ := Value.only_closure.mp hv
    have hcalled :
      Fits S V b (⟨[.object, .array] ++ [.callee f.captures.length], [], .call code⟩ :: L)
        outside ({ m with pc := c.target }.withCallList (⟨below.length,
          some m.pc⟩ :: m.callList)) := by
      refine ⟨?_, ?_, h.slots.2.level (by simp), h.floor, h.depth, h.fault, h.heap⟩
      · rw [callList_withCallList]
        show Stacked S b _ m.operands m.scopeList _ _
        rw [hw, hscope]
        exact .call hstacked (.cons ⟨xs, rfl, hxs⟩ (.cons ⟨es, rfl, hes⟩
          (.cons ⟨_, rfl, hv, fun _ => ⟨c, rfl, hle⟩⟩ .nil))) (.call hp hsf)
      · exact h.cells.replace (a := [.object, .array, .value]) rfl (by simp) rfl
    have hfunction : S.functions[index + 1]? = some f := by
      rw [Parts.functions, getElem?_cons_succ, Array.getElem?_toList, hf]
    refine .safe hcalled ?_ (hbody _ _ fun h => by cases h)
    show At S.functions c.target f.body
    rw [ht]
    exact at_offset hfunction
  · by_cases hnative : ∃ ref, v = .native ref
    · obtain ⟨ref, rfl⟩ := hnative
      rw [execute_call_native hscope hsc hfn (hs 1) (hs 2)]
      cases hn : host.native? ref.code with
      | none => exact ⟨only_of (by simp), h.unwinds⟩
      | some n =>
        refine ⟨h.unwinds, h.stacked.only, ?_⟩
        refine ((hh _ n hn).apply (Value.only_array.mp hes) (Value.only_object.mp hxs)).andThen
          fun r hr => .done ?_
        intro m' hk
        have hm' := hk.fits h
        cases r with
        | error e =>
          rw [finishCall_error hk.fault]
          exact ⟨hr, hm'.unwinds⟩
        | ok w =>
          rw [finishCall_ok hk.fault]
          have hcut : Fits S V b (⟨[], [], .block⟩ :: L) ([] ++ outside)
            (m'.truncate below.length) := by
            refine hm'.truncate ⟨rfl, rfl, rfl, rfl, rfl⟩ (nil_append _).symm
              (hk.operands.trans hw) (show _ = [.object, .array, .value] ++ _ from rfl)
              (h.slots.2.level fun h => by cases h) ?_
            rw [show m'.scopeList = m.scopeList by rw [scopeList, hk.scopes]; rfl,
              show m'.callList = m.callList by rw [callList, hk.calls]; rfl, hscope]
            exact .block (s := []) hstacked .nil .nil
          refine .safe (hcut.pushed hr) ?_ hsf
          show At S.functions m'.pc code
          rw [hk.pc]
          exact hp
    · rw [execute_call_other hscope hsc hfn (fun c heq => hcl ⟨c, heq⟩)
        fun ref heq => hnative ⟨ref, heq⟩]
      refine ⟨only_of ?_, h.unwinds⟩
      simpa using hv

lemma lands_ret (hk : k.Full) (he : entry ≠ .block)
    (h : Fits S V b (⟨k :: ks, [], entry⟩ :: L) live m) :
    Lands S V b live (execute S.program host .ret m) := by
  obtain ⟨seg, ops, hops, hseg, hfl⟩ := Fits.split (a := [k]) h
  obtain ⟨x, rfl, hx⟩ := holds_one hseg
  obtain ⟨v, rfl, hv⟩ := hx.full hk
  obtain ⟨seg, below, outer, rest, ret, hw, hsc, hcs, ho, entered, hstacked⟩ := h.stacked.of_call he
  have hpopped := Fits.popped (a := [k]) h (by simpa using hk) hops rfl
  have hcut : ops = seg.tail ++ below := by
    rw [hops] at hw
    cases ho with
    | cons _ _ => exact (cons.inj hw).2
  have hfloorCalls : m.floor.calls ≤ rest.length := by
    obtain ⟨own, rfl, -⟩ := hstacked.calls_eq
    rw [h.floor, length_append, length_callList]
    show b.calls.size ≤ _
    omega
  have hside : Beside (m.withOperands ops) ((m.withOperands ops).withCallList rest) :=
    ⟨rfl, rfl, rfl, rfl, rfl⟩
  cases entered with
  | host =>
    rw [execute_ret_host hops hfl hfloorCalls hcs]
    generalize hL : ([] : Layout) = L at hstacked
    cases hstacked with
    | block => cases hL
    | call => cases hL
    | base _ =>
      exact ⟨hv, ⟨⟨seg.tail, (m.operands_withOperands ops).trans hcut⟩, ⟨[_], hsc⟩,
        ⟨[], (m.withOperands ops).callList_withCallList b.callList⟩, hpopped.own_cells,
          h.cells.below,
        hpopped.cell_only hside (nil_append _).symm, h.floor, h.depth, h.fault, h.heap⟩⟩
  | @call _ code pc place safe =>
    rw [execute_ret_code hops hfl hfloorCalls hcs]
    let returned := ((m.withOperands ops).withCallList rest).truncate below.length
    have hreturned : Fits S V b (⟨[], [], .block⟩ :: L) ([] ++ live) returned := by
      refine hpopped.truncate hside (nil_append _).symm ((operands_withOperands ..).trans hcut)
        (show _ = ks ++ _ from rfl) (h.slots.2.level nofun) ?_
      rw [callList_withCallList]
      show Stacked S b _ _ m.scopeList _ _
      rw [hsc]
      exact .block (s := []) hstacked .nil .nil
    have hpushed : Fits S V b (⟨[.value] ++ [], [], .block⟩ :: L) ([] ++ live)
        { returned.withOperands (some v :: returned.operands) with pc } :=
      Fits.swap (a := []) (s := []) hreturned nofun rfl rfl (.cons (holds_value hv) .nil)
        (hreturned.slots.replace (a := []) (by simp))
        ⟨⟨rfl, rfl, rfl, rfl, rfl⟩, rfl, rfl⟩ (returned.operands_withOperands _)
    exact .safe hpushed place safe

end Calls

/-! ## The step -/

lemma fits_fetched (h : Fits S V b L live m) (i) : Fits S V b L live (m.fetched i) :=
  h.congr ⟨⟨rfl, rfl, rfl, rfl, rfl⟩, rfl, rfl⟩ rfl

lemma decode_plain {d pc}
    (h : At S.functions pc (.plain i d :: code)) :
    Instruction.decode S.program.code pc = .ok i := decode_at h

/-- An array or object is a value. -/
lemma Fits.forget (h : Fits S V b (⟨k :: ks, cs, entry⟩ :: L) live m)
    (hk : k.Full) : Fits S V b (⟨.value :: ks, cs, entry⟩ :: L) live m := by
  obtain ⟨seg, ops, hops, hseg, -⟩ := Fits.split (a := [k]) h
  obtain ⟨x, rfl, hx⟩ := holds_one hseg
  exact Fits.swap (a := [k]) h (by simpa using hk) hops rfl (d := [.value])
    (.cons (hx.full hk) .nil) (h.slots.replace (a := [k]) (by simp))
    ⟨⟨rfl, rfl, rfl, rfl, rfl⟩, rfl, rfl⟩ hops

/-- **Code that is safe is executed without a fault.** -/
theorem lands_safe (hS : S.Closed) (hh : host.Honest) (hsf : Safe S.tables code L) :
    Fits S V b L live m → At S.functions m.pc code →
    (∀ i, Instruction.decode S.program.code m.pc = .ok i → Reserves V i m) →
    ∃ i, Instruction.decode S.program.code m.pc = .ok i
      ∧ Lands S V b (liveAfter i m live) (execute S.program host i (m.fetched i)) := by
  intro h hp hreserves
  induction hsf with
  | forget hk _ ih => exact ih (h.forget hk) hp
  | @step i d code a c ks cs entry L effect next =>
    refine ⟨i, decode_plain hp, ?_⟩
    have hlive : liveAfter i m live = live := by cases effect <;> rfl
    rw [hlive]
    exact lands_effect hS (fits_fetched h i)
      (h.slots_effect effect (hreserves i (decode_plain hp))) hp.next next effect
  | writeLocal hk hslot next =>
    exact ⟨_, decode_plain hp, lands_writeLocal hp.next hk (fits_fetched h _) hslot next⟩
  | openScope next => exact ⟨_, decode_plain hp, lands_openScope hp.next (fits_fetched h _) next⟩
  | openCall hk next =>
    exact ⟨_, decode_plain hp, lands_openCall hp.next hk (fits_fetched h _) next⟩
  | closeScope hk next =>
    exact ⟨_, decode_plain hp, lands_closeScope hp.next hk (fits_fetched h _) next⟩
  | @makeFunction captures code index f ks cs entry L hf body hcount hcaptures next =>
    refine ⟨_, decode_at hp, ?_⟩
    have hfunction : S.functions[index + 1]? = some f := by
      rw [Parts.functions, getElem?_cons_succ, Array.getElem?_toList, hf]
    have hat := at_offset hfunction
    have hs : offset S.functions (index + 1) < UInt32.size := by
      have hle := hat.le_width
      have hwidth := size_link S.functions
      have := hS.size
      change (link S.functions).code.size < UInt32.size at this
      omega
    refine lands_makeFunction hp.next hcaptures next hf body (fits_fetched h _) ?_ hcount
    rw [offset_eq hfunction, UInt32.toNat_ofNat_of_lt' hs]
  | arrayPopOrDefault hn found missing =>
    exact ⟨_, decode_plain hp, lands_arrayPopOrDefault hn hp.next (fits_fetched h _) found missing⟩
  | objectPopOrDefault hk hn found missing =>
    exact ⟨_, decode_plain hp,
      lands_objectPopOrDefault hn hp.next hk (fits_fetched h _) found missing⟩
  | enterCatch hn next caught =>
    exact ⟨_, decode_plain hp, lands_enterCatch (fits_fetched h _) rfl rfl rfl
      (decode_plain hp) rfl hp.next hn next caught⟩
  | leaveCatch next => exact ⟨_, decode_plain hp, lands_leaveCatch (fits_fetched h _) hp.next next⟩
  | call next => exact ⟨_, decode_plain hp, lands_call hh (fits_fetched h _) hp.next next⟩
  | ret hk he => exact ⟨_, decode_plain hp, lands_ret hk he (fits_fetched h _)⟩

/-- **A machine of a program executes its next instruction without a fault.** -/
theorem Runs.execute (hS : S.Closed) (hh : host.Honest) (h : Runs S V b live m)
    (hreserves : ∀ i, Instruction.decode S.program.code m.pc = .ok i → Reserves V i m) :
    ∃ i, Instruction.decode S.program.code m.pc = .ok i
      ∧ Lands S V b (liveAfter i m live) (execute S.program host i (m.fetched i)) := by
  cases h with
  | safe fits place safe => exact lands_safe hS hh safe fits place hreserves
  | @constructs ks cs entry L captures code ops c index f h =>
    cases captures with
    | nil => exact absurd rfl h.more
    | cons i captures =>
      have hi := h.capturable i mem_cons_self
      have hkeeps : keepsFresh i = true := by cases hi <;> rfl
      have hlive : liveAfter i m live = live := by cases hi <;> rfl
      refine ⟨i, decode_plain h.place, ?_⟩
      rw [hlive]
      have hfresh : (m.fetched i).fresh = some c.id := by rw [fetched, hkeeps, if_pos rfl, h.fresh]
      have hf : Fits S V b (⟨ks, cs, entry⟩ :: L) live ((m.fetched i).withOperands ops) :=
        h.fits.congr ⟨⟨rfl, rfl, rfl, rfl, rfl⟩, rfl, rfl⟩ rfl
      exact lands_capture (At.next h.place) (fun j hj => h.capturable j
        (mem_cons_of_mem _ hj)) h.safe
        h.function h.body hi hf h.operands hfresh h.target
        (by have := h.count; rw [length_cons] at this; omega)

end Machine

end TreeCode
