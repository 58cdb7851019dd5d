import Mathlib.Data.List.Perm.Subperm
import TreeCode.Proofs.Alike

/-!
# Equality of values

Objects are compared from one side: they have equally many properties, and each one of the first is
found in the second. As no key comes twice, that is the same as having equal properties under the
same keys (`Entries.agree_iff`). So equality is equality of what values are without their parts, and
of their parts place by place (`Value.equals_iff`). Its laws follow by induction over the parts.
-/

namespace TreeCode

open Entries Option

namespace Value

variable {u v w : Value} {k : Nat ⊕ String}

/-! ## The parts of a value -/

/-- The element at an index, or the property or detail under a key. -/
def part? : Value → Nat ⊕ String → Option Value
  | .array es, .inl i => es[i]?
  | .object xs, .inr key => Entries.get? xs key
  | .error _ details _, .inr key => Entries.get? details key
  | _, _ => none

/-- The value without its parts, and without a trace. -/
def shell : Value → Value
  | .array _ => .array []
  | .object _ => .object []
  | .error kind _ _ => .error kind [] []
  | v => v

/-- The properties of an object, the details of an error. -/
def properties : Value → Entries Value
  | .object es => es
  | .error _ details _ => details
  | _ => []

/-- A value occurs in another: it is that, or occurs in a part of it. -/
inductive Occurs (u) : Value → Prop where
  | self : Occurs u u
  | inside {v w : Value} {k} (hk : v.part? k = some w) (h : Occurs u w) : Occurs u v

/-- **No object and no error in the value has a key twice**, as befits maps. -/
def Keyed (v : Value) : Prop := ∀ u : Value, u.Occurs v → (keys u.properties).Nodup

/-- **No NaN occurs in the value.** -/
def NaNFree (v : Value) : Prop := ∀ n, (number n).Occurs v → n.isNaN = false

lemma Keyed.part (hv : v.Keyed) (hk : v.part? k = some w) : w.Keyed :=
  fun u hu => hv u (.inside hk hu)

lemma NaNFree.part (hv : v.NaNFree) (hk : v.part? k = some w) : w.NaNFree :=
  fun n hn => hv n (.inside hk hn)

lemma sizeOf_part?_lt (h : v.part? k = some w) : sizeOf w < sizeOf v := by
  cases v <;> cases k <;> simp only [part?, reduceCtorEq] at h
  · have := List.sizeOf_lt_of_mem (List.mem_of_getElem? h)
    simp
    omega
  · have := Entries.sizeOf_get?_lt h
    simp
    omega
  · have := Entries.sizeOf_get?_lt h
    simp
    omega

mutual
/-- **The value with every trace in it erased.** -/
def untraced : Value → Value
  | .array es => .array (untracedAll es)
  | .object xs => .object (untracedEntries xs)
  | .error kind details _ => .error kind (untracedEntries details) []
  | v => v
def untracedAll : List Value → List Value
  | [] => []
  | v :: vs => v.untraced :: untracedAll vs
def untracedEntries : List (String × Value) → List (String × Value)
  | [] => []
  | (key, v) :: rest => (key, v.untraced) :: untracedEntries rest
end

/-! ## Equality part by part -/

/-- The values are equal. -/
def Equal (v w : Value) : Prop := v.equals w = true

lemma equalsAll_iff : ∀ {xs ys}, equalsAll xs ys = true ↔ ∀ i : Nat, Rel Equal xs[i]? ys[i]?
  | [], [] => ⟨fun _ _ => .none, fun _ => rfl⟩
  | [], y :: ys => ⟨nofun, fun h => nomatch h 0⟩
  | x :: xs, [] => ⟨nofun, fun h => nomatch h 0⟩
  | x :: xs, y :: ys => by
    rw [equalsAll, Bool.and_eq_true, equalsAll_iff]
    constructor
    · rintro ⟨hxy, hr⟩ i
      cases i with
      | zero => exact .some hxy
      | succ i => exact hr i
    · intro h
      refine ⟨?_, fun i => h (i + 1)⟩
      cases h 0 with
      | some hxy => exact hxy

lemma equalsWithin_iff {xs ys} : equalsWithin xs ys = true ↔
    ∀ p ∈ xs, ∃ y, Entries.get? ys p.1 = some y ∧ p.2.Equal y := by
  induction xs with
  | nil => simp [equalsWithin]
  | cons p xs ih =>
    obtain ⟨key, x⟩ := p
    rw [equalsWithin_cons, Bool.and_eq_true, ih, List.forall_mem_cons]
    refine and_congr_left fun _ => ?_
    cases Entries.get? ys key <;> simp [Equal]

end Value

namespace Entries

open Value

/-- **Maps are equal when they have equal values under the same keys.** Equally many keys, all of
them found in the other map, are all of its keys. -/
theorem agree_iff {xs ys} (hx : (keys xs).Nodup) (hy : (keys ys).Nodup) :
    (xs.length == ys.length && equalsWithin xs ys) = true ↔
      ∀ key, Rel Equal (get? xs key) (get? ys key) := by
  have hks : ∀ es : Entries Value, (keys es).length = es.length := fun es => List.length_map ..
  rw [Bool.and_eq_true, beq_iff_eq, equalsWithin_iff]
  constructor
  · rintro ⟨hlength, hwithin⟩ key
    have hsubset : keys xs ⊆ keys ys := fun key hkey => by
      obtain ⟨p, hp, rfl⟩ := List.mem_map.mp hkey
      obtain ⟨y, hget, -⟩ := hwithin p hp
      exact List.mem_map.mpr ⟨_, mem_of_get? hget, rfl⟩
    have hperm : (keys xs).Perm (keys ys) := (hx.subperm hsubset).perm_of_length_le
      (Nat.le_of_eq (by rw [hks, hks, hlength]))
    cases hget : get? xs key with
    | some x =>
      obtain ⟨y, hy, hxy⟩ := hwithin _ (mem_of_get? hget)
      exact hy ▸ .some hxy
    | none =>
      have hn : get? ys key = none := by
        rw [← not_isSome_iff_eq_none]
        intro hsome
        have hmem := hperm.mem_iff.mpr (contains_iff_mem_keys.mp hsome)
        rw [← contains_iff_mem_keys, contains, hget] at hmem
        cases hmem
      rw [hn]
      exact .none
  · intro h
    have hmem : ∀ key, key ∈ keys xs ↔ key ∈ keys ys := fun key => by
      have h' := h key
      rw [← contains_iff_mem_keys, ← contains_iff_mem_keys, contains, contains]
      generalize get? xs key = x, get? ys key = y at h'
      cases h' <;> simp
    refine ⟨?_, fun p hp => ?_⟩
    · rw [← hks, ← hks, ((List.perm_ext_iff_of_nodup hx hy).mpr hmem).length_eq]
    · have hrel := h p.1
      rw [get?_of_mem hx hp] at hrel
      generalize get? ys p.1 = y at hrel ⊢
      cases hrel with
      | some hxy => exact ⟨_, rfl, hxy⟩

end Entries

namespace Value

variable {u v w : Value}

/-- **Equality, part by part.** -/
theorem equals_iff (hv : v.Keyed) (hw : w.Keyed) : v.Equal w ↔
    v.shell.Equal w.shell ∧ ∀ k, Rel Equal (v.part? k) (w.part? k) := by
  unfold Equal
  cases v with
  | array xs =>
    cases w with
    | array ys =>
      rw [equals, equalsAll_iff, Sum.forall]
      exact ⟨fun h => ⟨rfl, h, fun _ => .none⟩, fun h => h.2.1⟩
    | _ => exact ⟨(absurd · Bool.false_ne_true), fun h => absurd h.1 Bool.false_ne_true⟩
  | object xs =>
    cases w with
    | object ys =>
      have hx : (keys xs).Nodup := hv _ .self
      have hy : (keys ys).Nodup := hw _ .self
      rw [equals, agree_iff hx hy, Sum.forall]
      exact ⟨fun h => ⟨rfl, fun _ => .none, h⟩, fun h => h.2.2⟩
    | _ => exact ⟨(absurd · Bool.false_ne_true), fun h => absurd h.1 Bool.false_ne_true⟩
  | error kind xs trace =>
    cases w with
    | error kind' ys trace' =>
      have hshell : (shell (.error kind xs trace)).equals (shell (.error kind' ys trace'))
          = (kind == kind') := by simp [shell, equals, equalsWithin]
      have hx : (keys xs).Nodup := hv _ .self
      have hy : (keys ys).Nodup := hw _ .self
      rw [equals, Bool.and_assoc, Bool.and_eq_true, agree_iff hx hy, Sum.forall, hshell]
      exact ⟨fun h => ⟨h.1, fun _ => .none, h.2⟩, fun h => ⟨h.1, h.2.2⟩⟩
    | _ => exact ⟨(absurd · Bool.false_ne_true), fun h => absurd h.1 Bool.false_ne_true⟩
  | _ =>
    cases w <;> first
      | exact ⟨fun h => ⟨h, fun _ => .none⟩, And.left⟩
      | exact ⟨(absurd · Bool.false_ne_true), fun h => absurd h.1 Bool.false_ne_true⟩

/-! ## The laws -/

lemma shell_symm (h : v.shell.Equal w.shell) : w.shell.Equal v.shell := by
  unfold Equal at h ⊢
  cases v <;> cases w <;> first | exact absurd h Bool.false_ne_true | skip
  all_goals simp_all [shell, equals, Number.equals, equalsAll, equalsWithin]

lemma shell_trans (h : u.shell.Equal v.shell) (h' : v.shell.Equal w.shell) :
    u.shell.Equal w.shell := by
  unfold Equal at h h' ⊢
  cases u <;> cases v <;> first | exact absurd h Bool.false_ne_true | skip
  all_goals cases w <;> first | exact absurd h' Bool.false_ne_true | skip
  all_goals simp_all [shell, equals, Number.equals, equalsAll, equalsWithin]

lemma shell_refl (hv : v.NaNFree) : v.shell.Equal v.shell := by
  unfold Equal
  cases v with
  | number n => simp [shell, equals, Number.equals, hv n .self]
  | _ => simp [shell, equals, equalsAll, equalsWithin]

section Rel

variable {R S T : Value → Value → Prop} {x y z : Option Value}

lemma rel_flip (h : Rel R x y) (hS : ∀ a b, x = some a → y = some b → R a b → S b a) :
    Rel S y x := by
  cases h with
  | none => exact .none
  | some h => exact .some (hS _ _ rfl rfl h)

lemma rel_comp (h : Rel R x y) (h' : Rel S y z)
    (hT : ∀ a b c, x = some a → y = some b → z = some c → R a b → S b c → T a c) :
    Rel T x z := by
  cases h with
  | none => cases h'; exact .none
  | some h =>
    cases h' with
    | some h' => exact .some (hT _ _ _ rfl rfl rfl h h')

end Rel

lemma equal_symm {v w : Value} (hv : v.Keyed) (hw : w.Keyed) (h : v.Equal w) : w.Equal v := by
  obtain ⟨hshell, hparts⟩ := (equals_iff hv hw).mp h
  refine (equals_iff hw hv).mpr ⟨shell_symm hshell, fun k => rel_flip (hparts k) ?_⟩
  intro x y hx hy hxy
  exact equal_symm (hv.part hx) (hw.part hy) hxy
termination_by sizeOf v
decreasing_by exact sizeOf_part?_lt hx

lemma equal_trans {u v w : Value} (hu : u.Keyed) (hv : v.Keyed) (hw : w.Keyed) (h : u.Equal v)
    (h' : v.Equal w) :
    u.Equal w := by
  obtain ⟨hshell, hparts⟩ := (equals_iff hu hv).mp h
  obtain ⟨hshell', hparts'⟩ := (equals_iff hv hw).mp h'
  refine (equals_iff hu hw).mpr ⟨shell_trans hshell hshell', fun k =>
    rel_comp (hparts k) (hparts' k) ?_⟩
  intro x y z hx hy hz hxy hyz
  exact equal_trans (hu.part hx) (hv.part hy) (hw.part hz) hxy hyz
termination_by sizeOf u
decreasing_by exact sizeOf_part?_lt hx

lemma equal_refl {v : Value} (hv : v.Keyed) (hn : v.NaNFree) : v.Equal v := by
  refine (equals_iff hv hv).mpr ⟨shell_refl hn, fun k => ?_⟩
  cases hx : v.part? k with
  | none => exact .none
  | some x => exact .some (equal_refl (hv.part hx) (hn.part hx))
termination_by sizeOf v
decreasing_by exact sizeOf_part?_lt hx

/-! ## Traces -/

lemma length_untracedEntries (es : Entries Value) : (untracedEntries es).length = es.length := by
  induction es with
  | nil => rw [untracedEntries]
  | cons p rest ih => rw [untracedEntries, List.length_cons, ih, List.length_cons]

lemma get?_untracedEntries (es key) :
    Entries.get? (untracedEntries es) key = (Entries.get? es key).map untraced := by
  induction es with
  | nil => rw [untracedEntries]; rfl
  | cons p rest ih =>
    rw [untracedEntries, Entries.get?, Entries.get?, ih]
    split <;> rfl

mutual
/-- Equality does not see traces. -/
lemma equals_untraced : ∀ v w : Value, v.untraced.equals w.untraced = v.equals w
  | .array xs, w => by
    cases w with
    | array ys => simp only [untraced, equals, equalsAll_untraced xs ys]
    | _ => simp [untraced, equals]
  | .object xs, w => by
    cases w with
    | object ys => simp only [untraced, equals, length_untracedEntries, equalsWithin_untraced xs ys]
    | _ => simp [untraced, equals]
  | .error kind xs _, w => by
    cases w with
    | error _ ys => simp only [untraced, equals, length_untracedEntries,
        equalsWithin_untraced xs ys]
    | _ => simp [untraced, equals]
  | .null, w | .boolean _, w | .number _, w | .string _, w | .closure _, w | .native _, w
  | .stream _, w => by cases w <;> simp [untraced, equals]
lemma equalsAll_untraced : ∀ xs ys : List Value,
    equalsAll (untracedAll xs) (untracedAll ys) = equalsAll xs ys
  | [], [] | [], _ :: _ | _ :: _, [] => by simp [untracedAll, equalsAll]
  | x :: xs, y :: ys => by
    simp only [untracedAll, equalsAll, equals_untraced x y, equalsAll_untraced xs ys]
lemma equalsWithin_untraced : ∀ xs ys : List (String × Value),
    equalsWithin (untracedEntries xs) (untracedEntries ys) = equalsWithin xs ys
  | [], ys => by simp [untracedEntries, equalsWithin]
  | (key, x) :: xs, ys => by
    rw [untracedEntries, equalsWithin_cons, equalsWithin_cons, get?_untracedEntries,
      equalsWithin_untraced xs ys]
    cases Entries.get? ys key with
    | none => rfl
    | some y => rw [map_some]; dsimp only; rw [equals_untraced x y]
end

/-- **Equality is an equivalence**, but for NaN. It is symmetric and transitive on values without
repeated keys, and reflexive on those in which no NaN occurs. Objects, and the details of errors of
one kind, are equal if and only if each key is in both, with equal values, or in neither. Traces do
not matter, however deep in a value. -/
theorem equality_laws : (∀ v w : Value, v.Keyed → w.Keyed → v.equals w = w.equals v)
    ∧ (∀ u v w : Value, u.Keyed → v.Keyed → w.Keyed →
        u.equals v = true → v.equals w = true → u.equals w = true)
    ∧ (∀ v : Value, v.Keyed → v.NaNFree → v.equals v = true)
    ∧ (∀ xs ys, (object xs).Keyed → (object ys).Keyed → ((object xs).equals (.object ys) = true ↔
        ∀ key, Option.Rel (·.equals · = true) (Entries.get? xs key) (Entries.get? ys key)))
    ∧ (∀ kind kind' xs ys trace trace', (error kind xs trace).Keyed →
      (error kind' ys trace').Keyed →
        ((error kind xs trace).equals (.error kind' ys trace') = true ↔ kind = kind' ∧
          ∀ key, Option.Rel (·.equals · = true) (Entries.get? xs key) (Entries.get? ys key)))
    ∧ ∀ v w : Value, v.untraced.equals w.untraced = v.equals w := by
  refine ⟨fun v w hv hw => ?_, fun u v w => equal_trans, fun v => equal_refl,
    fun xs ys hx hy => ?_, fun kind kind' xs ys _ _ hx hy => ?_, equals_untraced⟩
  · rw [Bool.eq_iff_iff]
    exact ⟨equal_symm hv hw, equal_symm hw hv⟩
  · rw [equals]
    exact agree_iff (hx _ .self) (hy _ .self)
  · rw [equals, Bool.and_assoc, Bool.and_eq_true, beq_iff_eq]
    exact and_congr_right fun _ => agree_iff (hx _ .self) (hy _ .self)

lemma keyed_object {xs} (h : (keys xs).Nodup) (hxs : ∀ p ∈ xs, p.2.Keyed) :
    (object xs).Keyed := by
  intro u hu
  cases hu with
  | self => exact h
  | @inside _ w k hk hu =>
    cases k with
    | inl i => cases hk
    | inr key => exact hxs _ (mem_of_get? hk) u hu

theorem equality_laws_reordered :
    (object [("a", .null), ("b", .object [])]).equals (.object [("b", .object []), ("a", .null)])
    = (object [("b", .object []), ("a", .null)]).equals (.object [("a", .null),
      ("b", .object [])]) := by
  have hnull : Keyed .null := fun u hu => by
    cases hu with
    | self => exact List.nodup_nil
    | inside hk _ => cases hk
  have hempty : Keyed (.object []) := keyed_object List.nodup_nil (List.forall_mem_nil _)
  refine equality_laws.1 _ _ (keyed_object (by decide) ?_) (keyed_object (by decide) ?_)
  · simp [hnull, hempty]
  · simp [hnull, hempty]

end Value

end TreeCode
