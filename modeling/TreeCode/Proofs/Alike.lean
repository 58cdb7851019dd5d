import Mathlib.Data.List.Forall2
import TreeCode.Stream

/-!
# Values that differ in their functions only

Nothing outside the machine looks into a closure: it has an identity and a name, and it can be
called. So values that are alike, the same but for functions that correspond, lead to alike results
wherever no function is called. `Likeness` is the correspondence of functions; on the diagonal,
where a closure corresponds to itself if it has a property, `Alike` says that every closure inside a
value has the property (`Value.alike_diagonal`).

`Job.Alike` is the same for the work of the host, which holds alike values and makes alike requests,
all of them among those that the likeness allows.
-/

namespace TreeCode

open Value List Mismatch

/-- **A correspondence of closures**, which have the same identity and name, and of functions of the
host, which equality tells apart alike. Streams correspond to themselves, as far as there are
any. -/
structure Likeness where
  closures : Closure → Closure → Prop
  natives : NativeRef → NativeRef → Prop
  streams : Prop
  /-- The requests that a job may make. -/
  requests : Request → Prop
  same : ∀ {c d}, closures c d → c.id = d.id ∧ c.name = d.name
  told : ∀ {a b c d}, natives a b → natives c d →
    (native a).equals (.native c) = (native b).equals (.native d)

namespace Value

variable (r : Likeness)

mutual
/-- **Values that are the same but for functions that correspond.** -/
def Alike : Value → Value → Prop
  | .null, w => w = .null
  | .boolean b, w => w = .boolean b
  | .number n, w => w = .number n
  | .string s, w => w = .string s
  | .array xs, w => ∃ ys, w = .array ys ∧ AlikeAll xs ys
  | .object xs, w => ∃ ys, w = .object ys ∧ AlikeEntries xs ys
  | .closure c, w => ∃ d, w = .closure d ∧ r.closures c d
  | .native a, w => ∃ b, w = .native b ∧ r.natives a b
  | .error kind xs trace, w => ∃ ys, w = .error kind ys trace ∧ AlikeEntries xs ys
  | .stream id, w => w = .stream id ∧ r.streams
def AlikeAll : List Value → List Value → Prop
  | [], ys => ys = []
  | x :: xs, ys => ∃ y rest, ys = y :: rest ∧ Alike x y ∧ AlikeAll xs rest
def AlikeEntries : List (String × Value) → List (String × Value) → Prop
  | [], ys => ys = []
  | (key, x) :: xs, ys => ∃ y rest, ys = (key, y) :: rest ∧ Alike x y ∧ AlikeEntries xs rest
end

end Value

namespace Likeness

variable (r : Likeness)

/-- Lists of alike values. -/
abbrev All (xs ys : List Value) : Prop := Forall₂ (Alike r) xs ys

/-- Pairs of one key and alike values. -/
def Pair (x y : String × Value) : Prop := x.1 = y.1 ∧ x.2.Alike r y.2

/-- Maps with the same keys and alike values. -/
abbrev Entries (xs ys : Entries Value) : Prop := Forall₂ r.Pair xs ys

/-- Errors of one kind with alike details, raised on the same way. -/
structure Error (e f : ErrorValue) : Prop where
  kind : e.kind = f.kind
  details : r.Entries e.details f.details
  trace : e.trace = f.trace

end Likeness

variable {w v : Value}

namespace Value

variable {r : Likeness}

lemma alikeAll_iff : ∀ {xs ys}, AlikeAll r xs ys ↔ r.All xs ys
  | [], ys => by rw [AlikeAll, Likeness.All, forall₂_nil_left_iff]
  | x :: xs, ys => by
    rw [AlikeAll, Likeness.All, forall₂_cons_left_iff]
    constructor
    · rintro ⟨y, rest, rfl, hxy, hr⟩
      exact ⟨y, rest, hxy, alikeAll_iff.mp hr, rfl⟩
    · rintro ⟨y, rest, hxy, hr, rfl⟩
      exact ⟨y, rest, rfl, hxy, alikeAll_iff.mpr hr⟩

lemma alikeEntries_iff : ∀ {xs ys}, AlikeEntries r xs ys ↔ r.Entries xs ys
  | [], ys => by rw [AlikeEntries, Likeness.Entries, forall₂_nil_left_iff]
  | (key, x) :: xs, ys => by
    rw [AlikeEntries, Likeness.Entries, forall₂_cons_left_iff]
    constructor
    · rintro ⟨y, rest, rfl, hxy, hr⟩
      exact ⟨(key, y), rest, ⟨rfl, hxy⟩, alikeEntries_iff.mp hr, rfl⟩
    · rintro ⟨⟨key', y⟩, rest, ⟨hkey, hxy⟩, hr, rfl⟩
      cases hkey
      exact ⟨y, rest, rfl, hxy, alikeEntries_iff.mpr hr⟩

variable {xs : Entries Value}

section Forms

@[simp]
lemma alike_null : Alike r .null w ↔ w = .null := Iff.rfl

@[simp]
lemma alike_boolean {b} : Alike r (.boolean b) w ↔ w = .boolean b := Iff.rfl

@[simp]
lemma alike_number {n} : Alike r (.number n) w ↔ w = .number n := Iff.rfl

@[simp]
lemma alike_string {s} : Alike r (.string s) w ↔ w = .string s := Iff.rfl

@[simp]
lemma alike_native {a} :
    Alike r (.native a) w ↔ ∃ b, w = .native b ∧ r.natives a b := Iff.rfl

@[simp]
lemma alike_stream {id} : Alike r (.stream id) w ↔ w = .stream id ∧ r.streams := Iff.rfl

@[simp]
lemma alike_closure {c} :
    Alike r (.closure c) w ↔ ∃ d, w = .closure d ∧ r.closures c d := Iff.rfl

@[simp]
lemma alike_array {xs} :
    Alike r (.array xs) w ↔ ∃ ys, w = .array ys ∧ r.All xs ys :=
  exists_congr fun _ => and_congr_right' alikeAll_iff

@[simp]
lemma alike_object : Alike r (.object xs) w ↔ ∃ ys, w = .object ys ∧ r.Entries xs ys :=
  exists_congr fun _ => and_congr_right' alikeEntries_iff

@[simp]
lemma alike_error {kind trace} :
    Alike r (.error kind xs trace) w ↔ ∃ ys, w = .error kind ys trace ∧ r.Entries xs ys :=
  exists_congr fun _ => and_congr_right' alikeEntries_iff

end Forms

lemma Alike.array {xs ys} (h : r.All xs ys) : Alike r (.array xs) (.array ys) :=
  alike_array.mpr ⟨ys, rfl, h⟩

lemma Alike.object {ys} (h : r.Entries xs ys) :
    Alike r (.object xs) (.object ys) :=
  alike_object.mpr ⟨ys, rfl, h⟩

lemma Alike.toValue {e f} (h : r.Error e f) : Alike r e.toValue f.toValue := by
  rw [ErrorValue.toValue, ErrorValue.toValue, ← h.kind, ← h.trace]
  exact alike_error.mpr ⟨_, rfl, h.details⟩

/-- Alike values have one form. -/
inductive Form (r : Likeness) : Value → Value → Prop where
  | null : Form r .null .null
  | boolean (b) : Form r (.boolean b) (.boolean b)
  | number (n) : Form r (.number n) (.number n)
  | string (s) : Form r (.string s) (.string s)
  | array {xs ys} (h : r.All xs ys) : Form r (.array xs) (.array ys)
  | object {xs ys} (h : r.Entries xs ys) : Form r (.object xs) (.object ys)
  | closure {c d} (h : r.closures c d) : Form r (.closure c) (.closure d)
  | native {a b} (h : r.natives a b) : Form r (.native a) (.native b)
  | error {xs ys} (kind trace) (h : r.Entries xs ys) :
      Form r (.error kind xs trace) (.error kind ys trace)
  | stream (id) (h : r.streams) : Form r (.stream id) (.stream id)

variable (h : Alike r v w)

include h

lemma Alike.form : Form r v w := by
  cases v with
  | null => obtain rfl := alike_null.mp h; exact .null
  | boolean b => obtain rfl := alike_boolean.mp h; exact .boolean b
  | number n => obtain rfl := alike_number.mp h; exact .number n
  | string s => obtain rfl := alike_string.mp h; exact .string s
  | array xs => obtain ⟨ys, rfl, hall⟩ := alike_array.mp h; exact .array hall
  | object xs => obtain ⟨ys, rfl, hall⟩ := alike_object.mp h; exact .object hall
  | closure c => obtain ⟨d, rfl, hcd⟩ := alike_closure.mp h; exact .closure hcd
  | native a => obtain ⟨b, rfl, hab⟩ := alike_native.mp h; exact .native hab
  | error kind xs trace => obtain ⟨ys, rfl, hall⟩ := alike_error.mp h; exact .error kind trace hall
  | stream id => obtain ⟨rfl, hstreams⟩ := alike_stream.mp h; exact .stream id hstreams

lemma Alike.kind_eq : w.kind = v.kind := by cases h.form <;> rfl

lemma Alike.asNumber?_eq : w.asNumber? = v.asNumber? := by cases h.form <;> rfl

lemma Alike.asString?_eq : w.asString? = v.asString? := by cases h.form <;> rfl

/-- Alike values are both arrays or neither is. -/
lemma Alike.array_cases : (∃ xs ys, v = .array xs ∧ w = .array ys ∧ r.All xs ys)
      ∨ (∀ xs, v ≠ .array xs) ∧ ∀ ys, w ≠ .array ys := by
  cases h.form with
  | array hall => exact .inl ⟨_, _, rfl, rfl, hall⟩
  | _ => exact .inr ⟨nofun, nofun⟩

/-- Alike values are both objects or neither is. -/
lemma Alike.object_cases : (∃ xs ys, v = .object xs ∧ w = .object ys ∧ r.Entries xs ys)
      ∨ (∀ xs, v ≠ .object xs) ∧ ∀ ys, w ≠ .object ys := by
  cases h.form with
  | object hall => exact .inl ⟨_, _, rfl, rfl, hall⟩
  | _ => exact .inr ⟨nofun, nofun⟩

lemma Alike.isSequence_eq : w.isSequence = v.isSequence := by
  rw [isSequence, isSequence, h.kind_eq]

end Value

/-! ## Maps -/

namespace Likeness

variable {r : Likeness} {xs ys : TreeCode.Entries Value}

variable (h : r.Entries xs ys)

include h

/-- What alike maps have under a key. -/
lemma Entries.get? (key) :
    Option.Rel (Alike r) (TreeCode.Entries.get? xs key) (TreeCode.Entries.get? ys key) := by
  induction h with
  | nil => exact .none
  | @cons x y xs ys hxy _ ih =>
    rw [TreeCode.Entries.get?, TreeCode.Entries.get?, ← hxy.1]
    split
    · exact .some hxy.2
    · exact ih

lemma Entries.contains_eq (key) :
    TreeCode.Entries.contains xs key = TreeCode.Entries.contains ys key := by
  rw [TreeCode.Entries.contains, TreeCode.Entries.contains]
  have hget := h.get? key
  generalize TreeCode.Entries.get? xs key = x, TreeCode.Entries.get? ys key = y at hget
  cases hget <;> rfl

lemma Entries.insert (key) (hvw : v.Alike r w) :
    r.Entries (TreeCode.Entries.insert xs key v) (TreeCode.Entries.insert ys key w) := by
  induction h with
  | nil => exact .cons ⟨rfl, hvw⟩ .nil
  | @cons x y xs ys hxy hr ih =>
    rw [TreeCode.Entries.insert, TreeCode.Entries.insert, ← hxy.1]
    split
    · exact .cons ⟨rfl, hvw⟩ hr
    · exact .cons ⟨rfl, hxy.2⟩ ih

lemma Entries.erase (key) :
    r.Entries (TreeCode.Entries.erase xs key) (TreeCode.Entries.erase ys key) := by
  induction h with
  | nil => exact .nil
  | @cons x y xs ys hxy hr ih =>
    rw [TreeCode.Entries.erase, TreeCode.Entries.erase, ← hxy.1]
    split
    · exact hr
    · exact .cons ⟨rfl, hxy.2⟩ ih

lemma Entries.filter_keys (keep : String → Bool) :
    r.Entries (xs.filter fun (key, _) => keep key) (ys.filter fun (key, _) => keep key) := by
  induction h with
  | nil => exact .nil
  | @cons x y xs ys hxy _ ih =>
    obtain ⟨key, x⟩ := x
    obtain ⟨key', y⟩ := y
    obtain ⟨rfl, hxy⟩ := hxy
    rw [filter_cons, filter_cons]
    dsimp only
    split
    · exact .cons ⟨rfl, hxy⟩ ih
    · exact ih

lemma Entries.merge {more os} (hmore : r.Entries more os) :
    r.Entries (TreeCode.Entries.merge xs more) (TreeCode.Entries.merge ys os) := by
  induction hmore generalizing xs ys with
  | nil => exact h
  | @cons x y more os hxy _ ih =>
    rw [TreeCode.Entries.merge, TreeCode.Entries.merge, foldl_cons, foldl_cons, ← hxy.1]
    exact ih (h.insert x.1 hxy.2)

lemma Entries.values :
    r.All (TreeCode.Entries.values xs) (TreeCode.Entries.values ys) := by
  induction h with
  | nil => exact .nil
  | cons hxy _ ih => exact .cons hxy.2 ih

end Likeness

/-! ## Equality -/

namespace Value

variable {r : Likeness}

lemma equalsWithin_cons (key) (x : Value) (xs ys) :
    equalsWithin ((key, x) :: xs) ys = ((match Entries.get? ys key with
      | some y => x.equals y
      | none => false) && equalsWithin xs ys) := by
  cases hget : Entries.get? ys key <;> simp only [equalsWithin, hget]

lemma Alike.ctorIdx_eq (h : Alike r v w) : w.ctorIdx = v.ctorIdx := by cases h.form <;> rfl

/-- Values of different forms are not equal. -/
lemma equals_of_form_ne (h : v.ctorIdx ≠ w.ctorIdx) : v.equals w = false := by
  cases v <;> cases w <;> first | exact absurd rfl h | rfl

lemma equals_eq_of_form_ne {v' w'} (hv : Alike r v v') (hw : Alike r w w')
    (h : v.ctorIdx ≠ w.ctorIdx) : v.equals w = v'.equals w' := by
  rw [equals_of_form_ne h, equals_of_form_ne (by rwa [hv.ctorIdx_eq, hw.ctorIdx_eq])]

mutual
/-- **Equality does not tell alike values apart.** -/
theorem Alike.equals_eq : ∀ (v : Value) {w v' w'}, Alike r v v' → Alike r w w' →
    v.equals w = v'.equals w'
  | .array xs, w, v', w', hv, hw => by
    cases w with
    | array ys =>
      obtain ⟨xs', rfl, hxs⟩ := alike_array.mp hv
      obtain ⟨ys', rfl, hys⟩ := alike_array.mp hw
      rw [equals, equals]
      exact equalsAll_eq xs hxs hys
    | _ => exact equals_eq_of_form_ne hv hw nofun
  | .object xs, w, v', w', hv, hw => by
    cases w with
    | object ys =>
      obtain ⟨xs', rfl, hxs⟩ := alike_object.mp hv
      obtain ⟨ys', rfl, hys⟩ := alike_object.mp hw
      rw [equals, equals, hxs.length_eq, hys.length_eq, equalsWithin_eq xs hxs hys]
    | _ => exact equals_eq_of_form_ne hv hw nofun
  | .error kind xs trace, w, v', w', hv, hw => by
    cases w with
    | error kind' ys trace' =>
      obtain ⟨xs', rfl, hxs⟩ := alike_error.mp hv
      obtain ⟨ys', rfl, hys⟩ := alike_error.mp hw
      rw [equals, equals, hxs.length_eq, hys.length_eq, equalsWithin_eq xs hxs hys]
    | _ => exact equals_eq_of_form_ne hv hw nofun
  | .closure c, w, v', w', hv, hw => by
    cases w with
    | closure d =>
      obtain ⟨c', rfl, hc⟩ := alike_closure.mp hv
      obtain ⟨d', rfl, hd⟩ := alike_closure.mp hw
      rw [equals, equals, (r.same hc).1, (r.same hd).1]
    | _ => exact equals_eq_of_form_ne hv hw nofun
  | .null, w, v', w', hv, hw => by
    cases w with
    | null => rw [alike_null.mp hv, alike_null.mp hw]
    | _ => exact equals_eq_of_form_ne hv hw nofun
  | .boolean b, w, v', w', hv, hw => by
    cases w with
    | boolean c => rw [alike_boolean.mp hv, alike_boolean.mp hw]
    | _ => exact equals_eq_of_form_ne hv hw nofun
  | .number n, w, v', w', hv, hw => by
    cases w with
    | number k => rw [alike_number.mp hv, alike_number.mp hw]
    | _ => exact equals_eq_of_form_ne hv hw nofun
  | .string s, w, v', w', hv, hw => by
    cases w with
    | string t => rw [alike_string.mp hv, alike_string.mp hw]
    | _ => exact equals_eq_of_form_ne hv hw nofun
  | .native ref, w, v', w', hv, hw => by
    cases w with
    | native other =>
      obtain ⟨a, rfl, ha⟩ := alike_native.mp hv
      obtain ⟨b, rfl, hb⟩ := alike_native.mp hw
      exact r.told ha hb
    | _ => exact equals_eq_of_form_ne hv hw nofun
  | .stream id, w, v', w', hv, hw => by
    cases w with
    | stream other => rw [(alike_stream.mp hv).1, (alike_stream.mp hw).1]
    | _ => exact equals_eq_of_form_ne hv hw nofun

lemma equalsAll_eq : ∀ xs {ys xs' ys'}, r.All xs xs' → r.All ys ys' →
    equalsAll xs ys = equalsAll xs' ys'
  | [], ys, xs', ys', hxs, hys => by
    rw [forall₂_nil_left_iff.mp hxs]
    cases hys with
    | nil => rfl
    | cons _ _ => rfl
  | x :: xs, ys, xs', ys', hxs, hys => by
    obtain ⟨x', rest, hx, hr, rfl⟩ := forall₂_cons_left_iff.mp hxs
    cases hys with
    | nil => rfl
    | cons hy hys => rw [equalsAll, equalsAll, Alike.equals_eq x hx hy, equalsAll_eq xs hr hys]

lemma equalsWithin_eq : ∀ xs {ys xs' ys'},
    r.Entries xs xs' → r.Entries ys ys' → equalsWithin xs ys = equalsWithin xs' ys'
  | [], ys, xs', ys', hxs, hys => by rw [forall₂_nil_left_iff.mp hxs, equalsWithin, equalsWithin]
  | (key, x) :: xs, ys, xs', ys', hxs, hys => by
    obtain ⟨⟨key', x'⟩, rest, ⟨hkey, hx⟩, hr, rfl⟩ := forall₂_cons_left_iff.mp hxs
    cases hkey
    have hget := hys.get? key
    rw [equalsWithin_cons, equalsWithin_cons, equalsWithin_eq xs hr hys]
    generalize Entries.get? ys key = y, Entries.get? ys' key = y' at hget
    cases hget with
    | none => rfl
    | some hy => dsimp only; rw [Alike.equals_eq x hx hy]
end

/-! ## Data -/

mutual
/-- Plain data is alike to itself. -/
lemma alike_of_isData : ∀ v, v.isData = true → Alike r v v
  | .null, _ | .boolean _, _ | .number _, _ | .string _, _ => by simp
  | .array xs, h => by
    rw [isData] at h
    exact .array (all_of_allData xs h)
  | .object xs, h => by
    rw [isData] at h
    exact .object (entries_of_allData xs h)
  | .closure _, h | .native _, h | .error _ _ _, h | .stream _, h => by simp [isData] at h
lemma all_of_allData : ∀ xs, allData xs = true → r.All xs xs
  | [], _ => .nil
  | x :: xs, h => by
    rw [allData, Bool.and_eq_true] at h
    exact .cons (alike_of_isData x h.1) (all_of_allData xs h.2)
lemma entries_of_allData : ∀ xs : List (String × Value), allEntriesData xs = true →
    r.Entries xs xs
  | [], _ => .nil
  | (key, x) :: xs, h => by
    rw [allEntriesData, Bool.and_eq_true] at h
    exact .cons ⟨rfl, alike_of_isData x h.1⟩ (entries_of_allData xs h.2)
end

lemma alike_ofNat (n) : Alike r (.ofNat n) (.ofNat n) := alike_number.mpr rfl

end Value

/-! ## The diagonal -/

mutual
/-- **The closures inside a value.** -/
def Value.closures : Value → List Closure
  | .null | .boolean _ | .number _ | .string _ | .native _ | .stream _ => []
  | .array xs => closuresOfAll xs
  | .object xs => closuresOfEntries xs
  | .closure c => [c]
  | .error _ xs _ => closuresOfEntries xs
def closuresOfAll : List Value → List Closure
  | [] => []
  | x :: xs => x.closures ++ closuresOfAll xs
def closuresOfEntries : List (String × Value) → List Closure
  | [] => []
  | (_, x) :: xs => x.closures ++ closuresOfEntries xs
end

/-- Every closure inside a value has a property. -/
def Value.Only (P : Closure → Prop) (v : Value) : Prop := ∀ c ∈ v.closures, P c

/-- A closure with a property corresponds to itself. -/
def Likeness.diagonal (P : Closure → Prop) : Likeness where
  closures c d := c = d ∧ P c
  natives := Eq
  streams := True
  requests _ := True
  same := by
    rintro c d ⟨rfl, -⟩
    exact ⟨rfl, rfl⟩
  told := by
    rintro a b c d rfl rfl
    rfl

section Diagonal

variable {P : Closure → Prop}

mutual
/-- **On the diagonal** a value is alike to itself only, if its closures have the property. -/
theorem Value.alike_diagonal : ∀ {v w : Value}, v.Alike (.diagonal P) w ↔ v = w ∧ v.Only P
  | .null, w => by simp [Only, closures, eq_comm]
  | .boolean _, w => by simp [Only, closures, eq_comm]
  | .number _, w => by simp [Only, closures, eq_comm]
  | .string _, w => by simp [Only, closures, eq_comm]
  | .native _, w => by simp [Only, closures, eq_comm, Likeness.diagonal]
  | .stream _, w => by simp [Only, closures, eq_comm, Likeness.diagonal]
  | .closure c, w => by
    simp only [alike_closure, Likeness.diagonal, Only, closures, mem_singleton, forall_eq]
    constructor
    · rintro ⟨d, rfl, rfl, h⟩
      exact ⟨rfl, h⟩
    · rintro ⟨rfl, h⟩
      exact ⟨c, rfl, rfl, h⟩
  | .array xs, w => by
    simp only [alike_array, Only, closures, all_diagonal xs]
    constructor
    · rintro ⟨ys, rfl, rfl, h⟩
      exact ⟨rfl, h⟩
    · rintro ⟨rfl, h⟩
      exact ⟨xs, rfl, rfl, h⟩
  | .object xs, w => by
    simp only [alike_object, Only, closures, entries_diagonal xs]
    constructor
    · rintro ⟨ys, rfl, rfl, h⟩
      exact ⟨rfl, h⟩
    · rintro ⟨rfl, h⟩
      exact ⟨xs, rfl, rfl, h⟩
  | .error kind xs trace, w => by
    simp only [alike_error, Only, closures, entries_diagonal xs]
    constructor
    · rintro ⟨ys, rfl, rfl, h⟩
      exact ⟨rfl, h⟩
    · rintro ⟨rfl, h⟩
      exact ⟨xs, rfl, rfl, h⟩
lemma all_diagonal : ∀ xs {ys},
    (Likeness.diagonal P).All xs ys ↔ xs = ys ∧ ∀ c ∈ closuresOfAll xs, P c
  | [], ys => by simp [Likeness.All, closuresOfAll, eq_comm]
  | x :: xs, ys => by
    rw [Likeness.All, forall₂_cons_left_iff]
    simp only [closuresOfAll, mem_append]
    constructor
    · rintro ⟨y, rest, hxy, hr, rfl⟩
      obtain ⟨rfl, hx⟩ := Value.alike_diagonal.mp hxy
      obtain ⟨rfl, hxs⟩ := (all_diagonal xs).mp hr
      exact ⟨rfl, fun c hc => hc.elim (hx c) (hxs c)⟩
    · rintro ⟨rfl, h⟩
      exact ⟨x, xs, Value.alike_diagonal.mpr ⟨rfl, fun c hc => h c (.inl hc)⟩,
        (all_diagonal xs).mpr ⟨rfl, fun c hc => h c (.inr hc)⟩, rfl⟩
lemma entries_diagonal : ∀ xs {ys},
    (Likeness.diagonal P).Entries xs ys ↔ xs = ys ∧ ∀ c ∈ closuresOfEntries xs, P c
  | [], ys => by simp [Likeness.Entries, closuresOfEntries, eq_comm]
  | (key, x) :: xs, ys => by
    rw [Likeness.Entries, forall₂_cons_left_iff]
    simp only [closuresOfEntries, mem_append]
    constructor
    · rintro ⟨⟨key', y⟩, rest, ⟨hkey, hxy⟩, hr, rfl⟩
      cases hkey
      obtain ⟨rfl, hx⟩ := Value.alike_diagonal.mp hxy
      obtain ⟨rfl, hxs⟩ := (entries_diagonal xs).mp hr
      exact ⟨rfl, fun c hc => hc.elim (hx c) (hxs c)⟩
    · rintro ⟨rfl, h⟩
      exact ⟨(key, x), xs, ⟨rfl, Value.alike_diagonal.mpr ⟨rfl, fun c hc => h c (.inl hc)⟩⟩,
        (entries_diagonal xs).mpr ⟨rfl, fun c hc => h c (.inr hc)⟩, rfl⟩
end

end Diagonal

/-! ## Jobs -/

namespace Likeness

variable (r : Likeness)

/-- Results that correspond, or errors that are alike. -/
inductive Result {α β : Type} (Q : α → β → Prop) :
    Except ErrorValue α → Except ErrorValue β → Prop where
  | ok {a b} (h : Q a b) : Result Q (.ok a) (.ok b)
  | error {e f} (h : r.Error e f) : Result Q (.error e) (.error f)

/-- Alike nodes of a stream. -/
inductive OfNode : Node → Node → Prop where
  | empty : OfNode .empty .empty
  | cons {v w tail} (h : v.Alike r w) (allowed : r.streams) :
      OfNode (.cons v tail) (.cons w tail)

/-- Alike requests. New streams are not among them. -/
inductive OfRequest : Request → Request → Prop where
  | call {f g : Value} {xs ys named others}
      (callee : f.Alike r g) (args : r.All xs ys) (entries : r.Entries named others) :
      OfRequest (.call f xs named) (.call g ys others)
  | force {id} (allowed : r.streams) : OfRequest (.force id) (.force id)
  | collect {id} (allowed : r.streams) : OfRequest (.collect id) (.collect id)
  | settle {v w : Value} (h : v.Alike r w) : OfRequest (.settle v) (.settle w)
  | text {v w : Value} (h : v.Alike r w) : OfRequest (.text v) (.text w)

/-- Alike answers to requests. -/
def Answers : (a b : Request) → a.Response → b.Response → Prop
  | .call .., .call .. => r.Result (Alike r)
  | .force _, .force _ => r.Result r.OfNode
  | .collect _, .collect _ => r.Result r.All
  | .settle _, .settle _ => r.Result fun _ _ => True
  | .text _, .text _ => fun s t => s = t
  | _, _ => fun _ _ => False

end Likeness

namespace Job

variable {α β γ δ : Type} {r : Likeness}

/-- **Jobs that hold alike values, make alike requests and, answered alike, end alike.** -/
inductive Alike (r : Likeness) (Q : α → β → Prop) : Job α → Job β → Prop where
  | done {x y} (h : r.Result Q x y) :
      Alike r Q (.done x) (.done y)
  | ask {held others} {a b : Request} {next after} (values : r.All held others)
      (allowed : r.requests a)
      (request : r.OfRequest a b)
      (h : ∀ x y, r.Answers a b x y → Alike r Q (next x) (after y)) :
      Alike r Q (.ask held a next) (.ask others b after)

variable {Q : α → β → Prop} {R : γ → δ → Prop}

variable {j : Job α} {k : Job β}

section

variable (h : Alike r Q j k)

include h

lemma Alike.andThen {f g}
    (hfg : ∀ x y, r.Result Q x y → Alike r R (f x) (g y)) :
    Alike r R (j.andThen f) (k.andThen g) := by
  induction h with
  | done h => exact hfg _ _ h
  | ask values allowed q _ ih => exact .ask values allowed q ih

omit h in
lemma alike_pure {a b} (h : Q a b) : Alike r Q (pure a) (pure b) := .done (.ok h)

omit h in
lemma alike_fail {e f} (h : r.Error e f) :
    Alike r Q (Job.fail e) (Job.fail f) := .done (.error h)

lemma Alike.bind {f g}
    (hfg : ∀ a b, Q a b → Alike r R (f a) (g b)) : Alike r R (j >>= f) (k >>= g) := by
  refine h.andThen fun x y hxy => ?_
  cases hxy with
  | ok h => exact hfg _ _ h
  | error h => exact alike_fail h

lemma Alike.mapError {f g}
    (hfg : ∀ a b, r.Error a b → r.Error (f a) (g b)) : Alike r Q (j.mapError f) (k.mapError g) := by
  refine h.andThen fun x y hxy => ?_
  cases hxy with
  | ok h => exact alike_pure h
  | error h => exact alike_fail (hfg _ _ h)

lemma Alike.attempt : Alike r (r.Result Q) j.attempt k.attempt :=
  h.andThen fun _ _ hxy => alike_pure hxy

lemma Alike.holding {xs ys}
    (hxs : r.All xs ys) : Alike r Q (j.holding xs) (k.holding ys) := by
  induction h with
  | done h => exact .done h
  | ask values allowed q _ ih => exact .ask (rel_append hxs values) allowed q ih

lemma Alike.holding_entries {xs ys}
    (hxs : r.Entries xs ys) : Alike r Q (j.holding [.object xs]) (k.holding [.object ys]) :=
  h.holding (.cons (.object hxs) .nil)

end

lemma alike_forM {xs : List γ} {ys : List δ} (h : Forall₂ R xs ys) {f g}
    (hfg : ∀ x y, R x y → Alike r (fun _ _ => True) (f x) (g y)) :
    Alike r (fun _ _ => True) (xs.forM f) (ys.forM g) := by
  induction h with
  | nil => exact alike_pure trivial
  | cons hxy _ ih => exact (hfg _ _ hxy).bind fun _ _ _ => ih

lemma alike_invoke {f g : Value} {xs ys named os}
    (allowed : r.requests (.call f xs named)) (fn : f.Alike r g) (args : r.All xs ys)
    (es : r.Entries named os) :
    Alike r (Value.Alike r) (invoke f xs named) (invoke g ys os) :=
  .ask .nil allowed (.call fn args es) fun _ _ h => .done h

end Job

/-! ## Errors -/

namespace Likeness

variable {r : Likeness}

lemma error_of (kind) {xs ys} (h : r.Entries xs ys) :
    r.Error (.of kind xs) (.of kind ys) := ⟨rfl, h, rfl⟩

/-- The details of an error, one after another. -/
lemma Entries.cons {xs ys key}
    (hvw : v.Alike r w) (h : r.Entries xs ys) : r.Entries ((key, v) :: xs) ((key, w) :: ys) :=
  Forall₂.cons ⟨rfl, hvw⟩ h

lemma error_notOfType (h : v.Alike r w) (expected : String) :
    r.Error (notOfType v expected) (notOfType w expected) :=
  error_of _ (.cons h (.cons (by simp) .nil))

lemma error_invalidSchema (h : v.Alike r w) :
    r.Error (invalidSchema v) (invalidSchema w) :=
  error_of _ (.cons h .nil)

variable {e f : ErrorValue}

lemma error_badElement (h : v.Alike r w) (i : Nat) (hef : r.Error e f) :
    r.Error (badElement v i e) (badElement w i f) :=
  error_of _ (.cons h (.cons (alike_ofNat _) (.cons (.toValue hef) .nil)))

lemma error_badProperty (h : v.Alike r w) (key : String)
    (hef : r.Error e f) : r.Error (badProperty v key e) (badProperty w key f) :=
  error_of _ (.cons h (.cons (by simp) (.cons (.toValue hef) .nil)))

lemma error_badKey (h : v.Alike r w) (key : String)
    (hef : r.Error e f) : r.Error (badKey v key e) (badKey w key f) :=
  error_of _ (.cons h (.cons (by simp) (.cons (.toValue hef) .nil)))

/-- A detail of an error, or nothing where it has none. -/
lemma Error.detail (h : r.Error e f) (key) :
    ((e.detail? key).getD .null).Alike r ((f.detail? key).getD .null) := by
  have hget := h.details.get? key
  rw [ErrorValue.detail?, ErrorValue.detail?]
  generalize TreeCode.Entries.get? e.details key = x,
    TreeCode.Entries.get? f.details key = y at hget
  cases hget with
  | none => simp
  | some h => exact h

lemma Error.forArgument (h : r.Error e f) (name) :
    r.Error (e.forArgument name) (f.forArgument name) := by
  rw [ErrorValue.forArgument, ErrorValue.forArgument, ErrorValue.isMismatch, ErrorValue.isMismatch,
    ← h.kind]
  split
  · exact error_of _ (.cons (by simp) (.cons (h.detail _) (.cons (h.detail _) .nil)))
  · split
    · exact error_of _ (.cons (by simp) (.cons (h.detail _) (.cons (.toValue h) .nil)))
    · exact h

end Likeness

end TreeCode
