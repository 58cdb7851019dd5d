import Mathlib.Tactic.Lemma
import TreeCode.Program.Container

/-!
# Reading back what was written

`Reads reader bytes post` says that a reader inverts a writer: wherever in a file the bytes stand,
the reader goes past exactly them and gives a result that `post` holds of. The statement quantifies
over all that stands before and after, so it composes along a sequence of readers (`Reads.bind`),
and a section is read wherever it was put (`Reads.finds`).

`Ensures reader post` is the other direction, for bytes that nobody wrote: whatever the reader
gives, from any file and any position, `post` holds of it.
-/

namespace TreeCode.Container

namespace Reader

variable {α β : Type} {rd : Reader α} {bytes more : Bytes} {P Q : α → Prop} {R : β → Prop}

/-! ## The two relations -/

/-- **The reader reads the bytes back**, wherever they stand, to a result that `post` holds of. -/
def Reads (rd : Reader α) (bytes : Bytes) (post : α → Prop) : Prop :=
  ∀ pre after : Bytes, ∃ a,
    rd (pre ++ bytes ++ after) pre.length = .ok (a, pre.length + bytes.length) ∧ post a

/-- **Whatever the reader gives is as `post` says.** -/
def Ensures (rd : Reader α) (post : α → Prop) : Prop :=
  ∀ file start a finish, rd file start = .ok (a, finish) → post a

lemma bind_apply (rd : Reader α) (f : α → Reader β) (file : Bytes) (start) :
    (rd >>= f) file start = (rd file start).bind fun out => f out.1 file out.2 := rfl

variable {f : α → Reader β}

namespace Reads

lemma pure (a) (h : P a) : Reads (Pure.pure a) [] P := fun _ _ => ⟨a, rfl, h⟩

lemma bind (h : Reads rd bytes P)
    (hf : ∀ a, P a → Reads (f a) more R) : Reads (rd >>= f) (bytes ++ more) R := by
  intro pre after
  obtain ⟨a, ha, hp⟩ := h pre (more ++ after)
  obtain ⟨b, hb, hr⟩ := hf a hp (pre ++ bytes) after
  refine ⟨b, ?_, hr⟩
  simp only [List.append_assoc, List.length_append] at ha hb ⊢
  rw [bind_apply, ha, ← Nat.add_assoc]
  exact hb

/-- A result worked out from what was read. -/
lemma map {f : α → β} (h : Reads rd bytes P) (hf : ∀ a, P a → R (f a)) :
    Reads (do return f (← rd)) bytes R := by
  have := h.bind fun a hp => Reads.pure (f a) (hf a hp)
  rwa [List.append_nil] at this

lemma weaken (h : Reads rd bytes P) (hpost : ∀ a, P a → Q a) : Reads rd bytes Q := by
  intro pre after
  obtain ⟨a, ha, hp⟩ := h pre after
  exact ⟨a, ha, hpost a hp⟩

/-- The place where reading starts does not matter to a reader that keeps it for its reports. -/
lemma position {f} (h : ∀ start, Reads (f start) bytes P) :
    Reads (Reader.position >>= f) bytes P :=
  fun pre after => h pre.length pre after

/-- The continuation of a reader that reads one value back. -/
lemma followed {a} (h : Reads rd bytes (· = a))
    (hf : Reads (f a) more R) : Reads (rd >>= f) (bytes ++ more) R := by
  refine h.bind ?_
  rintro _ rfl
  exact hf

end Reads

namespace Ensures

lemma bind (h : Ensures rd P) (hf : ∀ a, P a → Ensures (f a) R) :
    Ensures (rd >>= f) R := by
  intro file start b finish hb
  rw [bind_apply] at hb
  cases hr : rd file start with
  | error e =>
    rw [hr] at hb
    cases hb
  | ok out =>
    rw [hr] at hb
    exact hf out.1 (h file start out.1 out.2 hr) file out.2 b finish hb

lemma pure (a) (h : P a) : Ensures (Pure.pure a) P := by
  intro file start b finish hb
  cases hb
  exact h

lemma anything (rd : Reader α) : Ensures rd fun _ => True := fun _ _ _ _ _ => trivial

lemma fail (e) : Ensures (Reader.fail e) P := by
  intro file start b finish hb
  cases hb

end Ensures

/-! ## Places in a file -/

/-- From `start` on, the file is `rest`. -/
def Stands (file : Bytes) (start : Nat) (rest : Bytes) : Prop :=
  ∃ pre, file = pre ++ rest ∧ start = pre.length

/-- From `start` on, the reader finds in the file a result that `post` holds of. -/
def Finds (rd : Reader α) (file : Bytes) (start : Nat) (post : α → Prop) : Prop :=
  ∃ a finish, rd file start = .ok (a, finish) ∧ post a

lemma Stands.next {file start} (h : Stands file start (bytes ++ more)) :
    Stands file (start + bytes.length) more := by
  obtain ⟨pre, rfl, rfl⟩ := h
  exact ⟨pre ++ bytes, by simp, by simp⟩

namespace Finds

variable {file : Bytes} {start : Nat}

/-- Read what stands here, then go on behind it. -/
lemma read {a} (h : Reads rd bytes (· = a)) (hs : Stands file start (bytes ++ more))
    (hf : Stands file (start + bytes.length) more → Finds (f a) file (start + bytes.length) R) :
    Finds (rd >>= f) file start R := by
  obtain ⟨b, finish, hb, hr⟩ := hf hs.next
  obtain ⟨pre, rfl, rfl⟩ := hs
  obtain ⟨_, ha, rfl⟩ := h pre more
  refine ⟨b, finish, ?_, hr⟩
  rw [bind_apply, ← List.append_assoc, ha]
  rw [← List.append_assoc] at hb
  exact hb

/-- A reader may look at the whole file. -/
lemma wholeFile {f} (h : Finds (f file) file start R) :
    Finds (MonadReader.read >>= f) file start R := h

/-- Find a result, then go on from wherever that ends. -/
lemma bind (h : Finds rd file start P)
    (hf : ∀ a finish, P a → Finds (f a) file finish R) : Finds (rd >>= f) file start R := by
  obtain ⟨a, middle, ha, hp⟩ := h
  obtain ⟨b, finish, hb, hr⟩ := hf a middle hp
  refine ⟨b, finish, ?_, hr⟩
  rw [bind_apply, ha]
  exact hb

end Finds

/-- What stands at an offset is found from anywhere, by turning there first. -/
lemma Reads.finds {file offset} (h : Reads rd bytes P)
    (hs : Stands file offset (bytes ++ more)) (start) :
    Finds (do set offset; rd) file start P := by
  obtain ⟨pre, rfl, rfl⟩ := hs
  obtain ⟨a, ha, hp⟩ := h pre more
  rw [List.append_assoc] at ha
  exact ⟨a, _, ha, hp⟩

/-! ## Bytes and words -/

lemma take_apply (count) (file : Bytes) (start) :
    take count file start =
      if start + count ≤ file.length then .ok ((file.drop start).take count, start + count)
      else .error (.truncated start) := by
  have hopen : take count file start =
      (if start + count ≤ file.length then
        (do set (start + count); return (file.drop start).take count : Reader Bytes)
      else fail (.truncated start)) file start := rfl
  rw [hopen]
  split <;> rfl

lemma reads_take (bytes : Bytes) : Reads (take bytes.length) bytes (· = bytes) := by
  intro pre after
  have hroom : pre.length + bytes.length ≤ (pre ++ bytes ++ after).length := by simp
  refine ⟨_, ?_, rfl⟩
  rw [take_apply, if_pos hroom]
  simp [List.append_assoc]

lemma reads_byte (b) : Reads byte [b] (· = b) := (reads_take [b]).map (by rintro _ rfl; rfl)

lemma littleEndian_wordBytes (w : Word) : littleEndian (wordBytes w) = w.toNat := by
  have hw : w.toNat < 2 ^ 32 := w.toNat_lt
  simp only [wordBytes, littleEndian, UInt32.toNat_toUInt8, UInt32.toNat_shiftRight,
    UInt32.reduceToNat, Nat.reduceMod, Nat.reducePow,
    Nat.shiftRight_eq_div_pow]
  omega

lemma reads_word (w) : Reads word (wordBytes w) (· = w) := by
  refine (reads_take (wordBytes w)).map ?_
  rintro _ rfl
  rw [littleEndian_wordBytes]
  exact UInt32.ofNat_toNat

lemma littleEndian_numberBytes (n : Number) : littleEndian (numberBytes n) = n.bits.toNat := by
  have hn : n.bits.toNat < 2 ^ 64 := n.bits.toNat_lt
  simp only [numberBytes, littleEndian, UInt64.toNat_toUInt8, UInt64.toNat_shiftRight,
    UInt64.reduceToNat, Nat.reduceMod, Nat.reducePow,
    Nat.shiftRight_eq_div_pow]
  omega

lemma reads_number (n) : Reads number (numberBytes n) (· = n) := by
  refine (reads_take (numberBytes n)).map ?_
  rintro _ rfl
  rw [littleEndian_numberBytes]
  exact congrArg Number.mk UInt64.ofNat_toNat

lemma lt_of_sizeBytes {size} (h : sizeBytes size = .ok bytes) :
    size < UInt32.size ∧ bytes = wordBytes size.toUInt32 := by
  unfold sizeBytes at h
  split at h
  next hlt => exact ⟨hlt, (Except.ok.inj h).symm⟩
  next => cases h

lemma reads_size {count : Nat} (h : sizeBytes count = .ok bytes) :
    Reads size bytes (· = count) := by
  obtain ⟨hlt, rfl⟩ := lt_of_sizeBytes h
  refine (reads_word _).map ?_
  rintro _ rfl
  exact UInt32.toNat_ofNat_of_lt' hlt

/-! ## Texts -/

lemma toList_loop (data : ByteArray) (i) (done : List UInt8) :
    ByteArray.toList.loop data i done = done.reverse ++ data.data.toList.drop i := by
  rw [ByteArray.toList.loop]
  split
  next hi =>
    have hi' : i < data.data.toList.length := hi
    rw [toList_loop data (i + 1), List.drop_eq_getElem_cons hi']
    simp [ByteArray.get!, hi]
  next hi =>
    have hi' : data.data.toList.length ≤ i := Nat.le_of_not_lt hi
    rw [List.drop_eq_nil_of_le hi', List.append_nil]
termination_by data.size - i

/-- The bytes of a text make up the text. -/
lemma fromUTF8?_textBytes (s) :
    String.fromUTF8? (ByteArray.mk (textBytes s).toArray) = some s := by
  have hb : ByteArray.mk (textBytes s).toArray = s.toUTF8 := by
    simp [textBytes, ByteArray.toList, toList_loop]
  have hvalid : s.toUTF8.IsValidUTF8 := s.isValidUTF8
  rw [hb, String.fromUTF8?, dif_pos hvalid]
  rfl

lemma reads_text (s) : Reads (text (textBytes s).length) (textBytes s) (· = s) := by
  refine Reads.position fun start => ?_
  rw [← List.append_nil (textBytes s)]
  refine Reads.followed (by simpa using reads_take (textBytes s)) ?_
  rw [fromUTF8?_textBytes]
  exact Reads.pure s rfl

end Reader

end TreeCode.Container
