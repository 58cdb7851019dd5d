import Mathlib.Tactic.Lemma
import TreeCode.Code

/-!
# Where code lies

Linking places functions one after another. `Code.At functions pc code` says that a piece of their
code lies at `pc`; what the machine then finds there is the code's first item, with its diagnostic,
and after it the rest (`Code.decode_at`, `Code.diagnostic_at`, `Code.At.next`). Each function lies
at its offset, and is found again by it in the table of functions.
-/

namespace TreeCode

open List

lemma Opcode.ofWord?_word (o : Opcode) : ofWord? o.word = some o := by cases o <;> decide

/-- Words of an instruction decode to it, wherever they stand. -/
lemma Instruction.decode_words (pre after : List Word) (i : Instruction) :
    decode (pre ++ (i.words ++ after)).toArray pre.length = .ok i := by
  have hword : (pre ++ (i.words ++ after)).toArray[pre.length]? = some i.opcode.word := by
    simp [words]
  have harity : pre.length + i.opcode.arity < (pre ++ (i.words ++ after)).toArray.size := by
    have := i.length_words
    simp only [size_toArray, length_append, this, width]
    omega
  rw [decode, hword]
  simp only [Opcode.ofWord?_word, if_pos harity]
  cases i <;> simp [words, operands, opcode, assemble]

namespace CodeItem

lemma length_words (offsets) (item : CodeItem) :
    (item.words offsets).length = item.width := by
  rw [words, Instruction.length_words]
  cases item <;> rfl

lemma width_pos (item : CodeItem) : 0 < item.width := by
  cases item with
  | plain i _ => exact i.width_pos
  | makeFunction _ => exact Instruction.width_pos _

lemma length_diagnostics (item : CodeItem) : item.diagnostics.length = item.width := by
  have := item.width_pos
  simp only [diagnostics, length_cons, length_replicate]
  omega

end CodeItem

namespace Code

@[simp]
lemma width_nil : width [] = 0 := rfl

@[simp]
lemma width_cons (item : CodeItem) (code) : width (item :: code) = item.width + width code := rfl

@[simp]
lemma width_append (a b) : width (a ++ b) = width a + width b := by
  induction a with
  | nil => simp
  | cons item a ih => simp [ih, Nat.add_assoc]

@[simp]
lemma width_emit (i : Instruction) : width (emit i) = i.width := by simp [emit, CodeItem.width]

@[simp]
lemma width_emitBinding (i : Instruction) (a) :
    width (emitBinding i a) = i.width := by
  simp [emitBinding, CodeItem.width]

lemma length_words (offsets) (code : Code) :
    (code.flatMap (·.words offsets)).length = code.width := by
  induction code with
  | nil => rfl
  | cons item code ih => simp [ih, CodeItem.length_words]

lemma length_diagnostics (code : Code) : (code.flatMap (·.diagnostics)).length = code.width := by
  induction code with
  | nil => rfl
  | cons item code ih => simp [ih, CodeItem.length_diagnostics]

/-! ## Placement -/

/-- The code of functions that are placed one after another. -/
def items (fs : List CodeFunction) : Code := fs.flatMap (·.body)

/-- **A piece of code lies at `pc`** among functions that are placed one after another. -/
def At (fs : List CodeFunction) (pc : Nat) (code : Code) : Prop :=
  ∃ pre after, items fs = pre ++ (code ++ after) ∧ width pre = pc

variable {code : Code} {fs : List CodeFunction} {f : CodeFunction} {i : Nat}

section At

variable {pc : Nat}

/-- What follows a piece of code lies after its width. -/
lemma At.skip {a b} (h : At fs pc (a ++ b)) : At fs (pc + a.width) b := by
  obtain ⟨pre, after, heq, rfl⟩ := h
  exact ⟨pre ++ a, after, by rw [heq]; simp only [append_assoc], by rw [width_append]⟩

lemma At.next {item} (h : At fs pc (item :: code)) :
    At fs (pc + item.width) code := by
  have := At.skip (a := [item]) h
  simpa using this

/-- A prefix of a piece of code lies where the piece does. -/
lemma At.left {a b} (h : At fs pc (a ++ b)) : At fs pc a := by
  obtain ⟨pre, after, heq, rfl⟩ := h
  exact ⟨pre, b ++ after, by rw [heq, append_assoc], rfl⟩

lemma At.le_width (h : At fs pc code) :
    pc + code.width ≤ (items fs).width := by
  obtain ⟨pre, after, heq, rfl⟩ := h
  rw [heq, width_append, width_append]
  omega

variable {item : CodeItem}

/-- **What the machine reads where code lies** is its first item. -/
theorem decode_at (h : At fs pc (item :: code)) :
    Instruction.decode (link fs).code pc
      = .ok (item.instruction (offsetsFrom 0 fs)) := by
  obtain ⟨pre, after, heq, rfl⟩ := h
  have hc : (link fs).code
      = (pre.flatMap (·.words (offsetsFrom 0 fs))
          ++ ((item.instruction (offsetsFrom 0 fs)).words
            ++ (code ++ after).flatMap (·.words (offsetsFrom 0 fs)))).toArray := by
    show ((items fs).flatMap (·.words (offsetsFrom 0 fs))).toArray = _
    rw [heq, flatMap_append, cons_append, flatMap_cons]
    rfl
  rw [hc, ← length_words (offsetsFrom 0 fs) pre]
  exact Instruction.decode_words _ _ _

/-- The diagnostic beside an item is the item's. -/
lemma diagnostic_at (h : At fs pc (item :: code)) :
    (link fs).diagnostic? pc = item.diagnostic? := by
  obtain ⟨pre, after, heq, rfl⟩ := h
  show ((items fs).flatMap (·.diagnostics)).toArray[width pre]?.getD none = _
  rw [heq, flatMap_append, cons_append, flatMap_cons, ← length_diagnostics pre]
  simp [CodeItem.diagnostics]

end At

lemma size_link (fs) : (link fs).code.size = width (items fs) := by
  show (((items fs).flatMap (·.words (offsetsFrom 0 fs))).toArray).size = _
  rw [size_toArray, length_words]

lemma width_items_cons (f : CodeFunction) (fs) :
    width (items (f :: fs)) = f.body.width + width (items fs) := by
  rw [items, flatMap_cons, width_append]
  rfl

lemma width_le_items (h : f ∈ fs) :
    f.body.width ≤ width (items fs) := by
  induction fs with
  | nil => cases h
  | cons g fs ih =>
    rw [width_items_cons]
    rcases mem_cons.mp h with rfl | h
    · omega
    · have := ih h
      omega

/-! ## Functions -/

lemma getElem?_offsetsFrom (h : fs[i]? = some f) (start) :
    (offsetsFrom start fs)[i]? = some (start + (items (fs.take i)).width) := by
  induction fs generalizing i start with
  | nil => simp at h
  | cons g fs ih =>
    cases i with
    | zero => simp [offsetsFrom, items]
    | succ i =>
      simp only [getElem?_cons_succ] at h
      simp only [offsetsFrom, getElem?_cons_succ, ih h, take_succ_cons, items,
        flatMap_cons, width_append]
      congr 1
      omega

/-- The offset of the function with an index. -/
def offset (fs : List CodeFunction) (i : Nat) : Nat := (items (fs.take i)).width

section

variable (h : fs[i]? = some f)

include h

lemma offset_eq : (offsetsFrom 0 fs)[i]?.getD 0 = offset fs i := by
  rw [getElem?_offsetsFrom h, Option.getD_some, Nat.zero_add, offset]

/-- **Each function lies at its offset.** -/
theorem at_offset : At fs (offset fs i) f.body := by
  refine ⟨items (fs.take i), items (fs.drop (i + 1)), ?_, rfl⟩
  obtain ⟨hi, rfl⟩ := List.getElem?_eq_some_iff.mp h
  have hsplit : fs = fs.take i ++ fs[i] :: fs.drop (i + 1) := by
    rw [← List.drop_eq_getElem_cons hi, List.take_append_drop]
  calc items fs
      = items (fs.take i ++ fs[i] :: fs.drop (i + 1)) := by rw [← hsplit]
    _ = items (fs.take i) ++ (fs[i].body ++ items (fs.drop (i + 1))) := by
      rw [items, List.flatMap_append, List.flatMap_cons]
      rfl

/-! ## Finding functions -/

omit h in
lemma offset_mono (fs) {j} (h : i ≤ j) :
    offset fs i ≤ offset fs j := by
  obtain ⟨k, rfl⟩ := Nat.exists_eq_add_of_le h
  rw [offset, offset, take_add, items, items, flatMap_append, width_append]
  omega

lemma offset_succ :
    offset fs (i + 1) = offset fs i + f.body.width := by
  rw [offset, offset, take_add_one, h, items, items, flatMap_append, width_append]
  simp

omit h in
lemma length_offsetsFrom (start) (fs : List CodeFunction) :
    (offsetsFrom start fs).length = fs.length := by
  induction fs generalizing start with
  | nil => rfl
  | cons f fs ih => rw [offsetsFrom, length_cons, length_cons, ih]

lemma getElem?_functions :
    (link fs).functions[i]? = some { name := f.name, offset := offset fs i } := by
  have hoffset := getElem?_offsetsFrom h 0
  rw [Nat.zero_add] at hoffset
  simp [link, getElem?_zipWith, h, hoffset, offset]

end

section FunctionAt

variable {p : Program} (hp : p.functions = (link fs).functions) (h : fs[i]? = some f)
  (hbody : 0 < f.body.width)

include hp h hbody

/-- Halving keeps the entry of a function that is not empty. -/
lemma narrow_eq (size) : ∀ base, base ≤ i → i < base + size →
    base + size ≤ fs.length → p.narrow (offset fs i) base size = i := by
  induction size using Nat.strongRecOn with
  | ind size ih =>
    intro base hle hlt hs
    rw [Program.narrow]
    split
    · next hmore =>
      obtain ⟨g, hg⟩ : ∃ g, fs[base + size / 2]? = some g := ⟨_, getElem?_eq_getElem (by omega)⟩
      dsimp only
      rw [hp, getElem?_functions hg]
      dsimp only
      have hnext := offset_succ h
      by_cases hmiddle : base + size / 2 ≤ i
      · have hoffset := offset_mono fs hmiddle
        rw [if_neg (by simpa using hoffset)]
        exact ih _ (by omega) _ hmiddle (by omega) (by omega)
      · have hoffset := offset_mono fs (show i + 1 ≤ base + size / 2 by omega)
        rw [if_pos (by rw [decide_eq_true_iff]; omega)]
        exact ih _ (by omega) _ hle (by omega) (by omega)
    · omega

/-- **A function is found again by its offset.** -/
theorem functionAt?_offset : p.functionAt? (offset fs i)
    = some { name := f.name, offset := offset fs i } := by
  have hlt := (List.getElem?_eq_some_iff.mp h).1
  have hs : p.functions.size = fs.length := by simp [hp, link, length_offsetsFrom]
  rw [Program.functionAt?, hs,
    narrow_eq hp h hbody fs.length 0 (by omega) (by omega) (by omega), hp,
    getElem?_functions h]
  simp

end FunctionAt

end Code

end TreeCode
