import TreeCode.Proofs.Placement

/-!
# Instructions and their words

Code is the words of its instructions, one instruction after another and nothing in between. Reading
it from the start finds every instruction where its words begin. Of arbitrary words, reading finds
the instructions that are written there, up to the first place where none is.
-/

namespace TreeCode

open List

lemma Opcode.word_of_ofWord? {w o} (h : ofWord? w = some o) : o.word = w := by
  simpa using find?_some h

namespace Instruction

/-- **Instructions from an offset on**, each after the words of those before it. -/
def placed : Nat → List Instruction → List (Nat × Instruction)
  | _, [] => []
  | start, i :: is => (start, i) :: placed (start + i.width) is

/-- **Where reading ends**: there are no more words, or at that offset the next word is no opcode,
or the words end before the operands of the next opcode do. -/
inductive Ends (offset) : List Word → List Malformed → Prop where
  | finished : Ends offset [] []
  | unknown {w} {rest : List Word} (h : Opcode.ofWord? w = none) :
      Ends offset (w :: rest) [.unknownOpcode w]
  | cut {o : Opcode} {rest} (h : rest.length < o.arity) :
      Ends offset (o.word :: rest) [.incomplete offset]

variable {pre tail : List Word} {stop : List Malformed}

/-- Where reading ends, nothing but the reason is read. -/
lemma Ends.decodeFrom (h : Ends pre.length tail stop) :
    decodeFrom (pre ++ tail).toArray pre.length = stop.map .error := by
  cases h with
  | finished =>
    rw [Instruction.decodeFrom, dif_neg (by simp)]
    rfl
  | unknown h => simp [Instruction.decodeFrom, decode, h]
  | cut h =>
    rw [Instruction.decodeFrom, dif_pos (by simp), decode]
    simp [Opcode.ofWord?_word, Nat.not_lt.mpr h]

/-- **Reading finds the instructions that are written**, each where its words begin. -/
theorem decodeFrom_words : ∀ is pre,
    Ends (pre.length + (is.flatMap words).length) tail stop →
    decodeFrom (pre ++ (is.flatMap words ++ tail)).toArray pre.length
      = (placed pre.length is).map .ok ++ stop.map .error
  | [], pre, h => h.decodeFrom
  | i :: is, pre, h => by
    have hs : pre.length < (pre ++ (i.words ++ (is.flatMap words ++ tail))).toArray.size := by
      simp [words]
    have hr := decodeFrom_words is (pre ++ i.words)
      (by simpa [Nat.add_assoc] using h)
    rw [append_assoc, length_append, length_words] at hr
    rw [flatMap_cons, append_assoc, decodeFrom, dif_pos hs, decode_words]
    exact congrArg (_ :: ·) hr

lemma take_operands : ∀ {k} {rest : List Word}, k ≤ 2 → k ≤ rest.length →
    [rest[0]?.getD 0, rest[1]?.getD 0].take k = rest.take k
  | 0, _, _, _ => rfl
  | 1, _ :: _, _, _ => rfl
  | 2, _ :: _ :: _, _, _ => rfl

/-- An opcode with all its operands is an instruction. -/
lemma words_assemble {o : Opcode} {rest : List Word} (h : o.arity ≤ rest.length) :
    (assemble o (rest[0]?.getD 0) (rest[1]?.getD 0)).words = o.word :: rest.take o.arity := by
  rw [← take_operands (by cases o <;> decide) h]
  cases o <;> rfl

/-- **All words are those of instructions**, up to where reading ends. -/
theorem exists_words (offset : Nat) (code : List Word) :
    ∃ (is : List Instruction) (tail : List Word) (stop : List Malformed),
      code = is.flatMap words ++ tail ∧ Ends (offset + (is.flatMap words).length) tail stop := by
  match code with
  | [] => exact ⟨[], [], [], rfl, .finished⟩
  | w :: rest =>
    cases ho : Opcode.ofWord? w with
    | none => exact ⟨[], w :: rest, _, rfl, .unknown ho⟩
    | some o =>
      obtain rfl := Opcode.word_of_ofWord? ho
      rcases Nat.lt_or_ge rest.length o.arity with hlt | hle
      · exact ⟨[], o.word :: rest, _, rfl, .cut hlt⟩
      · have hwords := words_assemble hle
        generalize assemble o _ _ = i at hwords
        obtain ⟨is, tail, stop, hr, hends⟩ := exists_words (offset + i.width) (rest.drop o.arity)
        refine ⟨i :: is, tail, stop, ?_, ?_⟩
        · rw [flatMap_cons, append_assoc, ← hr, hwords, cons_append, take_append_drop]
        · rwa [flatMap_cons, length_append, length_words, ← Nat.add_assoc]
termination_by code.length
decreasing_by
  rw [length_cons, length_drop]
  omega

/-- **Code and its instructions determine each other**, as far as the code can be read: instructions
are read back from their words, each where it begins; and any words are those of the instructions
that are read, followed by what no instruction can be read from, which is reported once, at the
end. -/
theorem decodeAll_words :
    (∀ is : List Instruction, decodeAll (is.flatMap words).toArray = (placed 0 is).map .ok) ∧
      ∀ code : Array Word, ∃ (is : List Instruction) (tail : List Word) (stop : List Malformed),
        code.toList = is.flatMap words ++ tail ∧ Ends (is.flatMap words).length tail stop
        ∧ decodeAll code = (placed 0 is).map .ok ++ stop.map .error := by
  constructor
  · intro is
    simpa [decodeAll] using decodeFrom_words is [] .finished
  · intro code
    obtain ⟨is, tail, stop, hcode, hends⟩ := exists_words 0 code.toList
    rw [Nat.zero_add] at hends
    refine ⟨is, tail, stop, hcode, hends, ?_⟩
    have hread := decodeFrom_words is [] (by simpa using hends)
    rwa [nil_append, ← hcode] at hread

end Instruction

end TreeCode
