import Mathlib.Tactic.Lemma
import TreeCode.Machine.Run

/-!
# Plain data is told apart by its text

The text of plain data can be read in one way only. Its first character says what a value is. A
number ends where a comma, a colon or a bracket comes, and quoted text at the first quote without a
backslash. So two values with the same text before what ends them are the same, and the same comes
after them (`Value.splits_of_plain`).
-/

namespace TreeCode

open List Text

/-! ## Words -/

namespace Text

/-- What ends a value or a key, and what begins quoted text, an array or an object. -/
def marks : List Char := [',', ':', ']', '\x7d', '"', '[', '\x7b']

/-- Stands in a word. -/
def inWord (c : Char) : Bool := c ∉ marks

/-- A word, and not the empty one. -/
def IsWord (u : List Char) : Prop := u ≠ [] ∧ ∀ c ∈ u, inWord c = true

variable {u v r r' : List Char} {c d : Char}

lemma takeWhile_word (hu : IsWord u) (hr : ∀ c ∈ r.head?, inWord c = false) :
    (u ++ r).takeWhile inWord = u := by
  rw [takeWhile_append_of_pos hu.2]
  cases r with
  | nil => simp
  | cons c r => simp [hr c rfl]

/-- A word is over where something else comes. -/
lemma word_inj (hu : IsWord u) (hv : IsWord v) (hr : ∀ c ∈ r.head?, inWord c = false)
    (hr' : ∀ c ∈ r'.head?, inWord c = false) (h : u ++ r = v ++ r') : u = v ∧ r = r' := by
  have huv : u = v := by rw [← takeWhile_word hu hr, h, takeWhile_word hv hr']
  exact ⟨huv, append_cancel_left (huv ▸ h)⟩

lemma IsWord.ne_quoted (hu : IsWord u) : u ++ r ≠ '"' :: r' := by
  obtain ⟨d, u, rfl⟩ := exists_cons_of_ne_nil hu.1
  intro h
  have hd := hu.2 d mem_cons_self
  rw [(cons.inj h).1] at hd
  cases hd

/-! ## Quoted text and keys -/

lemma escape_inj (h : escape c ++ r = escape d ++ r') : c = d ∧ r = r' := by
  unfold escape at h
  split at h <;> split at h <;> grind

lemma escaped_ne (c r) : escape c ++ r ≠ '"' :: r' := by
  unfold escape
  split <;> grind

lemma escaped_inj {cs ds : List Char}
    (h : cs.flatMap escape ++ '"' :: r = ds.flatMap escape ++ '"' :: r') : cs = ds ∧ r = r' := by
  induction cs generalizing ds with
  | nil =>
    cases ds with
    | nil => exact ⟨rfl, (cons.inj h).2⟩
    | cons d ds =>
      rw [flatMap_cons, append_assoc] at h
      exact absurd h.symm (escaped_ne d _)
  | cons c cs ih =>
    rw [flatMap_cons, append_assoc] at h
    cases ds with
    | nil => exact absurd h (escaped_ne c _)
    | cons d ds =>
      rw [flatMap_cons, append_assoc] at h
      obtain ⟨rfl, hr⟩ := escape_inj h
      obtain ⟨rfl, rfl⟩ := ih hr
      exact ⟨rfl, rfl⟩

lemma toList_quoted (s : String) :
    (quoted s).toList = '"' :: (s.toList.flatMap escape ++ ['"']) := by
  simp [quoted]

lemma quoted_inj {s t} (h : (quoted s).toList ++ r = (quoted t).toList ++ r') :
    s = t ∧ r = r' := by
  rw [toList_quoted, toList_quoted, cons_append, cons_append, append_assoc, append_assoc] at h
  obtain ⟨hs, hr⟩ := escaped_inj (cons.inj h).2
  exact ⟨String.toList_inj.mp hs, hr⟩

lemma word_of_isIdentifier {s} (h : isIdentifier s = true) : IsWord s.toList := by
  have hn : marks.all (!continuesIdentifier ·) = true := by decide +kernel
  unfold isIdentifier at h
  split at h
  · cases h
  · next c cs hs =>
    rw [hs]
    refine ⟨cons_ne_nil c cs, fun d hd => decide_eq_true fun hmem => ?_⟩
    rw [Bool.and_eq_true, all_eq_true] at h
    have hcontinues : continuesIdentifier d = true := by
      obtain rfl | hd := mem_cons.mp hd
      · grind [startsIdentifier, continuesIdentifier]
      · exact h.2 d hd
    simpa [hcontinues] using all_eq_true.mp hn d hmem

lemma key_inj {k l} (h : (keyText k).toList ++ ':' :: r = (keyText l).toList ++ ':' :: r') :
    k = l ∧ r = r' := by
  have hcolon : ∀ r, ∀ c ∈ (':' :: r).head?, inWord c = false := fun r c hc =>
    Option.some.inj hc ▸ rfl
  unfold keyText at h
  split at h <;> split at h
  · next hk hl =>
    obtain ⟨hkl, hr⟩ := word_inj (word_of_isIdentifier hk) (word_of_isIdentifier hl) (hcolon r)
      (hcolon r') h
    exact ⟨String.toList_inj.mp hkl, (cons.inj hr).2⟩
  · next hk _ =>
    rw [toList_quoted] at h
    exact absurd h (word_of_isIdentifier hk).ne_quoted
  · next _ hl =>
    rw [toList_quoted] at h
    exact absurd h.symm (word_of_isIdentifier hl).ne_quoted
  · obtain ⟨hkl, hr⟩ := quoted_inj h
    exact ⟨hkl, (cons.inj hr).2⟩

/-! ## Lists -/

/-- What may come after a value: nothing, a comma or a closing bracket. -/
def EndsValue (r : List Char) : Prop := ∀ c ∈ r.head?, c ∈ [',', ']', '\x7d']

lemma not_inWord_of_ends (hc : c ∈ [',', ']', '\x7d']) : inWord c = false := by
  have hall : [',', ']', '\x7d'].all (!inWord ·) = true := by decide
  simpa using all_eq_true.mp hall c hc

lemma EndsValue.not_inWord (h : EndsValue r) (c) (hc : c ∈ r.head?) : inWord c = false :=
  not_inWord_of_ends (h c hc)

lemma IsWord.not_ends (hu : IsWord u) : ¬EndsValue (u ++ r) := by
  obtain ⟨c, rest, rfl⟩ := exists_cons_of_ne_nil hu.1
  intro h
  exact Bool.false_ne_true ((h.not_inWord c rfl).symm.trans (hu.2 c mem_cons_self))

section Lists

variable {α : Type} {f : α → List Char} (hc : c ∈ [']', '\x7d'])

variable (f) in
/-- The texts of two elements, each before something that ends it, are the same only if the elements
are, and what comes after them. -/
def Splits (x y : α) : Prop :=
  ∀ r r', EndsValue r → EndsValue r' → f x ++ r = f y ++ r' → x = y ∧ r = r'

variable (f) in
/-- The texts of elements, each after a comma. -/
def further (xs : List α) : List Char := (xs.map f).flatMap ([',', ' '] ++ ·)

lemma intercalate_cons (x xs) :
    intercalate [',', ' '] ((x :: xs).map f) = f x ++ further f xs := by
  induction xs generalizing x with
  | nil => simp [further]
  | cons y ys ih =>
    rw [map_cons, map_cons, intercalate_cons_cons, ← map_cons, ih, further, further, map_cons,
      flatMap_cons,
      append_assoc, append_assoc]

include hc

lemma ends_further (xs r) : EndsValue (further f xs ++ c :: r) := by
  cases xs with
  | nil => exact fun d hd => Option.some.inj hd ▸ mem_cons_of_mem _ hc
  | cons x xs => exact fun d hd => Option.some.inj hd ▸ mem_cons_self

lemma further_inj {xs ys} (hsplits : ∀ x ∈ xs, ∀ y ∈ ys, Splits f x y)
    (h : further f xs ++ c :: r = further f ys ++ c :: r') : xs = ys ∧ r = r' := by
  induction xs generalizing ys with
  | nil =>
    cases ys with
    | nil => exact ⟨rfl, (cons.inj h).2⟩
    | cons y ys => exact absurd ((cons.inj h).1 ▸ hc) (by decide)
  | cons x xs ih =>
    cases ys with
    | nil => exact absurd ((cons.inj h).1 ▸ hc) (by decide)
    | cons y ys =>
      simp only [further, map_cons, flatMap_cons, append_assoc, append_cancel_left_eq] at h
      obtain ⟨rfl, hr⟩ := hsplits x mem_cons_self y mem_cons_self _ _
        (ends_further hc xs r) (ends_further hc ys r') h
      obtain ⟨rfl, rfl⟩ :=
        ih (fun x hx y hy => hsplits x (mem_cons_of_mem _ hx) y (mem_cons_of_mem _ hy)) hr
      exact ⟨rfl, rfl⟩

lemma list_inj {xs ys : List α} (hsplits : ∀ x ∈ xs, ∀ y ∈ ys, Splits f x y)
    (hxs : ∀ x ∈ xs, ∀ r, ¬EndsValue (f x ++ r)) (hys : ∀ y ∈ ys, ∀ r, ¬EndsValue (f y ++ r))
    (h : intercalate [',', ' '] (xs.map f) ++ c :: r = intercalate [',', ' ']
      (ys.map f) ++ c :: r') :
    xs = ys ∧ r = r' := by
  cases xs with
  | nil =>
    cases ys with
    | nil => exact ⟨rfl, (cons.inj h).2⟩
    | cons y ys =>
      rw [intercalate_cons, append_assoc] at h
      exact absurd (h ▸ ends_further (f := f) hc [] r) (hys y mem_cons_self _)
  | cons x xs =>
    cases ys with
    | nil =>
      rw [intercalate_cons, append_assoc] at h
      exact absurd (h ▸ ends_further (f := f) hc [] r') (hxs x mem_cons_self _)
    | cons y ys =>
      rw [intercalate_cons, intercalate_cons] at h
      exact further_inj hc hsplits (congrArg ([',', ' '] ++ ·) h)

end Lists

end Text

/-! ## Numbers -/

namespace Number

variable {x y n : Number}

lemma ext_fields (hsign : x.isNegative = y.isNegative) (hexponent :
    x.exponentField = y.exponentField)
    (hfraction : x.fractionField = y.fractionField) : x = y := by
  have hsigns : ∀ n : Number, n.isNegative = decide (n.bits.toNat / 2 ^ 63 = 1) := fun n => by
    rw [Bool.eq_iff_iff, isNegative, beq_iff_eq, ← UInt64.toNat_inj]
    simp [Nat.shiftRight_eq_div_pow]
  have hexponents : ∀ n : Number, n.exponentField = n.bits.toNat / 2 ^ 52 % 2 ^ 11 := fun n => by
    rw [← Nat.and_two_pow_sub_one_eq_mod, ← Nat.shiftRight_eq_div_pow]
    simp [exponentField]
  have hfractions : ∀ n : Number, n.fractionField = n.bits.toNat % 2 ^ 52 := fun n => by
    rw [← Nat.and_two_pow_sub_one_eq_mod]
    simp [fractionField]
  have hx := x.bits.toNat_lt
  have hy := y.bits.toNat_lt
  simp only [hsigns, hexponents, hfractions, decide_eq_decide] at hsign hexponent hfraction
  have : x.bits = y.bits := UInt64.toNat_inj.mp (by omega)
  cases x; cases y; exact congrArg mk this

/-- What sort of value is written with this character first. -/
def kindOf : Char → Kind
  | 'n' => .null
  | 't' | 'f' => .boolean
  | '"' => .string
  | '[' => .array
  | '\x7b' => .object
  | _ => .number

/-- A digit, a dot or a minus. -/
def inNumeral (c : Char) : Bool := c.isDigit || c == '.' || c == '-'

lemma of_inNumeral {c} (h : inNumeral c = true) : inWord c = true ∧ kindOf c = .number := by
  refine ⟨decide_eq_true fun hmem => ?_, ?_⟩
  · have hmarks : marks.all (!inNumeral ·) = true := by decide
    simpa [h] using all_eq_true.mp hmarks c hmem
  · unfold kindOf
    split <;> first | rfl | cases h

/-- **Numbers that can be told apart by their texts**: no NaN and no negative zero; and the finite
ones are written with digits, dots and minuses, two of them alike only if they are the same but for
the sign of zero. -/
structure Legible (N : Number → Prop) : Prop where
  notNaN : ∀ n, N n → n.isNaN = false
  zero : ∀ n, N n → n.isZero = true → n.isNegative = false
  numeral : ∀ n, N n → n.isFinite = true → n.text ≠ "" ∧ ∀ c ∈ n.text.toList, inNumeral c = true
  distinct : ∀ x y, N x → N y → x.isFinite = true → y.isFinite = true → x.text = y.text →
    x = y ∨ x.isZero = true ∧ y.isZero = true

lemma text_infinite (hnan : n.isNaN = false) (h : n.isFinite = false) :
    n.exponentField = 2047 ∧ n.fractionField = 0 ∧
      n.text = if n.isNegative then "-Infinity" else "Infinity" := by
  have hexponent : n.exponentField = 2047 := by simpa [isFinite] using h
  have hfraction : n.fractionField = 0 := by simpa [isNaN, hexponent] using hnan
  exact ⟨hexponent, hfraction, by simp [text, isNaN, isInfinite, hexponent, hfraction]⟩

lemma fields_of_isZero (h : n.isZero = true) : n.exponentField = 0 ∧ n.fractionField = 0 := by
  have hmagnitude : n.significand * 2 ^ n.scale = 0 := beq_iff_eq.mp h
  have hzero : n.significand = 0 :=
    (Nat.mul_eq_zero.mp hmagnitude).resolve_right (Nat.ne_of_gt (Nat.two_pow_pos _))
  unfold significand at hzero
  split at hzero
  · exact ⟨‹_›, hzero⟩
  · simp at hzero

namespace Legible

variable {N : Number → Prop} (hN : Legible N) (hx : N x) (hy : N y)

include hN hx

lemma text_ne (hfinite : x.isFinite = true) (hnan : y.isNaN = false)
    (hinfinite : y.isFinite = false) :
    x.text ≠ y.text := by
  intro h
  have hI := (hN.numeral x hx hfinite).2 'I'
    (by rw [h, (text_infinite hnan hinfinite).2.2]; split <;> decide)
  exact absurd hI (by decide)

include hy in
lemma eq_of_text (h : x.text = y.text) : x = y := by
  have hxn := hN.notNaN x hx
  have hyn := hN.notNaN y hy
  cases hxf : x.isFinite <;> cases hyf : y.isFinite
  · obtain ⟨hxe, hxm, hxt⟩ := text_infinite hxn hxf
    obtain ⟨hye, hym, hyt⟩ := text_infinite hyn hyf
    refine ext_fields ?_ (hxe.trans hye.symm) (hxm.trans hym.symm)
    rw [hxt, hyt] at h
    revert h
    cases x.isNegative <;> cases y.isNegative <;> decide
  · exact absurd h.symm (hN.text_ne hy hyf hxn hxf)
  · exact absurd h (hN.text_ne hx hxf hyn hyf)
  · obtain heq | ⟨hx0, hy0⟩ := hN.distinct x y hx hy hxf hyf h
    · exact heq
    · obtain ⟨hxe, hxm⟩ := fields_of_isZero hx0
      obtain ⟨hye, hym⟩ := fields_of_isZero hy0
      exact ext_fields ((hN.zero x hx hx0).trans (hN.zero y hy hy0).symm) (hxe.trans hye.symm)
        (hxm.trans hym.symm)

/-- A number is a word that begins like no other value. -/
lemma word_text : IsWord x.text.toList ∧ ∀ c ∈ x.text.toList.head?, kindOf c = .number := by
  cases hf : x.isFinite with
  | true =>
    obtain ⟨hne, hall⟩ := hN.numeral x hx hf
    exact ⟨⟨by simpa using hne, fun c hc => (of_inNumeral (hall c hc)).1⟩,
      fun c hc => (of_inNumeral (hall c (mem_of_mem_head? hc))).2⟩
  | false =>
    rw [(text_infinite (hN.notNaN x hx) hf).2.2]
    split
    · exact ⟨⟨by decide, all_eq_true.mp (by decide)⟩, fun c hc => Option.some.inj hc ▸ rfl⟩
    · exact ⟨⟨by decide, all_eq_true.mp (by decide)⟩, fun c hc => Option.some.inj hc ▸ rfl⟩

end Legible

end Number

namespace Value

open Number

variable {N : Number → Prop} {a b : Value} {r r' : List Char} (stream : StreamId → String)

/-- **Plain data**, whose numbers are all among some. -/
inductive Plain (N : Number → Prop) : Value → Prop where
  | null : Plain N .null
  | boolean (b : Bool) : Plain N (.boolean b)
  | number {n} (h : N n) : Plain N (.number n)
  | string (s) : Plain N (.string s)
  | array {es} (h : ∀ v ∈ es, Plain N v) : Plain N (.array es)
  | object {xs} (h : ∀ p ∈ xs, Plain N p.2) : Plain N (.object xs)

/-- A value as it is written. -/
def chars (v : Value) : List Char := (v.textWith stream).toList

/-- A property as it is written. -/
def entryChars (p : String × Value) : List Char :=
    (keyText p.1).toList ++ ':' :: ' ' :: p.2.chars stream

lemma chars_array (es : List Value) : (array es).chars stream
    = '[' :: (intercalate [',', ' '] (es.map (chars stream)) ++ [']']) := by
  have htexts : ∀ vs, (textsWith stream vs).map String.toList = vs.map (chars stream) := by
    intro vs
    induction vs with
    | nil => rw [textsWith, map_nil, map_nil]
    | cons v vs ih => rw [textsWith, map_cons, ih, map_cons, chars]
  show ("[" ++ commaList (textsWith stream es) ++ "]").toList = _
  simp [commaList, String.toList_intercalate, htexts]

lemma chars_object (xs : Entries Value) : (object xs).chars stream
    = '\x7b' :: (intercalate [',', ' '] (xs.map (entryChars stream)) ++ ['\x7d']) := by
  have htexts : ∀ xs,
      (entryTextsWith stream xs).map String.toList = xs.map (entryChars stream) := by
    intro xs
    induction xs with
    | nil => rw [entryTextsWith, map_nil, map_nil]
    | cons p xs ih => simp [entryTextsWith, entryChars, chars, ih]
  show ("\x7b" ++ commaList (entryTextsWith stream xs) ++ "\x7d").toList = _
  simp [commaList, String.toList_intercalate, htexts]

lemma not_ends_entry (p r) : ¬EndsValue (entryChars stream p ++ r) := by
  rw [entryChars, append_assoc, keyText]
  split
  · next h => exact (word_of_isIdentifier h).not_ends
  · rw [toList_quoted]
    exact fun h => absurd (h '"' rfl) (by decide)

variable {stream}

lemma splits_entry {p q} (h : Splits (chars stream) p.2 q.2) :
    Splits (entryChars stream) p q := by
  intro r r' hr hr' heq
  simp only [entryChars, append_assoc, cons_append] at heq
  obtain ⟨hkey, hrest⟩ := key_inj heq
  obtain ⟨hv, hafter⟩ := h r r' hr hr' (cons.inj hrest).2
  exact ⟨Prod.ext hkey hv, hafter⟩

variable (hN : Legible N)

include hN

variable (stream) in
/-- The first character of the text says what sort of value it is. -/
lemma chars_start (ha : Plain N a) :
    ∃ c rest, a.chars stream = c :: rest ∧ c ∉ [',', ']', '\x7d'] ∧ kindOf c = a.kind := by
  cases ha with
  | null => exact ⟨'n', _, show "null".toList = _ from rfl, by decide, rfl⟩
  | boolean b =>
    cases b with
    | true => exact ⟨'t', _, show "true".toList = _ from rfl, by decide, rfl⟩
    | false => exact ⟨'f', _, show "false".toList = _ from rfl, by decide, rfl⟩
  | @number n h =>
    obtain ⟨hword, hhead⟩ := hN.word_text h
    obtain ⟨c, rest, hcs⟩ := exists_cons_of_ne_nil hword.1
    rw [hcs] at hword hhead
    have hc : inWord c = true := hword.2 c mem_cons_self
    exact ⟨c, rest, hcs, fun hmem => Bool.false_ne_true ((not_inWord_of_ends hmem).symm.trans hc),
      hhead c rfl⟩
  | string s => exact ⟨'"', _, toList_quoted s, by decide, rfl⟩
  | array _ => exact ⟨'[', _, chars_array stream _, by decide, rfl⟩
  | object _ => exact ⟨'\x7b', _, chars_object stream _, by decide, rfl⟩

lemma not_ends_chars (ha : Plain N a) (r) : ¬EndsValue (a.chars stream ++ r) := by
  obtain ⟨c, rest, hcs, hc, -⟩ := chars_start stream hN ha
  rw [hcs]
  exact fun h => hc (h c rfl)

lemma kind_eq (ha : Plain N a) (hb : Plain N b) (h : a.chars stream ++ r = b.chars stream ++ r') :
    a.kind = b.kind := by
  obtain ⟨c, _, hcs, -, hc⟩ := chars_start stream hN ha
  obtain ⟨d, _, hds, -, hd⟩ := chars_start stream hN hb
  rw [hcs, hds] at h
  rw [← hc, ← hd, (cons.inj h).1]

/-- **A value is read off the start of a text in one way**, if it is followed by what ends it. -/
theorem splits_of_plain (ha : Plain N a) (hb : Plain N b) : Splits (chars stream) a b := by
  intro r r' hr hr' heq
  have hkind := kind_eq hN ha hb heq
  induction ha generalizing b r r' with
  | null =>
    cases hb with
    | null => exact ⟨rfl, append_cancel_left heq⟩
    | _ => cases hkind
  | boolean x =>
    cases hb with
    | boolean y =>
      cases x <;> cases y
      · exact ⟨rfl, append_cancel_left heq⟩
      · have h : "false".toList ++ r = "true".toList ++ r' := heq
        simp at h
      · have h : "true".toList ++ r = "false".toList ++ r' := heq
        simp at h
      · exact ⟨rfl, append_cancel_left heq⟩
    | _ => cases hkind
  | number hn =>
    cases hb with
    | number hn' =>
      obtain ⟨htext, hrest⟩ :=
        word_inj (hN.word_text hn).1 (hN.word_text hn').1 hr.not_inWord hr'.not_inWord heq
      rw [hN.eq_of_text hn hn' (String.toList_inj.mp htext)]
      exact ⟨rfl, hrest⟩
    | _ => cases hkind
  | string s =>
    cases hb with
    | string t =>
      obtain ⟨rfl, rfl⟩ := quoted_inj (s := s) (t := t) heq
      exact ⟨rfl, rfl⟩
    | _ => cases hkind
  | array h ih =>
    cases hb with
    | array h' =>
      simp only [chars_array, cons_append, append_assoc, nil_append, cons.injEq, true_and] at heq
      obtain ⟨rfl, rfl⟩ := list_inj (by decide)
        (fun x hx y hy r r' hr hr' heq =>
          ih x hx (h' y hy) r r' hr hr' heq (kind_eq hN (h x hx) (h' y hy) heq))
        (fun x hx => not_ends_chars hN (h x hx)) (fun y hy => not_ends_chars hN (h' y hy)) heq
      exact ⟨rfl, rfl⟩
    | _ => cases hkind
  | object h ih =>
    cases hb with
    | object h' =>
      simp only [chars_object, cons_append, append_assoc, nil_append, cons.injEq, true_and] at heq
      obtain ⟨rfl, rfl⟩ := list_inj (by decide)
        (fun p hp q hq => splits_entry fun r r' hr hr' heq =>
          ih p hp (h' q hq) r r' hr hr' heq (kind_eq hN (h p hp) (h' q hq) heq))
        (fun p _ => not_ends_entry stream p) (fun q _ => not_ends_entry stream q) heq
      exact ⟨rfl, rfl⟩
    | _ => cases hkind

/-- **The text of plain data determines it**, the order of keys included. -/
theorem text_injective (ha : Plain N a) (hb : Plain N b) (heap : Heap)
    (h : a.text heap = b.text heap) : a = b := by
  have hends : EndsValue [] := fun c hc => by cases hc
  have hsplits : Splits (chars heap.streamText) a b := splits_of_plain hN ha hb
  refine (hsplits [] [] hends hends ?_).1
  rw [append_nil, append_nil]
  exact congrArg String.toList h

omit hN in
/-- A key that is no identifier, and text with a bracket in it. -/
theorem text_injective_nested : Legible (· ∈ [.ofNat 1, .ofNat 2]) ∧
    object [("a b", .array [.string "], [", ofNat 2]), ("c", ofNat 1)]
      = object [("a b", .array [.string "], [", ofNat 2]), ("c", ofNat 1)] := by
  have hdistinct : ∀ x ∈ [Number.ofNat 1, .ofNat 2], ∀ y ∈ [Number.ofNat 1, .ofNat 2],
      x.text = y.text → x = y := by
    decide +kernel
  have hnumeral : ∀ n ∈ [Number.ofNat 1, .ofNat 2], n.text ≠ "" ∧
    n.text.toList.all inNumeral = true := by
    decide +kernel
  have hN : Legible (· ∈ [.ofNat 1, .ofNat 2]) :=
    ⟨by decide +kernel, by decide +kernel, fun n hn _ => (hnumeral n hn).imp_right all_eq_true.mp,
      fun x y hx hy _ _ h => .inl (hdistinct x hx y hy h)⟩
  have hplain : Plain (· ∈ [.ofNat 1, .ofNat 2])
      (object [("a b", .array [.string "], [", ofNat 2]), ("c", ofNat 1)]) := by
    refine .object (forall_mem_cons.mpr ⟨.array ?_, forall_mem_singleton.mpr (.number (by simp))⟩)
    exact forall_mem_cons.mpr ⟨.string _, forall_mem_singleton.mpr (.number (by simp))⟩
  exact ⟨hN, text_injective hN hplain hplain {} rfl⟩

end Value

end TreeCode
