import TreeCode.Number.Reading

/-!
# Tokens of JSON

A JSON document is brackets, braces, commas, colons, texts, numbers and three words, with blanks
between them. `Json.tokens?` takes a text apart; every token takes at least one character, so this
comes to an end.

Texts hold no control characters. An escape by code gives a UTF-16 unit, and units that belong
together in pairs must come in pairs. A number has no needless zero in front and digits on both
sides of a point.
-/

namespace TreeCode.Json

/-- **A token.** -/
inductive Token where
  | openArray | closeArray | openObject | closeObject | comma | colon
  | text (text : String)
  | number (number : Number)
  | boolean (value : Bool)
  | null

/-! ## Texts -/

/-- The value of a hexadecimal digit. -/
def hexDigit? (c : Char) : Option Nat :=
  if '0' ≤ c ∧ c ≤ '9' then some (c.toNat - '0'.toNat)
  else if 'a' ≤ c ∧ c ≤ 'f' then some (c.toNat - 'a'.toNat + 10)
  else if 'A' ≤ c ∧ c ≤ 'F' then some (c.toNat - 'A'.toNat + 10)
  else none

/-- The unit that four hexadecimal digits denote. -/
def unit? (a b c d : Char) : Option Nat := do
  return (((← hexDigit? a) * 16 + (← hexDigit? b)) * 16 + (← hexDigit? c)) * 16 + (← hexDigit? d)

/-- The unit begins a pair. -/
def isLeading (unit : Nat) : Bool := 0xd800 ≤ unit && unit < 0xdc00

/-- The unit ends a pair. -/
def isTrailing (unit : Nat) : Bool := 0xdc00 ≤ unit && unit < 0xe000

/-- The character of a unit that stands alone. -/
def single? (unit : Option Nat) : Option Char := do
  let unit ← unit
  if isLeading unit || isTrailing unit then none else some (Char.ofNat unit)

/-- The character of a pair of units. -/
def pair? (first second : Option Nat) : Option Char := do
  let first ← first
  let second ← second
  if isLeading first && isTrailing second then
    some (Char.ofNat (0x10000 + (first - 0xd800) * 0x400 + (second - 0xdc00)))
  else none

/-- The character that an escape by name stands for. -/
def escaped? : Char → Option Char
  | '"' => some '"'
  | '\\' => some '\\'
  | '/' => some '/'
  | 'b' => some '\x08'
  | 'f' => some '\x0c'
  | 'n' => some '\n'
  | 'r' => some '\r'
  | 't' => some '\t'
  | _ => none

/-- One character of a text, and what follows it. -/
def character? : List Char → Option (Char × List Char)
  | '\\' :: 'u' :: a :: b :: c :: d :: rest =>
    match single? (unit? a b c d), rest with
    | some char, rest => some (char, rest)
    | none, '\\' :: 'u' :: e :: f :: g :: h :: rest =>
      (pair? (unit? a b c d) (unit? e f g h)).map (·, rest)
    | none, _ => none
  | '\\' :: c :: rest => (escaped? c).map (·, rest)
  | c :: rest => if c.toNat < 0x20 then none else some (c, rest)
  | [] => none

theorem length_of_character? {cs : List Char} {c : Char} {rest : List Char}
    (h : character? cs = some (c, rest)) : rest.length < cs.length := by
  unfold character? at h
  split at h
  · split at h
    · simp only [Option.some.injEq, Prod.mk.injEq] at h
      simp only [← h.2, List.length_cons]
      omega
    · simp only [Option.map_eq_some_iff, Prod.mk.injEq] at h
      obtain ⟨_, _, _, rfl⟩ := h
      simp only [List.length_cons]
      omega
    · simp at h
  · simp only [Option.map_eq_some_iff, Prod.mk.injEq] at h
    obtain ⟨_, _, _, rfl⟩ := h
    simp only [List.length_cons]
    omega
  · split at h <;> simp at h
    simp [h.2]
  · simp at h

/-- A text after its opening quote, and what follows its closing quote; `done` is what has been
read, in reverse. -/
def textFrom? (done : List Char) (cs : List Char) : Option (String × List Char) :=
  match cs with
  | '"' :: rest => some (String.ofList done.reverse, rest)
  | cs =>
    match _h : character? cs with
    | some (c, rest) => textFrom? (c :: done) rest
    | none => none
termination_by cs.length
decreasing_by exact length_of_character? _h

theorem length_of_textFrom? {done cs : List Char} {s : String} {rest : List Char}
    (h : textFrom? done cs = some (s, rest)) : rest.length < cs.length := by
  induction hn : cs.length using Nat.strongRecOn generalizing done cs with
  | _ n ih =>
    unfold textFrom? at h
    split at h
    · simp only [Option.some.injEq, Prod.mk.injEq] at h
      simp [← hn, h.2]
    · split at h
      next c more heq =>
        have := length_of_character? heq
        have := ih more.length (by omega) h rfl
        omega
      next => simp at h

/-! ## Numbers -/

/-- The digits before the point: a zero alone, or digits that begin with another. -/
def whole? : List Char → Option (List Char × List Char)
  | '0' :: c :: rest => if Numeral.isDigit c then none else some (['0'], c :: rest)
  | cs => Numeral.digits? cs

/-- The digits after the point, if there is one. -/
def fraction? : List Char → Option (List Char × List Char)
  | '.' :: rest => Numeral.digits? rest
  | cs => some ([], cs)

/-- A number without its sign, and what follows it. -/
def unsigned? (isNegative : Bool) (cs : List Char) : Option (Number × List Char) := do
  let (whole, rest) ← whole? cs
  let (fraction, rest) ← fraction? rest
  let (numeral, rest) ← Numeral.withExponent { isNegative, whole, fraction } rest
  return (← numeral.scaled?, rest)

/-- A number, and what follows it. -/
def number? : List Char → Option (Number × List Char)
  | '-' :: cs => unsigned? true cs
  | cs => unsigned? false cs

theorem length_of_whole? {cs digits rest : List Char} (h : whole? cs = some (digits, rest)) :
    rest.length < cs.length := by
  unfold whole? at h
  split at h
  · split at h <;> simp at h
    simp [← h.2]
  · exact Numeral.length_of_digits? h

theorem length_of_fraction? {cs digits rest : List Char} (h : fraction? cs = some (digits, rest)) :
    rest.length ≤ cs.length := by
  unfold fraction? at h
  split at h
  · have := Numeral.length_of_digits? h
    simp only [List.length_cons]
    omega
  · simp at h
    simp [h.2]

theorem length_of_unsigned? {isNegative : Bool} {cs rest : List Char} {n : Number}
    (h : unsigned? isNegative cs = some (n, rest)) : rest.length < cs.length := by
  simp only [unsigned?, Option.bind_eq_bind, Option.bind_eq_some_iff, Prod.exists] at h
  obtain ⟨_, _, h₁, _, _, h₂, _, _, h₃, _, _, h₄⟩ := h
  have := length_of_whole? h₁
  have := length_of_fraction? h₂
  have := Numeral.length_of_withExponent h₃
  simp at h₄
  grind

theorem length_of_number? {cs rest : List Char} {n : Number} (h : number? cs = some (n, rest)) :
    rest.length < cs.length := by
  unfold number? at h
  split at h
  · have := length_of_unsigned? h
    simp only [List.length_cons]
    omega
  · exact length_of_unsigned? h

/-! ## Documents as tokens -/

def isBlank (c : Char) : Bool := c == ' ' || c == '\n' || c == '\t' || c == '\r'

/-- A token that is a single character or a word, and what follows it. -/
def plain? : List Char → Option (Token × List Char)
  | '[' :: rest => some (.openArray, rest)
  | ']' :: rest => some (.closeArray, rest)
  | '\x7b' :: rest => some (.openObject, rest)
  | '\x7d' :: rest => some (.closeObject, rest)
  | ',' :: rest => some (.comma, rest)
  | ':' :: rest => some (.colon, rest)
  | 't' :: 'r' :: 'u' :: 'e' :: rest => some (.boolean true, rest)
  | 'f' :: 'a' :: 'l' :: 's' :: 'e' :: rest => some (.boolean false, rest)
  | 'n' :: 'u' :: 'l' :: 'l' :: rest => some (.null, rest)
  | _ => none

/-- One token, and what follows it. -/
def token? (cs : List Char) : Option (Token × List Char) :=
  match plain? cs, cs with
  | some found, _ => some found
  | none, '"' :: rest => (textFrom? [] rest).map fun (s, rest) => (.text s, rest)
  | none, cs => (number? cs).map fun (n, rest) => (.number n, rest)

theorem length_of_plain? {cs rest : List Char} {t : Token} (h : plain? cs = some (t, rest)) :
    rest.length < cs.length := by
  unfold plain? at h
  split at h
  all_goals
    simp only [Option.some.injEq, Prod.mk.injEq, reduceCtorEq] at h
    try simp only [← h.2, List.length_cons]
    try omega

theorem length_of_token? {cs rest : List Char} {t : Token} (h : token? cs = some (t, rest)) :
    rest.length < cs.length := by
  unfold token? at h
  split at h
  next found heq =>
    simp only [Option.some.injEq] at h
    exact length_of_plain? (h ▸ heq)
  next =>
    simp only [Option.map_eq_some_iff, Prod.exists, Prod.mk.injEq] at h
    obtain ⟨_, _, h, _, rfl⟩ := h
    have := length_of_textFrom? h
    simp only [List.length_cons]
    omega
  next =>
    simp only [Option.map_eq_some_iff, Prod.exists, Prod.mk.injEq] at h
    obtain ⟨_, _, h, _, rfl⟩ := h
    exact length_of_number? h

/-- The tokens of a text, after those in `done`, which are in reverse. -/
def tokensFrom? (done : List Token) (cs : List Char) : Option (List Token) :=
  match cs with
  | [] => some done.reverse
  | c :: rest =>
    if isBlank c then tokensFrom? done rest
    else
      match _h : token? (c :: rest) with
      | some (t, rest) => tokensFrom? (t :: done) rest
      | none => none
termination_by cs.length
decreasing_by
  · simp
  · exact length_of_token? _h

/-- **The tokens of a text.** -/
def tokens? (text : String) : Option (List Token) := tokensFrom? [] text.toList

end TreeCode.Json
