import TreeCode.Number

/-!
# Reading numbers

A number is written as digits, perhaps a fraction and an exponent. There are two rules for its
value.

The exact rule, `Numeral.nearest`, is the number nearest to what is written.

The quick rule, `Numeral.scaled?`, is that of JSON documents here. It keeps as many digits as fit
a 64-bit significand, drops the others, and scales the significand with one multiplication or
division by a power of ten. It may miss the nearest number by a few units in the last place, and it
refuses what is too large.
-/

namespace TreeCode

/-- **A number as it is written**: a sign, the digits before and after the point, and the
exponent. -/
structure Numeral where
  isNegative : Bool := false
  whole : List Char
  fraction : List Char := []
  exponent : Int := 0

namespace Numeral

def isDigit (c : Char) : Bool := '0' ≤ c && c ≤ '9'

def digitValue (c : Char) : Nat := c.toNat - '0'.toNat

/-- The number that digits denote, after those that came to `start`. -/
def digitsValue (start : Nat) (digits : List Char) : Nat :=
  digits.foldl (fun n c => n * 10 + digitValue c) start

/-- Give a number the numeral's sign. -/
def signed (n : Numeral) (value : Number) : Number := if n.isNegative then value.negate else value

/-! ## The exact rule -/

/-- The number nearest to `digits * 10 ^ exponent`. What lies far outside the range of numbers is
infinite or zero, whatever its digits are. -/
def nearestScaled (digits : Nat) (length : Nat) (exponent : Int) : Number :=
  if digits = 0 ∨ exponent + length < -400 then 0
  else if 400 < exponent + length then ⟨Number.infinityBits.toUInt64⟩
  else if 0 ≤ exponent then .ofRatio (digits * Nat.pow 10 exponent.toNat) 1
  else .ofRatio digits (Nat.pow 10 (-exponent).toNat)

/-- **The number nearest to the numeral.** -/
def nearest (n : Numeral) : Number :=
  let digits := (n.whole ++ n.fraction).dropWhile (· == '0')
  n.signed (nearestScaled (digitsValue 0 digits) digits.length (n.exponent - n.fraction.length))

/-! ## The quick rule -/

/-- The largest significand. -/
def significandLimit : Nat := Nat.pow 2 64 - 1

/-- The significand after as many digits as fit, and the digits that do not. -/
def absorb (significand : Nat) : List Char → Nat × List Char
  | [] => (significand, [])
  | c :: rest =>
    let next := significand * 10 + digitValue c
    if significandLimit < next then (significand, c :: rest) else absorb next rest

/-- The largest power of ten that is a number. -/
def powerLimit : Nat := 308

/-- The power of ten. -/
def power (exponent : Nat) : Number := .ofNat (Nat.pow 10 exponent)

/-- Divide by a power of ten, by the largest one as often as needed. -/
def scaleDown (value : Number) (exponent : Nat) : Number :=
  if exponent ≤ powerLimit then value.divide (power exponent)
  else if value.isZero then value
  else scaleDown (value.divide (power powerLimit)) (exponent - powerLimit)
termination_by exponent
decreasing_by simp only [powerLimit] at *; omega

/-- Multiply by a power of ten; the result must be finite. -/
def scaleUp? (value : Number) (exponent : Nat) : Option Number :=
  if exponent ≤ powerLimit then some (value.multiply (power exponent)) |>.filter (!·.isInfinite)
  else if value.isZero then some value
  else none

/-- Scale by a power of ten. -/
def scale? (value : Number) (exponent : Int) : Option Number :=
  if 0 ≤ exponent then scaleUp? value exponent.toNat
  else some (scaleDown value (-exponent).toNat)

/-- The largest written exponent that is looked at; a larger one only says very large or very
small. -/
def exponentLimit : Nat := Nat.pow 2 31 - 1

/-- **The value of the numeral by the quick rule**, if it is in range. -/
def scaled? (n : Numeral) : Option Number :=
  let (significand, dropped) := absorb 0 n.whole
  let (significand, ignored) := absorb significand n.fraction
  let point : Int := dropped.length - (n.fraction.length - ignored.length : Nat)
  let value :=
    if n.exponent.natAbs ≤ exponentLimit then scale? (.ofNat significand) (point + n.exponent)
    else if significand = 0 ∨ n.exponent < 0 then some 0
    else none
  value.map n.signed

/-! ## Grammar -/

/-- The digits at the front, of which there must be one at least. -/
def digits? (cs : List Char) : Option (List Char × List Char) :=
  match cs.takeWhile isDigit with
  | [] => none
  | digits => some (digits, cs.dropWhile isDigit)

/-- An exponent after its mark: perhaps a sign, and digits. -/
def exponent? : List Char → Option (Int × List Char)
  | '+' :: cs => (digits? cs).map fun (digits, rest) => ((digitsValue 0 digits : Int), rest)
  | '-' :: cs => (digits? cs).map fun (digits, rest) => (-(digitsValue 0 digits : Int), rest)
  | cs => (digits? cs).map fun (digits, rest) => ((digitsValue 0 digits : Int), rest)

/-- The exponent of a numeral, if its mark follows. -/
def withExponent (n : Numeral) : List Char → Option (Numeral × List Char)
  | 'e' :: cs | 'E' :: cs => (exponent? cs).map fun (exponent, rest) => ({ n with exponent }, rest)
  | cs => some (n, cs)

theorem length_of_digits? {cs digits rest : List Char} (h : digits? cs = some (digits, rest)) :
    rest.length < cs.length := by
  have hcs := congrArg List.length (List.takeWhile_append_dropWhile (p := isDigit) (l := cs))
  unfold digits? at h
  split at h
  · simp at h
  next hne =>
    simp only [Option.some.injEq, Prod.mk.injEq] at h
    rw [← h.2, ← hcs, List.length_append]
    have := List.length_pos_iff.mpr hne
    omega

theorem length_of_exponent? {cs rest : List Char} {e : Int} (h : exponent? cs = some (e, rest)) :
    rest.length < cs.length := by
  unfold exponent? at h
  split at h
  all_goals
    simp only [Option.map_eq_some_iff, Prod.exists, Prod.mk.injEq] at h
    obtain ⟨_, _, h, _, rfl⟩ := h
    have := length_of_digits? h
    grind

theorem length_of_withExponent {n m : Numeral} {cs rest : List Char}
    (h : withExponent n cs = some (m, rest)) : rest.length ≤ cs.length := by
  unfold withExponent at h
  split at h
  · simp only [Option.map_eq_some_iff, Prod.exists, Prod.mk.injEq] at h
    obtain ⟨_, _, h, _, rfl⟩ := h
    have := length_of_exponent? h
    simp only [List.length_cons]
    omega
  · simp only [Option.map_eq_some_iff, Prod.exists, Prod.mk.injEq] at h
    obtain ⟨_, _, h, _, rfl⟩ := h
    have := length_of_exponent? h
    simp only [List.length_cons]
    omega
  · simp only [Option.some.injEq, Prod.mk.injEq] at h
    simp [h.2]

end Numeral

namespace Number

/-- The word for a number that no digits write, in any case. -/
def ofWord? (cs : List Char) : Option Number :=
  match cs.map Char.toLower with
  | ['i', 'n', 'f'] | ['i', 'n', 'f', 'i', 'n', 'i', 't', 'y'] => some ⟨infinityBits.toUInt64⟩
  | ['n', 'a', 'n'] => some nan
  | _ => none

/-- Digits with or without a point, one digit at least, and perhaps an exponent. -/
def ofNumeral? (isNegative : Bool) (cs : List Char) : Option Number :=
  let whole := cs.takeWhile Numeral.isDigit
  let (fraction, rest) := match cs.dropWhile Numeral.isDigit with
    | '.' :: rest => (rest.takeWhile Numeral.isDigit, rest.dropWhile Numeral.isDigit)
    | rest => ([], rest)
  if whole.isEmpty && fraction.isEmpty then none
  else
    match Numeral.withExponent { isNegative, whole, fraction } rest with
    | some (numeral, []) => some numeral.nearest
    | _ => none

/-- A number without its sign. -/
def ofUnsigned? (isNegative : Bool) (cs : List Char) : Option Number :=
  match ofWord? cs with
  | some n => some (if isNegative then n.negate else n)
  | none => ofNumeral? isNegative cs

/-- **The number that a text writes**, the nearest one: a numeral or the word for infinity or for
no number, with or without a sign. -/
def ofText? (text : String) : Option Number :=
  match text.toList with
  | '+' :: cs => ofUnsigned? false cs
  | '-' :: cs => ofUnsigned? true cs
  | cs => ofUnsigned? false cs

/-- **The count that a text writes**: digits, perhaps after a plus sign, up to `countLimit`. -/
def countOfText? (text : String) : Option Nat :=
  let cs := match text.toList with
    | '+' :: cs => cs
    | cs => cs
  if cs.isEmpty || !cs.all Numeral.isDigit then none
  else some (Numeral.digitsValue 0 cs) |>.filter (· ≤ countLimit)

end Number

end TreeCode
