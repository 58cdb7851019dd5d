/-!
# Numbers — binary64 kept as bit patterns

A number of the language is an IEEE-754 binary64. It is kept as its 64 bits, so that a constant read
from a program file is written back bit for bit, a NaN's payload included.

Every finite binary64 is a whole multiple of `2 ^ (-1074)`. `Number.units` is that multiple, an
exact integer, and it is the view that equality, order, the test for a whole number and the
conversions are stated on: no rule below looks at an exponent. Infinity is the next power of two
above every finite magnitude, so the view orders it rightly as well.

Only the four arithmetic operations go through hardware floats.
-/

namespace TreeCode

/-- **A binary64 number**, as its bits: one sign bit, eleven exponent bits, fifty-two fraction
bits. -/
structure Number where
  bits : UInt64
deriving DecidableEq, Inhabited

namespace Number

/-! ## The fields of the format -/

/-- The sign bit is set. -/
def isNegative (n : Number) : Bool := n.bits >>> 63 == 1

/-- The exponent field. -/
def exponentField (n : Number) : Nat := ((n.bits >>> 52) &&& 0x7ff).toNat

/-- The fraction field. -/
def fractionField (n : Number) : Nat := (n.bits &&& 0xfffffffffffff).toNat

def isNaN (n : Number) : Bool := n.exponentField == 2047 && n.fractionField != 0

def isInfinite (n : Number) : Bool := n.exponentField == 2047 && n.fractionField == 0

def isFinite (n : Number) : Bool := n.exponentField != 2047

/-- The significand as a whole number: the fraction, with the hidden bit of a normal number. -/
def significand (n : Number) : Nat :=
  if n.exponentField = 0 then n.fractionField else n.fractionField + Nat.pow 2 52

/-- The power of two that the significand is scaled by, counted from the smallest one. -/
def scale (n : Number) : Nat := n.exponentField - 1

/-! ## The exact value -/

/-- How many units make one. -/
def unitsPerOne : Nat := Nat.pow 2 1074

/-- The absolute value in units of `2 ^ (-1074)`. -/
def magnitude (n : Number) : Nat := n.significand * Nat.pow 2 n.scale

/-- **The exact value in units of `2 ^ (-1074)`.** Both zeros have none. -/
def units (n : Number) : Int :=
  if n.isNegative then -(n.magnitude : Int) else n.magnitude

/-- Numeric equality: a NaN equals nothing, and the two zeros are equal. -/
def equals (a b : Number) : Bool := !a.isNaN && !b.isNaN && a.units == b.units

instance : BEq Number := ⟨equals⟩

/-- Numeric order; a NaN is below and above nothing. -/
def isBelow (a b : Number) : Bool := !a.isNaN && !b.isNaN && a.units < b.units

def isZero (n : Number) : Bool := n.magnitude == 0

/-- Finite, with no fractional part. -/
def isWhole (n : Number) : Bool := n.isFinite && n.magnitude % unitsPerOne == 0

/-- The whole number that `n` is, if it is one. -/
def toInt? (n : Number) : Option Int :=
  if n.isWhole then
    some (if n.isNegative then -((n.magnitude / unitsPerOne : Nat) : Int)
      else (n.magnitude / unitsPerOne : Nat))
  else none

/-- The largest count, `2 ^ 64 - 1`. -/
def countLimit : Nat := Nat.pow 2 64 - 1

/-- `n` as a count: a NaN and anything negative count as zero, a fraction is cut off, and what is
too large counts as `countLimit`. -/
def toCount (n : Number) : Nat :=
  if n.isNaN || n.isNegative then 0 else min (n.magnitude / unitsPerOne) countLimit

/-! ## Rounding -/

/-- `num / den` rounded to a whole number, a half going to the even neighbour. -/
def roundDiv (num den : Nat) : Nat :=
  let quotient := num / den
  let remainder := num % den
  if den < 2 * remainder ∨ (2 * remainder = den ∧ quotient % 2 = 1) then quotient + 1
  else quotient

/-- The bits of infinity; no finite number has as many. -/
def infinityBits : Nat := 2047 * Nat.pow 2 52

/-- **The number nearest to `num / den`**, a tie going to the even significand, and infinity when
the quotient rounds beyond the largest finite number.

The quotient's units are rounded to the fifty-three leading binary places. The significand and the
scale are then added up as one word: the hidden bit of a normal number carries into the exponent
field, and so does a significand that was rounded up to the next power of two. -/
def ofRatio (num den : Nat) : Number :=
  let whole := num * unitsPerOne / den
  let scale := whole.log2 - 52
  let significand := roundDiv (num * unitsPerOne) (den * Nat.pow 2 scale)
  ⟨(min (scale * Nat.pow 2 52 + significand) infinityBits).toUInt64⟩

def ofNat (n : Nat) : Number := ofRatio n 1

/-- Change of sign, on every number. -/
def negate (n : Number) : Number := ⟨n.bits ^^^ 0x8000000000000000⟩

instance (n : Nat) : OfNat Number n := ⟨ofNat n⟩

def nan : Number := ⟨0x7ff8000000000000⟩

/-! ## Arithmetic -/

def toFloat (n : Number) : Float := Float.ofBits n.bits

def ofFloat (x : Float) : Number := ⟨x.toBits⟩

def add (a b : Number) : Number := ofFloat (a.toFloat + b.toFloat)

def subtract (a b : Number) : Number := ofFloat (a.toFloat - b.toFloat)

def multiply (a b : Number) : Number := ofFloat (a.toFloat * b.toFloat)

def divide (a b : Number) : Number := ofFloat (a.toFloat / b.toFloat)

end Number

end TreeCode
