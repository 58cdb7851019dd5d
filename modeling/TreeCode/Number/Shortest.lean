import TreeCode.Number

/-!
# Shortest decimals

The text of a number has the fewest decimal digits that read back as the same number, and among
those the digits nearest to its exact value.

A finite nonzero number is the only one nearest to every real of an interval around it; the ends
belong to the interval when the significand is even. `Decimal.shortest` tries the decimal grids
from the coarsest on. On each grid only the two neighbours of the exact value can lie in the
interval, so the first grid with a neighbour inside gives the answer. All comparisons are between
natural numbers.
-/

namespace TreeCode

/-- **A positive decimal**, `digits * 10 ^ exponent`. -/
structure Decimal where
  digits : Nat
  exponent : Int
deriving DecidableEq

namespace Decimal

/-- The exact value and the ends of the interval of reals that round to it, as numerators over one
denominator. -/
structure Interval where
  low : Nat
  value : Nat
  high : Nat
  denominator : Nat
  closed : Bool

/-- Quarter steps between a number and its neighbours. The gap below a power of two is half as wide
as the gap above, except at the bottom of the range. -/
def Interval.around (n : Number) : Interval :=
  let m := n.significand
  let below := if m = Nat.pow 2 52 ∧ 0 < n.scale then 1 else 2
  { low := (4 * m - below) * Nat.pow 2 n.scale
    value := 4 * m * Nat.pow 2 n.scale
    high := (4 * m + 2) * Nat.pow 2 n.scale
    denominator := 4 * Number.unitsPerOne
    closed := m % 2 = 0 }

/-- `candidate / denominator` lies in the interval whose numerators are scaled by `by`. -/
def Interval.holds (i : Interval) (scaledBy candidate : Nat) : Bool :=
  if i.closed then i.low * scaledBy ≤ candidate && candidate ≤ i.high * scaledBy
  else i.low * scaledBy < candidate && candidate < i.high * scaledBy

/-- The point of the grid of step `10 ^ exponent` that lies in the interval and is nearest to the
value, the upper one of two that are equally near. -/
def onGrid (i : Interval) (exponent : Int) : Option Nat :=
  let scaledBy := Nat.pow 10 (-exponent).toNat
  let step := i.denominator * Nat.pow 10 exponent.toNat
  let lower := i.value * scaledBy / step
  let upper := lower + 1
  match i.holds scaledBy (lower * step), i.holds scaledBy (upper * step) with
  | true, false => some lower
  | false, true => some upper
  | true, true =>
    if 2 * (i.value * scaledBy - lower * step) < step then some lower else some upper
  | false, false => none

/-- The first grid, from `exponent` downwards, with a point in the interval. -/
def search (i : Interval) : Nat → Int → Decimal
  | 0, exponent => ⟨0, exponent⟩
  | tries + 1, exponent =>
    match onGrid i exponent with
    | some digits => ⟨digits, exponent⟩
    | none => search i tries (exponent - 1)

/-- How many decimal digits `n` has. -/
def width (n : Nat) : Nat := (Nat.toDigits 10 n).length

/-- The number of decimal places after which `num / den` first shows a digit other than zero. -/
def leadingPlaces (num den : Nat) : Nat → Nat
  | 0 => 0
  | tries + 1 => if den ≤ num then 0 else leadingPlaces (num * 10) den tries + 1

/-- An exponent whose grid is coarser than the leading digit of the value. -/
def coarsest (i : Interval) : Int :=
  if i.denominator ≤ i.value then (width (i.value / i.denominator) : Int)
  else 1 - (leadingPlaces i.value i.denominator 400 : Int)

/-- **The shortest decimal that reads back as `n`**, for a finite `n` other than zero. Seventeen
digits always suffice, and the first grid tried is one place above the leading digit. -/
def shortest (n : Number) : Decimal :=
  let i := Interval.around n
  search i 20 (coarsest i)

/-- Zeros, `count` of them. -/
def zeros (count : Nat) : String := String.ofList (List.replicate count '0')

/-- The decimal in positional notation, without an exponent. -/
def toPositional (d : Decimal) : String :=
  let text := toString d.digits
  if 0 ≤ d.exponent then text ++ zeros d.exponent.toNat
  else
    let places := (-d.exponent).toNat
    let padded := zeros (places + 1 - text.length) ++ text
    let cut := padded.length - places
    String.ofList (padded.toList.take cut) ++ "." ++ String.ofList (padded.toList.drop cut)

end Decimal

namespace Number

/-- From this magnitude on, whole numbers are written with the shortest digits and zeros after
them. -/
def exactTextLimit : Nat := Nat.pow 10 15

/-- **The text of a number.** Whole numbers of fewer than sixteen digits are written in full, and
negative zero as `0`; all others have their shortest digits in positional notation. -/
def text (n : Number) : String :=
  if n.isNaN then "NaN"
  else if n.isInfinite then (if n.isNegative then "-Infinity" else "Infinity")
  else if n.isWhole && n.magnitude < exactTextLimit * unitsPerOne then
    toString ((n.toInt?).getD 0)
  else (if n.isNegative then "-" else "") ++ (Decimal.shortest n).toPositional

end Number

end TreeCode
