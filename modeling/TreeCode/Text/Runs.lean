/-!
# Sets of characters as runs

A set of characters is given by the lengths of the runs of code points that are outside the set and
inside it by turns, beginning outside. What comes after the last run is on its other side.
-/

namespace TreeCode.Text

/-- Membership of a code point, counted from the start of the first run: it has passed that run, and
from its end on is outside the set of the runs that follow. -/
def inside : List Nat → Nat → Bool
  | [], _ => false
  | run :: later, code => run ≤ code && !inside later (code - run)

/-- Membership in the set with these runs. -/
def inRuns (runs : List Nat) (c : Char) : Bool := inside runs c.toNat

end TreeCode.Text
