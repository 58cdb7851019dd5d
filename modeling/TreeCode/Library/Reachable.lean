import TreeCode.Expr.FreeNames
import TreeCode.Library

/-!
# Reachable definitions

A program takes in those definitions of a library that it uses, that these use, and so on. They are
found in rounds: each round adds the definitions whose names are free in one found before. There are
no more rounds than definitions, since a round that adds nothing is the last.
-/

namespace TreeCode.Library

/-- The definitions with a name among `names`, in library order. -/
def named (sources : List (String × Expr)) (names : List String) : List (String × Expr) :=
  sources.filter (names.contains ·.1)

/-- The names found after some rounds, given those found before the first. -/
def rounds (sources : List (String × Expr)) : Nat → List String → List String
  | 0, found => found
  | count + 1, found =>
    let used := (named sources found).flatMap (·.2.freeNames)
    let more := (named sources used).map (·.1) |>.filter (!found.contains ·)
    if more.isEmpty then found else rounds sources count (found ++ more)

/-- **The definitions reachable from some names**, in library order. -/
def reachable (library : Library) (roots : List String) : List (String × Expr) :=
  let sources := library.sources
  named sources (rounds sources sources.length ((named sources roots).map (·.1)))

end TreeCode.Library
