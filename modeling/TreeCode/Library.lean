import TreeCode.Expr

/-!
# Libraries

What a program may refer to without defining it: expressions, which are compiled into a program when
it needs them, and values of the host.
-/

namespace TreeCode

/-- **A definition of a library.** -/
inductive Definition where
  | source (expr : Expr)
  | value (value : Value)

/-- **A library**: definitions by name, in order. Redefining a name keeps its place. -/
abbrev Library := Entries Definition

namespace Library

/-- The definitions that are expressions, in order. -/
def sources (library : Library) : List (String × Expr) :=
  library.filterMap fun
    | (name, .source expr) => some (name, expr)
    | (_, .value _) => none

end Library

end TreeCode
