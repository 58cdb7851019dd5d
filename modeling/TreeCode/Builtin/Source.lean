import TreeCode.Expr

/-!
# Library functions written as trees

The part of the standard library that is defined in the language itself. A program contains those it
refers to.
-/

namespace TreeCode.Builtin

/-- A name in scope. -/
def ref (name : String) : Expr := .name name none

/-- A call of a named function with positional arguments. -/
def callOf (name : String) (args : List Expr) : Expr := .calling (ref name) (args.map .item) []

/-- A function of required positional parameters. -/
def functionOf (params : List String) (result : Expr) : Expr :=
  .given (params.map fun p => .required (.name p)) [] result

def literalOf (n : Nat) : Expr := .literal (.ofNat n)

/-- **Every library function that is a tree**, in order of definition. -/
def sources : List (String × Expr) :=
  [("increment", functionOf ["x"] (callOf "plus" [ref "x", literalOf 1])),
    ("decrement", functionOf ["x"] (callOf "minus" [ref "x", literalOf 1])),
    ("isMoreThan", functionOf ["a", "b"] (callOf "isLessThan" [ref "b", ref "a"])),
    ("isAtMost", functionOf ["a", "b"] (callOf "not" [callOf "isLessThan" [ref "b", ref "a"]])),
    ("isAtLeast", functionOf ["a", "b"] (callOf "not" [callOf "isLessThan" [ref "a", ref "b"]])),
    ("isNotEqual", functionOf ["a", "b"] (callOf "not" [callOf "equals" [ref "a", ref "b"]])),
    ("absolute", functionOf ["x"]
      (.calling (ref "if") [.item (callOf "isLessThan" [ref "x", literalOf 0])]
        [.entry (.literal (.string "then")) (functionOf [] (callOf "negative" [ref "x"])),
          .entry (.literal (.string "else")) (functionOf [] (ref "x"))])),
    ("sum", functionOf ["numbers"] (.calling (ref "plus") [.spread (ref "numbers")] [])),
    ("count", functionOf ["sequence", "condition"]
      (callOf "length" [callOf "filter" [ref "sequence", ref "condition"]]))]

end TreeCode.Builtin
