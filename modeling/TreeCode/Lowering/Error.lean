import TreeCode.Value

/-!
# Why a tree cannot be lowered

A tree that reads as an expression may still use a name that nothing defines, or be of a shape that
has no code.
-/

namespace TreeCode

/-- **Why a tree has no code.** -/
inductive InvalidTree where
  /-- A rest pattern is followed by something. -/
  | restNotLast
  /-- A literal that is neither data nor a function. -/
  | notALiteral (kind : Kind)
  /-- A pattern's schema that is not data. -/
  | schemaNotData
  /-- A pattern's name that its scope does not declare. -/
  | undeclared (name : String)

/-- **Why a tree cannot be lowered.** -/
inductive LoweringError where
  | nameNotDefined (name : String)
  | unknownModule (module name : String)
  | nameNotInModule (module name : String)
  | invalidTree (reason : InvalidTree)
  /-- A table has more entries than words can number. -/
  | tableFull (table : String) (count : Nat)

namespace InvalidTree

def message : InvalidTree → String
  | .restNotLast => "a rest pattern must come last"
  | .notALiteral kind => kind.name ++ " values cannot be literals"
  | .schemaNotData => "pattern schemas must be plain data"
  | .undeclared name => "pattern name " ++ name ++ " was not declared"

end InvalidTree

namespace LoweringError

/-- The kind of the error, as a word. -/
def kind : LoweringError → String
  | .nameNotDefined _ => "nameNotDefined"
  | .unknownModule .. => "unknownModule"
  | .nameNotInModule .. => "nameNotInModule"
  | .invalidTree _ => "invalidAst"
  | .tableFull .. => "tooManyConstants"

def message : LoweringError → String
  | .nameNotDefined name => "name not defined: " ++ name
  | .unknownModule module name =>
    "unknown module '" ++ module ++ "' (referenced by " ++ name ++ ")"
  | .nameNotInModule module name => "module '" ++ module ++ "' has no name '" ++ name ++ "'"
  | .invalidTree reason => "invalid expression: " ++ reason.message
  | .tableFull table count => "too many " ++ table ++ " (" ++ toString count ++ ")"

end LoweringError

end TreeCode
