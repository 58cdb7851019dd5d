import TreeCode.Value

/-!
# Expression trees

The programs that are compiled: expressions of nine forms, and the patterns that take values apart
in definitions and parameter lists.
-/

namespace TreeCode

mutual
/-- **An expression.** -/
inductive Expr where
  /-- A value that stands for itself. -/
  | literal (value : Value)
  /-- A name in scope, or a name that another module provides. -/
  | name (name : String) (from? : Option String)
  | array (elements : List ArrayElement)
  | object (entries : List ObjectElement)
  /-- A block: its definitions see each other, and its value is the result's. -/
  | defining (definitions : List (Pattern × Expr)) (result : Expr)
  /-- A function of positional and named parameters. -/
  | given (params : List ArrayPatternElement) (namedParams : List ObjectPatternElement)
      (result : Expr)
  | calling (callee : Expr) (args : List ArrayElement) (namedArgs : List ObjectElement)
  | indexing (collection : Expr) (key : Expr)
  /-- The value of the expression, or the error that it raises, as a value. -/
  | catching (inner : Expr)
/-- An element of an array or of an argument list. -/
inductive ArrayElement where
  | item (value : Expr)
  | spread (sequence : Expr)
/-- An entry of an object or of a list of named arguments. -/
inductive ObjectElement where
  | entry (key : Expr) (value : Expr)
  | spread (object : Expr)
/-- **A pattern**: what a value is taken apart into. -/
inductive Pattern where
  | name (name : String)
  | array (elements : List ArrayPatternElement)
  | object (entries : List ObjectPatternElement)
  /-- A pattern for values that satisfy a schema. -/
  | checked (pattern : Pattern) (schema : Value)
/-- An element of an array pattern, or a positional parameter. -/
inductive ArrayPatternElement where
  | required (pattern : Pattern)
  | optional (pattern : Pattern) (default : Expr)
  | rest (pattern : Pattern)
/-- An entry of an object pattern, or a named parameter. -/
inductive ObjectPatternElement where
  | property (key : String) (pattern : Pattern) (default : Option Expr)
  | rest (pattern : Pattern)
end

namespace ArrayPatternElement

def pattern : ArrayPatternElement → Pattern
  | .required p | .optional p _ | .rest p => p

def isRest : ArrayPatternElement → Bool
  | .rest _ => true
  | _ => false

end ArrayPatternElement

namespace ObjectPatternElement

def pattern : ObjectPatternElement → Pattern
  | .property _ p _ | .rest p => p

def isRest : ObjectPatternElement → Bool
  | .rest _ => true
  | _ => false

end ObjectPatternElement

namespace Pattern

mutual
/-- **The names a pattern declares**, in order of appearance. -/
def names : Pattern → List String
  | .name n => [n]
  | .array elements => elementNames elements
  | .object entries => entryNames entries
  | .checked pattern _ => pattern.names
/-- The names that array elements declare. -/
def elementNames : List ArrayPatternElement → List String
  | [] => []
  | .required p :: rest => p.names ++ elementNames rest
  | .optional p _ :: rest => p.names ++ elementNames rest
  | .rest p :: rest => p.names ++ elementNames rest
/-- The names that object entries declare. -/
def entryNames : List ObjectPatternElement → List String
  | [] => []
  | .property _ p _ :: rest => p.names ++ entryNames rest
  | .rest p :: rest => p.names ++ entryNames rest
end

/-- The one name that the whole value gets, seen through checks. -/
def label? : Pattern → Option String
  | .name n => some n
  | .checked pattern _ => pattern.label?
  | .array _ | .object _ => none

end Pattern

end TreeCode
