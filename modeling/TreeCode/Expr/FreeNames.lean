import TreeCode.Expr

/-!
# Free names

The names that an expression uses without binding them. A block binds the names of all its patterns,
and a function those of its parameters, in everything inside them, the defaults of their patterns
included. A name that a module provides is not free.
-/

namespace TreeCode

namespace Expr

mutual
/-- **The names that are free in an expression**, those in `bound` apart, in order of use. -/
def freeIn (bound : List String) : Expr → List String
  | .literal _ => []
  | .name n none => if bound.contains n then [] else [n]
  | .name _ (some _) => []
  | .array elements => freeInElements bound elements
  | .object entries => freeInEntries bound entries
  | .defining definitions result =>
    let bound := definitions.flatMap (fun d => d.1.names) ++ bound
    freeInDefinitions bound definitions ++ result.freeIn bound
  | .given params namedParams result =>
    let bound := Pattern.elementNames params ++ Pattern.entryNames namedParams ++ bound
    freeInParams bound params ++ freeInNamedParams bound namedParams ++ result.freeIn bound
  | .calling callee args namedArgs =>
    callee.freeIn bound ++ freeInElements bound args ++ freeInEntries bound namedArgs
  | .indexing collection key => collection.freeIn bound ++ key.freeIn bound
  | .catching inner => inner.freeIn bound
def freeInElements (bound : List String) : List ArrayElement → List String
  | [] => []
  | .item e :: rest => e.freeIn bound ++ freeInElements bound rest
  | .spread e :: rest => e.freeIn bound ++ freeInElements bound rest
def freeInEntries (bound : List String) : List ObjectElement → List String
  | [] => []
  | .entry key value :: rest =>
    key.freeIn bound ++ value.freeIn bound ++ freeInEntries bound rest
  | .spread e :: rest => e.freeIn bound ++ freeInEntries bound rest
def freeInDefinitions (bound : List String) : List (Pattern × Expr) → List String
  | [] => []
  | (pattern, value) :: rest =>
    freeInPattern bound pattern ++ value.freeIn bound ++ freeInDefinitions bound rest
/-- The names that are free in the defaults of a pattern. -/
def freeInPattern (bound : List String) : Pattern → List String
  | .name _ => []
  | .array elements => freeInParams bound elements
  | .object entries => freeInNamedParams bound entries
  | .checked pattern _ => freeInPattern bound pattern
def freeInParams (bound : List String) : List ArrayPatternElement → List String
  | [] => []
  | .required p :: rest => freeInPattern bound p ++ freeInParams bound rest
  | .optional p default :: rest =>
    default.freeIn bound ++ freeInPattern bound p ++ freeInParams bound rest
  | .rest p :: rest => freeInPattern bound p ++ freeInParams bound rest
def freeInNamedParams (bound : List String) : List ObjectPatternElement → List String
  | [] => []
  | .property _ p none :: rest => freeInPattern bound p ++ freeInNamedParams bound rest
  | .property _ p (some default) :: rest =>
    default.freeIn bound ++ freeInPattern bound p ++ freeInNamedParams bound rest
  | .rest p :: rest => freeInPattern bound p ++ freeInNamedParams bound rest
end

/-- **The free names of an expression.** A name occurs once for each use. -/
def freeNames (e : Expr) : List String := e.freeIn []

end Expr

end TreeCode
