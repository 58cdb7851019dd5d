import TreeCode.Text.Alphabetic
import TreeCode.Text.Numeric

/-!
# Identifiers

A key that is an identifier is written without quotes.
-/

namespace TreeCode.Text

/-- May begin an identifier. -/
def startsIdentifier (c : Char) : Bool := isAlphabetic c || c == '_'

/-- May stand inside an identifier. -/
def continuesIdentifier (c : Char) : Bool := isAlphabetic c || isNumeric c || c == '_'

/-- **An identifier** is a letter or an underscore, then letters, numbers and underscores. -/
def isIdentifier (s : String) : Bool :=
  match s.toList with
  | [] => false
  | c :: cs => startsIdentifier c && cs.all continuesIdentifier

end TreeCode.Text
