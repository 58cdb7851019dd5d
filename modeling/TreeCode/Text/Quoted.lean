/-!
# Quoted text

Text in double quotes. The quote, the backslash and three control characters are escaped; every
other character stands for itself.
-/

namespace TreeCode.Text

/-- How one character is written between quotes. -/
def escape : Char → List Char
  | '"' => ['\\', '"']
  | '\\' => ['\\', '\\']
  | '\n' => ['\\', 'n']
  | '\t' => ['\\', 't']
  | '\r' => ['\\', 'r']
  | c => [c]

/-- The text between double quotes. -/
def quoted (s : String) : String :=
  "\"" ++ String.ofList (s.toList.flatMap escape) ++ "\""

end TreeCode.Text
