import TreeCode.Number.Shortest
import TreeCode.Text.Identifier
import TreeCode.Text.Quoted
import TreeCode.Value

/-!
# The text of a value

How a value is shown. The text of a stream depends on the heap, since only the nodes forced so far
are shown; `Value.textWith` is therefore given the text of streams. On plain data that argument is
never used.
-/

namespace TreeCode

/-- Items between brackets, divided by commas. -/
def commaList (items : List String) : String := ", ".intercalate items

/-- A key, in quotes unless it is an identifier. -/
def keyText (key : String) : String :=
  if Text.isIdentifier key then key else Text.quoted key

/-- The lines that a trace adds after an error. -/
def traceText (trace : List String) : String :=
  String.join (trace.map fun name => "\n  at " ++ name)

namespace Value

mutual
/-- **The text of a value**, given the text of each stream. -/
def textWith (stream : StreamId → String) : Value → String
  | .null => "null"
  | .boolean b => if b then "true" else "false"
  | .number n => n.text
  | .string s => Text.quoted s
  | .array es => "[" ++ commaList (textsWith stream es) ++ "]"
  | .object es => "\x7b" ++ commaList (entryTextsWith stream es) ++ "\x7d"
  | .closure c => "function " ++ c.name
  | .native ref => "function " ++ ref.name
  | .error kind details trace =>
    "Error \x7berror: " ++ Text.quoted kind ++ ", details: \x7b"
      ++ commaList (entryTextsWith stream details) ++ "\x7d\x7d" ++ traceText trace
  | .stream id => stream id
/-- The texts of elements. -/
def textsWith (stream : StreamId → String) : List Value → List String
  | [] => []
  | v :: vs => v.textWith stream :: textsWith stream vs
/-- The texts of properties, each with its key. -/
def entryTextsWith (stream : StreamId → String) : List (String × Value) → List String
  | [] => []
  | (key, v) :: rest => (keyText key ++ ": " ++ v.textWith stream) :: entryTextsWith stream rest
end

end Value

end TreeCode
