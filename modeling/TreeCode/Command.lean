import TreeCode.Expr.Reader
import TreeCode.Json
import TreeCode.Lowering
import TreeCode.Machine.Run
import TreeCode.Program.Container
import TreeCode.Program.Listing

/-!
# The command line

Four commands on files: compile a tree, run a program, compile and run in one go, and list a
program. A tree is a JSON document; a program is a program file, or a tree that is compiled on the
way.

A command reads and writes files through `Files`, in whatever monad provides them, and ends in a
report: the exit code, and what goes to the two output streams.
-/

namespace TreeCode

/-- **Access to files.** A failure is what the system says about it. -/
structure Files (m : Type → Type) where
  read : String → m (Except String Bytes)
  write : String → Bytes → m (Except String Unit)

/-- **How a command ends.** -/
structure Report where
  code : UInt8 := 0
  out : String := ""
  err : String := ""

namespace Command

/-- A command in progress: it may end early with a report. -/
abbrev Action (m : Type → Type) := ExceptT Report m

/-- Lines, each with its end. -/
def lines (texts : List String) : String := String.join (texts.map (· ++ "\n"))

/-- The exit code of bad input. -/
def inputError : UInt8 := 1

/-- The exit code of a run that ends with an error. -/
def runError : UInt8 := 3

variable {m : Type → Type} [Monad m]

/-- End with lines on the error stream. -/
def fail {α : Type} (code : UInt8) (texts : List String) : Action m α :=
  throw { code, err := lines texts }

/-- The result, or the end of the command with what is wrong. -/
def orFail {ε α : Type} (message : ε → String) : Except ε α → Action m α
  | .ok a => return a
  | .error e => fail inputError ["error: " ++ message e]

def usage : List String :=
  ["Usage: kenpali <command> [args]",
    "",
    "Commands:",
    "  compile <ast.json> [-o out.kpb] [--names names.json]   Compile an expression tree",
    "  run <prog.kpb|ast.json> [limits]                       Execute a program",
    "  eval <ast.json> [--names names.json] [limits]          Compile and execute",
    "  disassemble <prog.kpb|ast.json>                        Print the instruction listing",
    "",
    "Limits:",
    "  --step-limit N           Stop after N instructions",
    "  --time-limit SECONDS     Stop after SECONDS of wall-clock time",
    "  --call-depth-limit N     Allow N nested callbacks (default 128)"]

/-! ## Flags -/

/-- **The flags**, which are the same for every command. -/
structure Flags where
  /-- Where to write the program. -/
  output : Option String := none
  /-- Where to read names of the host. -/
  names : Option String := none
  limits : Limits := {}

/-- The number that a flag's value writes. -/
def numberOf {α : Type} (read? : String → Option α) (flag value : String) : Except String α :=
  match read? value with
  | some n => .ok n
  | none => .error (flag ++ " expects a number, got '" ++ value ++ "'")

/-- Flags with one more of them set. -/
def setFlag (flags : Flags) (flag value : String) : Except String Flags :=
  match flag with
  | "-o" => return { flags with output := some value }
  | "--names" => return { flags with names := some value }
  | "--step-limit" => do
    let steps ← numberOf Number.countOfText? flag value
    return { flags with limits := { flags.limits with steps := some steps } }
  | "--time-limit" => do
    let seconds ← numberOf Number.ofText? flag value
    let nanoseconds := some (Limits.nanosecondsOf seconds)
    return { flags with limits := { flags.limits with nanoseconds } }
  | "--call-depth-limit" => do
    let depth ← numberOf Number.countOfText? flag value
    return { flags with limits := { flags.limits with depth } }
  | other => .error ("unknown flag '" ++ other ++ "'")

/-- **Read flags**, each with its value. -/
def readFlags (flags : Flags) : List String → Except String Flags
  | [] => .ok flags
  | [flag] => .error (flag ++ " requires a value")
  | flag :: value :: rest => do readFlags (← setFlag flags flag value) rest

/-! ## Reading programs -/

variable (files : Files m)

/-- The bytes of a file. -/
def readBytes (path : String) : Action m Bytes := do
  let bytes ← files.read path
  orFail (fun e => "cannot read '" ++ path ++ "': " ++ e) bytes

/-- The text that bytes encode. -/
def textOf? (bytes : Bytes) : Option String := String.fromUTF8? ⟨bytes.toArray⟩

/-- The text of a file. -/
def readText (path : String) : Action m String := do
  match textOf? (← readBytes files path) with
  | some text => return text
  | none =>
    fail inputError ["error: cannot read '" ++ path ++ "': stream did not contain valid UTF-8"]

/-- The document in a text. -/
def parseText (path text : String) : Action m Value :=
  match Json.parse? text with
  | some value => return value
  | none => fail inputError ["error: invalid JSON in '" ++ path ++ "'"]

/-- The names that the host provides, from their file. -/
def hostNames (flags : Flags) : Action m (Entries Value) := do
  match flags.names with
  | none => return []
  | some path =>
    match ← parseText path (← readText files path) with
    | .object names => return names
    | _ => fail inputError ["error: '" ++ path ++ "' must contain a JSON object of names"]

/-- The program of a tree in a text. -/
def compileText (flags : Flags) (path text : String) : Action m Program := do
  let tree ← orFail (TreeError.message {}) (Expr.ofValue (← parseText path text))
  let names ← hostNames files flags
  orFail LoweringError.message (tree.lower { library := Builtin.library, names })

/-- The program of a tree in a file. -/
def compileFile (flags : Flags) (path : String) : Action m Program := do
  compileText files flags path (← readText files path)

/-- The program in a file: a program file, recognised by its mark, or else a tree. -/
def readProgram (flags : Flags) (path : String) : Action m Program := do
  let bytes ← readBytes files path
  if Container.magic.isPrefixOf bytes then
    orFail (fun e => "invalid binary: " ++ e.message) (Program.decode Builtin.resolve bytes)
  else
    match textOf? bytes with
    | some text => compileText files flags path text
    | none =>
      fail inputError ["error: '" ++ path ++ "' is neither a program binary nor UTF-8 JSON"]

/-! ## The commands -/

/-- Run a program and report its value or how it failed. -/
def execute (flags : Flags) (program : Program) : Action m Report := do
  let setting := { program, host := .standard, limits := flags.limits }
  match (Machine.start {}).run setting Machine.ampleFuel with
  | some (.value v, after) => return { out := lines [v.text after.heap] }
  | some (.uncaught e, after) => fail runError ["uncaught error: " ++ e.text after.heap]
  | some (.fault fault, _) => fail runError ["runtime error: " ++ fault.message]
  | none => fail runError ["runtime error: out of fuel"]

/-- Where a program is written by default: beside its tree. -/
def defaultOutput (input : String) : String :=
  let stem := if input.endsWith ".json" then (input.dropEnd 5).toString else input
  stem ++ ".kpb"

def compile (flags : Flags) (input : String) : Action m Report := do
  let output := flags.output.getD (defaultOutput input)
  let program ← compileFile files flags input
  let bytes ← orFail EncodeError.message program.encode
  orFail (fun e => "cannot write '" ++ output ++ "': " ++ e) (← files.write output bytes)
  let summary := "compiled " ++ toString program.code.size ++ " words, "
    ++ toString program.functions.size ++ " functions (" ++ toString bytes.length ++ " bytes) -> "
    ++ output
  return { err := lines [summary] }

def list (flags : Flags) (input : String) : Action m Report := do
  return { out := (← readProgram files flags input).listing {} }

/-- A command on its input file, with flags after it. -/
def onFile (name synopsis : String) (command : Flags → String → Action m Report) :
    List String → Action m Report
  | [] => fail inputError ["error: " ++ name ++ " requires an input file",
      "Usage: kenpali " ++ synopsis]
  | input :: rest => do command (← orFail id (readFlags {} rest)) input

/-- The command that the arguments name. -/
def dispatch : List String → Action m Report
  | "compile" :: rest =>
    onFile "compile" "compile <ast.json> [-o out.kpb] [--names names.json]" (compile files) rest
  | "run" :: rest =>
    onFile "run" "run <prog.kpb|ast.json> [--step-limit N] [--time-limit SECONDS]"
      (fun flags input => do execute flags (← readProgram files flags input)) rest
  | "eval" :: rest =>
    onFile "eval"
      "eval <ast.json> [--names names.json] [--step-limit N] [--time-limit SECONDS]"
      (fun flags input => do execute flags (← compileFile files flags input)) rest
  | "disassemble" :: rest =>
    onFile "disassemble" "disassemble <prog.kpb|ast.json>" (list files) rest
  | "--help" :: _ | "-h" :: _ | "help" :: _ => return { err := lines usage }
  | [] => fail inputError usage
  | other :: _ => fail inputError (["error: unknown command '" ++ other ++ "'", ""] ++ usage)

/-- **Carry out a command line.** -/
def run (args : List String) : m Report := do
  match ← (dispatch files args).run with
  | .ok report => return report
  | .error report => return report

end Command

end TreeCode
