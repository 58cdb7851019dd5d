import TreeCode.Command

/-!
# The program

Commands on the files of the system.
-/

namespace TreeCode.Main

/-- What the system says about a failure, with its number. -/
def systemMessage (e : IO.Error) : String :=
  match e with
  | .noFileOrDirectory _ code _ => "No such file or directory (os error " ++ toString code ++ ")"
  | .inappropriateType _ code details | .permissionDenied _ code details
  | .resourceBusy code details | .unsupportedOperation code details
  | .otherError code details =>
    details ++ " (os error " ++ toString code ++ ")"
  | other => toString other

/-- The result of an access to files, or what the system says. -/
def attempt {α : Type} (access : IO α) : IO (Except String α) := do
  try return .ok (← access)
  catch e => return .error (systemMessage e)

/-- The files of the system. -/
def systemFiles : Files IO where
  read path := attempt do return (← IO.FS.readBinFile path).toList
  write path bytes := attempt (IO.FS.writeBinFile path ⟨bytes.toArray⟩)

end TreeCode.Main

/-- Carry out the command line and print its report. -/
def main (args : List String) : IO UInt32 := do
  let report ← TreeCode.Command.run TreeCode.Main.systemFiles args
  (← IO.getStdout).putStr report.out
  (← IO.getStderr).putStr report.err
  return report.code.toUInt32
