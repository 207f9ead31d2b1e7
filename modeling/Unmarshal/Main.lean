import Unmarshal.Invocation

/-!
# The program

Reads the file of a manifest, runs a command on what it holds, and prints the outcome.
-/
namespace Unmarshal

def readContent (path : String) : IO FileContent := do
  try
    return .ofBytes (← IO.FS.readBinFile path)
  catch
    | .noFileOrDirectory .. => return .missing
    | error => return .unreadable (toString error)

end Unmarshal

/-- Runs the command that the arguments ask for. -/
def main (args : List String) : IO UInt32 := do
  match Unmarshal.Invocation.ofArguments? args with
  | none =>
    (← IO.getStderr).putStr Unmarshal.Invocation.usage
    return 2
  | some invocation =>
    let outcome := invocation.outcome (← Unmarshal.readContent invocation.path)
    (← IO.getStdout).putStr outcome.stdout
    (← IO.getStderr).putStr outcome.stderr
    return outcome.code.toUInt32
