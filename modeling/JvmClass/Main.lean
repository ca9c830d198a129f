import JvmClass.Report

/-!
# The command line

Prints a report on the class file that the first argument names.
-/

open JvmClass

/-- The reason why a file could not be read. -/
def readFailure : IO.Error → String
  | .noFileOrDirectory .. => "No such file or directory (os error 2)"
  | .permissionDenied .. => "Permission denied (os error 13)"
  | .inappropriateType .. => "Is a directory (os error 21)"
  | e => toString e

def readFile (path : String) : IO (Except String Bytes) := do
  try
    return .ok (← IO.FS.readBinFile path).toList
  catch e => return .error (readFailure e)

def main (args : List String) : IO UInt32 := do
  let outcome := Report.run (← args.head?.mapM fun path => do return (path, ← readFile path))
  (← IO.getStdout).putStr outcome.stdout
  (← IO.getStderr).putStr outcome.stderr
  return outcome.exitCode.toUInt32
