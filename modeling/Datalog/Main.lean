import Datalog.CommandLine

/-!
# The program

Reads the program file that the command line names, and prints what its evaluation leaves behind.
-/

open Datalog.CommandLine

/-- Read a file, or find out why it cannot be read. -/
def readProgramFile (path : String) : IO (Except ReadError String) := do
  try
    return .ok (← IO.FS.readFile path)
  catch error =>
    return .error <|
      match error with
      | .noFileOrDirectory .. => .notFound
      -- Opening fails with the name of the file, while reading a directory fails without.
      | .inappropriateType (some _) .. => .notDirectory
      | .inappropriateType none .. => .isDirectory
      | .permissionDenied .. => .permissionDenied
      | .invalidArgument _ 36 _ => .nameTooLong
      | .userError _ => .notText
      | other => .other (toString other)

/-- Print an outcome and return its exit code. -/
def printOutcome (outcome : Outcome) : IO UInt32 := do
  (← IO.getStdout).putStr outcome.stdout
  (← IO.getStderr).putStr outcome.stderr
  return outcome.code.toUInt32

/-- Evaluations on the command line stop after as many passes, or tasks in a pass, as this. -/
def commandFuel : Nat := UInt64.size

def main (args : List String) : IO UInt32 := do
  match command args with
  | .error error => printOutcome (failure error.message)
  | .ok .help => printOutcome { stdout := usage }
  | .ok (.evaluate options) => do
      let contents ← readProgramFile options.path
      printOutcome (evaluate commandFuel options contents)
