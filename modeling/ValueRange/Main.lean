import ValueRange.Command.Run

/-! The command line: it reads the files that a run may look at and prints the outcome. -/

/-- What is found at a path of the system. -/
def readEntry (path : String) : IO ValueRange.Entry := do
  match ← (IO.FS.Handle.mk path .read).toBaseIO with
  | .error (.noFileOrDirectory ..) => return .missing
  | .error _ => return .blocked
  | .ok handle =>
    match ← handle.readToEnd.toBaseIO with
    | .ok text => return .file text
    | .error _ => return .directory

/-- Runs the command. -/
def main (args : List String) : IO UInt32 := do
  let found ← (ValueRange.Command.paths args).mapM fun path => do
    return (path, ← readEntry path)
  let read (path : String) : ValueRange.Entry := (found.lookup path).getD .missing
  let term := (← IO.getEnv "TERM").getD ""
  let outcome := ValueRange.Command.run read term args
  IO.print outcome.output
  IO.eprint outcome.errors
  return outcome.status.toUInt32
