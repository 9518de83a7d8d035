import DemandAlias.Command.Run

/-!
# The program

Runs the command with the files and the clock of the machine, and ends with 0 if all
went well, with 1 on a failure and with 2 if the command line cannot be read.
-/

namespace DemandAlias.Command

/-- The fault behind an error of the machine. -/
def FileFault.ofError : IO.Error → FileFault
  | .noFileOrDirectory _ _ _ => .missing
  | .inappropriateType none _ _ => .isDirectory
  | .inappropriateType (some _) _ _ => .notDirectory
  | .invalidArgument (some _) _ _ => .nameTooLong
  | e => .other (toString e)

/-- The text of a file, or why it cannot be read. -/
def readText (file : String) : IO (Except FileFault String) := do
  try
    return .ok (← IO.FS.readFile file)
  catch e =>
    return .error (.ofError e)

/-- Lets a run go on to its end, looking at the clock between batches of ticks. -/
partial def finishTimed {ω : Type} [Weight ω] [DecidableEq ω] (setting : Setting ω)
    (start : Nat) (r : Run ω) : IO (Run ω × Nat) := do
  let elapsed := (← IO.monoMsNow) - start
  if r.isRunning then finishTimed setting start (r.advance setting elapsed Run.batch)
  else return (r, elapsed)

/-- The machine the program runs on. -/
def machine : Host IO where
  read := readText
  finish setting r := do finishTimed setting (← IO.monoMsNow) r

/-- How a command line is to be written. -/
def usage : String :=
  "usage: demand-alias [--check default|none|strict] [--forward] [--max-steps N] "
    ++ "[--on-the-fly] [--path] [--prune] [--quiet] [--scope FILE] [--stats] "
    ++ "[--timeout-ms N] [--tracing] PROGRAM"

end DemandAlias.Command

open DemandAlias.Command in
/-- Runs the command. -/
def main (args : List String) : IO UInt32 := do
  match ← run machine args with
  | .misused =>
    IO.eprintln usage
    return 2
  | .reported lines failure =>
    lines.forM fun line => IO.println line
    match failure with
    | none => return 0
    | some failure =>
      failure.lines.forM fun line => IO.eprintln line
      return 1
