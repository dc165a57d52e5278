import StakeChain.Tool.Run
/-!
The program: reads the files that its arguments name, runs the tool, and prints the outcome.
-/

open StakeChain.CommandLine

/-- The text of a file, if it can be read. -/
def readText? (path : String) : IO (Option String) := do
  try
    return some (← IO.FS.readFile path)
  catch _ =>
    return none

def main (args : List String) : IO UInt32 := do
  let texts ← (pathsOf args).mapM fun path => do return (path, ← readText? path)
  let outcome := run (fun path => (texts.lookup path).join) args
  for line in outcome.lines do
    IO.println line
  match outcome.error with
  | some e => IO.eprintln (errorText e)
  | none =>
    if outcome.exitCode != 0 then
      IO.eprintln s!"Usage: {programName} [OPTIONS] <COMMAND>\n\nFor more information, try '--help'."
  return UInt32.ofNat outcome.exitCode
