import NetPattern.CommandLine

/-!
# The program

Runs the command line on the arguments of the process.
-/

open NetPattern

/-- Writes what the run writes and ends with its code. -/
def main (arguments : List String) : IO UInt32 := do
  let outcome := CommandLine.run arguments
  (← IO.getStdout).putStr outcome.output
  (← IO.getStderr).putStr outcome.errors
  return outcome.code.toUInt32
