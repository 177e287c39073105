import Horn.CommandLine

/-!
# The program

Runs the command line on the arguments of the process.
-/

def main (args : List String) : IO UInt32 := do
  let outcome := Horn.CommandLine.execute args
  IO.print outcome.output
  unless outcome.complaint.isEmpty do
    IO.eprintln outcome.complaint
  pure outcome.code
