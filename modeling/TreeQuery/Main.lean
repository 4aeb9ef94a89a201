import TreeQuery.CommandLine

/-! # The program -/

open TreeQuery in
/-- Runs the command line and prints what it leaves behind. -/
def main (args : List String) : IO UInt32 := do
  let result := CommandLine.run args
  IO.print result.stdout
  IO.eprint result.stderr
  return UInt32.ofNat result.code
