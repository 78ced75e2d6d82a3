import DecisionDiagram.Queens.CommandLine

/-!
# The queens solver

The program: it hands its arguments to the command line, prints the lines that the
run produces and ends with its number.
-/

open DecisionDiagram.Queens

/-- The largest single reservation that the program attempts. -/
def addressLimit : Nat := UInt64.size / 2 - 1

def main (arguments : List String) : IO UInt32 := do
  let result := CommandLine.run addressLimit arguments
  for line in result.lines do
    IO.println line
  return UInt32.ofNat result.exitCode
