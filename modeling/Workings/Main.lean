import Workings.Demonstration

/-!
# The command line

Prints the demonstrations named by the arguments, or all of them.
-/

/-- Prints the demonstrations asked for. -/
def main (args : List String) : IO UInt32 := do
  IO.print (Workings.Demonstration.textFor args)
  return 0
