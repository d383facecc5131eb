import TolerantExpr.CommandLine

/-!
# The program

Reads the arguments and, where it is needed, the input, and prints what the command line says.
-/

open TolerantExpr

/-- Whether the arguments leave the expressions to the input. -/
def readsInput (arguments : List String) : Bool :=
  match CommandLine.read arguments with
  | some (.evaluate i) => i.expression.isNone
  | _ => false

def main (arguments : List String) : IO UInt32 := do
  let input ← if readsInput arguments then (← IO.getStdin).readToEnd else pure ""
  let outcome := CommandLine.run arguments input
  IO.print outcome.output
  IO.eprint outcome.report
  return UInt32.ofNat outcome.exitCode
