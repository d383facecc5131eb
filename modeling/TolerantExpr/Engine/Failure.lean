import TolerantExpr.Expr.Failure
import TolerantExpr.Node.Fault
import TolerantExpr.Program.Call

/-!
# Failures of the engine

What a user of the engine is told when options are refused, an expression does not compile, or a
call yields no value.
-/

namespace TolerantExpr

inductive Failure where
  /-- The engine was set up in a way that cannot work. -/
  | setup (message : String)
  /-- An expression does not compile. The spans refer to `source`. -/
  | compilation (diagnostics : List Diagnostic) (source : String)
  /-- Evaluation failed. -/
  | runtime (message : String)
  /-- The arguments do not fit the parameters. -/
  | binding (message : String)
deriving DecidableEq, Repr

namespace Failure

/-- One diagnostic is quoted; of several the errors are counted. -/
def message : Failure → String
  | setup m => "API error: " ++ m
  | compilation [d] _ => "Compilation failed: " ++ d.message
  | compilation ds _ =>
    "Compilation failed with "
      ++ toString (ds.filter fun d => d.severity = .error).length ++ " error(s)"
  | runtime m => "Runtime error: " ++ m
  | binding m => "Binding error: " ++ m

/-- A failure that has no place in a text, as it is shown to a user. -/
def line (f : Failure) : String := f.message ++ "\n"

def ofParse (f : ParseFailure) : Failure := compilation [f.diagnostic] f.source

def ofType (f : TypeFailure) : Failure := compilation [f.diagnostic] f.source

/-- A failed evaluation is a failure at run time, also where it was that of a producer asked
while arguments were bound. -/
def ofCall : CallError → Failure
  | .evaluation e => runtime e.message
  | e => binding e.message

end Failure
end TolerantExpr
