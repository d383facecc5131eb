import TolerantExpr.Value.Basic

/-!
# Evaluation errors

What can go wrong while an expression, or a constant part of one, is evaluated. An expression
that compiled can only meet a cast, a producer that answers with another type, or a producer that
fails; the other causes arise where operators and functions are applied by hand.
-/

namespace TolerantExpr

inductive EvalError where
  /-- A double that is no integer reached an operation on integers. -/
  | invalidCast (cause : CastError)
  /-- A producer answered with a value of another type. -/
  | typeMismatch (name : String) (expected found : ValueType)
  /-- The operator is not defined between values of these types. -/
  | invalidOperands (symbol : String) (left right : ValueType)
  /-- A function got no argument, or one of the wrong type, at a position. -/
  | invalidArgument (function : String) (position : Nat)
  /-- A producer reported a failure of its own. -/
  | producer (report : String)
  /-- A parameter has no value. -/
  | unbound (name : String)

def EvalError.message : EvalError → String
  | invalidCast cause => "invalid cast: " ++ cause.message
  | typeMismatch name expected found =>
    "type mismatch for '" ++ name ++ "': expected " ++ expected.name ++ ", found " ++ found.name
  | invalidOperands symbol left right =>
    "operator '" ++ symbol ++ "' cannot combine " ++ left.name ++ " and " ++ right.name
  | invalidArgument function position =>
    "invalid argument " ++ toString position ++ " for '" ++ function ++ "'"
  | producer report => "producer failed: " ++ report
  | unbound name => "parameter '" ++ name ++ "' is not bound"

end TolerantExpr
