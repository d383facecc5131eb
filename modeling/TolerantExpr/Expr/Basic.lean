import TolerantExpr.Operator.Basic
import TolerantExpr.Text.Span

/-!
# Expressions

The tree of an expression as it is written, before names and types are looked at. Parentheses
leave no trace in it but its shape.
-/

namespace TolerantExpr

/-- A number or Boolean written in an expression. -/
inductive Literal where
  | int (n : Int64)
  | float (x : Float)
  | boolean (b : Bool)

/-- Literals are the same if they have the same representation and value. -/
def Literal.same : Literal → Literal → Bool
  | int a, int b => a == b
  | float x, float y => x == y
  | boolean a, boolean b => a == b
  | _, _ => false

inductive Expr where
  | literal (l : Literal) (span : Span)
  | name (n : String) (span : Span)
  | negate (operand : Expr) (span : Span)
  | binary (op : BinaryOperator) (left right : Expr) (span : Span)
  /-- A name with arguments: a function, or a parameter that is read from a producer. -/
  | call (function : String) (arguments : List Expr) (span : Span)

namespace Expr

/-- The place of an expression in the text. Parentheses around it do not count. -/
def span : Expr → Span
  | literal _ s => s
  | name _ s => s
  | negate _ s => s
  | binary _ _ _ s => s
  | call _ _ s => s

mutual

/-- Whether two expressions are the same wherever they stand in their texts. -/
def same : Expr → Expr → Bool
  | literal a _, literal b _ => a.same b
  | name a _, name b _ => a == b
  | negate a _, negate b _ => a.same b
  | binary o a b _, binary p c d _ => decide (o = p) && (a.same c && b.same d)
  | call f as _, call g bs _ => f == g && sameAll as bs
  | _, _ => false

/-- Whether two lists of expressions are the same, one by one. -/
def sameAll : List Expr → List Expr → Bool
  | [], [] => true
  | a :: as, b :: bs => a.same b && sameAll as bs
  | _, _ => false

end

end Expr
end TolerantExpr
