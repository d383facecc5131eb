/-!
# Operators

The operators of the language with their symbols and how tightly they bind.
-/

namespace TolerantExpr

/-- Arithmetic; `add` also joins strings and byte sequences. -/
inductive Arithmetic where
  | add
  | sub
  | mul
  | div
  | pow
deriving DecidableEq, Repr

/-- `&` and `|`: logical between Booleans, bitwise between integers and byte sequences. -/
inductive Logical where
  | and
  | or
deriving DecidableEq, Repr

inductive Shift where
  | left
  | right
deriving DecidableEq, Repr

inductive Comparison where
  | eq
  | ne
  | gt
  | ge
  | lt
  | le
deriving DecidableEq, Repr

/-- An operator with two operands. -/
inductive BinaryOperator where
  | arithmetic (op : Arithmetic)
  | logical (op : Logical)
  | shift (op : Shift)
  | comparison (op : Comparison)
deriving DecidableEq, Repr

def Arithmetic.symbol : Arithmetic → String
  | add => "+"
  | sub => "-"
  | mul => "*"
  | div => "/"
  | pow => "^"

def Logical.symbol : Logical → String
  | and => "&"
  | or => "|"

def Shift.symbol : Shift → String
  | left => "<<"
  | right => ">>"

def Comparison.symbol : Comparison → String
  | eq => "="
  | ne => "!="
  | gt => ">"
  | ge => ">="
  | lt => "<"
  | le => "<="

/-- All comparisons but equality and inequality, which are defined between values of every
type. -/
def Comparison.isOrdering : Comparison → Bool
  | eq => false
  | ne => false
  | _ => true

namespace BinaryOperator

def symbol : BinaryOperator → String
  | arithmetic op => op.symbol
  | logical op => op.symbol
  | shift op => op.symbol
  | comparison op => op.symbol

/-- How tightly an operator binds: a larger number binds tighter. Unary minus stands between
`*` and `^`. -/
def precedence : BinaryOperator → Nat
  | logical .or => 0
  | logical .and => 1
  | comparison .eq => 2
  | comparison .ne => 2
  | comparison _ => 3
  | shift _ => 4
  | arithmetic .add => 5
  | arithmetic .sub => 5
  | arithmetic .mul => 6
  | arithmetic .div => 6
  | arithmetic .pow => 8

end BinaryOperator
end TolerantExpr
