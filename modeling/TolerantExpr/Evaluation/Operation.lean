import TolerantExpr.Evaluation.Error
import TolerantExpr.Operator.Basic
import TolerantExpr.Tolerance

/-!
# Operators on values

What each operator does to values. Constant parts of an expression are folded with the same
functions that a program runs, so a folded expression and an evaluated one agree.
-/

namespace TolerantExpr

/-! ### On the representations -/

/-- Arithmetic on doubles, by the rules of IEEE 754: no operation fails. -/
def Arithmetic.onFloats (op : Arithmetic) (x y : Float) : Float :=
  match op with
  | add => x + y
  | sub => x - y
  | mul => x * y
  | div => x / y
  | pow => x.pow y

/-- Arithmetic on integers. `+`, `-` and `*` wrap around; a quotient and a power are computed on
doubles and are an integer where the double denotes one in the range. -/
def Arithmetic.onIntegers (op : Arithmetic) (a b : Int64) : Number :=
  match op with
  | add => .int (a + b)
  | sub => .int (a - b)
  | mul => .int (a * b)
  | op => .ofIntegral (op.onFloats (Binary64.ofInt a.toInt) (Binary64.ofInt b.toInt))

/-- Arithmetic on numbers: between integers if both are, otherwise between doubles. -/
def Arithmetic.onNumbers (op : Arithmetic) : Number → Number → Number
  | .int a, .int b => op.onIntegers a b
  | a, b => .float (op.onFloats a.toFloat b.toFloat)

def Logical.onBooleans (op : Logical) (a b : Bool) : Bool :=
  match op with
  | and => a && b
  | or => a || b

/-- Bit by bit. -/
def Logical.onIntegers (op : Logical) (a b : Int64) : Int64 :=
  match op with
  | and => a &&& b
  | or => a ||| b

/-- Bit by bit. -/
def Logical.onBytes (op : Logical) (a b : Bytes) : Bytes :=
  match op with
  | and => a.and b
  | or => a.or b

def Shift.reverse : Shift → Shift
  | left => right
  | right => left

/-- The opposite of an amount. That of the least one is out of range, and the greatest is taken. -/
def Shift.negated (amount : Int64) : Int64 := Int64.ofIntClamp (-amount.toInt)

/-- An amount as a number of places, which is a word of 32 bits, if it is one. -/
def Shift.places? (amount : Int64) : Option UInt32 :=
  if 0 ≤ amount.toInt ∧ amount.toInt < UInt32.size then some (UInt32.ofNat amount.toInt.toNat)
  else none

/-- An integer moved by some places, which must be fewer than it has bits. To the right, the sign
bit comes in. -/
def Shift.move? (op : Shift) (n : Int64) (places : UInt32) : Option Int64 :=
  if places < 64 then
    match op with
    | left => some (n <<< Int64.ofNat places.toNat)
    | right => some (n >>> Int64.ofNat places.toNat)
  else none

/-- What an integer becomes when all of its bits are moved out. -/
def Shift.fill (op : Shift) (n : Int64) : Int64 :=
  match op with
  | left => 0
  | right => if n < 0 then -1 else 0

theorem Shift.toInt_negated {amount : Int64} (h : amount < 0) :
    (negated amount).toInt = min (-amount.toInt) Int64.maxValue.toInt := by
  have hneg : amount.toInt < 0 := Int64.lt_iff_toInt_lt.mp h
  have hmin : Int64.minValue.toInt = -Int64.maxValue.toInt - 1 := rfl
  have hmax : 0 ≤ Int64.maxValue.toInt := by decide
  by_cases hfits : -amount.toInt ≤ Int64.maxValue.toInt
  · rw [negated, Int64.toInt_ofIntClamp] <;> omega
  · rw [negated, Int64.ofIntClamp, dif_pos (by omega), dif_neg (by omega)]
    omega

theorem Shift.not_negated_neg {amount : Int64} (h : amount < 0) : ¬negated amount < 0 := by
  have hneg : amount.toInt < 0 := Int64.lt_iff_toInt_lt.mp h
  have hmax : 0 ≤ Int64.maxValue.toInt := by decide
  rw [Int64.lt_iff_toInt_lt, toInt_negated h, Int64.toInt_zero]
  omega

/-- A shift of an integer: a negative amount shifts the other way. -/
def Shift.onIntegers (op : Shift) (n amount : Int64) : Int64 :=
  if _turns : amount < 0 then op.reverse.onIntegers n (negated amount)
  else ((places? amount).bind (op.move? n)).getD (op.fill n)
termination_by if amount < 0 then 1 else 0
decreasing_by
  have := Shift.not_negated_neg _turns
  simp [*]

def Shift.onBytes (op : Shift) (bs : Bytes) (amount : Int64) : Bytes :=
  match op with
  | left => bs.shiftLeft amount
  | right => bs.shiftRight amount

/-- Whether a comparison holds of two values that compare in the given way. -/
def Comparison.holds (op : Comparison) (o : Ordering) : Bool :=
  match op with
  | eq => o == .eq
  | ne => o != .eq
  | gt => o == .gt
  | ge => o != .lt
  | lt => o == .lt
  | le => o != .gt

/-- A comparison of doubles under a tolerance. -/
def Comparison.holdsUnder (op : Comparison) (t : Tolerance) (x y : Float) : Bool :=
  match op with
  | eq => t.equal x y
  | ne => !t.equal x y
  | gt => t.greater false x y
  | ge => t.greater true x y
  | lt => t.less false x y
  | le => t.less true x y

/-! ### On values -/

namespace Evaluation

/-- The error of an operator that is not defined between two values. -/
def undefined (symbol : String) (left right : Value) : EvalError :=
  .invalidOperands symbol left.type right.type

/-- `+`: the sum of numbers, byte sequences joined, or both sides joined as text if either is a
string. -/
def combine (formatters : Formatters) (left right : Value) : Except EvalError Value :=
  match left, right with
  | .number a, .number b => .ok (.number (Arithmetic.add.onNumbers a b))
  | .bytes a, .bytes b => .ok (.bytes (a ++ b))
  | .string s, v => .ok (.string (s ++ formatters.format v))
  | v, .string s => .ok (.string (formatters.format v ++ s))
  | _, _ => .error (undefined "+" left right)

/-- Any arithmetic operator; `+` is defined beyond numbers. -/
def arithmetic (formatters : Formatters) (op : Arithmetic) (left right : Value) :
    Except EvalError Value :=
  match op, left, right with
  | .add, _, _ => combine formatters left right
  | _, .number a, .number b => .ok (.number (op.onNumbers a b))
  | _, _, _ => .error (undefined op.symbol left right)

/-- Unary minus. The least integer is its own negative. -/
def negate : Value → Except EvalError Value
  | .number (.int n) => .ok (.int (-n))
  | .number (.float x) => .ok (.float (-x))
  | v => .error (undefined "-" v v)

/-- A number as an integer. -/
def toInteger (n : Number) : Except EvalError Int64 :=
  match n.toInt with
  | .ok i => .ok i
  | .error cause => .error (.invalidCast cause)

/-- `&` and `|` on two values that are both there. Numbers must denote integers, the left one
being looked at first. -/
def logical (op : Logical) (left right : Value) : Except EvalError Value :=
  match left, right with
  | .boolean a, .boolean b => .ok (.boolean (op.onBooleans a b))
  | .number a, .number b => do
    let i ← toInteger a
    let j ← toInteger b
    return .int (op.onIntegers i j)
  | .bytes a, .bytes b => .ok (.bytes (op.onBytes a b))
  | _, _ => .error (undefined op.symbol left right)

/-- `<<` and `>>`. The amount is looked at before what is shifted; both must denote integers,
unless a byte sequence is shifted. -/
def shift (op : Shift) (left right : Value) : Except EvalError Value :=
  match right with
  | .number k => do
    let amount ← toInteger k
    match left with
    | .number n => do
      let i ← toInteger n
      return .int (op.onIntegers i amount)
    | .bytes bs => return .bytes (op.onBytes bs amount)
    | _ => throw (undefined op.symbol left right)
  | _ => .error (undefined op.symbol left right)

/-- Exact comparison. Numbers compare by value across representations, strings and byte
sequences lexicographically; Booleans are only equal or not. Of a pair with NaN only `≠`
holds. -/
def compare (op : Comparison) (left right : Value) : Except EvalError Bool :=
  match left, right with
  | .number a, .number b =>
    match a.compare? b with
    | some o => .ok (op.holds o)
    | none => .ok (op = .ne)
  | .string a, .string b => .ok (op.holds (compareOfLessAndEq a b))
  | .bytes a, .bytes b => .ok (op.holds (a.compare b))
  | .boolean a, .boolean b =>
    if op.isOrdering then .error (undefined op.symbol left right)
    else .ok (op.holds (Ord.compare a b))
  | _, _ => .error (undefined op.symbol left right)

/-- Comparison under a tolerance, which matters between numbers only. They are compared as
doubles. -/
def compareTolerant (t : Tolerance) (op : Comparison) (left right : Value) :
    Except EvalError Bool :=
  match left, right with
  | .number a, .number b => .ok (op.holdsUnder t a.toFloat b.toFloat)
  | _, _ => compare op left right

end Evaluation
end TolerantExpr
