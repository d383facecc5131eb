import TolerantExpr.Number.Reading

/-!
# Numbers

A number is a 64-bit integer or a double, and keeps the representation it was made with.
Equality and order are numeric: two integers are compared as integers, any other pair as doubles.
A double goes over to an integer only if it denotes one in the range.
-/

namespace TolerantExpr

inductive Number where
  | int (n : Int64)
  | float (x : Float)

/-- Why a double is no 64-bit integer. -/
inductive CastError where
  /-- It has a fractional part, or is not finite. -/
  | notIntegral (x : Float)
  /-- It denotes an integer outside the range. -/
  | outOfRange (x : Float)

/-- Which representation the argument of a parameter is turned into. -/
inductive Preference where
  | unset
  | float
  | integer
deriving DecidableEq, Repr

namespace CastError

/-- The text of a double inside the message of a cast error. -/
def subject (x : Float) : String := floatTextWith ⟨"NaN", "inf"⟩ x

def message : CastError → String
  | notIntegral x => "cannot cast " ++ subject x ++ " to an integer: value is not integral"
  | outOfRange x => "cannot cast " ++ subject x ++ " to an integer: value is out of range"

end CastError

/-- Whether an integer fits in 64 bits with sign. -/
def fitsInt64 (n : Int) : Bool := Int64.minValue.toInt ≤ n && n ≤ Int64.maxValue.toInt

/-- The 64-bit integer that a double denotes. -/
def integerOf (x : Float) : Except CastError Int64 :=
  match (Binary64.ofFloat x).toInt? with
  | none => .error (.notIntegral x)
  | some n => if fitsInt64 n then .ok (Int64.ofInt n) else .error (.outOfRange x)

namespace Number

def isFloat : Number → Bool
  | int _ => false
  | float _ => true

/-- The number as a double, rounded if it is an integer of more than 53 bits. -/
def toFloat : Number → Float
  | int n => Binary64.ofInt n.toInt
  | float x => x

/-- The number as an integer. -/
def toInt : Number → Except CastError Int64
  | int n => .ok n
  | float x => integerOf x

/-- An integer where the double denotes one in the range, the double itself otherwise. -/
def ofIntegral (x : Float) : Number :=
  match integerOf x with
  | .ok n => int n
  | .error _ => float x

/-- Turn a number into the representation that is preferred. -/
def coerce (preference : Preference) (n : Number) : Except CastError Number :=
  match preference with
  | .unset => .ok n
  | .float => .ok (float n.toFloat)
  | .integer => n.toInt.map int

protected def beq : Number → Number → Bool
  | int a, int b => a == b
  | a, b => a.toFloat == b.toFloat

instance : BEq Number := ⟨Number.beq⟩

/-- How two numbers compare; NaN compares with nothing. -/
def compare? : Number → Number → Option Ordering
  | int a, int b => some (if a < b then .lt else if a == b then .eq else .gt)
  | a, b =>
    let (x, y) := (a.toFloat, b.toFloat)
    if x < y then some .lt else if x == y then some .eq else if y < x then some .gt else none

/-- The text of a number: decimal digits, or the shortest decimal of a double. -/
def text : Number → String
  | int n => toString n.toInt
  | float x => floatText x

end Number
end TolerantExpr
