import TolerantExpr.Number.Binary64

/-!
# Tolerances

A tolerance relaxes comparisons of numbers. Each of its bounds does so by itself: a comparison
holds if it holds exactly, or under one of the bounds that are set. Bounds are never joined into
a wider interval.
-/

namespace TolerantExpr

structure Tolerance where
  /-- Slack below the number compared with. -/
  lower : Option Float := none
  /-- Slack above it. -/
  upper : Option Float := none
  /-- Slack below, between numbers truncated to integers. -/
  intLower : Option Float := none
  /-- Slack above, between numbers truncated to integers. -/
  intUpper : Option Float := none
  /-- Slack as a fraction of the magnitude of either number. -/
  proportional : Option Float := none

/-- The bounds that a tolerance may have. -/
inductive Bound where
  | lower
  | upper
  | intLower
  | intUpper
  | proportional
deriving DecidableEq, Repr

namespace Tolerance

/-- The slack that a bound gives, if it is set. -/
def get? (t : Tolerance) : Bound → Option Float
  | .lower => t.lower
  | .upper => t.upper
  | .intLower => t.intLower
  | .intUpper => t.intUpper
  | .proportional => t.proportional

/-- Set one bound, whether it was set or not. -/
def set (t : Tolerance) (bound : Bound) (slack : Float) : Tolerance :=
  match bound with
  | .lower => { t with lower := some slack }
  | .upper => { t with upper := some slack }
  | .intLower => { t with intLower := some slack }
  | .intUpper => { t with intUpper := some slack }
  | .proportional => { t with proportional := some slack }

/-- No bound is set. -/
def exact : Tolerance := ⟨none, none, none, none, none⟩

def absolute (lower upper : Float) : Tolerance := { exact with lower := some lower, upper := some upper }

def integer (lower upper : Float) : Tolerance :=
  { exact with intLower := some lower, intUpper := some upper }

def fraction (p : Float) : Tolerance := { exact with proportional := some p }

/-- Whether no bound is set. A bound of zero is set. -/
def isExact (t : Tolerance) : Bool :=
  t.lower.isNone && t.upper.isNone && t.intLower.isNone && t.intUpper.isNone
    && t.proportional.isNone

/-- A double without its fractional part. -/
def truncate (x : Float) : Float := Rounding.truncate.apply x

/-- Whether `v` lies between `center - low` and `center + high`. -/
def within (v center low high : Float) : Bool := center - low ≤ v && v ≤ center + high

/-- Whether one of the two numbers lies in the interval around the other. -/
def near (x y low high : Float) : Bool := within x y low high || within y x low high

/-- Whether two numbers are near under a pair of bounds of which at least one is set; the other
one counts as zero. -/
def nearUnder (low high : Option Float) (x y : Float) : Bool :=
  (low.isSome || high.isSome) && near x y (low.getD 0) (high.getD 0)

/-- Whether a bound is set and satisfies the test. -/
def holdsUnder (bound : Option Float) (test : Float → Bool) : Bool :=
  match bound with
  | some b => test b
  | none => false

/-- Equality: the numbers are equal, or near under one of the bounds. -/
def equal (t : Tolerance) (x y : Float) : Bool :=
  x == y
    || nearUnder t.lower t.upper x y
    || nearUnder t.intLower t.intUpper (truncate x) (truncate y)
    || holdsUnder t.proportional fun p =>
      (x - y).abs ≤ p * y.abs || (x - y).abs ≤ p * x.abs

/-- `>` or `≥` between doubles. -/
def above (orEqual : Bool) (a b : Float) : Bool := if orEqual then b ≤ a else b < a

/-- `x > y`, or `x ≥ y`, with the threshold moved down by one of the bounds. -/
def greater (t : Tolerance) (orEqual : Bool) (x y : Float) : Bool :=
  above orEqual x y
    || holdsUnder t.lower (fun b => above orEqual x (y - b))
    || holdsUnder t.intLower (fun b => above orEqual (truncate x) (truncate y - b))
    || holdsUnder t.proportional fun p =>
      above orEqual x (y - p * y.abs) || above orEqual x (y - p * x.abs)

/-- `x < y`, or `x ≤ y`, with the threshold moved up by one of the bounds. -/
def less (t : Tolerance) (orEqual : Bool) (x y : Float) : Bool :=
  above orEqual y x
    || holdsUnder t.upper (fun b => above orEqual (y + b) x)
    || holdsUnder t.intUpper (fun b => above orEqual (truncate y + b) (truncate x))
    || holdsUnder t.proportional fun p =>
      above orEqual (y + p * y.abs) x || above orEqual (y + p * x.abs) x

end Tolerance
end TolerantExpr
