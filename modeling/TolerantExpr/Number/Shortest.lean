import TolerantExpr.Number.Binary64

/-!
# The shortest decimal text of a double

Every double but the infinities and NaN has an interval of real numbers that round to it. Its
decimal text names the number in that interval that lies on the coarsest decimal grid
`{ n · 10 ^ k }`; if two neighbours on that grid lie in the interval, the nearer one, and of two
equally near ones the larger. The text is positional: it never has an exponent.
-/

namespace TolerantExpr

/-- The number `digits · 10 ^ exponent`. -/
structure Decimal where
  digits : Nat
  exponent : Int
deriving DecidableEq, Repr

namespace Binary64

/-- The reals that round to `mantissa · 2 ^ exponent`, in units of `2 ^ (exponent - 2)`: the
number itself and the two ends. Below a power of two the doubles are twice as dense, so the lower
end is twice as near there. -/
def roundingInterval (mantissa : Nat) (exponent : Int) : Nat × Nat × Nat :=
  let low := if mantissa = 1 <<< 52 ∧ minExponent < exponent then 4 * mantissa - 1 else 4 * mantissa - 2
  (low, 4 * mantissa, 4 * mantissa + 2)

/-- The multiple of `10 ^ k` that stands for `mantissa · 2 ^ exponent`, if one of the two
multiples around the number rounds to it. The ends of the interval belong to it when the mantissa
is even. -/
def onGrid (mantissa : Nat) (exponent k : Int) : Option Decimal :=
  let (low, number, high) := roundingInterval mantissa exponent
  -- both sides times the powers that have a negative exponent: the interval times `scale`, the
  -- grid times `step`
  let scale := Nat.pow 10 (-k).toNat <<< (exponent - 2).toNat
  let step := Nat.pow 10 k.toNat <<< (2 - exponent).toNat
  let below := number * scale / step
  let inside := fun n =>
    if mantissa % 2 = 0 then low * scale ≤ n * step && n * step ≤ high * scale
    else low * scale < n * step && n * step < high * scale
  let nearerBelow := 2 * (number * scale) < (2 * below + 1) * step
  if inside below && (nearerBelow || !inside (below + 1)) then some ⟨below, k⟩
  else if inside (below + 1) then some ⟨below + 1, k⟩
  else none

/-- A `k` with `10 ^ k` above `mantissa · 2 ^ exponent`, for a positive mantissa: the number is
below `2 ^ (log2 mantissa + 1 + exponent)`, and 0.30103 exceeds the decimal logarithm of two. -/
def coarsestGrid (mantissa : Nat) (exponent : Int) : Int :=
  let bits : Int := mantissa.log2 + 1 + exponent
  bits * (if 0 ≤ bits then 30103 else 30102) / 100000 + 1

/-- The decimal of the coarsest grid that has one. Seventeen digits always suffice, so twenty
grids below the coarsest one are enough to look at. -/
def shortest (mantissa : Nat) (exponent : Int) : Decimal :=
  if mantissa = 0 then ⟨0, 0⟩
  else
    let start := coarsestGrid mantissa exponent
    ((List.range 21).findSome? fun (i : Nat) => onGrid mantissa exponent (start - i)).getD ⟨0, 0⟩

end Binary64

namespace Decimal

/-- The digits of a natural number, at least `width` of them. -/
def padded (width n : Nat) : List Char :=
  let ds := Nat.toDigits 10 n
  List.replicate (width - ds.length) '0' ++ ds

/-- Positional notation, without zeros at the end of the fractional part and without a point
when there is no fractional part. -/
def positional (d : Decimal) : List Char :=
  if 0 ≤ d.exponent then Nat.toDigits 10 (d.digits * Nat.pow 10 d.exponent.toNat)
  else
    let places := (-d.exponent).toNat
    let ds := padded (places + 1) d.digits
    let whole := ds.take (ds.length - places)
    let fraction := ((ds.drop (ds.length - places)).reverse.dropWhile (· = '0')).reverse
    if fraction.isEmpty then whole else whole ++ '.' :: fraction

end Decimal

/-- The texts of the values that are not numbers on the line. -/
structure SpecialTexts where
  nan : String
  infinite : String

/-- The text of a double. The sign of a negative number is written, also that of a negative
zero; NaN has no sign. -/
def floatTextWith (texts : SpecialTexts) (x : Float) : String :=
  let signed := fun (negative : Bool) (text : String) => if negative then "-" ++ text else text
  match Binary64.ofFloat x with
  | .nan => texts.nan
  | .infinite negative => signed negative texts.infinite
  | .finite negative mantissa exponent =>
    signed negative (String.ofList (Binary64.shortest mantissa exponent).positional)

/-- The text of a double as a value. -/
def floatText (x : Float) : String := floatTextWith ⟨"nan", "inf"⟩ x

end TolerantExpr
