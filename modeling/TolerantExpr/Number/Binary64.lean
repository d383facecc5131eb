/-!
# Doubles as exact numbers

A finite double is `± m · 2 ^ e` for a natural number `m` and an integer `e`. Everything the
library decides about a double (its digits, whether it is integral, which double is nearest to a
fraction) it decides on `m` and `e` in exact arithmetic; only `+ - * /`, the comparisons and the
transcendental functions are left to the machine.
-/

namespace TolerantExpr

/-- What a double denotes. -/
inductive Binary64 where
  | nan
  | infinite (negative : Bool)
  /-- The number `± mantissa · 2 ^ exponent`. -/
  | finite (negative : Bool) (mantissa : Nat) (exponent : Int)
deriving DecidableEq, Repr

namespace Binary64

/-- The exponent of the least double above zero. -/
def minExponent : Int := -1074

/-- Split a double into its sign, its exponent field and its fraction field. -/
def ofFloat (x : Float) : Binary64 :=
  let bits := x.toBits.toNat
  let negative := bits >>> 63 = 1
  let field : Nat := bits >>> 52 % 2048
  let fraction := bits % (1 <<< 52)
  if field = 2047 then
    if fraction = 0 then .infinite negative else .nan
  else if field = 0 then .finite negative fraction minExponent
  else .finite negative (1 <<< 52 + fraction) ((field : Int) - 1075)

/-- The double with the given sign and the given 63 low bits. -/
def withSign (negative : Bool) (bits : Nat) : Float :=
  Float.ofBits (UInt64.ofNat (if negative then 1 <<< 63 + bits else bits))

/-- The low bits of the double whose magnitude is infinite. -/
def infiniteBits : Nat := 2047 <<< 52

/-- The quotient `num / den` rounded to the nearest natural number, a half to the even one. -/
def divHalfEven (num den : Nat) : Nat :=
  let q := num / den
  let twice := 2 * (num % den)
  if twice < den then q
  else if den < twice then q + 1
  else q + q % 2

/-- A fraction over a power of two: `num / den = a / b · 2 ^ exponent`. -/
def scaleDown (num den : Nat) (exponent : Int) : Nat × Nat :=
  if 0 ≤ exponent then (num, den <<< exponent.toNat) else (num <<< (-exponent).toNat, den)

/-- The exponent at which `num / den` has a mantissa of 53 bits, or the least one there is. -/
def mantissaExponent (num den : Nat) : Int :=
  let high : Int := (num.log2 : Int) - den.log2 - 52
  let (a, b) := scaleDown num den high
  max minExponent (if a / b < 1 <<< 52 then high - 1 else high)

/-- The low bits of the double nearest to `num / den`, a tie going to the even mantissa.
A fraction halfway or further beyond the largest double is infinite. -/
def nearestBits (num den : Nat) : Nat :=
  if num = 0 then 0
  else
    let exponent := mantissaExponent num den
    let (a, b) := scaleDown num den exponent
    let mantissa := divHalfEven a b
    if mantissa < 1 <<< 52 then mantissa
    else min infiniteBits ((exponent + 1075).toNat <<< 52 + (mantissa - 1 <<< 52))

/-- The double nearest to `± num / den`. -/
def nearest (negative : Bool) (num den : Nat) : Float :=
  withSign negative (nearestBits num den)

/-- The integer that a double denotes, if it denotes one. -/
def toInt? : Binary64 → Option Int
  | nan => none
  | infinite _ => none
  | finite negative mantissa exponent =>
    let magnitude : Option Nat :=
      if 0 ≤ exponent then some (mantissa <<< exponent.toNat)
      else
        let unit := 1 <<< (-exponent).toNat
        if mantissa % unit = 0 then some (mantissa / unit) else none
    magnitude.map fun n => if negative then -(n : Int) else n

end Binary64

/-- Which integer a fraction goes to: from the sign, the integer part of the magnitude, and the
rest of the magnitude as `rest / unit`. -/
abbrev Rounding := (negative : Bool) → (whole rest unit : Nat) → Nat

namespace Rounding

/-- Towards zero. -/
def truncate : Rounding := fun _ whole _ _ => whole

/-- Down. -/
def floor : Rounding := fun negative whole rest _ =>
  if negative && rest != 0 then whole + 1 else whole

/-- Up. -/
def ceil : Rounding := fun negative whole rest _ =>
  if !negative && rest != 0 then whole + 1 else whole

/-- To the nearest integer, a half away from zero. -/
def halfAway : Rounding := fun _ whole rest unit =>
  if unit ≤ 2 * rest then whole + 1 else whole

/-- Round a double to an integral one. A double without a fractional part stays as it is, and so
do the infinities and NaN. The sign is kept, also at zero. -/
def apply (rounding : Rounding) (x : Float) : Float :=
  match Binary64.ofFloat x with
  | .finite negative mantissa exponent =>
    if 0 ≤ exponent then x
    else
      let unit := 1 <<< (-exponent).toNat
      Binary64.nearest negative (rounding negative (mantissa / unit) (mantissa % unit) unit) 1
  | _ => x

end Rounding

/-- The double nearest to an integer, a tie going to the even mantissa. -/
def Binary64.ofInt (n : Int) : Float := Binary64.nearest (n < 0) n.natAbs 1

end TolerantExpr
