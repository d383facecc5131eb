import TolerantExpr.Number.Shortest

/-!
# Reading numbers

The readers for numbers that stand alone: integers of 64 bits and doubles, each with an optional
sign. A decimal text is read as an exact decimal first and then rounded once, to the nearest
double.
-/

namespace TolerantExpr

/-- The value of a hexadecimal digit of either case. -/
def hexDigit? (c : Char) : Option Nat :=
  if '0' ≤ c ∧ c ≤ '9' then some (c.toNat - '0'.toNat)
  else if 'a' ≤ c ∧ c ≤ 'f' then some (c.toNat - 'a'.toNat + 10)
  else if 'A' ≤ c ∧ c ≤ 'F' then some (c.toNat - 'A'.toNat + 10)
  else none

def isHexDigit (c : Char) : Bool := (hexDigit? c).isSome

/-- The natural number that digits denote in a base; characters that are no digits are passed
over. -/
def natOfDigits (base : Nat) (ds : List Char) : Nat :=
  ds.foldl (fun n c => match hexDigit? c with
    | some d => n * base + d
    | none => n) 0

/-- Split off the longest run of decimal digits. -/
def splitDigits (cs : List Char) : List Char × List Char :=
  (cs.takeWhile Char.isDigit, cs.dropWhile Char.isDigit)

/-- Split off an optional sign; `true` means negative. -/
def splitSign : List Char → Bool × List Char
  | '-' :: cs => (true, cs)
  | '+' :: cs => (false, cs)
  | cs => (false, cs)

namespace Decimal

/-- The double nearest to a decimal. Exponents far outside the range of doubles are decided
without forming the power: `10 ^ 400` is above all doubles, and a number of `b` bits times
`10 ^ e` with `e < -(400 + b)` is nearer to zero than to any other double. -/
def toFloat (negative : Bool) (d : Decimal) : Float :=
  if d.digits = 0 then Binary64.withSign negative 0
  else if 400 < d.exponent then Binary64.withSign negative Binary64.infiniteBits
  else if d.exponent < -(400 + (d.digits.log2 : Int)) then Binary64.withSign negative 0
  else Binary64.nearest negative (d.digits * Nat.pow 10 d.exponent.toNat) (Nat.pow 10 (-d.exponent).toNat)

/-- The exponent part of a decimal text, absent or `e` with an optional sign and digits. -/
def exponent? : List Char → Option Int
  | [] => some 0
  | c :: cs =>
    if c = 'e' ∨ c = 'E' then
      let (negative, ds) := splitSign cs
      if ds ≠ [] ∧ ds.all Char.isDigit then
        let n : Int := natOfDigits 10 ds
        some (if negative then -n else n)
      else none
    else none

/-- Read `12`, `12.`, `.5`, `1.5` or any of these with an exponent part. -/
def ofText? (cs : List Char) : Option Decimal :=
  let (whole, rest) := splitDigits cs
  let (fraction, tail) := match rest with
    | '.' :: r => splitDigits r
    | r => ([], r)
  if whole = [] ∧ fraction = [] then none
  else (exponent? tail).map fun e =>
    ⟨natOfDigits 10 (whole ++ fraction), e - (fraction.length : Int)⟩

end Decimal

/-- Read a double: a decimal text, or `inf`, `infinity` or `nan` in any case, after an optional
sign. -/
def readFloat? (s : String) : Option Float :=
  let (negative, cs) := splitSign s.toList
  let word := cs.map Char.toLower
  if word = "inf".toList ∨ word = "infinity".toList then
    some (Binary64.withSign negative Binary64.infiniteBits)
  else if word = "nan".toList then some (0.0 / 0.0)
  else (Decimal.ofText? cs).map (·.toFloat negative)

/-- Read an integer of 64 bits: decimal digits after an optional sign, within the range. -/
def readInt? (s : String) : Option Int64 :=
  let (negative, ds) := splitSign s.toList
  if ds = [] ∨ ¬ ds.all Char.isDigit then none
  else
    let n : Int := natOfDigits 10 ds
    let signed := if negative then -n else n
    if Int64.minValue.toInt ≤ signed ∧ signed ≤ Int64.maxValue.toInt then some (Int64.ofInt signed)
    else none

end TolerantExpr
