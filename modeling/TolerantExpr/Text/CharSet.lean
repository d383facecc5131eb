/-!
# Sets of characters given by ranges

A set of characters that a standard fixes by a table is kept as an array of inclusive ranges of
code points in increasing order, and membership is a search in it.
-/

namespace TolerantExpr.Text

/-- Inclusive ranges of code points, in increasing order and without overlaps. -/
abbrev CharSet := List (Nat × Nat)

/-- A character is in the set if its code point lies in one of the ranges. The ranges are in
increasing order, so the search stops at the first one that ends at or after the character. -/
def CharSet.has : CharSet → Char → Bool
  | [], _ => false
  | (first, last) :: ranges, c =>
    if c.toNat ≤ last then first ≤ c.toNat else CharSet.has ranges c

end TolerantExpr.Text
