import TolerantExpr.Engine.Failure
import TolerantExpr.Expr.Parse
import TolerantExpr.Quotation.Extraction
import TolerantExpr.Text.Quoted
import TolerantExpr.Tolerance

/-!
# Options of the engine

The characters that delimit and escape literals must differ, and neither may be one that can
belong to a word or that is blank, since extraction has to tell literals from what surrounds them.
-/

namespace TolerantExpr

structure Options where
  delimiters : Delimiters := {}
  maxDepth : Nat := defaultMaxDepth
  /-- The tolerance of calls that do not bring their own. -/
  tolerance : Tolerance := .exact

namespace Options

/-- Why options cannot be used. -/
inductive Refusal where
  | sameCharacter (c : Char)
  | badDelimiter (c : Char)
  | badEscape (c : Char)
  | zeroDepth
deriving DecidableEq, Repr

def Refusal.message : Refusal → String
  | sameCharacter c => "delimiter and escape must differ, both are " ++ Text.quoted c
  | badDelimiter c => Text.quoted c ++ " cannot be used as the delimiter"
  | badEscape c => Text.quoted c ++ " cannot be used as the escape"
  | zeroDepth => "max_depth must be at least 1"

/-- A character that can neither delimit nor escape. -/
def isReserved (c : Char) : Bool := Text.isWordChar c || Text.isBlank c

/-- The first reason, in this order, why options cannot be used. -/
def refusal? (o : Options) : Option Refusal :=
  if o.delimiters.delimiter = o.delimiters.escape then some (.sameCharacter o.delimiters.delimiter)
  else if isReserved o.delimiters.delimiter then some (.badDelimiter o.delimiters.delimiter)
  else if isReserved o.delimiters.escape then some (.badEscape o.delimiters.escape)
  else if o.maxDepth = 0 then some .zeroDepth
  else none

end Options
end TolerantExpr
