import TolerantExpr.Expr.Basic
import TolerantExpr.Number.Reading
import TolerantExpr.Text.Blank

/-!
# Tokens

An expression is read as a list of tokens with blanks between them. A token is the longest text
at its place that forms one; a character that begins none is kept as a stray token, so that
reading always takes in the whole text and the parser says what it expected instead.
-/

namespace TolerantExpr

inductive Token where
  /-- An integer without sign, as large as it is written. -/
  | int (n : Nat)
  | float (x : Float)
  | boolean (b : Bool)
  | name (s : String)
  /-- An operator; `-` is kept as subtraction, also where it stands for a sign. -/
  | operator (op : BinaryOperator)
  | leftParen
  | rightParen
  | comma
  | stray (c : Char)

/-- A token with the text it was read from. -/
structure Lexeme where
  token : Token
  text : List Char
  /-- The byte offset of the text. -/
  start : Nat

def Lexeme.span (l : Lexeme) : Span := .ofText l.start l.text

namespace Token

/-! ### Character classes -/

/-- A character that can stand inside a decimal number after its first digit. -/
def isDigitOrGap (c : Char) : Bool := c.isDigit || c = '_'

/-- A character that can stand inside a hexadecimal number after its first digit. -/
def isHexDigitOrGap (c : Char) : Bool := isHexDigit c || c = '_'

/-- An ASCII letter or underscore. -/
def isNameStart (c : Char) : Bool := c.isAlpha || c = '_'

/-- A character that can stand inside a name. -/
def isNameChar (c : Char) : Bool := c.isAlphanum || c = '_'

/-! ### Numbers -/

/-- The run of digits at the start of a text: a digit, then digits and underscores. -/
def digitRun : List Char → List Char
  | [] => []
  | c :: cs => if c.isDigit then c :: cs.takeWhile isDigitOrGap else []

/-- The fractional part at the start of a text: a point and the digits after it, if there are
any. -/
def pointPart : List Char → List Char
  | '.' :: cs => '.' :: digitRun cs
  | _ => []

/-- The sign at the start of a text. -/
def signPart : List Char → List Char
  | '+' :: _ => ['+']
  | '-' :: _ => ['-']
  | _ => []

/-- The exponent part at the start of a text: `e`, an optional sign, and at least one digit. -/
def exponentPart : List Char → List Char
  | [] => []
  | c :: cs =>
    let sign := signPart cs
    let digits := digitRun (cs.drop sign.length)
    if (c = 'e' ∨ c = 'E') ∧ digits ≠ [] then c :: sign ++ digits else []

/-- The hexadecimal number at the start of a text: `0x` and at least one digit. -/
def hexPart : List Char → List Char
  | '0' :: x :: h :: cs =>
    if (x = 'x' ∨ x = 'X') ∧ isHexDigit h then '0' :: x :: h :: cs.takeWhile isHexDigitOrGap else []
  | _ => []

/-- A text without its underscores. -/
def withoutGaps (cs : List Char) : List Char := cs.filter (· ≠ '_')

/-- The double that a decimal text denotes. -/
def floatOf (cs : List Char) : Float :=
  match Decimal.ofText? (withoutGaps cs) with
  | some d => d.toFloat false
  | none => 0

/-- The number at the start of a text, with its text. A number with a point or an exponent is a
double; a point needs a digit on one of its sides. -/
def number? (cs : List Char) : Option (Token × List Char) :=
  let whole := digitRun cs
  let point := pointPart (cs.drop whole.length)
  if whole = [] ∧ point.length ≤ 1 then none
  else
    let mantissa := whole ++ point
    let exponent := exponentPart (cs.drop mantissa.length)
    if point = [] ∧ exponent = [] then
      match hexPart cs with
      | [] => some (int (natOfDigits 10 (withoutGaps whole)), whole)
      | hex => some (int (natOfDigits 16 (withoutGaps (hex.drop 2))), hex)
    else some (float (floatOf (mantissa ++ exponent)), mantissa ++ exponent)

/-! ### All tokens -/

/-- A word is a name unless it is `true` or `false`. -/
def ofWord (cs : List Char) : Token :=
  let word := String.ofList cs
  if word = "true" then boolean true
  else if word = "false" then boolean false
  else name word

/-- The operator or mark at the start of a text, with the number of its characters. -/
def symbol? : List Char → Option (Token × Nat)
  | '<' :: '<' :: _ => some (operator (.shift .left), 2)
  | '>' :: '>' :: _ => some (operator (.shift .right), 2)
  | '!' :: '=' :: _ => some (operator (.comparison .ne), 2)
  | '>' :: '=' :: _ => some (operator (.comparison .ge), 2)
  | '<' :: '=' :: _ => some (operator (.comparison .le), 2)
  | '=' :: '=' :: _ => some (operator (.comparison .eq), 2)
  | '=' :: _ => some (operator (.comparison .eq), 1)
  | '>' :: _ => some (operator (.comparison .gt), 1)
  | '<' :: _ => some (operator (.comparison .lt), 1)
  | '|' :: _ => some (operator (.logical .or), 1)
  | '&' :: _ => some (operator (.logical .and), 1)
  | '+' :: _ => some (operator (.arithmetic .add), 1)
  | '-' :: _ => some (operator (.arithmetic .sub), 1)
  | '*' :: _ => some (operator (.arithmetic .mul), 1)
  | '/' :: _ => some (operator (.arithmetic .div), 1)
  | '^' :: _ => some (operator (.arithmetic .pow), 1)
  | '(' :: _ => some (leftParen, 1)
  | ')' :: _ => some (rightParen, 1)
  | ',' :: _ => some (comma, 1)
  | _ => none

/-- The token that begins with the character `c`, and how many of the characters after it belong
to the token. -/
def read (c : Char) (cs : List Char) : Token × Nat :=
  if isNameStart c then
    let word := cs.takeWhile isNameChar
    (ofWord (c :: word), word.length)
  else
    match number? (c :: cs) with
    | some (t, text) => (t, text.length - 1)
    | none =>
      match symbol? (c :: cs) with
      | some (t, n) => (t, n - 1)
      | none => (stray c, 0)

/-- All tokens of a text that begins at a byte offset. -/
def scan (offset : Nat) (cs : List Char) : List Lexeme :=
  match cs with
  | [] => []
  | c :: cs =>
    if Text.isTokenBlank c then scan (offset + c.utf8Size) cs
    else
      let (t, n) := read c cs
      let text := c :: cs.take n
      ⟨t, text, offset⟩ :: scan (offset + byteLength text) (cs.drop n)
termination_by cs.length
decreasing_by
  · simp
  · simp only [List.length_drop, List.length_cons]; omega

end Token
end TolerantExpr
