import TolerantExpr.Text.CharSet

/-!
# White space

Two notions of blank characters are in use. Between the tokens of an expression only the four
ASCII blanks are skipped. When a text is trimmed, and when a character is considered as the
delimiter of literals, every character with the Unicode property `White_Space` is blank.
-/

namespace TolerantExpr.Text

/-- The blanks allowed between tokens: space, tab, carriage return and line feed. -/
def isTokenBlank (c : Char) : Bool := c = ' ' || c = '\t' || c = '\r' || c = '\n'

/-- The characters with the Unicode property `White_Space`. -/
def whiteSpace : CharSet :=
  [(0x9, 0xD), (0x20, 0x20), (0x85, 0x85), (0xA0, 0xA0), (0x1680, 0x1680), (0x2000, 0x200A),
    (0x2028, 0x2029), (0x202F, 0x202F), (0x205F, 0x205F), (0x3000, 0x3000)]

def isBlank (c : Char) : Bool := whiteSpace.has c

/-- Drop the characters that satisfy `drops` from both ends. -/
def trimEnds (drops : Char → Bool) (cs : List Char) : List Char :=
  ((cs.dropWhile drops).reverse.dropWhile drops).reverse

/-- Drop white space from both ends. -/
def trim (s : String) : String := String.ofList (trimEnds isBlank s.toList)

end TolerantExpr.Text
