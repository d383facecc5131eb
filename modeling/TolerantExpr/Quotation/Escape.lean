import TolerantExpr.Number.Reading
import TolerantExpr.Value.Bytes

/-!
# Escapes inside literals

The body of a literal is text in which the escape character pairs up with what follows it: with
the delimiter or itself it stands for that character, with `n`, `r`, `t` and `0` for a control
character, and with `x` and two hexadecimal digits for a byte. Any other pair, an `x` without its
digits, and an escape at the very end stand for themselves.
-/

namespace TolerantExpr.Quotation

/-- A piece of a literal: a character, or a byte given by its two digits. -/
inductive Unit where
  | char (c : Char)
  | byte (b : UInt8)
deriving DecidableEq, Repr

/-- The control character that a letter stands for behind the escape. -/
def control? (c : Char) : Option Char :=
  if c = 'n' then some '\n'
  else if c = 'r' then some '\r'
  else if c = 't' then some '\t'
  else if c = '0' then some '\x00'
  else none

/-- What the hexadecimal digits behind an escaped `x` stand for, and how many characters are used
up: two digits are a byte; otherwise the text stands for itself, with the one digit there may
be. -/
def hexEscape (escape : Char) : List Char → List Unit × Nat
  | hi :: lo :: _ =>
    match hexDigit? hi, hexDigit? lo with
    | some h, some l => ([.byte (UInt8.ofNat (16 * h + l))], 2)
    | some _, none => ([.char escape, .char 'x', .char hi], 1)
    | none, _ => ([.char escape, .char 'x'], 0)
  | [hi] => if isHexDigit hi then ([.char escape, .char 'x', .char hi], 1)
    else ([.char escape, .char 'x'], 0)
  | [] => ([.char escape, .char 'x'], 0)

/-- The units of a body, from left to right. -/
def units (delimiter escape : Char) (body : List Char) : List Unit :=
  match body with
  | [] => []
  | c :: cs =>
    if c ≠ escape then .char c :: units delimiter escape cs
    else
      match cs with
      | [] => [.char escape]
      | d :: ds =>
        if d = delimiter ∨ d = escape then .char d :: units delimiter escape ds
        else match control? d with
          | some k => .char k :: units delimiter escape ds
          | none =>
            if d = 'x' then
              let (us, n) := hexEscape escape ds
              us ++ units delimiter escape (ds.drop n)
            else .char escape :: .char d :: units delimiter escape ds
termination_by body.length
decreasing_by
  all_goals simp only [List.length_cons, List.length_drop]; omega

/-- A unit of a string literal; a byte is the character of that number. -/
def Unit.toChar : Unit → Char
  | char c => c
  | byte b => Char.ofNat b.toNat

/-- A unit of a byte literal; a character is its UTF-8 form. -/
def Unit.toBytes : Unit → Bytes
  | char c => String.utf8EncodeChar c
  | byte b => [b]

/-- The string that a body denotes. -/
def decodeString (delimiter escape : Char) (body : List Char) : String :=
  String.ofList ((units delimiter escape body).map Unit.toChar)

/-- The byte sequence that a body denotes. -/
def decodeBytes (delimiter escape : Char) (body : List Char) : Bytes :=
  (units delimiter escape body).flatMap Unit.toBytes

end TolerantExpr.Quotation
