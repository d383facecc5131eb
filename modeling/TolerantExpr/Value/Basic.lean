import TolerantExpr.Number.Basic
import TolerantExpr.Value.Kind
import TolerantExpr.Value.Bytes

/-!
# Values

What an expression yields and what its parameters are bound to.
-/

namespace TolerantExpr

inductive Value where
  | number (n : Number)
  | string (s : String)
  | boolean (b : Bool)
  | bytes (bs : Bytes)

namespace Value

def int (n : Int64) : Value := number (.int n)

def float (x : Float) : Value := number (.float x)

/-- The type of a value. -/
def type : Value → ValueType
  | number _ => .numeric
  | string _ => .string
  | boolean _ => .boolean
  | bytes _ => .byteSequence

/-- Equality of values: numeric between numbers, and never across types. -/
protected def beq : Value → Value → Bool
  | number a, number b => a == b
  | string a, string b => a == b
  | boolean a, boolean b => a == b
  | bytes a, bytes b => a == b
  | _, _ => false

instance : BEq Value := ⟨Value.beq⟩

/-- The text of a value: strings as they are, byte sequences in hexadecimal. -/
def text : Value → String
  | number n => n.text
  | string s => s
  | boolean b => if b then "true" else "false"
  | bytes bs => bs.hex

def number? : Value → Option Number
  | number n => some n
  | _ => none

/-- The integer, if the value is a number kept as an integer. -/
def int? : Value → Option Int64
  | number (.int n) => some n
  | _ => none

/-- The number as a double, if the value is a number. -/
def float? (v : Value) : Option Float := v.number?.map Number.toFloat

def string? : Value → Option String
  | string s => some s
  | _ => none

def boolean? : Value → Option Bool
  | boolean b => some b
  | _ => none

def bytes? : Value → Option Bytes
  | bytes bs => some bs
  | _ => none

end Value

/-- A way to write some values as text; `none` leaves a value to the next formatter. -/
abbrev Formatter := Value → Option String

/-- A chain of formatters. The first one that takes a value writes it, and a value that none takes
is written as its own text. -/
abbrev Formatters := List Formatter

/-- A value written for concatenation. Strings are never handed to the formatters. -/
def Formatters.format (chain : Formatters) : Value → String
  | .string s => s
  | v => (chain.findSome? fun f => f v).getD v.text

end TolerantExpr
