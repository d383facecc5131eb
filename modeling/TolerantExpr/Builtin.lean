import TolerantExpr.Evaluation.Operation
import TolerantExpr.Operator.Overload
import TolerantExpr.Text.Blank

/-!
# Builtin functions

The functions that an expression can call. Each has a table of overloads, from which types are
determined, and an implementation, which is total on the arguments that the table allows. A
function whose argument is a parameter may also want its numbers as doubles.
-/

namespace TolerantExpr

inductive Builtin where
  | abs
  | acos
  | asin
  | atan
  | atan2
  | ceil
  | cos
  | exp
  | floor
  | len
  | ln
  | log
  | log10
  | lower
  | max
  | min
  | pow
  | round
  | sin
  | sqrt
  | str
  | tan
  | trim
  | upper
deriving DecidableEq, Repr

namespace Builtin

/-- All functions, in the order of their names. -/
def all : List Builtin :=
  [abs, acos, asin, atan, atan2, ceil, cos, exp, floor, len, ln, log, log10, lower, max, min, pow,
    round, sin, sqrt, str, tan, trim, upper]

def name : Builtin → String
  | abs => "abs"
  | acos => "acos"
  | asin => "asin"
  | atan => "atan"
  | atan2 => "atan2"
  | ceil => "ceil"
  | cos => "cos"
  | exp => "exp"
  | floor => "floor"
  | len => "len"
  | ln => "ln"
  | log => "log"
  | log10 => "log10"
  | lower => "lower"
  | max => "max"
  | min => "min"
  | pow => "pow"
  | round => "round"
  | sin => "sin"
  | sqrt => "sqrt"
  | str => "str"
  | tan => "tan"
  | trim => "trim"
  | upper => "upper"

/-- The function of a name. -/
def ofName? (s : String) : Option Builtin := all.find? fun f => f.name = s

/-! ### Signatures -/

def overloads : Builtin → List Overload
  | atan2 | log | max | min | pow => Overload.numeric
  | len => [⟨[.string], .numeric⟩, ⟨[.byteSequence], .numeric⟩]
  | lower | upper => [⟨[.string], .string⟩]
  | trim => [⟨[.string], .string⟩, ⟨[.string, .string], .string⟩]
  | str =>
    [⟨[.numeric], .string⟩, ⟨[.string], .string⟩, ⟨[.boolean], .string⟩,
      ⟨[.byteSequence], .string⟩]
  | _ => Overload.negation

/-- The representation that the function wants its parameters in. -/
def preference : Builtin → Preference
  | acos | asin | atan | atan2 | cos | exp | ln | log | log10 | sin | sqrt | tan => .float
  | _ => .unset

/-- The argument counts that the function accepts, each once and in increasing order. -/
def arities (f : Builtin) : List Nat :=
  ((f.overloads.map fun o => o.arguments.length).mergeSort (· ≤ ·)).eraseReps

def acceptsArity (f : Builtin) (n : Nat) : Bool :=
  f.overloads.any fun o => o.arguments.length = n

/-- The accepted argument counts as they read in a message. -/
def arityText (f : Builtin) : String := " or ".intercalate (f.arities.map toString)

/-! ### Implementations -/

/-- The argument at a position, which must be a number. -/
def numberAt (f : Builtin) (arguments : List Value) (position : Nat) : Except EvalError Number :=
  match arguments[position]?.bind Value.number? with
  | some n => .ok n
  | none => .error (.invalidArgument f.name position)

/-- The argument at a position, which must be a string. -/
def stringAt (f : Builtin) (arguments : List Value) (position : Nat) : Except EvalError String :=
  match arguments[position]?.bind Value.string? with
  | some s => .ok s
  | none => .error (.invalidArgument f.name position)

/-- A function of one double. -/
def onFloat (f : Builtin) (op : Float → Float) (arguments : List Value) : Except EvalError Value := do
  let n ← f.numberAt arguments 0
  return .float (op n.toFloat)

/-- A function of two doubles. -/
def onFloats (f : Builtin) (op : Float → Float → Float) (arguments : List Value) :
    Except EvalError Value := do
  let m ← f.numberAt arguments 0
  let n ← f.numberAt arguments 1
  return .float (op m.toFloat n.toFloat)

/-- A function of two numbers. -/
def onNumbers (f : Builtin) (op : Number → Number → Number) (arguments : List Value) :
    Except EvalError Value := do
  let m ← f.numberAt arguments 0
  let n ← f.numberAt arguments 1
  return .number (op m n)

/-- The magnitude of a number. The least integer is its own magnitude. -/
def magnitude : Number → Number
  | .int n => .int (if n < 0 then -n else n)
  | .float x => .float x.abs

/-- The smaller of two numbers as it was given, the first one unless the second is below it. -/
def lesser (a b : Number) : Number := if b.compare? a = some .lt then b else a

/-- The larger of two numbers as it was given, the first one unless the second is above it. -/
def greater (a b : Number) : Number := if b.compare? a = some .gt then b else a

/-- A rounded number: an integer wherever it is one in the range. -/
def rounded (rounding : Rounding) : Number → Number
  | .int n => .int n
  | .float x => .ofIntegral (rounding.apply x)

/-- A function of one number. -/
def onNumber (f : Builtin) (op : Number → Number) (arguments : List Value) :
    Except EvalError Value := do
  let n ← f.numberAt arguments 0
  return .number (op n)

/-- A function of one string, character by character. -/
def onChars (f : Builtin) (op : List Char → List Char) (arguments : List Value) :
    Except EvalError Value := do
  let s ← f.stringAt arguments 0
  return .string (String.ofList (op s.toList))

/-- The number of characters of a string, or of bytes of a byte sequence. -/
def length (arguments : List Value) : Except EvalError Value :=
  match arguments with
  | .string s :: _ => .ok (.int (Int64.ofNat s.length))
  | .bytes bs :: _ => .ok (.int (Int64.ofNat bs.length))
  | _ => .error (.invalidArgument len.name 0)

/-- A string without the characters of the second argument at its ends, or without white space
if there is no second argument. -/
def trimmed (arguments : List Value) : Except EvalError Value := do
  let s ← trim.stringAt arguments 0
  if arguments.length = 1 then return .string (Text.trim s)
  else
    let drops ← trim.stringAt arguments 1
    return .string (String.ofList (Text.trimEnds drops.toList.contains s.toList))

/-- The text of any value. -/
def asText (formatters : Formatters) (arguments : List Value) : Except EvalError Value :=
  match arguments with
  | v :: _ => .ok (.string (formatters.format v))
  | [] => .error (.invalidArgument str.name 0)

/-- Apply a function to any number of arguments; surplus ones are not looked at. -/
def apply (f : Builtin) (formatters : Formatters) (arguments : List Value) :
    Except EvalError Value :=
  match f with
  | abs => f.onNumber magnitude arguments
  | acos => f.onFloat Float.acos arguments
  | asin => f.onFloat Float.asin arguments
  | atan => f.onFloat Float.atan arguments
  | atan2 => f.onFloats Float.atan2 arguments
  | ceil => f.onNumber (rounded Rounding.ceil) arguments
  | cos => f.onFloat Float.cos arguments
  | exp => f.onFloat Float.exp arguments
  | floor => f.onNumber (rounded Rounding.floor) arguments
  | len => length arguments
  | ln => f.onFloat Float.log arguments
  | log => f.onFloats (fun base x => x.log / base.log) arguments
  | log10 => f.onFloat Float.log10 arguments
  | lower => f.onChars (List.map Char.toLower) arguments
  | max => f.onNumbers greater arguments
  | min => f.onNumbers lesser arguments
  | pow => f.onNumbers Arithmetic.pow.onNumbers arguments
  | round => f.onNumber (rounded Rounding.halfAway) arguments
  | sin => f.onFloat Float.sin arguments
  | sqrt => f.onFloat Float.sqrt arguments
  | str => asText formatters arguments
  | tan => f.onFloat Float.tan arguments
  | trim => trimmed arguments
  | upper => f.onChars (List.map Char.toUpper) arguments

@[simp] theorem mem_all (f : Builtin) : f ∈ all := by cases f <;> decide

end Builtin
end TolerantExpr
