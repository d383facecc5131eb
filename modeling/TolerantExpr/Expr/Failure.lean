import TolerantExpr.Diagnostic

/-!
# Parse failures

Why a text is no expression, with the place in the text.
-/

namespace TolerantExpr

inductive ParseCause where
  /-- Something else stands where one of some kinds of text was expected. -/
  | unexpected (expected found : String)
  /-- An integer does not fit in 64 bits. -/
  | invalidNumber (text : String)
  /-- Parentheses are nested deeper than the limit. -/
  | tooDeep (depth limit : Nat)
  | other (message : String)
deriving DecidableEq, Repr

structure ParseFailure where
  cause : ParseCause
  /-- The text that the spans refer to. -/
  source : String
  span : Span
  context : List Context := []
deriving DecidableEq, Repr

namespace ParseCause

def message : ParseCause → String
  | unexpected expected found => "Expected " ++ expected ++ ", found " ++ found
  | invalidNumber text => "Invalid number literal '" ++ text ++ "'"
  | tooDeep _ limit =>
    "Expression nesting depth exceeds maximum of " ++ toString limit ++ " levels"
  | other message => message

def code : ParseCause → String
  | unexpected _ _ => "P001"
  | invalidNumber _ => "P003"
  | tooDeep _ _ => "P004"
  | other _ => "P999"

def help : ParseCause → Option String
  | invalidNumber _ => some "Integers must fit in 64 bits; use a decimal point for larger values"
  | tooDeep _ _ => some "Reduce nesting or simplify the expression"
  | _ => none

end ParseCause

namespace ParseFailure

def diagnostic (f : ParseFailure) : Diagnostic where
  message := f.cause.message
  span := f.span
  related := f.context.map Context.note
  help := f.cause.help
  code := some f.cause.code

/-- The failure in the coordinates of another text. The notes stay where they are. -/
def relocate (f : ParseFailure) (source : String) (place : Span → Span) : ParseFailure :=
  { f with source := source, span := place f.span }

end ParseFailure
end TolerantExpr
