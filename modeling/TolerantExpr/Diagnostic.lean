import TolerantExpr.Text.Span

/-!
# Diagnostics

How a problem with the text of an expression is reported: a message at a span, with notes at
other spans, and optionally a hint and a code.
-/

namespace TolerantExpr

inductive Severity where
  | error
  | warning
  | info
deriving DecidableEq, Repr

def Severity.name : Severity → String
  | error => "error"
  | warning => "warning"
  | info => "info"

/-- A remark at another place of the text. -/
structure Note where
  span : Span
  message : String
deriving DecidableEq, Repr

structure Diagnostic where
  severity : Severity := .error
  message : String
  span : Span
  related : List Note := []
  help : Option String := none
  code : Option String := none
deriving DecidableEq, Repr

/-- The diagnostic on its own, without its place: severity, message, code and hint. -/
def Diagnostic.summary (d : Diagnostic) : String :=
  let code := match d.code with
    | some c => " [" ++ c ++ "]"
    | none => ""
  let help := match d.help with
    | some h => "\nhelp: " ++ h
    | none => ""
  d.severity.name ++ ": " ++ d.message ++ code ++ help

/-- What is remembered beside an error to explain it. -/
inductive Context where
  /-- Where something was first used. -/
  | introducedAt (what : String) (span : Span)
  /-- Where a type was chosen because nothing decided it. -/
  | presumedAt (typeName : String) (span : Span)
deriving DecidableEq, Repr

def Context.span : Context → Span
  | introducedAt _ span => span
  | presumedAt _ span => span

def Context.note : Context → Note
  | introducedAt what span => ⟨span, what ++ " first used here"⟩
  | presumedAt typeName span => ⟨span, "type '" ++ typeName ++ "' assumed here"⟩

end TolerantExpr
