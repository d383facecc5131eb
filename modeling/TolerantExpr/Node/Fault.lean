import TolerantExpr.Diagnostic
import TolerantExpr.Parameter.Basic

/-!
# Type faults

Why an expression that could be read cannot be given types or cannot be folded.
-/

namespace TolerantExpr

inductive TypeCause where
  /-- No choice of types makes the expression valid; the parameter, if any, is the one whose type
  cannot be satisfied. -/
  | invalid (reason : String) (parameter : Option String)
  /-- A name that is no builtin function has arguments. -/
  | unknownFunction (name : String)
  /-- A function has the wrong number of arguments. -/
  | arityMismatch (name : String) (expected : String) (found : Nat)
  /-- A fixed parameter would have to change. -/
  | frozenParameter (name : String)
  /-- A constant part of the expression has no value. -/
  | fold (report : String)
deriving DecidableEq, Repr

/-- A cause with its place. -/
structure TypeFault where
  cause : TypeCause
  span : Span
deriving DecidableEq, Repr

namespace TypeCause

def message : TypeCause → String
  | invalid reason _ => "Expression is not logically valid: " ++ reason
  | unknownFunction name => "Unknown function '" ++ name ++ "'"
  | arityMismatch name expected found =>
    "Function '" ++ name ++ "' takes " ++ expected ++ " argument(s), found " ++ toString found
  | frozenParameter name => "Parameter '" ++ name ++ "' is compiled and cannot change"
  | fold report => "Constant expression cannot be evaluated: " ++ report

def code : TypeCause → String
  | invalid _ _ => "T001"
  | unknownFunction _ => "T002"
  | arityMismatch _ _ _ => "T003"
  | frozenParameter _ => "T004"
  | fold _ => "T005"

def help : TypeCause → Option String
  | unknownFunction _ =>
    some "Only builtin functions take arguments; `name()` refers to a producer"
  | frozenParameter _ => some "Seed a new registry to refine compiled parameters"
  | _ => none

end TypeCause

namespace TypeFault

/-- A fault that concerns no parameter. -/
def invalid (reason : String) (span : Span) : TypeFault := ⟨.invalid reason none, span⟩

/-- What a parameter refused, at the place that asked for it. -/
def ofParameter (e : ParameterError) (span : Span) : TypeFault :=
  match e with
  | .frozen name => ⟨.frozenParameter name, span⟩
  | e => ⟨.invalid e.message (some e.name), span⟩

end TypeFault

/-- A type fault as it is reported, with the text it refers to and places that explain it. -/
structure TypeFailure where
  fault : TypeFault
  source : String
  context : List Context := []
deriving DecidableEq, Repr

def TypeFailure.diagnostic (f : TypeFailure) : Diagnostic where
  message := f.fault.cause.message
  span := f.fault.span
  related := f.context.map Context.note
  help := f.fault.cause.help
  code := some f.fault.cause.code

end TolerantExpr
