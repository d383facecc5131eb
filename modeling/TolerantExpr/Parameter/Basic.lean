import TolerantExpr.Number.Basic
import TolerantExpr.Value.Kind

/-!
# Parameters

The free names of an expression. While an expression is analyzed a parameter is open: its set of
types can still shrink, and its preference and its use as a producer are recorded as they are met.
Once the analysis is done it is fixed. A fixed parameter never changes; an open copy of it can be
made for another expression.
-/

namespace TolerantExpr

structure OpenParameter where
  name : String
  types : TypeSet := .full
  preference : Preference := .unset
  /-- Whether the parameter is read from a producer; open until the first use decides it. -/
  producer : Option Bool := none
  /-- When the parameter first appeared. -/
  order : Nat
deriving DecidableEq, Repr

structure FixedParameter where
  name : String
  type : ValueType
  preference : Preference
  producer : Bool
  order : Nat
deriving DecidableEq, Repr

/-- A parameter in either state. -/
inductive Parameter where
  | opened (p : OpenParameter)
  | fixed (p : FixedParameter)
deriving DecidableEq, Repr

/-- Why a parameter cannot be what it would have to be. -/
inductive ParameterError where
  /-- No type is both allowed and still possible. -/
  | conflict (name : String) (current requested : TypeSet)
  | preferenceConflict (name : String)
  | producerConflict (name : String)
  /-- The parameter is fixed. -/
  | frozen (name : String)
  /-- More than one type is possible. -/
  | unresolved (name : String)
  /-- There is no such parameter. -/
  | unknown (name : String)
deriving DecidableEq, Repr

namespace ParameterError

def name : ParameterError → String
  | conflict name _ _ => name
  | preferenceConflict name => name
  | producerConflict name => name
  | frozen name => name
  | unresolved name => name
  | unknown name => name

def message : ParameterError → String
  | conflict name current requested =>
    "parameter '" ++ name ++ "' cannot be " ++ requested.text
      ++ ": it is already restricted to " ++ current.text
  | preferenceConflict name =>
    "parameter '" ++ name ++ "' is used both as a float and as an integer"
  | producerConflict name =>
    "parameter '" ++ name ++ "' is used both as a producer and as a plain value"
  | frozen name => "parameter '" ++ name ++ "' is compiled and can no longer change"
  | unresolved name => "the type of parameter '" ++ name ++ "' could not be determined"
  | unknown name => "unknown parameter '" ++ name ++ "'"

end ParameterError

/-- How a change in place ends. Either way it tells what it leaves behind. -/
inductive Changed (α : Type) where
  | ok (left : α)
  | error (e : ParameterError) (left : α)
deriving DecidableEq, Repr

namespace Changed

/-- The same change as one of something larger. -/
def map (f : α → β) : Changed α → Changed β
  | ok left => ok (f left)
  | error e left => error e (f left)

/-- The end of a change that is given up with all that it left behind if it fails. -/
def toExcept : Changed α → Except ParameterError α
  | ok left => .ok left
  | error e _ => .error e

end Changed

namespace OpenParameter

/-- Leave only the allowed types; at least one must be left. -/
def narrow (p : OpenParameter) (allowed : TypeSet) : Changed OpenParameter :=
  let types := p.types.inter allowed
  if types = .empty then .error (.conflict p.name p.types allowed) p
  else .ok { p with types := types }

/-- Leave only one type. -/
def pin (p : OpenParameter) (t : ValueType) : Changed OpenParameter :=
  p.narrow (.only t)

/-- Record a preference; it must agree with one recorded before. -/
def prefer (p : OpenParameter) (wanted : Preference) : Changed OpenParameter :=
  if wanted = .unset ∨ wanted = p.preference then .ok p
  else if p.preference = .unset then .ok { p with preference := wanted }
  else .error (.preferenceConflict p.name) p

/-- Record whether the parameter is read from a producer; every use must agree. -/
def recordUse (p : OpenParameter) (producer : Bool) : Changed OpenParameter :=
  match p.producer with
  | none => .ok { p with producer := some producer }
  | some current => if current = producer then .ok p else .error (.producerConflict p.name) p

/-- Fix a parameter of which one type is left. -/
def fix (p : OpenParameter) : Except ParameterError FixedParameter :=
  match p.types.single? with
  | none => .error (.unresolved p.name)
  | some t => .ok ⟨p.name, t, p.preference, p.producer.getD false, p.order⟩

end OpenParameter

/-- An open copy with the same type, order and uses. -/
def FixedParameter.toOpen (p : FixedParameter) : OpenParameter :=
  ⟨p.name, .only p.type, p.preference, some p.producer, p.order⟩

namespace Parameter

def name : Parameter → String
  | opened p => p.name
  | fixed p => p.name

def types : Parameter → TypeSet
  | opened p => p.types
  | fixed p => .only p.type

def order : Parameter → Nat
  | opened p => p.order
  | fixed p => p.order

def preference : Parameter → Preference
  | opened p => p.preference
  | fixed p => p.preference

def isProducer : Parameter → Bool
  | opened p => p.producer = some true
  | fixed p => p.producer

def isFixed : Parameter → Bool
  | opened _ => false
  | fixed _ => true

/-- An open copy, whatever the state. -/
def toOpen : Parameter → OpenParameter
  | opened p => p
  | fixed p => p.toOpen

/-- Change an open parameter; a fixed one refuses. -/
def change (f : OpenParameter → Changed OpenParameter) : Parameter → Changed Parameter
  | opened p => (f p).map opened
  | fixed p => .error (.frozen p.name) (fixed p)

end Parameter
end TolerantExpr
