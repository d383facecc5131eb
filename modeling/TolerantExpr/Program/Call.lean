import TolerantExpr.Evaluation.Error
import TolerantExpr.Parameter.Registry

/-!
# Arguments of a call

A call binds each parameter of an expression to a slot. An argument is a value or a producer, a
function of the host that is asked for a value. A parameter that is written `name()` asks its
producer at every use; any other parameter takes one value from it when it is bound.

The host may keep any state between answers, so a producer is a function of the history of the
call: the slots whose producers have been asked so far, in order.
-/

namespace TolerantExpr

/-- The slots whose producers have been asked, in order. -/
abbrev History := List Nat

/-- What the host answers after a history. -/
abbrev Producer := History → Except EvalError Value

inductive Argument where
  | value (v : Value)
  | producer (p : Producer)

/-- Why a call yields no value. -/
inductive CallError where
  | argumentCount (expected found : Nat)
  | missing (name : String)
  | typeMismatch (name : String) (expected found : ValueType)
  | invalidCast (name : String) (cause : CastError)
  /-- Evaluation failed, or a producer that was asked for the value of a plain parameter. -/
  | evaluation (e : EvalError)

def CallError.message : CallError → String
  | argumentCount expected found =>
    "expected " ++ toString expected ++ " argument(s), got " ++ toString found
  | missing name => "no value found for parameter '" ++ name ++ "'"
  | typeMismatch name expected found =>
    "parameter '" ++ name ++ "' expects " ++ expected.name ++ ", got " ++ found.name
  | invalidCast name cause => "parameter '" ++ name ++ "': " ++ cause.message
  | evaluation e => e.message

/-- A computation of a call, which may ask producers. The history grows also when it fails. -/
abbrev Run (ε α : Type) := ExceptT ε (StateM History) α

/-- Ask the producer of a slot. -/
def Producer.ask (p : Producer) (slot : Nat) : Run EvalError Value := do
  let history ← get
  set (history ++ [slot])
  match p history with
  | .ok v => return v
  | .error e => throw e

/-- Why a value cannot be that of a parameter. -/
inductive Misfit where
  | type (found : ValueType)
  | cast (cause : CastError)

/-- A value as a parameter takes it: of its type, and for numbers in the representation that it
prefers. -/
def FixedParameter.accept (p : FixedParameter) (v : Value) : Except Misfit Value :=
  if v.type ≠ p.type then .error (.type v.type)
  else match v with
    | .number n =>
      match n.coerce p.preference with
      | .ok n => .ok (.number n)
      | .error cause => .error (.cast cause)
    | v => .ok v

/-- What a parameter is bound to. -/
inductive Slot where
  | known (v : Value)
  /-- A producer, asked at every use. -/
  | asked (p : Producer) (parameter : FixedParameter)

/-- The value of a slot at one use. -/
def Slot.read (index : Nat) : Slot → Run EvalError Value
  | known v => return v
  | asked p parameter => do
    let v ← p.ask index
    match parameter.accept v with
    | .ok v => return v
    | .error (.type found) => throw (.typeMismatch parameter.name parameter.type found)
    | .error (.cast cause) => throw (.invalidCast cause)

namespace FixedParameter

/-- Bind a parameter to a value. -/
def bindValue (p : FixedParameter) (v : Value) : Except CallError Slot :=
  match p.accept v with
  | .ok v => .ok (.known v)
  | .error (.type found) => .error (.typeMismatch p.name p.type found)
  | .error (.cast cause) => .error (.invalidCast p.name cause)

/-- Bind the parameter of a slot to an argument. -/
def bind (p : FixedParameter) (index : Nat) : Argument → Run CallError Slot
  | .value v => liftExcept (p.bindValue v)
  | .producer host =>
    if p.producer then return .asked host p
    else do
      let v ← ExceptT.adapt CallError.evaluation (host.ask index)
      liftExcept (p.bindValue v)
where
  liftExcept (r : Except CallError Slot) : Run CallError Slot := ExceptT.mk (pure r)

end FixedParameter

/-- Bind parameters from a slot on, in order, to the arguments found for them. -/
def bindAll (find : Nat → FixedParameter → Option Argument) :
    (index : Nat) → List FixedParameter → Run CallError (List Slot)
  | _, [] => return []
  | index, p :: ps =>
    match find index p with
    | none => throw (.missing p.name)
    | some a => do
      let slot ← p.bind index a
      let slots ← bindAll find (index + 1) ps
      return slot :: slots

/-- Bind arguments by position. Their number is checked before any producer is asked. -/
def ParameterTable.bindInOrder (table : ParameterTable) (arguments : List Argument) :
    Run CallError (List Slot) :=
  if arguments.length = table.length then bindAll (fun index _ => arguments[index]?) 0 table
  else throw (.argumentCount table.length arguments.length)

/-- Bind arguments by name. -/
def ParameterTable.bindByName (table : ParameterTable) (find : String → Option Argument) :
    Run CallError (List Slot) :=
  bindAll (fun _ p => find p.name) 0 table

end TolerantExpr
