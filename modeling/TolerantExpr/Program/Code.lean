import TolerantExpr.Diagnostic
import TolerantExpr.Node.Basic
import TolerantExpr.Program.Call

/-!
# Programs

A typed tree is turned into code twice, once for exact calls and once for calls with a tolerance.
The two differ in comparisons of numbers alone. Code reads parameters from slots, evaluates
operands from left to right, and leaves out the right operand of a Boolean `&` or `|` that the
left one decides.
-/

namespace TolerantExpr

inductive Mode where
  /-- All comparisons are exact. -/
  | exact
  /-- Comparisons of numbers take the tolerance of the call into account. -/
  | tolerant
deriving DecidableEq, Repr

inductive Code where
  | constant (v : Value)
  | argument (slot : Nat) (name : String)
  | operation (op : Operation) (operands : List Code)
  /-- `&` or `|` between Booleans. -/
  | shortCircuit (op : Logical) (left right : Code)
  /-- A comparison of numbers under the tolerance of the call. -/
  | tolerant (op : Comparison) (left right : Code)

/-- Why a tree has no code. No tree that an analysis hands over is concerned. -/
inductive CodeError where
  /-- A node is left with several types. -/
  | unresolved (span : Span)
  /-- A parameter is not in the table. -/
  | unknownParameter (name : String) (span : Span)
deriving DecidableEq, Repr

namespace CodeError

def message : CodeError → String
  | unresolved _ => "Expression type was not determined"
  | unknownParameter name _ => "Parameter '" ++ name ++ "' is not in the parameter table"

def span : CodeError → Span
  | unresolved s => s
  | unknownParameter _ s => s

def diagnostic (e : CodeError) : Diagnostic := { message := e.message, span := e.span }

end CodeError

namespace Code

/-- The code of an operation whose operands have their code. `type` is the type of the result and
`left` that of the first operand. -/
def ofOperation (mode : Mode) (op : Operation) (type left : Option ValueType) (operands : List Code) :
    Code :=
  match op, operands with
  | .binary (.logical o), [l, r] =>
    if type = some .boolean then shortCircuit o l r else operation op operands
  | .binary (.comparison o), [l, r] =>
    if mode = .tolerant ∧ left = some .numeric then tolerant o l r else operation op operands
  | _, _ => operation op operands

mutual

/-- The code of a typed tree. A node is checked before its operands. -/
def ofNode (mode : Mode) (table : ParameterTable) : Node → Except CodeError Code
  | .constant v _ => .ok (constant v)
  | .parameter name _ span types =>
    if types.single?.isNone then .error (.unresolved span)
    else match table.slot? name with
      | some slot => .ok (argument slot name)
      | none => .error (.unknownParameter name span)
  | .operation op operands span types =>
    if types.single?.isNone then .error (.unresolved span)
    else do
      let codes ← ofNodes mode table operands
      return ofOperation mode op types.single? (operands.head?.bind Node.type?) codes

def ofNodes (mode : Mode) (table : ParameterTable) : List Node → Except CodeError (List Code)
  | [] => .ok []
  | x :: xs => do
    let c ← ofNode mode table x
    let cs ← ofNodes mode table xs
    return c :: cs

end

end Code

/-- What a program has at hand while it runs. -/
structure Scope where
  slots : List Slot
  tolerance : Tolerance
  formatters : Formatters

/-- The value of a parameter at one use. -/
def Scope.argument (scope : Scope) (slot : Nat) (name : String) : Run EvalError Value :=
  match scope.slots[slot]? with
  | some s => s.read slot
  | none => throw (.unbound name)

/-- A computation that asks no producer. -/
def ofExcept (r : Except ε α) : Run ε α := ExceptT.mk (pure r)

/-- Whether the left operand decides a Boolean `&` or `|`. -/
def Logical.decidedBy (op : Logical) (left : Bool) : Bool :=
  match op with
  | and => !left
  | or => left

namespace Code

mutual

/-- Run code. -/
def run (scope : Scope) : Code → Run EvalError Value
  | constant v => return v
  | argument slot name => scope.argument slot name
  | operation op operands => do
    let vs ← runAll scope operands
    ofExcept (op.apply scope.formatters vs)
  | shortCircuit op left right => do
    let l ← run scope left
    match l with
    | .boolean b => if op.decidedBy b then return l else run scope right
    | l => throw (.invalidOperands op.symbol l.type .boolean)
  | tolerant op left right => do
    let l ← run scope left
    let r ← run scope right
    ofExcept ((Evaluation.compareTolerant scope.tolerance op l r).map .boolean)

/-- Run code from left to right. -/
def runAll (scope : Scope) : List Code → Run EvalError (List Value)
  | [] => return []
  | c :: cs => do
    let v ← run scope c
    let vs ← runAll scope cs
    return v :: vs

end

end Code
end TolerantExpr
