import TolerantExpr.Parameter.Basic

/-!
# The registry of parameters

While an expression is analyzed, its open parameters are kept in a registry under their names. A
registry can start from the parameters of an earlier expression; those keep their order, types and
uses, and the ones that the new expression does not use are left out in the end. The result of an
analysis is a table of fixed parameters, whose positions are the slots of the arguments.
-/

namespace TolerantExpr

/-- The fixed parameters of an expression. A parameter's position is the slot of its argument. -/
abbrev ParameterTable := List FixedParameter

namespace ParameterTable

def names (table : ParameterTable) : List String := table.map FixedParameter.name

/-- The slot of a parameter. -/
def slot? (table : ParameterTable) (name : String) : Option Nat :=
  table.findIdx? fun p => p.name = name

end ParameterTable

structure Registry where
  entries : List OpenParameter := []
  /-- The names that the expression at hand has used. -/
  used : List String := []
  /-- The order of the next new parameter. -/
  nextOrder : Nat := 0
deriving DecidableEq, Repr

namespace Registry

def get? (r : Registry) (name : String) : Option OpenParameter :=
  r.entries.find? fun p => p.name = name

def contains (r : Registry) (name : String) : Bool := (r.get? name).isSome

/-- Put a parameter in the place of the one of its name, or at the end if there is none. -/
def put (r : Registry) (p : OpenParameter) : Registry :=
  if r.contains p.name then
    { r with entries := r.entries.map fun q => if q.name = p.name then p else q }
  else { r with entries := r.entries ++ [p] }

/-- Note that the expression uses a name, as a new parameter if it has not been met before. -/
def mention (r : Registry) (name : String) : Registry :=
  let r := if name ∈ r.used then r else { r with used := name :: r.used }
  if r.contains name then r
  else { (r.put { name := name, order := r.nextOrder }) with nextOrder := r.nextOrder + 1 }

/-- Take over an open copy of a parameter, in the place of one of the same name. New parameters
come after it. -/
def adopt (r : Registry) (p : Parameter) : Registry :=
  let copy := p.toOpen
  { (r.put copy) with nextOrder := max r.nextOrder (copy.order + 1) }

/-- A registry that knows the parameters of an earlier expression. -/
def ofTable (table : ParameterTable) : Registry :=
  table.foldl (fun r p => r.adopt (.fixed p)) {}

/-- Change the parameter of a name in its place. What the change leaves behind stays there, whether
it fails or not. -/
def change (r : Registry) (name : String) (f : OpenParameter → Changed OpenParameter) :
    Changed Registry :=
  match r.get? name with
  | none => .error (.unknown name) r
  | some p => (f p).map r.put

/-- Leave a parameter only the allowed types. -/
def narrow (r : Registry) (name : String) (allowed : TypeSet) : Changed Registry :=
  r.change name (·.narrow allowed)

/-- Leave a parameter only one type. -/
def pin (r : Registry) (name : String) (t : ValueType) : Changed Registry :=
  r.change name (·.pin t)

/-- Record a preference of a parameter. -/
def prefer (r : Registry) (name : String) (wanted : Preference) : Changed Registry :=
  r.change name (·.prefer wanted)

/-- Record whether a parameter is read from a producer. -/
def recordUse (r : Registry) (name : String) (producer : Bool) : Changed Registry :=
  r.change name (·.recordUse producer)

/-- The types that a parameter may still have; a name that is not registered may have any. -/
def typesOf (r : Registry) (name : String) : TypeSet :=
  match r.get? name with
  | some p => p.types
  | none => .full

/-- The parameters in the order in which they first appeared. -/
def sorted (r : Registry) : List OpenParameter := r.entries.mergeSort fun p q => p.order ≤ q.order

/-- The first parameter, by order, of which more than one type is left. -/
def firstUndecided? (r : Registry) : Option OpenParameter :=
  r.sorted.find? fun p => p.types.single?.isNone

/-- How many types are left over all parameters. -/
def weight (r : Registry) : Nat := r.entries.foldr (fun p n => p.types.card + n) 0

/-- Fix parameters one after the other; their positions from `slot` on become their orders. -/
def fixAll : (slot : Nat) → List OpenParameter → Except ParameterError ParameterTable
  | _, [] => .ok []
  | slot, p :: ps => do
    let fixed ← p.fix
    let rest ← fixAll (slot + 1) ps
    return { fixed with order := slot } :: rest

/-- Fix the parameters that the expression uses. -/
def fix (r : Registry) : Except ParameterError ParameterTable :=
  fixAll 0 (r.sorted.filter fun p => p.name ∈ r.used)

end Registry
end TolerantExpr
