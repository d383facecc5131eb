import TolerantExpr.Operator.Basic
import TolerantExpr.Value.Kind

/-!
# Overloads

An operator or function accepts a fixed list of overloads, each a list of argument types with the
type of the result. Types are determined from these tables alone.
-/

namespace TolerantExpr

structure Overload where
  arguments : List ValueType
  result : ValueType
deriving DecidableEq, Repr

namespace Overload

def negation : List Overload := [⟨[.numeric], .numeric⟩]

/-- `+`: addition, joining of byte sequences, and joining as text when a side is a string. -/
def combination : List Overload :=
  [⟨[.numeric, .numeric], .numeric⟩,
    ⟨[.byteSequence, .byteSequence], .byteSequence⟩,
    ⟨[.string, .string], .string⟩,
    ⟨[.string, .numeric], .string⟩,
    ⟨[.string, .boolean], .string⟩,
    ⟨[.string, .byteSequence], .string⟩,
    ⟨[.numeric, .string], .string⟩,
    ⟨[.boolean, .string], .string⟩,
    ⟨[.byteSequence, .string], .string⟩]

def numeric : List Overload := [⟨[.numeric, .numeric], .numeric⟩]

def ofShift : List Overload :=
  [⟨[.numeric, .numeric], .numeric⟩, ⟨[.byteSequence, .numeric], .byteSequence⟩]

def ofLogical : List Overload :=
  [⟨[.boolean, .boolean], .boolean⟩,
    ⟨[.numeric, .numeric], .numeric⟩,
    ⟨[.byteSequence, .byteSequence], .byteSequence⟩]

def equality : List Overload :=
  [⟨[.numeric, .numeric], .boolean⟩,
    ⟨[.string, .string], .boolean⟩,
    ⟨[.boolean, .boolean], .boolean⟩,
    ⟨[.byteSequence, .byteSequence], .boolean⟩]

def ordering : List Overload :=
  [⟨[.numeric, .numeric], .boolean⟩,
    ⟨[.string, .string], .boolean⟩,
    ⟨[.byteSequence, .byteSequence], .boolean⟩]

/-- Every type that a result may have. -/
def results (os : List Overload) : TypeSet := TypeSet.ofList (os.map Overload.result)

/-- The types that the argument at a position may have. -/
def argumentTypes (os : List Overload) (position : Nat) : TypeSet :=
  TypeSet.ofList (os.filterMap fun o => o.arguments[position]?)

/-- Whether operands that may have the given types can be the arguments. -/
def accepts (o : Overload) (operands : List TypeSet) : Bool :=
  o.arguments.length = operands.length
    && (o.arguments.zip operands).all fun p => p.2.has p.1

end Overload

def Arithmetic.overloads : Arithmetic → List Overload
  | .add => Overload.combination
  | _ => Overload.numeric

def Comparison.overloads (op : Comparison) : List Overload :=
  if op.isOrdering then Overload.ordering else Overload.equality

def BinaryOperator.overloads : BinaryOperator → List Overload
  | .arithmetic op => op.overloads
  | .logical _ => Overload.ofLogical
  | .shift _ => Overload.ofShift
  | .comparison op => op.overloads

end TolerantExpr
