import TolerantExpr.Builtin
import TolerantExpr.Text.Span

/-!
# Typed nodes

The tree that types are determined on. Every node carries the set of types it may still have; for
a constant that is the type of its value. A node is either a leaf or an operation, that is an
operator or a builtin function with its operands.
-/

namespace TolerantExpr

/-- What an inner node does to its operands. -/
inductive Operation where
  | negate
  | binary (op : BinaryOperator)
  | call (f : Builtin)
deriving DecidableEq, Repr

namespace Operation

def overloads : Operation → List Overload
  | negate => Overload.negation
  | binary op => op.overloads
  | call f => f.overloads

/-- How the operation is named in messages. -/
def title : Operation → String
  | negate => "operator '-'"
  | binary op => "operator '" ++ op.symbol ++ "'"
  | call f => "function '" ++ f.name ++ "'"

/-- Apply the operation to values. Comparisons are exact. An operator with the wrong number of
operands, which no expression has, is an error. -/
def apply (formatters : Formatters) : Operation → List Value → Except EvalError Value
  | negate, [v] => Evaluation.negate v
  | binary (.arithmetic op), [l, r] => Evaluation.arithmetic formatters op l r
  | binary (.logical op), [l, r] => Evaluation.logical op l r
  | binary (.shift op), [l, r] => Evaluation.shift op l r
  | binary (.comparison op), [l, r] => (Evaluation.compare op l r).map .boolean
  | call f, vs => f.apply formatters vs
  | op, _ => .error (.unbound op.title)

end Operation

inductive Node where
  | constant (value : Value) (span : Span)
  /-- A free name; a producer is asked for a value at every use. -/
  | parameter (name : String) (producer : Bool) (span : Span) (types : TypeSet)
  | operation (op : Operation) (operands : List Node) (span : Span) (types : TypeSet)

namespace Node

/-- An operation that may still have every type of its overloads. -/
def ofOperation (op : Operation) (operands : List Node) (span : Span) : Node :=
  operation op operands span (Overload.results op.overloads)

def span : Node → Span
  | constant _ s => s
  | parameter _ _ s _ => s
  | operation _ _ s _ => s

/-- The types that the node may still have. -/
def types : Node → TypeSet
  | constant v _ => .only v.type
  | parameter _ _ _ ts => ts
  | operation _ _ _ ts => ts

/-- The type of the node, once only one is left. -/
def type? (n : Node) : Option ValueType := n.types.single?

/-- The node with other types. The type of a constant is not open. -/
def withTypes (ts : TypeSet) : Node → Node
  | constant v s => constant v s
  | parameter n p s _ => parameter n p s ts
  | operation op xs s _ => operation op xs s ts

def operands : Node → List Node
  | operation _ xs _ _ => xs
  | _ => []

def constant? : Node → Option Value
  | constant v _ => some v
  | _ => none

def isConstant (n : Node) : Bool := n.constant?.isSome

/-- The name of a node that is a parameter. -/
def parameterName? : Node → Option String
  | parameter n _ _ _ => some n
  | _ => none

/-- How the node is named in messages. -/
def title : Node → String
  | constant _ _ => "constant"
  | parameter n _ _ _ => "parameter '" ++ n ++ "'"
  | operation op _ _ _ => op.title

mutual

/-- The number of nodes and of types left on them. It falls whenever a type is ruled out. -/
def weight : Node → Nat
  | constant _ _ => 1
  | parameter _ _ _ ts => 1 + ts.card
  | operation _ xs _ ts => 1 + ts.card + weights xs

def weights : List Node → Nat
  | [] => 0
  | x :: xs => x.weight + weights xs

end

mutual

/-- Equality of trees, with values compared as values are: a tree with NaN in it equals
nothing. -/
protected def beq : Node → Node → Bool
  | constant v s, constant w t => v == w && s == t
  | parameter n p s ts, parameter m q t us => n == m && p == q && s == t && ts == us
  | operation o xs s ts, operation p ys t us => o == p && Node.beqAll xs ys && s == t && ts == us
  | _, _ => false

protected def beqAll : List Node → List Node → Bool
  | [], [] => true
  | x :: xs, y :: ys => x.beq y && Node.beqAll xs ys
  | _, _ => false

end

instance : BEq Node := ⟨Node.beq⟩

theorem weight_pos (n : Node) : 0 < n.weight := by
  cases n <;> simp only [weight] <;> omega

theorem weight_withTypes_le {n : Node} {ts : TypeSet} (h : ts.card ≤ n.types.card) :
    (n.withTypes ts).weight ≤ n.weight := by
  cases n <;> simp only [withTypes, weight, types] at h ⊢ <;> omega

end Node
end TolerantExpr
