import TolerantExpr.Node.Basic
import TolerantExpr.Node.Fault
import TolerantExpr.Parameter.Registry

/-!
# Narrowing

Types are determined by ruling them out. An operation keeps the overloads that its operands and
its own types allow, takes the results of these as its types, and leaves each operand only the
argument types that occur in them. A parameter shares its types with the registry, so that what
one use rules out reaches the other uses when they are looked at again.

No step ever adds a type, so every step that changes a node makes the tree lighter. This is what
the loops here run on: they go on as long as the weight falls.
-/

namespace TolerantExpr

/-- What narrowing leaves behind: the nodes, the registry, and the fault it met, if any. What was
ruled out before a fault stays ruled out. -/
structure Narrowed (α : Type) where
  subject : α
  registry : Registry
  fault : Option TypeFault

namespace Node

/-- The overloads of an operation that its operands and its own types allow. -/
def viable (op : Operation) (operands : List Node) (types : TypeSet) : List Overload :=
  op.overloads.filter fun o => o.accepts (operands.map Node.types) && types.has o.result

/-- The fault of a node that may have none of the allowed types. -/
def conflict (n : Node) (allowed : TypeSet) : TypeFault :=
  match n with
  | parameter name _ span types =>
    ⟨.invalid ("parameter '" ++ name ++ "' would have to be " ++ allowed.describe
      ++ " but is already " ++ types.describe) (some name), span⟩
  | constant v span =>
    .invalid ("expected " ++ allowed.describe ++ ", found a " ++ v.type.name ++ " constant") span
  | n => .invalid (n.title ++ " produces " ++ n.types.describe ++ " where " ++ allowed.describe
      ++ " is required") n.span

/-- The fault of an operation without viable overloads. If the operands allow some results these
are named; otherwise the operands are, and their first parameter is to blame. -/
def mismatch (op : Operation) (operands : List Node) (span : Span) (types : TypeSet) : TypeFault :=
  let accepted := op.overloads.filter fun o => o.accepts (operands.map Node.types)
  if accepted.isEmpty then
    ⟨.invalid (op.title ++ " cannot be applied to "
      ++ " and ".intercalate (operands.map fun x => x.types.describe))
      (operands.findSome? parameterName?), span⟩
  else
    .invalid (op.title ++ " produces " ++ (Overload.results accepted).describe ++ " where "
      ++ types.describe ++ " is required") span

mutual

/-- Make a node agree with its operands, or a parameter with the registry, and go on until
nothing more is ruled out. -/
def stabilize (n : Node) (r : Registry) : Narrowed Node :=
  match n with
  | constant v span => ⟨constant v span, r, none⟩
  | parameter name producer span types =>
    match r.narrow name types with
    | .error e r => ⟨parameter name producer span types, r, some (.ofParameter e span)⟩
    | .ok r => ⟨parameter name producer span (r.typesOf name), r, none⟩
  | operation op operands span types =>
    let overloads := viable op operands types
    if overloads.isEmpty then
      ⟨operation op operands span types, r, some (mismatch op operands span types)⟩
    else
      let narrowed := narrowOperands overloads 0 operands r
      let next := operation op narrowed.subject span (Overload.results overloads)
      if next.weight < (operation op operands span types).weight ∧ narrowed.fault.isNone then
        stabilize next narrowed.registry
      else ⟨next, narrowed.registry, narrowed.fault⟩
termination_by (n.weight, 0)
decreasing_by
  · apply Prod.Lex.left
    simp only [weight]
    omega
  · rename_i h
    exact Prod.Lex.left _ _ h.1

/-- Leave a node only the allowed types, and stabilize it if that rules something out. -/
def restrict (allowed : TypeSet) (n : Node) (r : Registry) : Narrowed Node :=
  let types := n.types.inter allowed
  if types = .empty then ⟨n, r, some (n.conflict allowed)⟩
  else if types = n.types then ⟨n, r, none⟩
  else stabilize (n.withTypes types) r
termination_by (n.weight, 1)
decreasing_by
  have h := weight_withTypes_le (TypeSet.card_inter_le n.types allowed)
  rcases Nat.lt_or_eq_of_le h with h | h
  · exact Prod.Lex.left _ _ h
  · rw [h]
    exact Prod.Lex.right _ (by omega)

/-- Leave the operands from a position on only the types that they have in the overloads. -/
def narrowOperands (overloads : List Overload) (position : Nat) (operands : List Node)
    (r : Registry) : Narrowed (List Node) :=
  match operands with
  | [] => ⟨[], r, none⟩
  | x :: xs =>
    let first := restrict (Overload.argumentTypes overloads position) x r
    match first.fault with
    | some fault => ⟨first.subject :: xs, first.registry, some fault⟩
    | none =>
      let rest := narrowOperands overloads (position + 1) xs first.registry
      ⟨first.subject :: rest.subject, rest.registry, rest.fault⟩
termination_by (weights operands, 2)
decreasing_by
  · simp only [weights]
    rcases Nat.eq_zero_or_pos (weights xs) with h | h
    · rw [h]
      exact Prod.Lex.right _ (by omega)
    · exact Prod.Lex.left _ _ (by omega)
  · apply Prod.Lex.left
    simp only [weights]
    have := weight_pos x
    omega

end

/-- Leave a node only one type. -/
def pin (t : ValueType) (n : Node) (r : Registry) : Narrowed Node := restrict (.only t) n r

mutual

/-- Stabilize every node of a tree once, operands first. -/
def sweep (n : Node) (r : Registry) : Narrowed Node :=
  match n with
  | operation op operands span types =>
    let below := sweepAll operands r
    let next := operation op below.subject span types
    match below.fault with
    | some fault => ⟨next, below.registry, some fault⟩
    | none => stabilize next below.registry
  | leaf => stabilize leaf r

def sweepAll (operands : List Node) (r : Registry) : Narrowed (List Node) :=
  match operands with
  | [] => ⟨[], r, none⟩
  | x :: xs =>
    let first := sweep x r
    match first.fault with
    | some fault => ⟨first.subject :: xs, first.registry, some fault⟩
    | none =>
      let rest := sweepAll xs first.registry
      ⟨first.subject :: rest.subject, rest.registry, rest.fault⟩

end

/-- Sweep a tree until nothing more is ruled out. -/
def propagate (n : Node) (r : Registry) : Narrowed Node :=
  let next := sweep n r
  if next.subject.weight < n.weight ∧ next.fault.isNone then propagate next.subject next.registry
  else next
termination_by n.weight
decreasing_by
  rename_i h
  exact h.1

mutual

/-- Pin the first reference to a parameter, in the order of evaluation. -/
def pinFirst? (name : String) (t : ValueType) (n : Node) (r : Registry) : Option (Narrowed Node) :=
  match n with
  | constant _ _ => none
  | parameter m p s ts => if m = name then some (pin t (parameter m p s ts) r) else none
  | operation op operands span types =>
    (pinFirstOf? name t operands r).map fun x =>
      ⟨operation op x.subject span types, x.registry, x.fault⟩

def pinFirstOf? (name : String) (t : ValueType) (operands : List Node) (r : Registry) :
    Option (Narrowed (List Node)) :=
  match operands with
  | [] => none
  | x :: xs =>
    match pinFirst? name t x r with
    | some x => some ⟨x.subject :: xs, x.registry, x.fault⟩
    | none => (pinFirstOf? name t xs r).map fun y => ⟨x :: y.subject, y.registry, y.fault⟩

end

end Node
end TolerantExpr
