import TolerantExpr.Node.Basic
import TolerantExpr.Node.Fault

/-!
# Folding constants

An operation on constants is replaced by its value. A comparison of numbers is left alone, since
its outcome depends on the tolerance of each call; so is everything above it.
-/

namespace TolerantExpr.Node

/-- Whether a node is an operation on constants, and no comparison of numbers. -/
def canFold : Node → Bool
  | operation (.binary (.comparison _)) (l :: xs) _ _ =>
    !l.types.has .numeric && (l :: xs).all isConstant
  | operation _ xs _ _ => xs.all isConstant
  | _ => false

/-- Replace an operation on constants by its value. -/
def foldRoot (formatters : Formatters) (n : Node) : Except TypeFault Node :=
  if n.canFold then
    match n with
    | operation op xs span _ =>
      match op.apply formatters (xs.filterMap constant?) with
      | .ok v => .ok (constant v span)
      | .error e => .error ⟨.fold e.message, span⟩
    | leaf => .ok leaf
  else .ok n

mutual

/-- Fold a whole tree, operands first. -/
def foldTree (formatters : Formatters) : Node → Except TypeFault Node
  | operation op xs span types => do
    let ys ← foldTrees formatters xs
    foldRoot formatters (operation op ys span types)
  | leaf => foldRoot formatters leaf

def foldTrees (formatters : Formatters) : List Node → Except TypeFault (List Node)
  | [] => .ok []
  | x :: xs => do
    let y ← foldTree formatters x
    let ys ← foldTrees formatters xs
    return y :: ys

end

end TolerantExpr.Node
