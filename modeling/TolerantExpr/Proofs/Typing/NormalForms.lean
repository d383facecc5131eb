import TolerantExpr.Proofs.Typing.Reanalysis

/-!
# Nothing is left to fold

Folding leaves a tree of which no part can be folded, and such a tree is folded to itself. What can
be folded has constant operands, whose types are not open, so what narrowing rules out later makes
no difference to that. A tree that was folded part by part while it was built, and narrowed
afterwards, is therefore folded as a whole.
-/

namespace TolerantExpr

namespace Node

variable {formatters : Formatters}

/-- No part of the tree can be folded. -/
def Folded (n : Node) : Prop := ∀ m : Node, m.Subtree n → ¬m.canFold = true

theorem folded_constant (v : Value) (s : Span) : Folded (constant v s) := by
  intro m hm
  cases hm
  exact Bool.false_ne_true

theorem folded_parameter (name : String) (producer : Bool) (s : Span) (ts : TypeSet) :
    Folded (parameter name producer s ts) := by
  intro m hm
  cases hm
  exact Bool.false_ne_true

theorem folded_operation_iff {op : Operation} {xs : List Node} {s : Span} {ts : TypeSet} :
    Folded (operation op xs s ts) ↔
      ¬(operation op xs s ts).canFold = true ∧ ∀ x ∈ xs, Folded x := by
  constructor
  · intro h
    exact ⟨h _ .refl, fun x hx m hm => h m (.operand hx hm)⟩
  · intro h m hm
    obtain ⟨hroot, hxs⟩ := h
    cases hm with
    | refl => exact hroot
    | operand hx hm => exact hxs _ hx m hm

/-- The sets of a tree do not bear on it. -/
theorem folded_outline_iff {n : Node} : Folded n.outline ↔ Folded n := by
  induction n with
  | constant v s => exact Iff.rfl
  | parameter name producer s ts =>
    exact iff_of_true (folded_parameter _ _ _ _) (folded_parameter _ _ _ _)
  | operation op xs s ts ih =>
    have hroot := canFold_outline (operation op xs s ts)
    rw [outline, outlineAll_eq_map] at hroot ⊢
    rw [folded_operation_iff, folded_operation_iff, hroot, List.forall_mem_map]
    exact and_congr_right fun _ => forall₂_congr ih

/-- Of what a tree is folded to, no part can be folded. -/
theorem folded_of_foldTree {n m : Node} (h : foldTree formatters n = .ok m) : Folded m := by
  induction n generalizing m with
  | constant v s =>
    cases h
    exact folded_constant v s
  | parameter name producer s ts =>
    cases h
    exact folded_parameter name producer s ts
  | operation op xs s ts ih =>
    obtain ⟨ys, hys, hroot⟩ := foldTree_operation_eq_ok_iff.mp h
    rcases foldRoot_cases hroot with ⟨hc, rfl⟩ | ⟨-, v, -, rfl⟩
    · refine folded_operation_iff.mpr ⟨hc, fun y hy => ?_⟩
      obtain ⟨x, hx, hxy⟩ := exists_of_forall₂_of_mem_right hys hy
      exact ih x hx hxy
    · exact folded_constant v s

/-- Folding has nothing to do where nothing can be folded. -/
theorem foldTree_of_folded {n : Node} (h : Folded n) : foldTree formatters n = .ok n := by
  induction n with
  | constant v s => rfl
  | parameter name producer s ts => rfl
  | operation op xs s ts ih =>
    obtain ⟨hroot, hxs⟩ := folded_operation_iff.mp h
    refine foldTree_operation_eq_ok_iff.mpr ⟨xs, ?_, foldRoot_of_not_canFold hroot⟩
    exact List.forall₂_same.mpr fun x hx => ih x hx (hxs x hx)

end Node

namespace Analysis

variable {e : Expr} {x : Extraction} {source : String} {r : Registry} {formatters : Formatters}
  {a : Analysis}

/-- The tree of an analysis has the shape of a tree that was folded as a whole. -/
theorem folded_of_ofExpr (hr : r.Distinct) (h : ofExpr e x source r formatters = .ok a) :
    a.root.Folded :=
  Node.folded_outline_iff.mp (Node.folded_of_foldTree (outline_of_ofExpr hr h))

/-- What a tree is folded to is folded to itself, and no part of it can be folded. The tree that an
analysis hands over is such a tree: but for its sets it is what the tree of the expression, which is
not folded anywhere, is folded to. -/
theorem folding_is_final :
    (∀ (formatters : Formatters) (n m : Node), n.foldTree formatters = .ok m →
      m.foldTree formatters = .ok m ∧ m.Folded) ∧
    ∀ (e : Expr) (x : Extraction) (source : String) (r : Registry) (formatters : Formatters)
      (a : Analysis), r.Distinct → ofExpr e x source r formatters = .ok a →
      a.root.foldTree formatters = .ok a.root ∧
        (e.outline x).foldTree formatters = .ok a.root.outline := by
  constructor
  · intro formatters n m h
    have hm := Node.folded_of_foldTree h
    exact ⟨Node.foldTree_of_folded hm, hm⟩
  · intro e x source r formatters a hr h
    exact ⟨Node.foldTree_of_folded (folded_of_ofExpr hr h), outline_of_ofExpr hr h⟩

/-- How `x < 0 / 0` is read. -/
def belowNaN : Expr :=
  .binary (.comparison .lt) (.name "x" ⟨0, 1⟩)
    (.binary (.arithmetic .div) (.literal (.int 0) ⟨4, 5⟩) (.literal (.int 0) ⟨8, 9⟩) ⟨4, 9⟩) ⟨0, 9⟩

/-- The quotient is folded, and the tree, though it has NaN in it, comes back as it is. -/
theorem folding_is_final_belowNaN :
    ∃ a, ofExpr belowNaN (Extraction.ofText {} "x < 0 / 0") "x < 0 / 0" {} [] = .ok a ∧
      a.root.foldTree [] = .ok a.root ∧ (a.root == a.root) = false ∧
      (belowNaN.outline (Extraction.ofText {} "x < 0 / 0")).foldTree [] = .ok a.root.outline ∧
      a.root.outline.foldTree [] = .ok a.root.outline := by
  have hself : (ofExpr belowNaN (Extraction.ofText {} "x < 0 / 0") "x < 0 / 0" {} []).map
      (fun a => a.root == a.root) = .ok false := by cbv
  cases h : ofExpr belowNaN (Extraction.ofText {} "x < 0 / 0") "x < 0 / 0" {} [] with
  | ok a =>
    rw [h] at hself
    have hr : Registry.Distinct {} := List.nodup_nil
    obtain ⟨hroot, houtline⟩ := folding_is_final.2 _ _ _ _ _ a hr h
    exact ⟨a, rfl, hroot, Except.ok.inj hself, houtline, (folding_is_final.1 _ _ _ houtline).1⟩
  | error f =>
    rw [h] at hself
    cases hself

end Analysis
end TolerantExpr
