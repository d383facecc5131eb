import TolerantExpr.Proofs.Typing.Faults
import TolerantExpr.Proofs.Typing.Names

/-!
# Outlines of trees

The outline of a tree is the tree with every set left open. The outline of what is built for an
expression does not depend on the registry: it is the tree of the expression itself, with every
part folded that can be. A resolved tree is determined by its outline and the types of its
references.
-/

namespace TolerantExpr

namespace Node

variable {formatters : Formatters}

mutual

/-- A tree with every set left open. -/
def outline : Node → Node
  | constant v s => constant v s
  | parameter name producer s _ => parameter name producer s .full
  | operation op xs s _ => operation op (outlineAll xs) s .full

def outlineAll : List Node → List Node
  | [] => []
  | x :: xs => x.outline :: outlineAll xs

end

theorem outlineAll_eq_map (xs : List Node) : outlineAll xs = xs.map outline := by
  induction xs with
  | nil => rfl
  | cons x xs ih => rw [outlineAll, ih, List.map_cons]

/-- The outline depends on the shape of the tree alone. -/
theorem outline_eq_of_le {m n : Node} (h : m ≤ n) : m.outline = n.outline := by
  induction n generalizing m with
  | constant v s => rw [le_constant_iff.mp h]
  | parameter name producer s us =>
    obtain ⟨ts, rfl, -⟩ := le_parameter_iff.mp h
    rfl
  | operation op ys s us ih =>
    obtain ⟨xs, ts, rfl, hxs, -⟩ := le_operation_iff.mp h
    have hmap : xs.map outline = ys.map outline :=
      map_eq_map_iff.mpr (forall₂_imp_of_mem hxs fun x _ y hy hxy => ih y hy hxy)
    rw [outline, outline, outlineAll_eq_map, outlineAll_eq_map, hmap]

/-- Two resolved trees of one outline whose references have the same types are one tree. -/
theorem Resolved.eq_of_outline_eq {τ : String → ValueType} {m n : Node} (hm : Resolved m)
    (hn : Resolved n) (hmτ : EveryReference (fun name ts => ts = .only (τ name)) m)
    (hnτ : EveryReference (fun name ts => ts = .only (τ name)) n) (h : m.outline = n.outline) :
    m = n := by
  induction hm generalizing n with
  | constant v s =>
    cases n with
    | constant w u => exact h
    | _ => cases h
  | parameter name producer s t =>
    cases n with
    | parameter name' producer' s' ts' =>
      obtain ⟨rfl, rfl, rfl, -⟩ := Node.parameter.inj h
      rw [hmτ.of_parameter, hnτ.of_parameter]
    | _ => cases h
  | @operation op xs o s ho types operands ih =>
    cases hn with
    | @operation op' ys p s' hp types' operands' =>
      rw [outline, outline, outlineAll_eq_map, outlineAll_eq_map] at h
      obtain ⟨rfl, hmap, rfl, -⟩ := Node.operation.inj h
      have hxy : xs = ys := by
        rw [← List.forall₂_eq_eq_eq]
        refine forall₂_imp_of_mem (map_eq_map_iff.mp hmap) fun x hx y hy hxy => ?_
        exact ih x hx (operands' y hy) (hmτ.of_operation x hx) (hnτ.of_operation y hy) hxy
      subst hxy
      have harguments := types.symm.trans types'
      rw [op.overload_unique ho hp
        (List.map_injective_iff.mpr (fun _ _ => TypeSet.only_injective) harguments)]
    | constant | parameter => cases h

/-! ### Folding -/

theorem isConstant_outline (n : Node) : n.outline.isConstant = n.isConstant := by
  cases n <;> rfl

theorem constant?_outline (n : Node) : n.outline.constant? = n.constant? := by
  cases n <;> rfl

/-- What can be folded has constant operands, whose types are not open. -/
theorem canFold_outline (n : Node) : n.outline.canFold = n.canFold := by
  have hall : ∀ xs : List Node, (outlineAll xs).all isConstant = xs.all isConstant := by
    intro xs
    rw [outlineAll_eq_map, List.all_map]
    exact congrArg xs.all (funext isConstant_outline)
  cases n with
  | constant v s => rfl
  | parameter name producer s ts => rfl
  | operation op xs s ts =>
    match op, xs with
    | .binary (.comparison o), l :: xs =>
      cases l with
      | constant v s =>
        have := hall (constant v s :: xs)
        rw [outlineAll] at this
        rw [outline, outlineAll, canFold, canFold, this]
        rfl
      | parameter name producer s ts => simp [outline, outlineAll, canFold, isConstant, constant?]
      | operation op ys s ts => simp [outline, outlineAll, canFold, isConstant, constant?]
    | .binary (.comparison o), [] => rfl
    | .binary (.arithmetic o), xs => exact hall xs
    | .binary (.logical o), xs => exact hall xs
    | .binary (.shift o), xs => exact hall xs
    | .negate, xs => exact hall xs
    | .call f, xs => exact hall xs

/-- Folding an outline is folding the tree. -/
theorem foldRoot_outline (n : Node) :
    foldRoot formatters n.outline = (foldRoot formatters n).map outline := by
  unfold foldRoot
  rw [canFold_outline]
  by_cases hc : n.canFold = true
  · rw [if_pos hc, if_pos hc]
    cases n with
    | constant v s => rfl
    | parameter name producer s ts => rfl
    | operation op xs s ts =>
      have hvalues : (outlineAll xs).filterMap constant? = xs.filterMap constant? := by
        rw [outlineAll_eq_map, List.filterMap_map]
        exact congrArg xs.filterMap (funext constant?_outline)
      rw [outline]
      dsimp only
      rw [hvalues]
      cases op.apply formatters (xs.filterMap constant?) <;> rfl
  · rw [if_neg hc, if_neg hc]
    rfl

end Node

/-! ### The tree of an expression -/

namespace Expr

mutual

/-- The tree of an expression, with every set left open and nothing folded. -/
def outline (x : Extraction) : Expr → Node
  | literal l s => .constant (Analysis.valueOf l) (x.sourceSpan s)
  | name n s =>
    match x.excerptAt? s with
    | some y => .constant y.value (x.sourceSpan s)
    | none => .parameter n false (x.sourceSpan s) .full
  | negate e s => .operation .negate [outline x e] (x.sourceSpan s) .full
  | binary op l r s => .operation (.binary op) [outline x l, outline x r] (x.sourceSpan s) .full
  | call f es s =>
    match Builtin.ofName? f with
    | some b => .operation (.call b) (outlineAll x es) (x.sourceSpan s) .full
    | none => .parameter f true (x.sourceSpan s) .full

def outlineAll (x : Extraction) : List Expr → List Node
  | [] => []
  | e :: es => outline x e :: outlineAll x es

end

theorem IsOperation.outline_eq {x : Extraction} {e : Expr} {op : Operation} {es : List Expr}
    {s : Span} (h : IsOperation e op es s) :
    outline x e = .operation op (outlineAll x es) (x.sourceSpan s) .full := by
  cases h with
  | negate e s => rfl
  | binary op l r s => rfl
  | call hb es s => rw [outline, hb]

end Expr

namespace Analysis

variable {x : Extraction} {formatters : Formatters}

theorem not_isFold_of_stabilize {n : Node} {r : Registry} (hr : r.Distinct) {fault : TypeFault}
    (h : (n.stabilize r).fault = some fault) : ¬IsFold fault := by
  have hfault := Node.stabilize_faults (P := fun _ => True) hr (fun _ _ => trivial) fault h
  rintro ⟨report, hcause⟩
  rcases hfault.cause_cases with ⟨name, h⟩ | ⟨reason, p, h, -⟩ <;> rw [hcause] at h <;> cases h

/-- A part of the build follows a computation without a registry: it leads to what corresponds to
the result of that, and a fault of folding is the error of that. -/
def Follows {α β : Type} (m : Build α) (σ : State) (r : Except TypeFault β) (f : α → β)
    (Q : α → State → Prop) : Prop :=
  Meets m σ (fun a υ => r = .ok (f a) ∧ Q a υ) fun fault _ => IsFold fault → r = .error fault

theorem Follows.bind {α β γ δ : Type} {m : Build α} {k : α → Build γ} {σ : State}
    {r : Except TypeFault β} {l : β → Except TypeFault δ} {f : α → β} {g : γ → δ}
    {Q : α → State → Prop} {S : γ → State → Prop} (hm : Follows m σ r f Q)
    (hk : ∀ a υ, Q a υ → Follows (k a) υ (l (f a)) g S) :
    Follows (m >>= k) σ (r >>= l) g S := by
  have hm' : Meets m σ (fun a υ => r = .ok (f a) ∧ Q a υ)
      fun fault _ => IsFold fault → (r >>= l) = .error fault := by
    refine hm.imp (fun _ _ h => h) fun fault _ h hfold => ?_
    rw [h hfold]
    rfl
  refine hm'.bind fun a υ h => ?_
  obtain ⟨hr, hQ⟩ := h
  rw [hr]
  exact hk a υ hQ

/-- Completing an operation folds its outline. -/
theorem complete_follows {op : Operation} {xs : List Node} {s : Span} {σ : State}
    (hσ : σ.registry.Distinct) :
    Follows (complete formatters (.ofOperation op xs s)) σ
      (Node.foldRoot formatters (.operation op (Node.outlineAll xs) s .full)) Node.outline
      fun _ υ => υ.registry.Distinct := by
  unfold Follows Meets
  rw [complete_run]
  obtain ⟨hsub, hreg⟩ := Node.stabilize_le (.ofOperation op xs s) hσ
  have houtline := Node.outline_eq_of_le hsub
  rw [Node.ofOperation, Node.outline] at houtline
  rw [← houtline, Node.foldRoot_outline]
  cases hf : (Node.stabilize (.ofOperation op xs s) σ.registry).fault with
  | some fault => exact fun hfold => absurd hfold (not_isFold_of_stabilize hσ hf)
  | none =>
    dsimp only [Node.ofOperation]
    cases (Node.stabilize (.operation op xs s _) σ.registry).subject.foldRoot formatters with
    | error fault => exact fun _ => rfl
    | ok n => exact ⟨rfl, Registry.distinct_of_le hreg hσ⟩

/-- Building an expression follows the folding of its tree. -/
def FollowsFolding (x : Extraction) (formatters : Formatters) (e : Expr) : Prop :=
  ∀ σ : State, σ.registry.Distinct →
    Follows (build x formatters e) σ ((e.outline x).foldTree formatters) Node.outline
      fun _ υ => υ.registry.Distinct

theorem buildAll_follows (es : List Expr) (ih : ∀ e ∈ es, FollowsFolding x formatters e)
    (σ : State) (hσ : σ.registry.Distinct) :
    Follows (buildAll x formatters es) σ (Node.foldTrees formatters (Expr.outlineAll x es))
      Node.outlineAll fun _ υ => υ.registry.Distinct := by
  induction es generalizing σ with
  | nil => exact meets_pure ⟨rfl, hσ⟩
  | cons e es ihes =>
    rw [buildAll, Expr.outlineAll, Node.foldTrees]
    refine (ih e List.mem_cons_self σ hσ).bind fun n υ hυ => ?_
    refine (ihes (fun f hf => ih f (List.mem_cons_of_mem _ hf)) υ hυ).bind fun xs ω hω => ?_
    exact meets_pure ⟨rfl, hω⟩

theorem operation_follows {e : Expr} {op : Operation} {es : List Expr} {s : Span}
    (he : Expr.IsOperation e op es s) (ih : ∀ e ∈ es, FollowsFolding x formatters e) :
    FollowsFolding x formatters e := by
  intro σ hσ
  rw [he.outline_eq, Node.foldTree]
  rcases build_operation (x := x) he with hb | ⟨fault, hb, hfold, -⟩ <;> rw [hb]
  · exact (buildAll_follows es ih σ hσ).bind fun xs υ hυ => complete_follows hυ
  · exact meets_throw fun h => absurd h hfold

theorem reference_follows {name : String} {producer : Bool} {s : Span} {σ : State}
    (hσ : σ.registry.Distinct) :
    Follows (reference name producer s) σ (.ok (.parameter name producer s .full)) Node.outline
      fun _ υ => υ.registry.Distinct := by
  unfold Follows Meets
  rw [reference_run]
  cases hr : (σ.registry.mention name).recordUse name producer with
  | ok r =>
    have hdistinct := (Registry.recordUse_refines hr).2.1 (Registry.distinct_mention hσ name)
    dsimp only
    split <;> exact ⟨rfl, hdistinct⟩
  | error e left =>
    rintro ⟨report, hcause⟩
    cases e <;> cases hcause

theorem build_follows (e : Expr) : FollowsFolding x formatters e := by
  induction e with
  | literal l s => exact fun σ hσ => meets_pure ⟨rfl, hσ⟩
  | name n s =>
    intro σ hσ
    rw [build, Expr.outline]
    cases x.excerptAt? s with
    | some y => exact meets_pure ⟨rfl, hσ⟩
    | none => exact reference_follows hσ
  | negate e s ih => exact operation_follows (.negate e s) (by simpa using ih)
  | binary op l r s ihl ihr =>
    exact operation_follows (.binary op l r s) (by simpa using ⟨ihl, ihr⟩)
  | call f es s ih =>
    cases hb : Builtin.ofName? f with
    | some b => exact operation_follows (.call hb es s) ih
    | none =>
      intro σ hσ
      rw [build, Expr.outline, hb]
      cases es with
      | cons e es =>
        refine meets_throw ?_
        rintro ⟨report, hcause⟩
        cases hcause
      | nil => exact reference_follows hσ

/-- The outline of what is built from any registry is that of the folded tree of the expression. -/
theorem outline_of_run {e : Expr} {r : Registry} (hr : r.Distinct) {n : Node} {σ : State}
    (h : (build x formatters e).run { registry := r } = (.ok n, σ)) :
    (e.outline x).foldTree formatters = .ok n.outline := by
  have hfollows := (build_follows e : FollowsFolding x formatters e) { registry := r } hr
  unfold Follows Meets at hfollows
  rw [h] at hfollows
  exact hfollows.1

/-- An expression whose tree can be folded is built without a fault of folding. -/
theorem not_isFold_of_run {e : Expr} {r : Registry} (hr : r.Distinct) {fault : TypeFault}
    {σ : State} (h : (build x formatters e).run { registry := r } = (.error fault, σ)) {m : Node}
    (hm : (e.outline x).foldTree formatters = .ok m) : ¬IsFold fault := by
  intro hfold
  have hfollows := (build_follows e : FollowsFolding x formatters e) { registry := r } hr
  unfold Follows Meets at hfollows
  rw [h] at hfollows
  rw [hfollows hfold] at hm
  cases hm

end Analysis
end TolerantExpr
