import TolerantExpr.Node.Folding
import TolerantExpr.Proofs.Computations
import TolerantExpr.Proofs.Typing.Trees

/-!
# Folding and types

Folding one operation on constants. The constant that takes its place has the type that the
operation had, since what implements an operation keeps the promise of its table.
-/

namespace TolerantExpr.Node

variable {formatters : Formatters}

/-! ### Constants -/

theorem isConstant_iff {n : Node} : n.isConstant = true ↔ ∃ v s, n = constant v s := by
  constructor
  · cases n with
    | constant v s => exact fun _ => ⟨v, s, rfl⟩
    | _ => simp [isConstant, constant?]
  · intro h
    obtain ⟨v, s, rfl⟩ := h
    rfl

/-- The values of a list of constants have the types that the nodes have. -/
theorem types_of_constants {xs : List Node} (h : ∀ x ∈ xs, x.isConstant = true) :
    xs.map types = ((xs.filterMap constant?).map Value.type).map TypeSet.only := by
  induction xs with
  | nil => rfl
  | cons x xs ih =>
    obtain ⟨v, s, rfl⟩ := isConstant_iff.mp (h x List.mem_cons_self)
    have hxs := ih fun y hy => h y (List.mem_cons_of_mem _ hy)
    simp only [List.map_cons, List.filterMap_cons, constant?, types, hxs]

theorem values_types {xs : List Node} {as : List ValueType} (h : ∀ x ∈ xs, x.isConstant = true)
    (has : xs.map types = as.map TypeSet.only) : (xs.filterMap constant?).map Value.type = as := by
  rw [types_of_constants h] at has
  exact List.map_injective_iff.mpr (fun _ _ => TypeSet.only_injective) has

theorem hasType_constants {τ : String → ValueType} {xs : List Node}
    (h : ∀ x ∈ xs, x.isConstant = true) :
    List.Forall₂ (HasType τ) xs ((xs.filterMap constant?).map Value.type) := by
  induction xs with
  | nil => exact .nil
  | cons x xs ih =>
    obtain ⟨v, s, rfl⟩ := isConstant_iff.mp (h x List.mem_cons_self)
    exact .cons (.constant v s) (ih fun y hy => h y (List.mem_cons_of_mem _ hy))

/-- There is nothing below constants. -/
theorem eq_of_forall₂_le_of_isConstant {xs ys : List Node} (h : List.Forall₂ (· ≤ ·) xs ys)
    (hxs : ∀ x ∈ xs, x.isConstant = true) : xs = ys := by
  rw [← List.forall₂_eq_eq_eq]
  refine forall₂_imp_of_mem h fun x hx y _ hxy => ?_
  obtain ⟨v, s, rfl⟩ := isConstant_iff.mp (hxs x hx)
  exact (constant_le_iff.mp hxy).symm

theorem isConstant_of_canFold {op : Operation} {xs : List Node} {s : Span} {ts : TypeSet}
    (h : (operation op xs s ts).canFold = true) : ∀ x ∈ xs, x.isConstant = true := by
  unfold canFold at h
  split at h
  · rename_i heq
    cases heq
    rw [Bool.and_eq_true, List.all_eq_true] at h
    exact h.2
  · rename_i heq
    cases heq
    exact List.all_eq_true.mp h
  · cases h

/-- A comparison of numbers cannot be folded. -/
theorem left_ne_numeric_of_canFold {op : Comparison} {xs : List Node} {s : Span} {ts : TypeSet}
    (h : (Node.operation (.binary (.comparison op)) xs s ts).canFold = true) :
    xs.head?.bind type? ≠ some .numeric := by
  cases xs with
  | nil => simp
  | cons l xs =>
    intro hleft
    rw [canFold, Bool.and_eq_true, Bool.not_eq_true'] at h
    have hl : l.types = .only .numeric := TypeSet.single?_eq_some_iff.mp hleft
    rw [hl, TypeSet.has_only] at h
    simp at h

/-! ### Folding at the root -/

theorem foldRoot_of_not_canFold {n : Node} (h : ¬n.canFold = true) :
    foldRoot formatters n = .ok n := by
  unfold foldRoot
  rw [if_neg h]

theorem foldRoot_ok {op : Operation} {xs : List Node} {s : Span} {ts : TypeSet} {v : Value}
    (h : (operation op xs s ts).canFold = true)
    (hv : op.apply formatters (xs.filterMap constant?) = .ok v) :
    foldRoot formatters (operation op xs s ts) = .ok (constant v s) := by
  rw [foldRoot, if_pos h]
  simp only [hv]

theorem foldRoot_error {op : Operation} {xs : List Node} {s : Span} {ts : TypeSet} {e : EvalError}
    (h : (operation op xs s ts).canFold = true)
    (he : op.apply formatters (xs.filterMap constant?) = .error e) :
    foldRoot formatters (operation op xs s ts) = .error ⟨.fold e.message, s⟩ := by
  rw [foldRoot, if_pos h]
  simp only [he]

/-- What folding an operation yields: the operation, or the constant of its value. -/
theorem foldRoot_cases {op : Operation} {xs : List Node} {s : Span} {ts : TypeSet} {m : Node}
    (h : foldRoot formatters (operation op xs s ts) = .ok m) :
    ¬(operation op xs s ts).canFold = true ∧ m = operation op xs s ts ∨
      (operation op xs s ts).canFold = true ∧
      ∃ v, op.apply formatters (xs.filterMap constant?) = .ok v ∧ m = constant v s := by
  by_cases hc : (operation op xs s ts).canFold = true
  · cases hv : op.apply formatters (xs.filterMap constant?) with
    | ok v =>
      rw [foldRoot_ok hc hv] at h
      exact .inr ⟨hc, v, rfl, (Except.ok.inj h).symm⟩
    | error e =>
      rw [foldRoot_error hc hv] at h
      cases h
  · rw [foldRoot_of_not_canFold hc] at h
    exact .inl ⟨hc, (Except.ok.inj h).symm⟩

/-- Folding fails where applying the operation does. -/
theorem foldRoot_eq_error {op : Operation} {xs : List Node} {s : Span} {ts : TypeSet}
    {fault : TypeFault} (h : foldRoot formatters (operation op xs s ts) = .error fault) :
    (operation op xs s ts).canFold = true ∧ ∃ e : EvalError,
      op.apply formatters (xs.filterMap constant?) = .error e ∧ fault = ⟨.fold e.message, s⟩ := by
  by_cases hc : (operation op xs s ts).canFold = true
  · cases hv : op.apply formatters (xs.filterMap constant?) with
    | ok v =>
      rw [foldRoot_ok hc hv] at h
      cases h
    | error e =>
      rw [foldRoot_error hc hv] at h
      exact ⟨hc, e, rfl, (Except.error.inj h).symm⟩
  · rw [foldRoot_of_not_canFold hc] at h
    cases h

/-- A fault of folding is one of the value. -/
theorem foldRoot_fault {n : Node} {fault : TypeFault} (h : foldRoot formatters n = .error fault) :
    ∃ report, fault.cause = .fold report := by
  cases n with
  | operation op xs s ts =>
    obtain ⟨-, e, -, rfl⟩ := foldRoot_eq_error h
    exact ⟨_, rfl⟩
  | _ => cases h

theorem EveryReference.foldRoot {P : String → TypeSet → Prop} {op : Operation} {xs : List Node}
    {s : Span} {ts : TypeSet} {m : Node} (hP : EveryReference P (.operation op xs s ts))
    (h : Node.foldRoot formatters (.operation op xs s ts) = .ok m) : EveryReference P m := by
  rcases foldRoot_cases h with ⟨-, rfl⟩ | ⟨-, v, -, rfl⟩
  · exact hP
  · exact .constant v s

/-- Folding an operation on constants that it has an overload for changes its type under no
choice. -/
theorem hasType_foldRoot_iff {op : Operation} {xs : List Node} {s : Span} {ts : TypeSet} {m : Node}
    (hacc : (∀ x ∈ xs, x.isConstant = true) →
      ∃ o ∈ op.overloads, o.accepts (xs.map types) = true)
    (h : foldRoot formatters (operation op xs s ts) = .ok m) {τ : String → ValueType}
    {t : ValueType} : HasType τ m t ↔ HasType τ (operation op xs s ts) t := by
  rcases foldRoot_cases h with ⟨-, rfl⟩ | ⟨hc, v, hv, rfl⟩
  · exact Iff.rfl
  have hconst := isConstant_of_canFold hc
  obtain ⟨o, ho, hoacc⟩ := hacc hconst
  rw [types_of_constants hconst, Overload.accepts_only_iff] at hoacc
  have hop : HasType τ (operation op xs s ts) o.result := by
    refine .operation s ts ho ?_
    rw [hoacc]
    exact hasType_constants hconst
  have hvtype : v.type = o.result := by
    rcases op.apply_yields formatters ho hoacc.symm with ⟨w, hw, hwt⟩ | ⟨c, hc⟩
    · rw [hv] at hw
      obtain rfl := Except.ok.inj hw
      exact hwt
    · rw [hv] at hc
      cases hc
  constructor
  · intro hm
    cases hm
    exact hvtype ▸ hop
  · intro hm
    rw [hm.unique hop, ← hvtype]
    exact .constant v s

/-- What takes the place of a resolved tree is resolved, with the same type. -/
theorem resolved_foldRoot {op : Operation} {xs : List Node} {s : Span} {ts : TypeSet} {m : Node}
    (hn : Resolved (operation op xs s ts))
    (h : foldRoot formatters (operation op xs s ts) = .ok m) : Resolved m ∧ m.types = ts := by
  rcases foldRoot_cases h with ⟨-, rfl⟩ | ⟨hc, v, hv, rfl⟩
  · exact ⟨hn, rfl⟩
  refine ⟨.constant v s, ?_⟩
  cases hn with
  | operation _ ho types operands =>
    have hvalues := values_types (isConstant_of_canFold hc) types
    rcases op.apply_yields formatters ho hvalues with ⟨w, hw, hwt⟩ | ⟨c, hc⟩
    · obtain rfl := Except.ok.inj (hv.symm.trans hw)
      exact congrArg TypeSet.only hwt
    · rw [hv] at hc
      cases hc

/-! ### Folding a tree -/

theorem foldTrees_eq_ok_iff {xs ys : List Node} :
    foldTrees formatters xs = .ok ys ↔
      List.Forall₂ (fun x y => foldTree formatters x = .ok y) xs ys :=
  except_map_eq_ok_iff (foldTree formatters) (foldTrees formatters) rfl fun _ _ => rfl

theorem foldTree_operation_eq_ok_iff {op : Operation} {xs : List Node} {s : Span} {ts : TypeSet}
    {m : Node} :
    foldTree formatters (operation op xs s ts) = .ok m ↔ ∃ ys,
      List.Forall₂ (fun x y => foldTree formatters x = .ok y) xs ys ∧
        foldRoot formatters (operation op ys s ts) = .ok m := by
  rw [foldTree, except_bind_eq_ok_iff]
  simp only [foldTrees_eq_ok_iff]

/-- Folding fails at the operands or, if these can be folded, at the root. -/
theorem foldTree_operation_eq_error_iff {op : Operation} {xs : List Node} {s : Span} {ts : TypeSet}
    {fault : TypeFault} :
    foldTree formatters (operation op xs s ts) = .error fault ↔
      foldTrees formatters xs = .error fault ∨ ∃ ys,
        List.Forall₂ (fun x y => foldTree formatters x = .ok y) xs ys ∧
          foldRoot formatters (operation op ys s ts) = .error fault := by
  rw [foldTree, except_bind_eq_error_iff]
  simp only [foldTrees_eq_ok_iff]

theorem exists_fault_of_foldTrees {xs : List Node} {fault : TypeFault}
    (h : foldTrees formatters xs = .error fault) :
    ∃ x ∈ xs, foldTree formatters x = .error fault := by
  induction xs with
  | nil => cases h
  | cons x xs ih =>
    rw [foldTrees, except_bind_eq_error_iff] at h
    rcases h with hx | ⟨y, -, h⟩
    · exact ⟨x, List.mem_cons_self, hx⟩
    · rcases except_bind_eq_error_iff.mp h with hxs | ⟨ys, -, h⟩
      · obtain ⟨x, hx, hfault⟩ := ih hxs
        exact ⟨x, List.mem_cons_of_mem _ hx, hfault⟩
      · cases h

/-- An operation stays resolved when resolved operands of the same types take the place of its
own. -/
theorem Resolved.of_operands {op : Operation} {xs ys : List Node} {s : Span} {ts : TypeSet}
    (hn : Resolved (.operation op xs s ts))
    (h : List.Forall₂ (fun x y => Resolved y ∧ y.types = x.types) xs ys) :
    Resolved (.operation op ys s ts) ∧ ys.map Node.types = xs.map Node.types := by
  have htypes : ys.map Node.types = xs.map Node.types :=
    map_eq_map_iff.mpr (h.flip.imp fun _ _ hxy => hxy.2)
  cases hn with
  | operation _ ho types operands =>
    refine ⟨.operation s ho (htypes.trans types) fun y hy => ?_, htypes⟩
    obtain ⟨x, -, hxy⟩ := exists_of_forall₂_of_mem_right h hy
    exact hxy.1

/-- What a resolved tree is folded to is resolved, with the same type. -/
theorem resolved_foldTree {n m : Node} (hn : Resolved n) (h : foldTree formatters n = .ok m) :
    Resolved m ∧ m.types = n.types := by
  induction hn generalizing m with
  | constant v s =>
    cases h
    exact ⟨.constant v s, rfl⟩
  | parameter name producer s t =>
    cases h
    exact ⟨.parameter name producer s t, rfl⟩
  | @operation op xs o s ho types operands ih =>
    obtain ⟨ys, hys, hroot⟩ := foldTree_operation_eq_ok_iff.mp h
    have hxy := ((List.forall₂_and_left xs ys).mpr ⟨ih, hys⟩).imp fun x y hxy => hxy.1 hxy.2
    exact resolved_foldRoot ((Resolved.operation s ho types operands).of_operands hxy).1 hroot

/-- So is an operation whose operands were folded. -/
theorem resolved_foldTrees {op : Operation} {xs ys : List Node} {s : Span} {ts : TypeSet}
    (hn : Resolved (operation op xs s ts))
    (h : List.Forall₂ (fun x y => foldTree formatters x = .ok y) xs ys) :
    Resolved (operation op ys s ts) ∧ ys.map types = xs.map types := by
  refine hn.of_operands (((List.forall₂_and_left xs ys).mpr ⟨?_, h⟩).imp fun x y hxy =>
    resolved_foldTree hxy.1 hxy.2)
  exact fun x hx => hn.of_operation hx

end TolerantExpr.Node
