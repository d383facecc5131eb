import TolerantExpr.Proofs.Evaluation.Handover
import TolerantExpr.Proofs.Evaluation.Tolerances
import TolerantExpr.Proofs.Typing.Reanalysis

/-!
# What an expression means

The value of a tree, with no look at its types: operands from left to right, then the operation on
them, but for an operand that decides `&` or `|`. Comparisons are those of the tolerance. A compiled
expression computes the value of the tree of its text, in which nothing is folded.
-/

namespace TolerantExpr

/-- Whether a value on the left decides `&` or `|`: false decides the first, true the second. -/
def Logical.decides (op : Logical) : Value → Bool
  | .boolean b => op.decidedBy b
  | _ => false

/-- A comparison as a call with a tolerance makes it. -/
def Evaluation.compareUnder (t : Tolerance) (op : Comparison) (left right : Value) :
    Except EvalError Bool :=
  if t.isExact then compare op left right else compareTolerant t op left right

/-- A tolerance is without effect where it is exact, and on values that are no numbers. -/
theorem Evaluation.compareUnder_eq_compare {t : Tolerance} {v : Value}
    (h : t.isExact = true ∨ v.number? = none) (op : Comparison) (w : Value) :
    compareUnder t op v w = compare op v w := by
  unfold compareUnder
  by_cases hexact : t.isExact = true
  · rw [if_pos hexact]
  · rw [if_neg hexact, Tolerance.compareTolerant_eq (.inl (h.resolve_left hexact))]

namespace Run

variable {ε α β : Type}

/-- Computations one after the other. -/
def inTurn : List (Run ε α) → Run ε (List α)
  | [] => return []
  | m :: ms => do
    let a ← m
    let as ← inTurn ms
    return a :: as

theorem inTurn_pair_bind (m n : Run ε α) (k : List α → Run ε β) :
    inTurn [m, n] >>= k = m >>= fun a => n >>= fun b => k [a, b] := by
  simp only [inTurn, bind_assoc, pure_bind]

/-- What follows a computation matters only for how that ends. -/
theorem Ends.bind_congr {m : Run ε α} {k l : α → Run ε β} {Q : α → Prop} {E : ε → History → Prop}
    (hm : m.Ends Q E) (hk : ∀ a, Q a → k a = l a) : m >>= k = m >>= l := by
  funext history
  change (m >>= k).run history = (m >>= l).run history
  have h := hm history
  unfold Meets at h
  rw [run_bind, run_bind]
  rcases hrun : m.run history with ⟨e | a, after⟩
  · rfl
  · rw [hrun] at h
    dsimp only
    rw [hk a h]

end Run

/-- Perform an operation on operands that are still to be evaluated. -/
def Operation.perform (scope : Scope) : Operation → List (Run EvalError Value) →
    Run EvalError Value
  | .binary (.logical op), [left, right] => do
    let v ← left
    if op.decides v then return v
    else do
      let w ← right
      ofExcept (Evaluation.logical op v w)
  | .binary (.comparison op), [left, right] => do
    let v ← left
    let w ← right
    ofExcept ((Evaluation.compareUnder scope.tolerance op v w).map .boolean)
  | op, operands => do
    let vs ← Run.inTurn operands
    ofExcept (op.apply scope.formatters vs)

namespace Node

mutual

/-- The value of a tree. -/
def evaluate (table : ParameterTable) (scope : Scope) : Node → Run EvalError Value
  | constant v _ => return v
  | parameter name _ _ _ =>
    match table.slot? name with
    | some slot => scope.argument slot name
    | none => throw (.unbound name)
  | operation op xs _ _ => op.perform scope (evaluateAll table scope xs)

def evaluateAll (table : ParameterTable) (scope : Scope) : List Node → List (Run EvalError Value)
  | [] => []
  | x :: xs => x.evaluate table scope :: evaluateAll table scope xs

end

variable {table : ParameterTable} {scope : Scope}

theorem evaluateAll_eq_map (xs : List Node) :
    evaluateAll table scope xs = xs.map (evaluate table scope) := by
  induction xs with
  | nil => rfl
  | cons x xs ih => rw [evaluateAll, ih, List.map_cons]

/-- The value depends on the shape of the tree alone. -/
theorem evaluate_outline (n : Node) : n.outline.evaluate table scope = n.evaluate table scope := by
  induction n with
  | constant v s => rfl
  | parameter name producer s ts => rfl
  | operation op xs s ts ih =>
    rw [outline, evaluate, evaluate, evaluateAll_eq_map, evaluateAll_eq_map, outlineAll_eq_map,
      List.map_map]
    congr 1
    exact List.map_congr_left ih

end Node

/-! ### Folding -/

section Constants

variable {scope : Scope}

theorem Run.inTurn_pure {ε α : Type} (as : List α) :
    inTurn (as.map fun a => (pure a : Run ε α)) = pure as := by
  induction as with
  | nil => rfl
  | cons a as ih =>
    rw [List.map_cons, inTurn, ih]
    rfl

/-- What decides `&` or `|` is the value of it, where the operator is defined. -/
theorem Logical.eq_of_decides {op : Logical} {v w u : Value} (hv : op.decides v = true)
    (h : Evaluation.logical op v w = .ok u) : u = v := by
  cases v with
  | boolean a =>
    cases w with
    | boolean b =>
      obtain rfl := Except.ok.inj h
      cases op <;> cases a <;> first | rfl | cases hv
    | _ => cases h
  | _ => cases hv

/-- An operation on values that it is defined for yields what it is applied to yield, but that
numbers may not be compared without a tolerance. -/
theorem Operation.perform_constants {op : Operation} (vs : List Value) {v : Value}
    (h : op.apply scope.formatters vs = .ok v)
    (hnumbers : ∀ o, op = .binary (.comparison o) → ∀ u ∈ vs.head?, u.number? = none) :
    op.perform scope (vs.map pure) = pure v := by
  have hgeneral : (do
      let us ← Run.inTurn (vs.map fun u => (pure u : Run EvalError Value))
      ofExcept (op.apply scope.formatters us)) = pure v := by
    rw [Run.inTurn_pure]
    change ofExcept (op.apply scope.formatters vs) = pure v
    rw [h]
    rfl
  match op, vs with
  | .binary (.logical o), [a, b] =>
    change (if o.decides a then (pure a : Run EvalError Value)
      else ofExcept (Evaluation.logical o a b)) = pure v
    change Evaluation.logical o a b = .ok v at h
    split
    · rename_i hdecides
      rw [Logical.eq_of_decides hdecides h]
    · rw [h]
      rfl
  | .binary (.comparison o), [a, b] =>
    change ofExcept ((Evaluation.compareUnder scope.tolerance o a b).map .boolean) = pure v
    have hnumber : a.number? = none := hnumbers o rfl a rfl
    change (Evaluation.compare o a b).map .boolean = .ok v at h
    rw [Evaluation.compareUnder_eq_compare (.inr hnumber), h]
    rfl
  | .binary (.logical o), [] | .binary (.logical o), [_] | .binary (.logical o), _ :: _ :: _ :: _
  | .binary (.comparison o), [] | .binary (.comparison o), [_]
  | .binary (.comparison o), _ :: _ :: _ :: _ | .binary (.arithmetic o), _ | .binary (.shift o), _
  | .negate, _ | .call f, _ => exact hgeneral

end Constants

namespace Node

variable {table : ParameterTable} {scope : Scope}

theorem evaluateAll_constants {xs : List Node} (h : ∀ x ∈ xs, x.isConstant = true) :
    evaluateAll table scope xs = (xs.filterMap constant?).map pure := by
  induction xs with
  | nil => rfl
  | cons x xs ih =>
    obtain ⟨v, s, rfl⟩ := isConstant_iff.mp (h x List.mem_cons_self)
    rw [evaluateAll, ih fun y hy => h y (List.mem_cons_of_mem _ hy)]
    rfl

/-- Folding the root of a tree does not change its value. -/
theorem evaluate_foldRoot {op : Operation} {xs : List Node} {s : Span} {ts : TypeSet} {m : Node}
    (h : foldRoot scope.formatters (operation op xs s ts) = .ok m) :
    m.evaluate table scope = (operation op xs s ts).evaluate table scope := by
  rcases foldRoot_cases h with ⟨-, rfl⟩ | ⟨hc, v, hv, rfl⟩
  · rfl
  have hconst := isConstant_of_canFold hc
  rw [evaluate, evaluate, evaluateAll_constants hconst, Operation.perform_constants _ hv]
  rintro o rfl u hu
  cases xs with
  | nil => cases hu
  | cons x xs =>
    obtain ⟨w, s, rfl⟩ := isConstant_iff.mp (hconst x List.mem_cons_self)
    obtain rfl := Option.some.inj hu
    rw [canFold, Bool.and_eq_true] at hc
    cases w with
    | number n => simp [types, Value.type] at hc
    | _ => rfl

/-- Folding does not change the value of a tree. -/
theorem evaluate_foldTree {n m : Node} (h : foldTree scope.formatters n = .ok m) :
    m.evaluate table scope = n.evaluate table scope := by
  induction n generalizing m with
  | constant v s =>
    obtain rfl := Except.ok.inj h
    rfl
  | parameter name producer s ts =>
    obtain rfl := Except.ok.inj h
    rfl
  | operation op xs s ts ih =>
    obtain ⟨ys, hys, hroot⟩ := foldTree_operation_eq_ok_iff.mp h
    have hmap : ys.map (evaluate table scope) = xs.map (evaluate table scope) :=
      (map_eq_map_iff.mpr (forall₂_imp_of_mem hys fun x hx y _ hxy => (ih x hx hxy).symm)).symm
    rw [evaluate_foldRoot hroot, evaluate, evaluate, evaluateAll_eq_map, evaluateAll_eq_map, hmap]

end Node

/-! ### Code -/

namespace Code

variable {mode : Mode} {table : ParameterTable} {find : Finder} {scope : Scope}

theorem runAll_eq_inTurn (cs : List Code) : runAll scope cs = Run.inTurn (cs.map (run scope)) := by
  induction cs with
  | nil => rfl
  | cons c cs ih => rw [runAll, ih, List.map_cons, Run.inTurn]

/-- The code of a Boolean `&` or `|` performs it. -/
theorem run_shortCircuit {op : Logical} {l r : Code} (hl : EndsWith table find scope l .boolean)
    (hr : EndsWith table find scope r .boolean) :
    (shortCircuit op l r).run scope =
      Operation.perform scope (.binary (.logical op)) [l.run scope, r.run scope] := by
  rw [run, Operation.perform]
  refine hl.bind_congr fun v hv => ?_
  obtain ⟨a, rfl⟩ := Value.exists_boolean hv
  change (if op.decidedBy a then _ else _) = if op.decidedBy a then _ else _
  split
  · rfl
  · rename_i hdecided
    conv_lhs => rw [← bind_pure (run scope r)]
    refine hr.bind_congr fun w hw => ?_
    obtain ⟨b, rfl⟩ := Value.exists_boolean hw
    cases op <;> cases a <;> first | rfl | exact absurd rfl hdecided

theorem run_operation (op : Operation) (cs : List Code) :
    (operation op cs).run scope = (do
      let vs ← Run.inTurn (cs.map (run scope))
      ofExcept (op.apply scope.formatters vs)) := by
  rw [run, runAll_eq_inTurn]

variable {o : Overload} {l r : Code}

/-- The code of `&` and `|` performs them: on integers as on any operands, as no integer decides. -/
theorem run_ofLogical {op : Logical} (ho : o ∈ (Operation.binary (.logical op)).overloads)
    (h : List.Forall₂ (EndsWith table find scope) [l, r] o.arguments) :
    (ofOperation mode (.binary (.logical op)) (some o.result) o.arguments.head? [l, r]).run scope =
      Operation.perform scope (.binary (.logical op)) [l.run scope, r.run scope] := by
  by_cases hresult : o.result = .boolean
  · rw [Overload.arguments_eq_booleans ho hresult] at h
    obtain _ | ⟨hl, _ | ⟨hr, -⟩⟩ := h
    rw [ofOperation, if_pos (congrArg some hresult)]
    exact run_shortCircuit hl hr
  · rw [ofOperation, if_neg fun h => hresult (Option.some.inj h), run_operation]
    rw [Overload.arguments_eq_results ho] at h
    obtain _ | ⟨hl, -⟩ := h
    rw [List.map_cons, List.map_singleton, Run.inTurn_pair_bind, Operation.perform]
    refine hl.bind_congr fun v hv => ?_
    rw [if_neg]
    · rfl
    · intro hdecides
      cases v <;> first | exact hresult hv.symm | cases hdecides

/-- The code of a comparison performs it under the tolerance of its mode. -/
theorem run_ofComparison {op : Comparison}
    (ho : o ∈ (Operation.binary (.comparison op)).overloads)
    (hmode : mode = .exact ↔ scope.tolerance.isExact = true)
    (h : List.Forall₂ (EndsWith table find scope) [l, r] o.arguments) :
    (ofOperation mode (.binary (.comparison op)) (some o.result) o.arguments.head? [l, r]).run
        scope =
      Operation.perform scope (.binary (.comparison op)) [l.run scope, r.run scope] := by
  obtain ⟨-, t, harguments, -⟩ := Comparison.of_mem_overloads ho
  rw [harguments] at h ⊢
  obtain _ | ⟨hl, -⟩ := h
  rw [Operation.perform, ofOperation, List.head?_cons]
  by_cases htolerant : mode = .tolerant ∧ some t = some .numeric
  · have hexact : ¬scope.tolerance.isExact = true := by
      rw [← hmode, htolerant.1]
      simp
    simp only [if_pos htolerant, run, Evaluation.compareUnder, if_neg hexact]
  · rw [if_neg htolerant, run_operation, List.map_cons, List.map_singleton, Run.inTurn_pair_bind]
    refine hl.bind_congr fun v hv => ?_
    refine bind_congr fun w => ?_
    rw [Evaluation.compareUnder_eq_compare]
    · rfl
    · cases mode with
      | exact => exact .inl (hmode.mp rfl)
      | tolerant =>
        right
        cases v with
        | number n => exact absurd ⟨rfl, congrArg some hv.symm⟩ htolerant
        | _ => rfl

/-- The code of an operation performs it, if its operands end with values that it is defined for. -/
theorem run_ofOperation {op : Operation} (ho : o ∈ op.overloads)
    (hmode : mode = .exact ↔ scope.tolerance.isExact = true) {cs : List Code}
    (h : List.Forall₂ (EndsWith table find scope) cs o.arguments) :
    (ofOperation mode op (some o.result) o.arguments.head? cs).run scope =
      op.perform scope (cs.map (run scope)) := by
  match op, cs with
  | .binary (.logical p), [l, r] => exact run_ofLogical ho h
  | .binary (.comparison p), [l, r] => exact run_ofComparison ho hmode h
  | .binary (.logical o), [] | .binary (.logical o), [_] | .binary (.logical o), _ :: _ :: _ :: _
  | .binary (.comparison o), [] | .binary (.comparison o), [_]
  | .binary (.comparison o), _ :: _ :: _ :: _ | .binary (.arithmetic o), _ | .binary (.shift o), _
  | .negate, _ | .call f, _ => exact run_operation _ _

theorem head?_of_types {xs : List Node} {ts : List ValueType}
    (h : xs.map Node.types = ts.map TypeSet.only) : xs.head?.bind Node.type? = ts.head? := by
  cases xs with
  | nil =>
    rw [List.map_nil, eq_comm, List.map_eq_nil_iff] at h
    subst h
    rfl
  | cons x xs =>
    obtain ⟨t, ts, rfl, ht, -⟩ := List.map_eq_cons_iff.mp h.symm
    rw [List.head?_cons, List.head?_cons, Option.bind_some, Node.type?, ← ht, TypeSet.single?_only]

/-- The code of a resolved tree computes the value of the tree. -/
theorem run_ofNode {n : Node} (hn : n.Resolved)
    (href : n.EveryReference fun name ts => ∃ f ∈ table, f.name = name ∧ ts = .only f.type)
    (hnames : table.names.Nodup) (hslots : SlotsFit table find scope.slots)
    (hmode : mode = .exact ↔ scope.tolerance.isExact = true) {c : Code}
    (hc : ofNode mode table n = .ok c) : c.run scope = n.evaluate table scope := by
  induction hn generalizing c with
  | constant v s =>
    obtain rfl := Except.ok.inj hc
    rfl
  | parameter name producer s t =>
    obtain ⟨i, hi, rfl⟩ := ofNode_parameter_eq_ok_iff.mp hc
    rw [Node.evaluate, hi]
    rfl
  | @operation op xs o s ho types operands ih =>
    obtain ⟨u, cs, hu, hcs, rfl⟩ := ofNode_operation_eq_ok_iff.mp hc
    obtain rfl := TypeSet.only_injective hu
    have hends : List.Forall₂ (EndsWith table find scope) cs o.arguments :=
      ofNodes_ends hcs types fun x hx c t hc ht =>
        ofNode_ends (operands x hx) (href.of_operation x hx) hnames hslots hc ht
    have hruns : cs.map (run scope) = Node.evaluateAll table scope xs := by
      rw [Node.evaluateAll_eq_map, map_eq_map_iff]
      refine (forall₂_imp_of_mem (ofNodes_eq_ok_iff.mp hcs) fun x hx c _ hc => ?_).flip
      exact ih x hx (href.of_operation x hx) hc
    rw [head?_of_types types, run_ofOperation ho hmode hends, hruns, Node.evaluate]

end Code

/-! ### Compiled expressions -/

namespace Analysis

/-- The analyzed tree has the value of the tree of the expression. -/
theorem evaluate_of_ofExpr {e : Expr} {x : Extraction} {source : String} {r : Registry}
    {a : Analysis} (scope : Scope) (hr : r.Distinct)
    (h : ofExpr e x source r scope.formatters = .ok a) (table : ParameterTable) :
    a.root.evaluate table scope = (e.outline x).evaluate table scope := by
  rw [← Node.evaluate_outline, Node.evaluate_foldTree (outline_of_ofExpr hr h)]

end Analysis

/-- A compiled expression computes the value of its analyzed tree under every tolerance. -/
theorem Compiled.runCode_eq_evaluate {a : Analysis} (ha : a.WellTyped) {e : Compiled}
    (hexact : Code.ofNode .exact a.parameters a.root = .ok e.exact)
    (htolerant : Code.ofNode .tolerant a.parameters a.root = .ok e.tolerant) {find : Finder}
    {slots : List Slot} (t : Tolerance) (hslots : SlotsFit a.parameters find slots) :
    e.runCode t slots = ExceptT.adapt CallError.evaluation
      (a.root.evaluate a.parameters ⟨slots, t, e.formatters⟩) := by
  have hvalue : ∀ {mode code}, (mode = .exact ↔ t.isExact = true) →
      Code.ofNode mode a.parameters a.root = .ok code →
      code.run ⟨slots, t, e.formatters⟩ = a.root.evaluate a.parameters ⟨slots, t, e.formatters⟩ :=
    fun hmode hcode => Code.run_ofNode ha.resolved ha.references ha.distinct hslots hmode hcode
  unfold runCode
  by_cases hexactly : t.isExact = true
  · rw [if_pos hexactly]
    exact congrArg (ExceptT.adapt CallError.evaluation) (hvalue (by simp [hexactly]) hexact)
  · rw [if_neg hexactly]
    exact congrArg (ExceptT.adapt CallError.evaluation) (hvalue (by simp [hexactly]) htolerant)

namespace Engine

variable {engine : Engine} {source : String} {r : Registry} {c : Compiled}

/-- A compiled expression computes the value of the tree of its text, in which nothing is folded,
under every tolerance. -/
theorem runCode_eq_evaluate (hr : r.Distinct) (h : engine.compileText source r = .ok c) :
    ∃ e, engine.parse source = .ok e ∧
      ∀ (t : Tolerance) (find : Finder) (slots : List Slot), SlotsFit c.parameters find slots →
        c.runCode t slots = ExceptT.adapt CallError.evaluation
          ((e.outline (engine.extract source)).evaluate c.parameters ⟨slots, t, c.formatters⟩) := by
  obtain ⟨e, a, he, ha, hparameters, hexact, htolerant, -⟩ := exists_stages_of_compileText h
  have hwell := Analysis.ofExpr_wellTyped hr ha
  rw [← formatters_of_compileText h] at ha
  refine ⟨e, he, fun t find slots hslots => ?_⟩
  rw [hparameters] at hslots ⊢
  rw [c.runCode_eq_evaluate hwell hexact htolerant t hslots]
  exact congrArg (ExceptT.adapt CallError.evaluation)
    (Analysis.evaluate_of_ofExpr ⟨slots, t, c.formatters⟩ hr ha a.parameters)

end Engine
end TolerantExpr
