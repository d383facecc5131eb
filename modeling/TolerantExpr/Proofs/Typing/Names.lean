import TolerantExpr.Proofs.Typing.Building

/-!
# The names in a tree

The tree that is built for an expression has the references that the expression makes, one for one
and in order: narrowing leaves the shape of a tree alone, and what is folded away has no references
in it. The registry notes each of these names as used, and no other one.
-/

namespace TolerantExpr

namespace Node

mutual

/-- The names of the references in a tree, from left to right. -/
def names : Node → List String
  | constant _ _ => []
  | parameter name _ _ _ => [name]
  | operation _ xs _ _ => namesAll xs

def namesAll : List Node → List String
  | [] => []
  | x :: xs => x.names ++ namesAll xs

end

mutual

/-- The names depend on the shape of the tree alone. -/
theorem names_eq_of_le {m n : Node} (h : m ≤ n) : m.names = n.names := by
  cases h with
  | constant => rfl
  | parameter => rfl
  | operation operands =>
    rw [names, names]
    exact namesAll_eq_of_le operands

theorem namesAll_eq_of_le {xs ys : List Node} (h : List.Forall₂ (· ≤ ·) xs ys) :
    namesAll xs = namesAll ys := by
  cases h with
  | nil => rfl
  | cons hxy h => rw [namesAll, namesAll, names_eq_of_le hxy, namesAll_eq_of_le h]

end

theorem namesAll_of_constants {xs : List Node} (h : ∀ x ∈ xs, x.isConstant = true) :
    namesAll xs = [] := by
  induction xs with
  | nil => rfl
  | cons x xs ih =>
    obtain ⟨v, s, rfl⟩ := isConstant_iff.mp (h x List.mem_cons_self)
    rw [namesAll, ih fun y hy => h y (List.mem_cons_of_mem _ hy)]
    rfl

/-- Folding takes no reference away. -/
theorem names_foldRoot {formatters : Formatters} {op : Operation} {xs : List Node} {s : Span}
    {ts : TypeSet} {m : Node} (h : foldRoot formatters (operation op xs s ts) = .ok m) :
    m.names = namesAll xs := by
  rcases foldRoot_cases h with ⟨-, rfl⟩ | ⟨hc, v, -, rfl⟩
  · rfl
  · exact (namesAll_of_constants (isConstant_of_canFold hc)).symm

mutual

/-- What holds of the name of every reference holds of every name in the tree. -/
theorem EveryReference.of_mem_names {P : String → Prop} {n : Node}
    (h : n.EveryReference fun name _ => P name) : ∀ name ∈ n.names, P name := by
  match n with
  | .constant v s => simp [names]
  | .parameter name producer s ts => simpa [names] using h.of_parameter
  | .operation op xs s ts => exact EveryReference.of_mem_namesAll h.of_operation

theorem EveryReference.of_mem_namesAll {P : String → Prop} {xs : List Node}
    (h : ∀ x ∈ xs, x.EveryReference fun name _ => P name) : ∀ name ∈ namesAll xs, P name := by
  match xs with
  | [] => simp [namesAll]
  | x :: xs =>
    rw [List.forall_mem_cons] at h
    rw [namesAll, List.forall_mem_append]
    exact ⟨EveryReference.of_mem_names h.1, EveryReference.of_mem_namesAll h.2⟩

end

theorem mem_namesAll_iff {xs : List Node} {name : String} :
    name ∈ namesAll xs ↔ ∃ x ∈ xs, name ∈ x.names := by
  induction xs with
  | nil => simp [namesAll]
  | cons x xs ih => rw [namesAll, List.mem_append, ih, List.exists_mem_cons_iff]

/-- What holds of every name in the tree holds of the name of every reference. -/
theorem everyReference_of_names {P : String → Prop} {n : Node}
    (h : ∀ name ∈ n.names, P name) : n.EveryReference fun name _ => P name := by
  induction n with
  | constant v s => exact .constant v s
  | parameter name producer s ts => exact .parameter (h name (by simp [names]))
  | operation op xs s ts ih =>
    refine .operation fun x hx => ih x hx fun name hname => ?_
    exact h name (mem_namesAll_iff.mpr ⟨x, hx, hname⟩)

end Node

namespace Registry

variable {r s : Registry} {name : String}

theorem used_of_recordUse {producer : Bool} (h : r.recordUse name producer = .ok s) :
    s.used = r.used := by
  obtain ⟨p, hp, -, rfl⟩ := recordUse_eq_ok_iff.mp h
  obtain ⟨-, rfl⟩ := get?_eq_some hp
  rw [put_of_contains (p := { p with producer := some producer }) (contains_iff.mpr ⟨p, hp⟩)]

/-- A registry that knows a table starts without uses. -/
theorem used_ofTable (table : ParameterTable) : (ofTable table).used = [] := by
  have hadopt : ∀ (r : Registry) (p : Parameter), (r.adopt p).used = r.used := by
    intro r p
    unfold adopt put
    dsimp only
    split <;> rfl
  have hfold : ∀ r : Registry, (table.foldl (fun r p => r.adopt (.fixed p)) r).used = r.used := by
    induction table with
    | nil => exact fun _ => rfl
    | cons p table ih =>
      intro r
      rw [List.foldl_cons, ih, hadopt]
  exact hfold {}

end Registry

namespace Analysis

variable {x : Extraction} {formatters : Formatters}

/-- The names that were used from the first registry to the second one. -/
def Uses (names : List String) (r s : Registry) : Prop :=
  ∀ name, name ∈ s.used ↔ name ∈ r.used ∨ name ∈ names

theorem Uses.refl (r : Registry) : Uses [] r r := by
  intro name
  simp

theorem Uses.append {xs ys : List String} {r s t : Registry} (hxs : Uses xs r s)
    (hys : Uses ys s t) : Uses (xs ++ ys) r t := by
  intro name
  rw [hys, hxs, List.mem_append, or_assoc]

theorem reference_names {name : String} {producer : Bool} {s : Span} (σ : State) :
    Meets (reference name producer s) σ
      (fun n υ => n.names = [name] ∧ Uses n.names σ.registry υ.registry) fun _ _ => True := by
  unfold Meets
  rw [reference_run]
  cases hr : (σ.registry.mention name).recordUse name producer with
  | error e left => trivial
  | ok r =>
    have huses : Uses [name] σ.registry r := by
      intro m
      rw [Registry.used_of_recordUse hr, Registry.mem_used_mention_iff, List.mem_singleton]
    dsimp only
    split <;> exact ⟨rfl, huses⟩

theorem complete_names {op : Operation} {xs : List Node} {s : Span} {σ : State}
    (hσ : σ.registry.Distinct) :
    Meets (complete formatters (.ofOperation op xs s)) σ
      (fun n υ => n.names = Node.namesAll xs ∧ υ.registry.used = σ.registry.used)
      fun _ _ => True := by
  unfold Meets
  rw [complete_run]
  obtain ⟨hsub, hreg⟩ := Node.stabilize_le (.ofOperation op xs s) hσ
  cases (Node.stabilize (.ofOperation op xs s) σ.registry).fault with
  | some fault => trivial
  | none =>
    dsimp only
    obtain ⟨ys, us, hsubject, hys, -⟩ := Node.le_operation_iff.mp hsub
    rw [hsubject]
    cases hn : (Node.operation op ys s us).foldRoot formatters with
    | error fault => trivial
    | ok n =>
      refine ⟨?_, hreg.used_eq⟩
      rw [Node.names_foldRoot hn, Node.namesAll_eq_of_le hys]

/-- Building an expression leads to its references, and notes them. -/
def Names (x : Extraction) (formatters : Formatters) (e : Expr) : Prop :=
  ∀ σ : State, σ.registry.Distinct →
    Meets (build x formatters e) σ
      (fun n υ => n.names = (e.uses x).map Prod.fst ∧ Uses n.names σ.registry υ.registry)
      fun _ _ => True

theorem buildAll_names (es : List Expr) (ih : ∀ e ∈ es, Names x formatters e) (σ : State)
    (hσ : σ.registry.Distinct) :
    Meets (buildAll x formatters es) σ
      (fun xs υ => Node.namesAll xs = (Expr.usesAll x es).map Prod.fst ∧
        Uses (Node.namesAll xs) σ.registry υ.registry) fun _ _ => True := by
  induction es generalizing σ with
  | nil => exact meets_pure ⟨rfl, .refl _⟩
  | cons e es ihes =>
    rw [buildAll]
    have hn := (build_built e σ hσ).and (ih e List.mem_cons_self σ hσ)
    refine hn.bind fun n υ h => ?_
    obtain ⟨hbuilt, hnames, huses⟩ := h
    have hxs := ihes (fun f hf => ih f (List.mem_cons_of_mem _ hf)) υ hbuilt.distinct
    refine hxs.bind fun xs ω h => ?_
    obtain ⟨hnames', huses'⟩ := h
    refine meets_pure ⟨?_, huses.append huses'⟩
    rw [Node.namesAll, Expr.usesAll, List.map_append, hnames, hnames']

theorem operation_names {e : Expr} {op : Operation} {es : List Expr} {s : Span}
    (he : Expr.IsOperation e op es s) (ih : ∀ e ∈ es, Names x formatters e) :
    Names x formatters e := by
  intro σ hσ
  rcases build_operation (x := x) he with hb | ⟨fault, hb, -⟩ <;> rw [hb]
  · have hxs := (buildAll_built es (fun e _ => build_built e) σ hσ).and
      (buildAll_names es ih σ hσ)
    refine hxs.bind fun xs υ h => ?_
    obtain ⟨hbuilt, hnames, huses⟩ := h
    refine (complete_names hbuilt.distinct).imp (fun n ω h => ?_) fun _ _ h => h
    obtain ⟨hnames', hused⟩ := h
    refine ⟨by rw [hnames', hnames, he.uses_eq], fun name => ?_⟩
    rw [hused, hnames']
    exact huses name
  · exact meets_throw trivial

/-- The tree of an expression has its references, and the registry notes them as used. -/
theorem build_names (e : Expr) : Names x formatters e := by
  induction e with
  | literal l s => exact fun σ _ => meets_pure ⟨rfl, .refl _⟩
  | name n s =>
    intro σ _
    rw [build, Expr.uses]
    cases x.excerptAt? s with
    | some y => exact meets_pure ⟨rfl, .refl _⟩
    | none => exact reference_names σ
  | negate e s ih => exact operation_names (.negate e s) (by simpa using ih)
  | binary op l r s ihl ihr => exact operation_names (.binary op l r s) (by simpa using ⟨ihl, ihr⟩)
  | call f es s ih =>
    cases hb : Builtin.ofName? f with
    | some b => exact operation_names (.call hb es s) ih
    | none =>
      intro σ _
      rw [build, hb]
      cases es with
      | cons e es => exact meets_throw trivial
      | nil =>
        simp only [Expr.uses, hb, Option.isNone_none, List.isEmpty_nil, and_self, ↓reduceIte]
        exact reference_names σ

theorem names_of_run {e : Expr} {r : Registry} (hr : r.Distinct) {n : Node} {σ : State}
    (h : (build x formatters e).run { registry := r } = (.ok n, σ)) :
    n.names = (e.uses x).map Prod.fst ∧ Uses n.names r σ.registry := by
  have hnames : Meets (build x formatters e) { registry := r }
      (fun n υ => n.names = (e.uses x).map Prod.fst ∧ Uses n.names r υ.registry) fun _ _ => True :=
    build_names e _ hr
  unfold Meets at hnames
  rw [h] at hnames
  exact hnames

end Analysis
end TolerantExpr
