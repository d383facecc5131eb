import TolerantExpr.Analysis
import TolerantExpr.Proofs.Computations
import TolerantExpr.Proofs.Typing.Folding
import TolerantExpr.Proofs.Typing.Narrowing

/-!
# What building a tree does

The tree that is built has exactly the types of the expression: under any choice of types for the
parameters the two have the same type, or none. Its parameters are registered and used, and its
sets lie above those of the registry. If the expression has a type under a choice that the registry
still allows, then building fails only because a constant part has no value, and the tree keeps the
choice.
-/

namespace TolerantExpr

/-! ### Types of expressions -/

namespace Expr

/-- Induction over an expression, with the claim for each operand. -/
@[elab_as_elim, induction_eliminator]
theorem induction {motive : Expr → Prop} (literal : ∀ l s, motive (literal l s))
    (name : ∀ n s, motive (name n s)) (negate : ∀ e s, motive e → motive (negate e s))
    (binary : ∀ op l r s, motive l → motive r → motive (binary op l r s))
    (call : ∀ f es s, (∀ e ∈ es, motive e) → motive (call f es s)) : ∀ e, motive e
  | .literal l s => literal l s
  | .name n s => name n s
  | .negate e s => negate e s (induction literal name negate binary call e)
  | .binary op l r s =>
    binary op l r s (induction literal name negate binary call l)
      (induction literal name negate binary call r)
  | .call f es s => call f es s fun e _ => induction literal name negate binary call e

/-- The type of an expression when each parameter has a given type: literals have their own, and
each operator and call has an overload for the types of its operands. -/
inductive HasType (x : Extraction) (τ : String → ValueType) : Expr → ValueType → Prop where
  | literal (l : Literal) (s : Span) : HasType x τ (literal l s) (Analysis.valueOf l).type
  | excerpt {n : String} {s : Span} {y : Excerpt} (h : x.excerptAt? s = some y) :
    HasType x τ (name n s) y.value.type
  | name {n : String} {s : Span} (h : x.excerptAt? s = none) : HasType x τ (name n s) (τ n)
  | negate {e : Expr} {o : Overload} (s : Span) (ho : o ∈ Overload.negation)
    (operands : List.Forall₂ (HasType x τ) [e] o.arguments) : HasType x τ (negate e s) o.result
  | binary {op : BinaryOperator} {l r : Expr} {o : Overload} (s : Span) (ho : o ∈ op.overloads)
    (operands : List.Forall₂ (HasType x τ) [l, r] o.arguments) :
    HasType x τ (binary op l r s) o.result
  | call {f : String} {b : Builtin} {es : List Expr} {o : Overload} (s : Span)
    (hb : Builtin.ofName? f = some b) (ho : o ∈ b.overloads)
    (operands : List.Forall₂ (HasType x τ) es o.arguments) : HasType x τ (call f es s) o.result
  | producer {f : String} (s : Span) (hf : Builtin.ofName? f = none) :
    HasType x τ (call f [] s) (τ f)

section Leaves

variable {x : Extraction} {τ : String → ValueType} {t : ValueType} {s : Span}

theorem hasType_literal_iff {l : Literal} :
    HasType x τ (literal l s) t ↔ t = (Analysis.valueOf l).type := by
  constructor
  · intro h
    cases h
    rfl
  · intro heq
    subst heq
    exact .literal l s

theorem hasType_excerpt_iff {n : String} {y : Excerpt} (hx : x.excerptAt? s = some y) :
    HasType x τ (name n s) t ↔ t = y.value.type := by
  constructor
  · intro h
    cases h with
    | excerpt h => rw [Option.some.inj (hx.symm.trans h)]
    | name h =>
      rw [hx] at h
      cases h
  · intro heq
    subst heq
    exact .excerpt hx

theorem hasType_name_iff {n : String} (hx : x.excerptAt? s = none) :
    HasType x τ (name n s) t ↔ t = τ n := by
  constructor
  · intro h
    cases h with
    | excerpt h =>
      rw [hx] at h
      cases h
    | name h => rfl
  · intro heq
    subst heq
    exact .name hx

theorem hasType_producer_iff {f : String} (hf : Builtin.ofName? f = none) :
    HasType x τ (call f [] s) t ↔ t = τ f := by
  constructor
  · intro h
    cases h with
    | call _ hb =>
      rw [hf] at hb
      cases hb
    | producer => rfl
  · intro heq
    subst heq
    exact .producer s hf

end Leaves

/-- An expression is an operation on other ones: an operator or a call of a function. -/
inductive IsOperation : Expr → Operation → List Expr → Span → Prop where
  | negate (e : Expr) (s : Span) : IsOperation (negate e s) .negate [e] s
  | binary (op : BinaryOperator) (l r : Expr) (s : Span) :
    IsOperation (binary op l r s) (.binary op) [l, r] s
  | call {f : String} {b : Builtin} (hb : Builtin.ofName? f = some b) (es : List Expr) (s : Span) :
    IsOperation (call f es s) (.call b) es s

theorem IsOperation.hasType_iff {x : Extraction} {τ : String → ValueType} {e : Expr}
    {op : Operation} {es : List Expr} {s : Span} {t : ValueType} (h : IsOperation e op es s) :
    HasType x τ e t ↔
      ∃ o ∈ op.overloads, List.Forall₂ (HasType x τ) es o.arguments ∧ o.result = t := by
  constructor
  · intro ht
    cases h with
    | negate e s =>
      obtain _ | _ | _ | ⟨_, ho, operands⟩ := ht
      exact ⟨_, ho, operands, rfl⟩
    | binary op l r s =>
      obtain _ | _ | _ | _ | ⟨_, ho, operands⟩ := ht
      exact ⟨_, ho, operands, rfl⟩
    | call hb es s =>
      cases ht with
      | call _ hb' ho operands =>
        obtain rfl := Option.some.inj (hb.symm.trans hb')
        exact ⟨_, ho, operands, rfl⟩
      | producer _ hf =>
        rw [hf] at hb
        cases hb
  · intro h
    obtain ⟨o, ho, operands, rfl⟩ := h
    cases h with
    | negate e s => exact .negate s ho operands
    | binary op l r s => exact .binary s ho operands
    | call hb es s => exact .call s hb ho operands

mutual

/-- The uses of names that an expression makes, each with whether it is one of a producer. -/
def uses (x : Extraction) : Expr → List (String × Bool)
  | literal _ _ => []
  | name n s => if (x.excerptAt? s).isSome then [] else [(n, false)]
  | negate e _ => uses x e
  | binary _ l r _ => uses x l ++ uses x r
  | call f es _ =>
    if (Builtin.ofName? f).isNone ∧ es.isEmpty then [(f, true)] else usesAll x es

def usesAll (x : Extraction) : List Expr → List (String × Bool)
  | [] => []
  | e :: es => uses x e ++ usesAll x es

end

/-- The operands make the uses of an operation. -/
theorem IsOperation.uses_eq {x : Extraction} {e : Expr} {op : Operation} {es : List Expr}
    {s : Span} (h : IsOperation e op es s) : uses x e = usesAll x es := by
  cases h with
  | negate e s => simp [uses, usesAll]
  | binary op l r s => simp [uses, usesAll]
  | call hb es s => simp [uses, hb]

end Expr

namespace Analysis

/-! ### Steps of the build -/

theorem run_get (σ : State) : (get : Build State).run σ = (.ok σ, σ) := rfl

theorem run_set (σ τ : State) : (set τ : Build PUnit).run σ = (.ok ⟨⟩, τ) := rfl

theorem run_modify (f : State → State) (σ : State) :
    (modify f : Build PUnit).run σ = (.ok ⟨⟩, f σ) := rfl

theorem reference_run (name : String) (producer : Bool) (span : Span) (σ : State) :
    (reference name producer span).run σ =
      match (σ.registry.mention name).recordUse name producer with
      | .ok r => (.ok (.parameter name producer span ((σ.registry.mention name).typesOf name)),
          if (σ.introduced.lookup name).isSome then { σ with registry := r }
          else { registry := r, introduced := σ.introduced ++ [(name, span)] })
      | .error e left => (.error (.ofParameter e span), { σ with registry := left }) := by
  unfold reference withRegistry
  simp only [run_bind, run_modify, run_get]
  cases (σ.registry.mention name).recordUse name producer with
  | ok r => rfl
  | error e left => rfl

theorem complete_run (formatters : Formatters) (n : Node) (σ : State) :
    (complete formatters n).run σ =
      (match (n.stabilize σ.registry).fault with
        | some fault => .error fault
        | none => (n.stabilize σ.registry).subject.foldRoot formatters,
        { σ with registry := (n.stabilize σ.registry).registry }) := by
  unfold complete
  simp only [run_bind, run_get, run_set]
  cases (n.stabilize σ.registry).fault with
  | some fault => rfl
  | none =>
    dsimp only
    cases (n.stabilize σ.registry).subject.foldRoot formatters <;> rfl

/-- The faults of folding: a constant part has no value. -/
def IsFold (fault : TypeFault) : Prop := ∃ report, fault.cause = .fold report

section Build

variable {x : Extraction} {formatters : Formatters}

/-- An operation is built from its operands, unless it is a call with as many arguments as no
overload has. -/
theorem build_operation {e : Expr} {op : Operation} {es : List Expr} {s : Span}
    (h : Expr.IsOperation e op es s) :
    (build x formatters e = do
      let xs ← buildAll x formatters es
      complete formatters (.ofOperation op xs (x.sourceSpan s))) ∨
    ∃ fault, build x formatters e = throw fault ∧ ¬IsFold fault ∧
      ∀ o ∈ op.overloads, o.arguments.length ≠ es.length := by
  cases h with
  | negate e s =>
    left
    simp [build, buildAll]
  | binary op l r s =>
    left
    simp [build, buildAll]
  | @call f b hb es s =>
    rw [build, hb]
    by_cases harity : b.acceptsArity es.length = true
    · left
      exact if_pos harity
    · right
      refine ⟨_, if_neg harity, by simp [IsFold], fun o ho hlen => harity ?_⟩
      rw [Builtin.acceptsArity, List.any_eq_true]
      exact ⟨o, ho, decide_eq_true hlen⟩

/-! ### What has been built -/

/-- A node that was built for an expression, from the first registry to the second one. -/
structure Built (x : Extraction) (e : Expr) (r s : Registry) (n : Node) : Prop where
  refines : s.Refines r
  distinct : s.Distinct
  covered : n.CoveredBy s
  used : n.EveryReference fun name _ => name ∈ s.used
  types : ∀ τ t, n.HasType τ t ↔ e.HasType x τ t

/-- Nodes that were built for a list of expressions. -/
structure BuiltAll (x : Extraction) (es : List Expr) (r s : Registry) (xs : List Node) : Prop where
  refines : s.Refines r
  distinct : s.Distinct
  covered : ∀ n ∈ xs, n.CoveredBy s
  used : ∀ n ∈ xs, n.EveryReference fun name _ => name ∈ s.used
  types : ∀ τ ts, List.Forall₂ (Node.HasType τ) xs ts ↔ List.Forall₂ (Expr.HasType x τ) es ts

theorem BuiltAll.nil {r : Registry} (hr : r.Distinct) : BuiltAll x [] r r [] where
  refines := .refl r
  distinct := hr
  covered := by simp
  used := by simp
  types τ ts := by rw [List.forall₂_nil_left_iff, List.forall₂_nil_left_iff]

theorem BuiltAll.cons {e : Expr} {es : List Expr} {r s t : Registry} {n : Node} {xs : List Node}
    (hn : Built x e r s n) (hxs : BuiltAll x es s t xs) : BuiltAll x (e :: es) r t (n :: xs) where
  refines := hn.refines.trans hxs.refines
  distinct := hxs.distinct
  covered := List.forall_mem_cons.mpr ⟨hn.covered.of_refines hxs.refines, hxs.covered⟩
  used := List.forall_mem_cons.mpr
    ⟨hn.used.imp fun name _ h => hxs.refines.used name h, hxs.used⟩
  types τ ts := by
    rw [List.forall₂_cons_left_iff, List.forall₂_cons_left_iff]
    simp only [hn.types, hxs.types]

/-- A constant is built without the registry. -/
theorem built_constant {e : Expr} {v : Value} {s : Span} {r : Registry} (hr : r.Distinct)
    (h : ∀ τ t, e.HasType x τ t ↔ t = v.type) : Built x e r r (.constant v s) where
  refines := .refl r
  distinct := hr
  covered := .constant v s
  used := .constant v s
  types τ t := by
    rw [h, Node.hasType_constant_iff]

theorem reference_built {e : Expr} {name : String} {producer : Bool} {s : Span} {σ : State}
    (hσ : σ.registry.Distinct) (h : ∀ τ t, e.HasType x τ t ↔ t = τ name) :
    Meets (reference name producer s) σ (fun n τ => Built x e σ.registry τ.registry n)
      fun _ _ => True := by
  unfold Meets
  rw [reference_run]
  cases hr : (σ.registry.mention name).recordUse name producer with
  | error e left => trivial
  | ok r =>
    obtain ⟨href, hdistinct, htypes⟩ := Registry.recordUse_refines hr
    have hmention := Registry.mention_refines σ.registry name
    have hbuilt : Built x e σ.registry r
        (.parameter name producer s ((σ.registry.mention name).typesOf name)) := by
      refine ⟨hmention.trans href, hdistinct (Registry.distinct_mention hσ name), ?_, ?_, ?_⟩
      · exact .parameter ⟨href.contains name (Registry.contains_mention _ _), (htypes name).le⟩
      · exact .parameter (href.used name (Registry.mem_used_mention _ _).1)
      · intro τ t
        rw [h, Node.hasType_parameter_iff]
    dsimp only
    split <;> exact hbuilt

/-- Stabilizing and folding an operation on nodes that were built. -/
theorem complete_built {e : Expr} {op : Operation} {es : List Expr} {s : Span}
    (he : Expr.IsOperation e op es s) {r : Registry} {σ : State} {xs : List Node} {s' : Span}
    (h : BuiltAll x es r σ.registry xs) :
    Meets (complete formatters (.ofOperation op xs s')) σ
      (fun n τ => Built x e r τ.registry n) fun _ _ => True := by
  unfold Meets Node.ofOperation
  rw [complete_run]
  generalize hts : Overload.results op.overloads = ts
  cases hf : (Node.stabilize (.operation op xs s' ts) σ.registry).fault with
  | some fault => trivial
  | none =>
    dsimp only
    cases hn : (Node.stabilize (.operation op xs s' ts) σ.registry).subject.foldRoot formatters with
    | error fault => trivial
    | ok n =>
      dsimp only
      obtain ⟨hsub, hreg⟩ := Node.stabilize_le (.operation op xs s' ts) h.distinct
      have hcov := Node.stabilize_covers (n := .operation op xs s' ts) h.distinct h.covered hf
      have hused := Node.EveryReference.of_le hsub (.operation h.used)
      obtain ⟨ys, us, hsubject, hys, -⟩ := Node.le_operation_iff.mp hsub
      rw [hsubject] at hn hcov hused hsub
      refine ⟨h.refines.trans (Registry.refines_of_le hreg), Registry.distinct_of_le hreg h.distinct,
        hcov.foldRoot hn, ?_, fun τ t => ?_⟩
      · rw [hreg.used_eq]
        exact hused.foldRoot hn
      · have hacc : (∀ y ∈ ys, y.isConstant = true) →
            ∃ o ∈ op.overloads, o.accepts (ys.map Node.types) = true := by
          intro hconst
          rw [Node.eq_of_forall₂_le_of_isConstant hys hconst]
          exact Node.exists_accepts_of_stabilize hf
        rw [Node.hasType_foldRoot_iff hacc hn, Node.hasType_iff_of_le hsub,
          Node.hasType_operation_iff, he.hasType_iff]
        simp only [h.types]

theorem buildAll_built (es : List Expr)
    (ih : ∀ e ∈ es, ∀ σ : State, σ.registry.Distinct →
      Meets (build x formatters e) σ (fun n τ => Built x e σ.registry τ.registry n) fun _ _ => True)
    (σ : State) (hσ : σ.registry.Distinct) :
    Meets (buildAll x formatters es) σ (fun xs τ => BuiltAll x es σ.registry τ.registry xs)
      fun _ _ => True := by
  induction es generalizing σ with
  | nil => exact meets_pure (.nil hσ)
  | cons e es ihes =>
    rw [buildAll]
    refine (ih e List.mem_cons_self σ hσ).bind fun n τ hn => ?_
    refine (ihes (fun f hf => ih f (List.mem_cons_of_mem _ hf)) τ hn.distinct).bind fun xs υ hxs => ?_
    exact meets_pure (.cons hn hxs)

theorem operation_built {e : Expr} {op : Operation} {es : List Expr} {s : Span}
    (he : Expr.IsOperation e op es s)
    (ih : ∀ e ∈ es, ∀ σ : State, σ.registry.Distinct →
      Meets (build x formatters e) σ (fun n τ => Built x e σ.registry τ.registry n) fun _ _ => True)
    (σ : State) (hσ : σ.registry.Distinct) :
    Meets (build x formatters e) σ (fun n τ => Built x e σ.registry τ.registry n)
      fun _ _ => True := by
  rcases build_operation (x := x) he with hb | ⟨fault, hb, -⟩ <;> rw [hb]
  · exact (buildAll_built es ih σ hσ).bind fun xs τ hxs => complete_built he hxs
  · exact meets_throw trivial

/-- Building an expression. -/
theorem build_built (e : Expr) (σ : State) (hσ : σ.registry.Distinct) :
    Meets (build x formatters e) σ (fun n τ => Built x e σ.registry τ.registry n)
      fun _ _ => True := by
  induction e generalizing σ with
  | literal l s => exact meets_pure (built_constant hσ fun τ t => Expr.hasType_literal_iff)
  | name n s =>
    rw [build]
    cases hx : x.excerptAt? s with
    | some y => exact meets_pure (built_constant hσ fun τ t => Expr.hasType_excerpt_iff hx)
    | none => exact reference_built hσ fun τ t => Expr.hasType_name_iff hx
  | negate e s ih => exact operation_built (.negate e s) (by simpa using ih) σ hσ
  | binary op l r s ihl ihr =>
    exact operation_built (.binary op l r s) (by simpa using ⟨ihl, ihr⟩) σ hσ
  | call f es s ih =>
    cases hb : Builtin.ofName? f with
    | some b => exact operation_built (.call hb es s) ih σ hσ
    | none =>
      rw [build, hb]
      cases es with
      | cons e es => exact meets_throw trivial
      | nil => exact reference_built hσ fun τ t => Expr.hasType_producer_iff hb

/-! ### What building keeps -/

variable {τ : String → ValueType} {π : String → Bool}

/-- A registry leaves open a choice of types and uses. -/
structure Open (τ : String → ValueType) (π : String → Bool) (r : Registry) : Prop where
  allows : r.Allows fun name => .only (τ name)
  agrees : r.AgreesWith π

/-- A tree leaves open a choice under which it has a type. -/
def Admits (τ : String → ValueType) (t : ValueType) (n : Node) : Prop :=
  ∃ m ≤ n, m.Consistent (fun name => .only (τ name)) ∧ m.types = .only t

theorem Admits.hasType {t : ValueType} {n : Node} (h : Admits τ t n) : n.HasType τ t := by
  obtain ⟨m, hm, hc, ht⟩ := h
  have hrefs := hc.references
  have hm' := (hc.resolved (hrefs.imp fun name _ _ => ⟨τ name, rfl⟩)).hasType hrefs ht
  exact (Node.hasType_iff_of_le hm).mp hm'

theorem exists_of_admits {xs : List Node} {ts : List ValueType}
    (h : List.Forall₂ (fun x t => Admits τ t x) xs ts) :
    ∃ ms, List.Forall₂ (· ≤ ·) ms xs ∧ (∀ m ∈ ms, m.Consistent fun name => .only (τ name)) ∧
      ms.map Node.types = ts.map TypeSet.only := by
  induction h with
  | nil => exact ⟨[], .nil, by simp, rfl⟩
  | cons hx _ ih =>
    obtain ⟨m, hm, hc, ht⟩ := hx
    obtain ⟨ms, hms, hcs, hts⟩ := ih
    refine ⟨m :: ms, .cons hm hms, List.forall_mem_cons.mpr ⟨hc, hcs⟩, ?_⟩
    rw [List.map_cons, List.map_cons, ht, hts]

theorem reference_admits {name : String} {producer : Bool} {s : Span} {σ : State}
    (hσ : Open τ π σ.registry) (h : producer = π name) :
    Meets (reference name producer s) σ (fun n υ => Open τ π υ.registry ∧ Admits τ (τ name) n)
      (fun fault _ => IsFold fault) := by
  obtain ⟨r, hr, hρ, hπ⟩ := Registry.exists_recordUse_mention hσ.allows hσ.agrees h
  unfold Meets
  rw [reference_run, hr]
  have hle := hρ.le_typesOf name
  rw [(Registry.recordUse_refines hr).2.2 name] at hle
  have hnode : Admits τ (τ name)
      (.parameter name producer s ((σ.registry.mention name).typesOf name)) :=
    ⟨.parameter name producer s (.only (τ name)), .parameter hle,
      .parameter (TypeSet.only_ne_empty _), rfl⟩
  dsimp only
  split <;> exact ⟨⟨hρ, hπ⟩, hnode⟩

theorem complete_admits {e : Expr} {op : Operation} {es : List Expr} {s : Span}
    (he : Expr.IsOperation e op es s) {r : Registry} {σ : State} {xs : List Node} {s' : Span}
    (hxs : BuiltAll x es r σ.registry xs) (hσ : Open τ π σ.registry) {o : Overload}
    (ho : o ∈ op.overloads) (h : List.Forall₂ (fun x t => Admits τ t x) xs o.arguments) :
    Meets (complete formatters (.ofOperation op xs s')) σ
      (fun n υ => Open τ π υ.registry ∧ Admits τ o.result n) (fun fault _ => IsFold fault) := by
  obtain ⟨ms, hms, hcs, hts⟩ := exists_of_admits h
  have hc := Node.Consistent.of_overload (s := s') ho hcs hts
  have hm : Node.operation op ms s' (.only o.result) ≤ Node.ofOperation op xs s' :=
    .operation hms (TypeSet.only_le_iff.mpr (Overload.has_results.mpr ⟨o, ho, rfl⟩))
  have hknown : (Node.ofOperation op xs s').KnownTo σ.registry :=
    .operation fun n hn => (hxs.covered n hn).knownTo
  obtain ⟨hf, hsub, hallows⟩ := Node.stabilize_keeps hxs.distinct hσ.allows hknown hm hc
  have hle := Node.stabilize_le (.ofOperation op xs s') hxs.distinct
  -- what is built has the type that the expression has under the choice
  have hbuilt : Meets (complete formatters (.ofOperation op xs s')) σ
      (fun n υ => Built x e r υ.registry n) fun _ _ => True := complete_built he hxs
  unfold Meets at hbuilt ⊢
  rw [complete_run, hf] at hbuilt ⊢
  dsimp only at hbuilt ⊢
  cases hn : (Node.stabilize (.ofOperation op xs s') σ.registry).subject.foldRoot formatters with
  | error fault => exact Node.foldRoot_fault hn
  | ok n =>
    rw [hn] at hbuilt
    refine ⟨⟨hallows, hσ.agrees.of_le hle.2⟩, ?_⟩
    obtain ⟨ys, us, hsubject, -, -⟩ := Node.le_operation_iff.mp hle.1
    rw [hsubject] at hn hsub
    rcases Node.foldRoot_cases hn with ⟨-, rfl⟩ | ⟨-, v, -, rfl⟩
    · exact ⟨_, hsub, hc, rfl⟩
    · have htype : Expr.HasType x τ e o.result := by
        refine he.hasType_iff.mpr ⟨o, ho, (hxs.types τ _).mp ?_, rfl⟩
        exact h.imp fun _ _ => Admits.hasType
      have hv := (hbuilt.types τ o.result).mpr htype
      generalize o.result = t at hv ⊢
      cases hv
      exact ⟨_, le_rfl, .constant v s', rfl⟩

/-- Building an expression that has a type under an open choice fails only by folding. -/
def Keeps (x : Extraction) (formatters : Formatters) (τ : String → ValueType) (π : String → Bool)
    (e : Expr) : Prop :=
  ∀ (σ : State) (t : ValueType), σ.registry.Distinct → Open τ π σ.registry → e.HasType x τ t →
    (∀ u ∈ e.uses x, u.2 = π u.1) →
    Meets (build x formatters e) σ (fun n υ => Open τ π υ.registry ∧ Admits τ t n)
      fun fault _ => IsFold fault

theorem buildAll_admits (es : List Expr) (ih : ∀ e ∈ es, Keeps x formatters τ π e) (σ : State)
    (ts : List ValueType) (hσ : σ.registry.Distinct) (hopen : Open τ π σ.registry)
    (hes : List.Forall₂ (Expr.HasType x τ) es ts) (hu : ∀ u ∈ Expr.usesAll x es, u.2 = π u.1) :
    Meets (buildAll x formatters es) σ
      (fun xs υ => Open τ π υ.registry ∧ List.Forall₂ (fun x t => Admits τ t x) xs ts)
      (fun fault _ => IsFold fault) := by
  induction hes generalizing σ with
  | nil => exact meets_pure ⟨hopen, .nil⟩
  | @cons e t es ts he _ ihes =>
    rw [buildAll]
    have hue : ∀ u ∈ e.uses x, u.2 = π u.1 := fun u h => hu u (List.mem_append_left _ h)
    have hues : ∀ u ∈ Expr.usesAll x es, u.2 = π u.1 :=
      fun u h => hu u (List.mem_append_right _ h)
    have hn := (build_built e σ hσ).and (ih e List.mem_cons_self σ t hσ hopen he hue)
    refine hn.bind fun n υ ⟨hbuilt, hopen', hadmits⟩ => ?_
    have hxs := ihes (fun f hf => ih f (List.mem_cons_of_mem _ hf)) υ hbuilt.distinct hopen' hues
    refine hxs.bind fun xs ω ⟨hopen'', hall⟩ => ?_
    exact meets_pure ⟨hopen'', .cons hadmits hall⟩

theorem operation_keeps {e : Expr} {op : Operation} {es : List Expr} {s : Span}
    (he : Expr.IsOperation e op es s) (ih : ∀ e ∈ es, Keeps x formatters τ π e) :
    Keeps x formatters τ π e := by
  intro σ t hσ hopen ht hu
  obtain ⟨o, ho, hes, rfl⟩ := he.hasType_iff.mp ht
  rw [he.uses_eq] at hu
  rcases build_operation (x := x) he with hb | ⟨fault, -, -, harity⟩
  · rw [hb]
    have hxs := (buildAll_built es (fun e _ => build_built e) σ hσ).and
      (buildAll_admits es ih σ _ hσ hopen hes hu)
    exact hxs.bind fun xs υ ⟨hbuilt, hopen', hall⟩ => complete_admits he hbuilt hopen' ho hall
  · exact absurd hes.length_eq.symm (harity o ho)

/-- Building an expression that has a type under an open choice keeps the choice open, unless
a constant part has no value. -/
theorem build_keeps (e : Expr) : Keeps x formatters τ π e := by
  induction e with
  | literal l s =>
    intro σ t _ hopen ht _
    cases ht
    exact meets_pure ⟨hopen, _, le_rfl, .constant _ _, rfl⟩
  | name n s =>
    intro σ t _ hopen ht hu
    rw [build]
    cases ht with
    | excerpt h =>
      rw [h]
      exact meets_pure ⟨hopen, _, le_rfl, .constant _ _, rfl⟩
    | name h =>
      rw [h]
      exact reference_admits hopen (hu (n, false) (by simp [Expr.uses, h]))
  | negate e s ih => exact operation_keeps (.negate e s) (by simpa using ih)
  | binary op l r s ihl ihr => exact operation_keeps (.binary op l r s) (by simpa using ⟨ihl, ihr⟩)
  | call f es s ih =>
    cases hb : Builtin.ofName? f with
    | some b => exact operation_keeps (.call hb es s) ih
    | none =>
      intro σ t _ hopen ht hu
      cases ht with
      | call _ hb' =>
        rw [hb] at hb'
        cases hb'
      | producer =>
        rw [build, hb]
        exact reference_admits hopen (hu (f, true) (by simp [Expr.uses, hb]))

end Build

end Analysis
end TolerantExpr
