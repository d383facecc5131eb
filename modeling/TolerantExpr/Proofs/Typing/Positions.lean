import TolerantExpr.Proofs.Evaluation.Handover
import TolerantExpr.Proofs.Parsing.Positions
import TolerantExpr.Proofs.Quotation.Offsets

/-!
# Positions in what is analyzed

A node has the span of the expression that it was built for, carried back to the source. Narrowing
leaves spans alone and folding keeps that of the operation, so the spans of a tree are as they were
in the expression: with their ends at boundaries, each around those below it, and that of a parameter
around its name. Faults and the places that explain them are at the same spans.
-/

namespace TolerantExpr

/-! ### Spans of trees -/

namespace Node

/-- The span of a node covers those of its operands, and if the node is a parameter that is not
called like a function, its name is written there. -/
structure InPlace (source : String) (n : Node) : Prop where
  covers : ∀ x ∈ n.operands, n.span.Covers x.span
  named : ∀ name s ts, n = .parameter name false s ts → s.textIn source = name

/-- Every node is in its place. -/
def Placed (source : String) (n : Node) : Prop := ∀ m : Node, m.Subtree n → m.InPlace source

variable {source : String} {n : Node} {s : Span} {ts : TypeSet}

theorem InPlace.of_le {m : Node} (h : n.InPlace source) (hm : m ≤ n) : m.InPlace source := by
  have hspan := span_eq_of_le hm
  cases hm with
  | constant => exact h
  | parameter =>
    refine ⟨by simp [operands], ?_⟩
    rintro name s ts ⟨⟩
    exact h.named _ _ _ rfl
  | operation hoperands =>
    refine ⟨fun x hx => ?_, by simp⟩
    obtain ⟨y, hy, hxy⟩ := exists_of_forall₂_of_mem_right hoperands.flip hx
    rw [hspan, span_eq_of_le hxy]
    exact h.covers y hy

namespace Placed

theorem constant (v : Value) (s : Span) : Placed source (.constant v s) := by
  rintro m ⟨⟩
  exact ⟨by simp [operands], by simp⟩

theorem parameter {name : String} {producer : Bool}
    (h : producer = false → s.textIn source = name) :
    Placed source (.parameter name producer s ts) := by
  rintro m ⟨⟩
  refine ⟨by simp [operands], ?_⟩
  rintro name s ts ⟨⟩
  exact h rfl

theorem operation {op : Operation} {xs : List Node}
    (h : ∀ x ∈ xs, x.Placed source ∧ s.Covers x.span) :
    Placed source (.operation op xs s ts) := by
  intro m hm
  cases hm with
  | refl => exact ⟨fun x hx => (h x hx).2, by simp⟩
  | operand hx hm => exact (h _ hx).1 m hm

theorem of_le {m : Node} (h : n.Placed source) (hm : m ≤ n) : m.Placed source := by
  intro k hk
  obtain ⟨l, hl, hkl⟩ := hk.exists_of_le hm
  exact (h l hl).of_le hkl

end Placed

end Node

/-! ### Spans of expressions -/

namespace Expr

theorem IsOperation.span_eq {e : Expr} {op : Operation} {es : List Expr} {s : Span}
    (h : IsOperation e op es s) : e.span = s := by
  cases h <;> rfl

theorem IsOperation.operands_eq {e : Expr} {op : Operation} {es : List Expr} {s : Span}
    (h : IsOperation e op es s) : e.operands = es := by
  cases h <;> rfl

theorem Placed.everySpan {A : Nat → Prop} {Q : String → Span → Prop} {P : Span → Prop} {e : Expr}
    (h : e.Placed A Q) (hP : ∀ s : Span, s.Aligned A → P s) : e.EverySpan P := by
  induction e with
  | literal l s => exact .literal l (hP s h.aligned)
  | name n s => exact .name n (hP s h.aligned)
  | negate e s ih =>
    obtain ⟨haligned, -, hoperands, -⟩ := h
    exact .negate (hP s haligned) (ih (hoperands e (by simp [operands])))
  | binary op l r s ihl ihr =>
    obtain ⟨haligned, -, hoperands, -⟩ := h
    exact .binary op (hP s haligned) (ihl (hoperands l (by simp [operands])))
      (ihr (hoperands r (by simp [operands])))
  | call f es s ih =>
    obtain ⟨haligned, -, hoperands, -⟩ := h
    exact .call f (hP s haligned) fun e he => ih e he (hoperands e he)

end Expr

namespace Analysis

variable {x : Extraction} {formatters : Formatters} {source : String} {A : Nat → Prop}

/-- A name that stands for no literal goes to where it is written. -/
def GoesHome (x : Extraction) (source n : String) (s : Span) : Prop :=
  x.excerptAt? s = none → (x.sourceSpan s).textIn source = n

/-! ### Building -/

theorem reference_placed {name : String} {producer : Bool} {s : Span} {σ : State}
    (h : producer = false → s.textIn source = name) :
    Meets (reference name producer s) σ (fun n _ => n.Placed source ∧ n.span = s)
      fun _ _ => True := by
  unfold Meets
  rw [reference_run]
  cases (σ.registry.mention name).recordUse name producer with
  | ok r => exact ⟨.parameter h, rfl⟩
  | error e left => trivial

theorem complete_placed {op : Operation} {xs : List Node} {s : Span} {σ : State}
    (hσ : σ.registry.Distinct) (hxs : ∀ y ∈ xs, y.Placed source ∧ s.Covers y.span) :
    Meets (complete formatters (.ofOperation op xs s)) σ
      (fun n _ => n.Placed source ∧ n.span = s) fun _ _ => True := by
  have hplaced : (Node.ofOperation op xs s).Placed source := .operation hxs
  obtain ⟨hsub, -⟩ := Node.stabilize_le (.ofOperation op xs s) hσ
  have hplaced' := hplaced.of_le hsub
  obtain ⟨ys, us, hsubject, -, -⟩ := Node.le_operation_iff.mp hsub
  unfold Meets
  rw [complete_run]
  cases (Node.stabilize (.ofOperation op xs s) σ.registry).fault with
  | some fault => trivial
  | none =>
    rw [hsubject] at hplaced' ⊢
    dsimp only
    cases hn : (Node.operation op ys s us).foldRoot formatters with
    | error fault => trivial
    | ok n =>
      rcases Node.foldRoot_cases hn with ⟨-, rfl⟩ | ⟨-, v, -, rfl⟩
      · exact ⟨hplaced', rfl⟩
      · exact ⟨.constant v s, rfl⟩

/-- Building an expression leads to a tree in its place. -/
def Places (x : Extraction) (source : String) (formatters : Formatters) (e : Expr) : Prop :=
  ∀ σ : State, σ.registry.Distinct →
    Meets (build x formatters e) σ (fun n _ => n.Placed source ∧ n.span = x.sourceSpan e.span)
      fun _ _ => True

theorem buildAll_placed (es : List Expr) (ih : ∀ e ∈ es, Places x source formatters e) (σ : State)
    (hσ : σ.registry.Distinct) :
    Meets (buildAll x formatters es) σ
      (fun xs _ => ∀ y ∈ xs, ∃ e ∈ es, y.Placed source ∧ y.span = x.sourceSpan e.span)
      fun _ _ => True := by
  induction es generalizing σ with
  | nil => exact meets_pure (by simp)
  | cons e es ihes =>
    rw [buildAll]
    have he := (build_built e σ hσ).and (ih e List.mem_cons_self σ hσ)
    refine he.bind fun n υ hn => ?_
    have hes := ihes (fun f hf => ih f (List.mem_cons_of_mem _ hf)) υ hn.1.distinct
    refine hes.bind fun xs ω hxs => meets_pure ?_
    refine List.forall_mem_cons.mpr ⟨⟨e, List.mem_cons_self, hn.2⟩, fun y hy => ?_⟩
    obtain ⟨f, hf, hy⟩ := hxs y hy
    exact ⟨f, List.mem_cons_of_mem _ hf, hy⟩

theorem operation_placed (hx : x.Carries source) {e : Expr} {op : Operation} {es : List Expr}
    {s : Span} (he : Expr.IsOperation e op es s) (hplaced : e.Placed A (GoesHome x source))
    (ih : ∀ e ∈ es, e.Placed A (GoesHome x source) → Places x source formatters e) :
    Places x source formatters e := by
  intro σ hσ
  obtain ⟨-, -, hoperands, hcovers⟩ := hplaced
  rw [he.span_eq] at hcovers ⊢
  rw [he.operands_eq] at hcovers hoperands
  rcases build_operation (x := x) he with hb | ⟨fault, hb, -⟩ <;> rw [hb]
  · have hall := (buildAll_built es (fun e _ => build_built e) σ hσ).and
      (buildAll_placed es (fun f hf => ih f hf (hoperands f hf)) σ hσ)
    refine hall.bind fun xs υ h => ?_
    obtain ⟨hbuilt, hxs⟩ := h
    refine complete_placed hbuilt.distinct fun y hy => ?_
    obtain ⟨f, hf, hy, hspan⟩ := hxs y hy
    refine ⟨hy, ?_⟩
    rw [hspan]
    exact hx.covers (hcovers f hf)
  · exact meets_throw trivial

/-- The nodes of a tree are placed as the expression is. -/
theorem build_placed (hx : x.Carries source) (e : Expr) (he : e.Placed A (GoesHome x source)) :
    Places x source formatters e := by
  induction e with
  | literal l s => exact fun σ _ => meets_pure ⟨.constant _ _, rfl⟩
  | name n s =>
    intro σ _
    rw [build]
    cases hs : x.excerptAt? s with
    | some y => exact meets_pure ⟨.constant _ _, rfl⟩
    | none => exact reference_placed fun _ => he.named hs
  | negate e s ih => exact operation_placed hx (.negate e s) he (by simpa using ih)
  | binary op l r s ihl ihr =>
    exact operation_placed hx (.binary op l r s) he (by simpa using ⟨ihl, ihr⟩)
  | call f es s ih =>
    cases hb : Builtin.ofName? f with
    | some b => exact operation_placed hx (.call hb es s) he ih
    | none =>
      intro σ _
      rw [build, hb]
      cases es with
      | cons e es => exact meets_throw trivial
      | nil => exact reference_placed (by simp)

/-! ### Whole analyses -/

section

variable {e : Expr} {r : Registry} {a : Analysis}

/-- Carried back to the source, the spans of an expression are aligned with it. -/
theorem everySpan_of_placed {Q : String → Span → Prop} (hx : x.Carries source)
    (he : e.Placed (Boundary x.skeleton.toList) Q) :
    e.EverySpan fun s => (x.sourceSpan s).Aligned (Boundary source.toList) :=
  he.everySpan fun _ hs => hx.aligned hs

theorem ofExpr_placed (hr : r.Distinct) (hx : x.Carries source)
    (he : e.Placed (Boundary x.skeleton.toList) (GoesHome x source))
    (h : ofExpr e x source r formatters = .ok a) :
    a.root.EverySpan (Span.Aligned (Boundary source.toList)) ∧ a.root.Placed source := by
  obtain ⟨n, σ, s, s', hb, hd, -⟩ := ofExpr_eq_ok_iff.mp h
  have hbuilt := built_of_run hr hb
  obtain ⟨hle, -⟩ := determine_spec hbuilt.distinct hbuilt.covered hd
  have hreports : Meets (build x formatters e) { registry := r }
      (fun n σ => n.EverySpan _ ∧ σ.Sound _) fun _ _ => True :=
    (build_reports e (everySpan_of_placed hx he) _ ⟨hr, by simp⟩).imp (fun _ _ h => h)
      fun _ _ _ => trivial
  have hplaces : Meets (build x formatters e) { registry := r }
      (fun n _ => n.Placed source ∧ n.span = x.sourceSpan e.span) fun _ _ => True :=
    build_placed hx e he _ hr
  unfold Meets at hreports hplaces
  rw [hb] at hreports hplaces
  exact ⟨hreports.1.of_le hle, hplaces.1.of_le hle⟩

end

end Analysis
end TolerantExpr
