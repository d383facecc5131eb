import TolerantExpr.Proofs.Parsing.Grammar
import TolerantExpr.Proofs.Typing.Presumptions

/-!
# The types of polynomials

Integers and names that are joined by `+`, `-`, `*` and unary minus are numbers, although `+` also
joins strings and byte sequences. Nothing else decides the types of the parameters, so these are
presumed to be numbers; and no constant part is without a value.
-/

namespace TolerantExpr

/-- The operators `+`, `-` and `*`. -/
def Arithmetic.IsRing (op : Arithmetic) : Prop := op = add ∨ op = sub ∨ op = mul

/-- A tree made of integers and names by `+`, `-`, `*` and unary minus. -/
inductive Tree.IsPolynomial : Tree → Prop where
  | int (n : Int64) : IsPolynomial (literal (.int n))
  | name (n : String) : IsPolynomial (name n)
  | negate {t : Tree} (h : IsPolynomial t) : IsPolynomial (negate t)
  | binary {op : Arithmetic} {l r : Tree} (hop : op.IsRing) (hl : IsPolynomial l)
    (hr : IsPolynomial r) : IsPolynomial (binary (.arithmetic op) l r)

namespace Node

/-- The same of a tree on which types are determined. -/
inductive IsPolynomial : Node → Prop where
  | int (n : Int64) (s : Span) : IsPolynomial (constant (.int n) s)
  | parameter (name : String) (producer : Bool) (s : Span) (ts : TypeSet) :
    IsPolynomial (parameter name producer s ts)
  | negate {x : Node} (s : Span) (ts : TypeSet) (h : IsPolynomial x) :
    IsPolynomial (operation .negate [x] s ts)
  | binary {op : Arithmetic} {l r : Node} (s : Span) (ts : TypeSet) (hop : op.IsRing)
    (hl : IsPolynomial l) (hr : IsPolynomial r) :
    IsPolynomial (operation (.binary (.arithmetic op)) [l, r] s ts)

namespace IsPolynomial

variable {n : Node} {formatters : Formatters}

theorem of_outline (h : n.outline.IsPolynomial) : n.IsPolynomial := by
  induction n with
  | constant v s => exact h
  | parameter name producer s ts => exact .parameter name producer s ts
  | operation op xs s ts ih =>
    rw [outline, outlineAll_eq_map] at h
    generalize hys : xs.map outline = ys at h
    cases h with
    | negate _ _ hx =>
      obtain ⟨x, rfl, rfl⟩ := List.map_eq_singleton_iff.mp hys
      exact .negate s ts (ih x (by simp) hx)
    | binary _ _ hop hl hr =>
      obtain ⟨l, zs, rfl, rfl, hzs⟩ := List.map_eq_cons_iff.mp hys
      obtain ⟨r, rfl, rfl⟩ := List.map_eq_singleton_iff.mp hzs
      exact .binary s ts hop (ih l (by simp) hl) (ih r (by simp) hr)

/-- An operation on integers has a value, which is an integer. -/
theorem exists_foldRoot (h : n.IsPolynomial) :
    ∃ m, foldRoot formatters n = .ok m ∧ m.IsPolynomial := by
  have h' := h
  cases h with
  | int | parameter => exact ⟨_, rfl, h'⟩
  | negate s ts hx =>
    cases hx with
    | int n u => exact ⟨_, rfl, .int (-n) s⟩
    | parameter | negate | binary => exact ⟨_, rfl, h'⟩
  | binary s ts hop hl hr =>
    cases hl with
    | int a u =>
      cases hr with
      | int b v => rcases hop with rfl | rfl | rfl <;> exact ⟨_, rfl, .int _ s⟩
      | parameter | negate | binary => exact ⟨_, rfl, h'⟩
    | parameter | negate | binary => exact ⟨_, rfl, h'⟩

theorem exists_foldTree (h : n.IsPolynomial) :
    ∃ m, foldTree formatters n = .ok m ∧ m.IsPolynomial := by
  induction h with
  | int n s => exact ⟨_, rfl, .int n s⟩
  | parameter name producer s ts => exact ⟨_, rfl, .parameter name producer s ts⟩
  | negate s ts _ ih =>
    obtain ⟨x, hx, hpoly⟩ := ih
    obtain ⟨m, hm, hmpoly⟩ := exists_foldRoot (.negate s ts hpoly)
    exact ⟨m, foldTree_operation_eq_ok_iff.mpr ⟨[x], .cons hx .nil, hm⟩, hmpoly⟩
  | binary s ts hop _ _ ihl ihr =>
    obtain ⟨l, hl, hlpoly⟩ := ihl
    obtain ⟨r, hr, hrpoly⟩ := ihr
    obtain ⟨m, hm, hmpoly⟩ := exists_foldRoot (.binary s ts hop hlpoly hrpoly)
    exact ⟨m, foldTree_operation_eq_ok_iff.mpr ⟨[l, r], .cons hl (.cons hr .nil), hm⟩, hmpoly⟩

/-- No operation wants integers or doubles. -/
theorem demands_unset (h : n.IsPolynomial) : ∀ d ∈ n.demands, d.2 = .unset := by
  have hat : ∀ (x : Node), ∀ d ∈ x.demandAt .unset, d.2 = .unset := by
    intro x d hd
    cases x with
    | constant | operation => simp [demandAt] at hd
    | parameter name producer s ts =>
      rw [demandAt] at hd
      split at hd
      · rw [List.mem_singleton.mp hd]
      · simp at hd
  induction h with
  | int | parameter => simp [demands]
  | @negate x s ts _ ih =>
    simp only [demands, demandsAll, Analysis.operandPreference, List.flatMap_cons, List.flatMap_nil,
      List.append_nil, List.forall_mem_append]
    exact ⟨hat x, ih⟩
  | @binary op l r s ts _ _ _ ihl ihr =>
    simp only [demands, demandsAll, Analysis.operandPreference, List.flatMap_cons, List.flatMap_nil,
      List.append_nil, List.forall_mem_append]
    exact ⟨⟨hat l, hat r⟩, ihl, ihr⟩

/-- No reference is an operand of `&` or `|`. -/
theorem logicalAtFirst?_ne_true (h : n.IsPolynomial) (name : String) :
    Analysis.logicalAtFirst? name n ≠ some true := by
  have hcons : ∀ (x : Node) (xs : List Node), Analysis.logicalAtFirst? name x ≠ some true →
      Analysis.logicalAtFirstAmong? name false xs ≠ some true →
      Analysis.logicalAtFirstAmong? name false (x :: xs) ≠ some true := by
    intro x xs hx hxs
    rw [Analysis.logicalAtFirstAmong?]
    split
    · simp
    · split
      · rename_i b hb
        rw [← hb]
        exact hx
      · exact hxs
  have hnil : Analysis.logicalAtFirstAmong? name false [] ≠ some true := by
    simp [Analysis.logicalAtFirstAmong?]
  induction h with
  | int | parameter => simp [Analysis.logicalAtFirst?]
  | negate _ _ _ ih => exact hcons _ _ ih hnil
  | binary _ _ _ _ _ ihl ihr => exact hcons _ _ ihl (hcons _ _ ihr hnil)

theorem presumption_eq (h : n.IsPolynomial) {p : OpenParameter} (hp : .only .numeric ≤ p.types) :
    Analysis.presumption p n = .numeric := by
  have hlogical : (Analysis.logicalAtFirst? p.name n).getD false = false := by
    have hne := h.logicalAtFirst?_ne_true p.name
    cases hfirst : Analysis.logicalAtFirst? p.name n with
    | none => rfl
    | some b =>
      cases b with
      | false => rfl
      | true => exact absurd hfirst hne
  have hnumeric : p.types.has .numeric = true := TypeSet.only_le_iff.mp hp
  rw [Analysis.presumption, hlogical, Analysis.presumedType, TypeSet.toList, ValueType.all,
    List.filter_cons, if_pos hnumeric]
  rfl

end IsPolynomial
end Node

namespace Expr

variable {x : Extraction} {e : Expr}

theorem excerptAt?_eq_none (hx : x.excerpts = []) (s : Span) : x.excerptAt? s = none := by
  rw [Extraction.excerptAt?, hx, List.find?_nil]

/-- Without literals of strings and byte sequences, the tree of a polynomial is one. -/
theorem isPolynomial_outline (hx : x.excerpts = []) (h : e.tree.IsPolynomial) :
    (e.outline x).IsPolynomial := by
  induction e with
  | literal l s =>
    cases h with
    | int n => exact .int n _
  | name n s =>
    rw [outline, excerptAt?_eq_none hx]
    exact .parameter n false _ _
  | negate e s ih =>
    cases h with
    | negate h => exact .negate _ _ (ih h)
  | binary op l r s ihl ihr =>
    cases h with
    | binary hop hl hr => exact .binary _ _ hop (ihl hl) (ihr hr)
  | call f es s ih => cases h

theorem hasType_of_isPolynomial (hx : x.excerpts = []) (h : e.tree.IsPolynomial) :
    e.HasType x (fun _ => .numeric) .numeric := by
  induction e with
  | literal l s =>
    cases h with
    | int n => exact .literal (.int n) s
  | name n s => exact .name (excerptAt?_eq_none hx s)
  | negate e s ih =>
    cases h with
    | negate h => exact .negate (o := ⟨[.numeric], .numeric⟩) s (by decide) (.cons (ih h) .nil)
  | binary op l r s ihl ihr =>
    cases h with
    | binary hop hl hr =>
      refine .binary (o := ⟨[.numeric, .numeric], .numeric⟩) s ?_
        (.cons (ihl hl) (.cons (ihr hr) .nil))
      rcases hop with rfl | rfl | rfl <;> decide
  | call f es s ih => cases h

theorem uses_of_isPolynomial (h : e.tree.IsPolynomial) : ∀ u ∈ e.uses x, u.2 = false := by
  induction e with
  | literal l s => simp [uses]
  | name n s =>
    rw [uses]
    split <;> simp
  | negate e s ih =>
    cases h with
    | negate h => exact ih h
  | binary op l r s ihl ihr =>
    cases h with
    | binary hop hl hr => exact List.forall_mem_append.mpr ⟨ihl hl, ihr hr⟩
  | call f es s ih => cases h

end Expr

namespace Analysis

/-- A polynomial can be analyzed. It is a number, and so are its parameters, none of which prefers
integers or doubles. -/
theorem exists_ofExpr_of_isPolynomial {e : Expr} {x : Extraction} (hx : x.excerpts = [])
    (h : e.tree.IsPolynomial) (source : String) (formatters : Formatters) :
    ∃ a, ofExpr e x source {} formatters = .ok a ∧ a.root.types = .only .numeric ∧
      ∀ f ∈ a.parameters, f.type = .numeric ∧ f.preference = .unset := by
  obtain ⟨m, hm, hpoly⟩ : ∃ m, (e.outline x).foldTree formatters = .ok m ∧ m.IsPolynomial :=
    (Expr.isPolynomial_outline hx h).exists_foldTree
  have hr : Registry.Distinct {} := List.nodup_nil
  exact exists_ofExpr_of_hasType source hr (open_empty (fun _ => .numeric) fun _ => false)
    (Expr.hasType_of_isPolynomial hx h) (Expr.uses_of_isPolynomial h) hm
    (fun n hn p hp => (Node.IsPolynomial.of_outline (hn ▸ hpoly)).presumption_eq hp)
    fun n hn => (Node.IsPolynomial.of_outline (hn ▸ hpoly)).demands_unset

end Analysis
end TolerantExpr
