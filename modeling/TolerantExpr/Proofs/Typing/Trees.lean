import TolerantExpr.Node.Narrowing
import TolerantExpr.Proofs.Lists
import TolerantExpr.Proofs.Typing.Overloads
import TolerantExpr.Proofs.Typing.Sets

/-!
# Labelled trees

A typed tree is a tree of operations with a set of types at every node. Trees of one shape are
ordered by their sets. A tree is consistent if the sets at each operation and at its operands are
those that the viable overloads leave over, and resolved if every set has one type and every
operation the overload of its operands. A consistent tree stands for a choice that narrowing must
not rule out.
-/

namespace TolerantExpr

namespace Node

/-- Induction over a tree, with the claim for each operand of an operation. -/
@[elab_as_elim, induction_eliminator]
theorem induction {motive : Node → Prop} (constant : ∀ v s, motive (constant v s))
    (parameter : ∀ name producer s ts, motive (parameter name producer s ts))
    (operation : ∀ op xs s ts, (∀ x ∈ xs, motive x) → motive (operation op xs s ts)) :
    ∀ n, motive n
  | .constant v s => constant v s
  | .parameter name producer s ts => parameter name producer s ts
  | .operation op xs s ts =>
    operation op xs s ts fun x _ => induction constant parameter operation x

theorem types_withTypes {n : Node} {ts : TypeSet} (h : ts ≤ n.types) (hne : ts ≠ .empty) :
    (n.withTypes ts).types = ts := by
  cases n with
  | constant v s => exact (TypeSet.eq_only_of_le h hne).symm
  | _ => rfl

/-! ### The order on trees -/

/-- The first tree has the shape of the second one, and no type that the second one lacks. -/
inductive Below : Node → Node → Prop where
  | constant (v : Value) (s : Span) : Below (constant v s) (constant v s)
  | parameter {name : String} {producer : Bool} {s : Span} {ts us : TypeSet} (h : ts ≤ us) :
    Below (parameter name producer s ts) (parameter name producer s us)
  | operation {op : Operation} {xs ys : List Node} {s : Span} {ts us : TypeSet}
    (operands : List.Forall₂ Below xs ys) (h : ts ≤ us) :
    Below (operation op xs s ts) (operation op ys s us)

instance : LE Node := ⟨Below⟩

theorem le_constant_iff {n : Node} {v : Value} {s : Span} :
    n ≤ constant v s ↔ n = constant v s := by
  constructor
  · rintro (_ | _ | _)
    rfl
  · intro heq
    subst heq
    exact .constant v s

theorem constant_le_iff {n : Node} {v : Value} {s : Span} :
    constant v s ≤ n ↔ n = constant v s := by
  constructor
  · rintro (_ | _ | _)
    rfl
  · intro heq
    subst heq
    exact .constant v s

theorem le_parameter_iff {n : Node} {name : String} {producer : Bool} {s : Span} {us : TypeSet} :
    n ≤ parameter name producer s us ↔ ∃ ts, n = parameter name producer s ts ∧ ts ≤ us := by
  constructor
  · rintro (_ | h | _)
    exact ⟨_, rfl, h⟩
  · intro h
    obtain ⟨ts, rfl, h⟩ := h
    exact .parameter h

theorem le_operation_iff {n : Node} {op : Operation} {ys : List Node} {s : Span} {us : TypeSet} :
    n ≤ operation op ys s us ↔
      ∃ xs ts, n = operation op xs s ts ∧ List.Forall₂ (· ≤ ·) xs ys ∧ ts ≤ us := by
  constructor
  · rintro (_ | _ | ⟨hxs, h⟩)
    exact ⟨_, _, rfl, hxs, h⟩
  · intro h
    obtain ⟨xs, ts, rfl, hxs, h⟩ := h
    exact .operation hxs h

private theorem below_refl (n : Node) : n ≤ n := by
  induction n with
  | constant v s => exact .constant v s
  | parameter => exact .parameter le_rfl
  | operation op xs s ts ih => exact .operation (List.forall₂_same.mpr ih) le_rfl

private theorem below_trans {a b c : Node} (hab : a ≤ b) (hbc : b ≤ c) : a ≤ c := by
  induction c generalizing a b with
  | constant v s =>
    obtain rfl := le_constant_iff.mp hbc
    exact hab
  | parameter =>
    obtain ⟨ts, rfl, hts⟩ := le_parameter_iff.mp hbc
    obtain ⟨us, rfl, hus⟩ := le_parameter_iff.mp hab
    exact .parameter (hus.trans hts)
  | operation op zs s vs ih =>
    obtain ⟨ys, ts, rfl, hys, hts⟩ := le_operation_iff.mp hbc
    obtain ⟨xs, us, rfl, hxs, hus⟩ := le_operation_iff.mp hab
    refine .operation (List.Forall₂.flip ?_) (hus.trans hts)
    exact forall₂_comp_of_mem hys.flip hxs.flip fun z hz y x hyz hxy => ih z hz hxy hyz

private theorem below_antisymm {a b : Node} (hab : a ≤ b) (hba : b ≤ a) : a = b := by
  induction b generalizing a with
  | constant v s => exact le_constant_iff.mp hab
  | parameter =>
    obtain ⟨ts, rfl, hts⟩ := le_parameter_iff.mp hab
    obtain ⟨us, hus, hle⟩ := le_parameter_iff.mp hba
    cases hus
    rw [le_antisymm hts hle]
  | operation op ys s us ih =>
    obtain ⟨xs, ts, rfl, hxs, hts⟩ := le_operation_iff.mp hab
    obtain ⟨zs, vs, heq, hzs, hle⟩ := le_operation_iff.mp hba
    cases heq
    rw [forall₂_antisymm_of_mem hxs hzs fun y hy x => ih y hy, le_antisymm hts hle]

instance : PartialOrder Node where
  le_refl := below_refl
  le_trans _ _ _ := below_trans
  le_antisymm _ _ := below_antisymm

theorem forall₂_le_refl (xs : List Node) : List.Forall₂ (· ≤ ·) xs xs :=
  List.forall₂_same.mpr fun x _ => le_refl x

theorem types_le_of_le {m n : Node} (h : m ≤ n) : m.types ≤ n.types := by
  cases h with
  | constant => exact le_rfl
  | parameter h => exact h
  | operation _ h => exact h

theorem forall₂_types_of_le {xs ys : List Node} (h : List.Forall₂ (· ≤ ·) xs ys) :
    List.Forall₂ (· ≤ ·) (xs.map types) (ys.map types) := by
  rw [List.forall₂_map_left_iff, List.forall₂_map_right_iff]
  exact h.imp fun _ _ => types_le_of_le

theorem withTypes_le {n : Node} {ts : TypeSet} (h : ts ≤ n.types) : n.withTypes ts ≤ n := by
  cases n with
  | constant v s => exact le_rfl
  | parameter => exact .parameter h
  | operation op xs => exact .operation (forall₂_le_refl xs) h

/-- A tree below another one stays below it when the other one loses types that it lacks. -/
theorem le_withTypes {m n : Node} {ts : TypeSet} (h : m ≤ n) (hts : m.types ≤ ts) :
    m ≤ n.withTypes ts := by
  cases h with
  | constant => exact le_rfl
  | parameter => exact .parameter hts
  | operation operands => exact .operation operands hts

/-- A tree goes down when one of its operands does. -/
theorem operation_le_operation {op : Operation} {xs ys : List Node} {x y : Node} {s : Span}
    {ts : TypeSet} (h : x ≤ y) :
    operation op (xs ++ x :: ys) s ts ≤ operation op (xs ++ y :: ys) s ts :=
  .operation (List.rel_append (forall₂_le_refl xs) (.cons h (forall₂_le_refl ys))) le_rfl

/-- Below an operation each operand has its counterpart, and staying below the operation is up to
that operand when nothing else in it changes. -/
theorem exists_of_le_operation {m x : Node} {op : Operation} {xs ys : List Node} {s : Span}
    {ts : TypeSet} (h : m ≤ operation op (xs ++ x :: ys) s ts) :
    ∃ a ∈ m.operands, a ≤ x ∧ ∀ y, a ≤ y → m ≤ operation op (xs ++ y :: ys) s ts := by
  obtain ⟨ms, us, rfl, hms, hus⟩ := le_operation_iff.mp h
  obtain ⟨as, a, bs, rfl, has, ha, hbs⟩ := exists_of_forall₂_append_cons hms
  exact ⟨a, by simp [operands], ha, fun y hy => .operation (List.rel_append has (.cons hy hbs)) hus⟩

/-! ### Parts of a tree -/

/-- A tree in another one, or the other one itself. -/
inductive Subtree (m : Node) : Node → Prop where
  | refl : Subtree m m
  | operand {op : Operation} {xs : List Node} {s : Span} {ts : TypeSet} {x : Node} (hx : x ∈ xs)
    (h : Subtree m x) : Subtree m (operation op xs s ts)

theorem span_eq_of_le {m n : Node} (h : m ≤ n) : m.span = n.span := by
  cases h <;> rfl

/-- Each part of a lower tree has its counterpart. -/
theorem Subtree.exists_of_le {k m n : Node} (hk : k.Subtree m) (h : m ≤ n) :
    ∃ l : Node, l.Subtree n ∧ k ≤ l := by
  induction hk generalizing n with
  | refl => exact ⟨n, .refl, h⟩
  | operand hx _ ih =>
    cases h with
    | operation operands _ =>
      obtain ⟨y, hy, hxy⟩ := exists_of_forall₂_of_mem_right operands.flip hx
      obtain ⟨l, hl, hkl⟩ := ih hxy
      exact ⟨l, .operand hy hl, hkl⟩

/-- `P` holds of the span of every node. -/
def EverySpan (P : Span → Prop) (n : Node) : Prop := ∀ m : Node, m.Subtree n → P m.span

namespace EverySpan

variable {P : Span → Prop} {n : Node} {op : Operation} {xs : List Node} {s : Span} {ts : TypeSet}

theorem constant {v : Value} (h : P s) : EverySpan P (.constant v s) := by
  rintro m ⟨⟩
  exact h

theorem parameter {name : String} {producer : Bool} (h : P s) :
    EverySpan P (.parameter name producer s ts) := by
  rintro m ⟨⟩
  exact h

theorem operation (h : P s) (hxs : ∀ x ∈ xs, x.EverySpan P) :
    EverySpan P (.operation op xs s ts) := by
  intro m hm
  cases hm with
  | refl => exact h
  | operand hx hm => exact hxs _ hx m hm

theorem of_operation (h : EverySpan P (.operation op xs s ts)) : ∀ x ∈ xs, x.EverySpan P :=
  fun _ hx m hm => h m (.operand hx hm)

theorem span (h : n.EverySpan P) : P n.span := h n .refl

theorem of_le {m : Node} (h : n.EverySpan P) (hm : m ≤ n) : m.EverySpan P := by
  intro k hk
  obtain ⟨l, hl, hkl⟩ := hk.exists_of_le hm
  rw [span_eq_of_le hkl]
  exact h l hl

end EverySpan

/-! ### Weights

The weight of a tree tells whether it lost a type. -/

mutual

theorem weight_mono {m n : Node} (h : m ≤ n) : m.weight ≤ n.weight := by
  cases h with
  | constant => exact Nat.le_refl _
  | parameter h =>
    have := TypeSet.card_mono h
    simp only [weight]
    omega
  | operation operands h =>
    have := TypeSet.card_mono h
    have := weights_mono operands
    simp only [weight]
    omega

theorem weights_mono {xs ys : List Node} (h : List.Forall₂ (· ≤ ·) xs ys) :
    weights xs ≤ weights ys := by
  cases h with
  | nil => exact Nat.le_refl _
  | cons hxy h =>
    have := weight_mono hxy
    have := weights_mono h
    simp only [weights]
    omega

end

mutual

theorem eq_of_le_of_weight_le {m n : Node} (h : m ≤ n) (hw : n.weight ≤ m.weight) : m = n := by
  cases h with
  | constant => rfl
  | parameter h =>
    simp only [weight] at hw
    rw [TypeSet.eq_of_le_of_card_le h (by omega)]
  | operation operands h =>
    have := TypeSet.card_mono h
    have := weights_mono operands
    simp only [weight] at hw
    rw [TypeSet.eq_of_le_of_card_le h (by omega), eq_of_le_of_weights_le operands (by omega)]

theorem eq_of_le_of_weights_le {xs ys : List Node} (h : List.Forall₂ (· ≤ ·) xs ys)
    (hw : weights ys ≤ weights xs) : xs = ys := by
  cases h with
  | nil => rfl
  | cons hxy h =>
    have := weight_mono hxy
    have := weights_mono h
    simp only [weights] at hw
    rw [eq_of_le_of_weight_le hxy (by omega), eq_of_le_of_weights_le h (by omega)]

end

/-! ### References -/

/-- Every reference to a parameter satisfies a predicate of its name and types. -/
inductive EveryReference (P : String → TypeSet → Prop) : Node → Prop where
  | constant (v : Value) (s : Span) : EveryReference P (constant v s)
  | parameter {name : String} {producer : Bool} {s : Span} {ts : TypeSet} (h : P name ts) :
    EveryReference P (parameter name producer s ts)
  | operation {op : Operation} {xs : List Node} {s : Span} {ts : TypeSet}
    (operands : ∀ x ∈ xs, EveryReference P x) : EveryReference P (operation op xs s ts)

namespace EveryReference

variable {P Q : String → TypeSet → Prop} {n : Node}

theorem imp (h : EveryReference P n) (hPQ : ∀ name ts, P name ts → Q name ts) :
    EveryReference Q n := by
  induction h with
  | constant => exact .constant _ _
  | parameter h => exact .parameter (hPQ _ _ h)
  | operation _ ih => exact .operation ih

theorem and (hP : EveryReference P n) (hQ : EveryReference Q n) :
    EveryReference (fun name ts => P name ts ∧ Q name ts) n := by
  induction hP with
  | constant => exact .constant _ _
  | parameter h =>
    cases hQ with
    | parameter h' => exact .parameter ⟨h, h'⟩
  | operation _ ih =>
    cases hQ with
    | operation operands => exact .operation fun x hx => ih x hx (operands x hx)

theorem of_parameter {name : String} {producer : Bool} {s : Span} {ts : TypeSet}
    (h : EveryReference P (Node.parameter name producer s ts)) : P name ts := by
  cases h with
  | parameter h => exact h

theorem of_operation {op : Operation} {xs : List Node} {s : Span} {ts : TypeSet}
    (h : EveryReference P (Node.operation op xs s ts)) : ∀ x ∈ xs, EveryReference P x := by
  cases h with
  | operation operands => exact operands

/-- What is said of names alone depends on the shape of the tree alone. -/
theorem of_le {P : String → Prop} {m : Node} (h : m ≤ n)
    (hn : EveryReference (fun name _ => P name) n) : EveryReference (fun name _ => P name) m := by
  induction n generalizing m with
  | constant =>
    obtain rfl := le_constant_iff.mp h
    exact hn
  | parameter =>
    obtain ⟨ts, rfl, -⟩ := le_parameter_iff.mp h
    exact .parameter hn.of_parameter
  | operation op ys s us ih =>
    obtain ⟨xs, ts, rfl, hxs, -⟩ := le_operation_iff.mp h
    refine .operation fun x hx => ?_
    obtain ⟨y, hy, hxy⟩ := exists_of_forall₂_of_mem_right hxs.flip hx
    exact ih y hy hxy (hn.of_operation y hy)

end EveryReference

/-! ### Types under an assignment -/

/-- The type of a tree when each parameter has a given type, whatever its sets: each operation
has an overload for the types of its operands. -/
inductive HasType (τ : String → ValueType) : Node → ValueType → Prop where
  | constant (v : Value) (s : Span) : HasType τ (constant v s) v.type
  | parameter (name : String) (producer : Bool) (s : Span) (ts : TypeSet) :
    HasType τ (parameter name producer s ts) (τ name)
  | operation {op : Operation} {xs : List Node} {o : Overload} (s : Span) (ts : TypeSet)
    (ho : o ∈ op.overloads) (operands : List.Forall₂ (HasType τ) xs o.arguments) :
    HasType τ (operation op xs s ts) o.result

theorem hasType_constant_iff {τ : String → ValueType} {v : Value} {s : Span} {t : ValueType} :
    HasType τ (constant v s) t ↔ t = v.type := by
  constructor
  · intro h
    cases h
    rfl
  · intro heq
    subst heq
    exact .constant v s

theorem hasType_parameter_iff {τ : String → ValueType} {name : String} {producer : Bool} {s : Span}
    {ts : TypeSet} {t : ValueType} :
    HasType τ (parameter name producer s ts) t ↔ t = τ name := by
  constructor
  · intro h
    cases h
    rfl
  · intro heq
    subst heq
    exact .parameter name producer s ts

/-- The type depends on the shape of the tree alone. -/
theorem hasType_iff_of_le {τ : String → ValueType} {m n : Node} {t : ValueType} (h : m ≤ n) :
    HasType τ m t ↔ HasType τ n t := by
  induction n generalizing m t with
  | constant =>
    obtain rfl := le_constant_iff.mp h
    exact Iff.rfl
  | parameter =>
    obtain ⟨ts, rfl, -⟩ := le_parameter_iff.mp h
    rw [hasType_parameter_iff, hasType_parameter_iff]
  | operation op ys s us ih =>
    obtain ⟨xs, ts, rfl, hxs, -⟩ := le_operation_iff.mp h
    constructor
    · rintro (_ | _ | ⟨_, _, ho, operands⟩)
      refine .operation _ _ ho ?_
      exact forall₂_comp_of_mem hxs.flip operands fun y hy x t hxy hx => (ih y hy hxy).mp hx
    · rintro (_ | _ | ⟨_, _, ho, operands⟩)
      refine .operation _ _ ho ?_
      have hys := (List.forall₂_and_left ys _).mpr ⟨ih, operands⟩
      exact forall₂_comp_of_mem hxs hys fun x _ y t hxy hy => (hy.1 hxy).mpr hy.2

/-- A choice gives a tree at most one type. -/
theorem HasType.unique {τ : String → ValueType} {n : Node} {t u : ValueType} (ht : HasType τ n t)
    (hu : HasType τ n u) : t = u := by
  induction n generalizing t u with
  | constant | parameter =>
    cases ht
    cases hu
    rfl
  | operation op xs s ts ih =>
    obtain _ | _ | ⟨_, _, ho, hos⟩ := ht
    obtain _ | _ | ⟨_, _, hp, hps⟩ := hu
    rw [op.overload_unique ho hp (forall₂_unique_of_mem hos hps fun x hx _ _ => ih x hx)]

theorem hasType_operation_iff {τ : String → ValueType} {op : Operation} {xs : List Node} {s : Span}
    {ts : TypeSet} {t : ValueType} :
    HasType τ (operation op xs s ts) t ↔
      ∃ o ∈ op.overloads, List.Forall₂ (HasType τ) xs o.arguments ∧ o.result = t := by
  constructor
  · rintro (_ | _ | ⟨_, _, ho, operands⟩)
    exact ⟨_, ho, operands, rfl⟩
  · intro h
    obtain ⟨o, ho, operands, rfl⟩ := h
    exact .operation s ts ho operands

/-! ### Consistency -/

/-- The sets of a tree agree with each other and with the sets of the parameters: no set is empty,
an operation has the results of its viable overloads, and each operand only arguments of these. -/
inductive Consistent (ρ : String → TypeSet) : Node → Prop where
  | constant (v : Value) (s : Span) : Consistent ρ (constant v s)
  | parameter {name : String} {producer : Bool} {s : Span} (h : ρ name ≠ .empty) :
    Consistent ρ (parameter name producer s (ρ name))
  | operation {op : Operation} {xs : List Node} {s : Span} {ts : TypeSet}
    (operands : ∀ x ∈ xs, Consistent ρ x) (nonempty : viable op xs ts ≠ [])
    (results : Overload.results (viable op xs ts) = ts)
    (arguments : ∀ (i : Nat) (x : Node), xs[i]? = some x →
      x.types ≤ Overload.argumentTypes (viable op xs ts) i) :
    Consistent ρ (operation op xs s ts)

/-- Every node has one type, and every operation the overload of its operands' types with its own
type as the result. -/
inductive Resolved : Node → Prop where
  | constant (v : Value) (s : Span) : Resolved (constant v s)
  | parameter (name : String) (producer : Bool) (s : Span) (t : ValueType) :
    Resolved (parameter name producer s (.only t))
  | operation {op : Operation} {xs : List Node} {o : Overload} (s : Span) (ho : o ∈ op.overloads)
    (types : xs.map Node.types = o.arguments.map TypeSet.only)
    (operands : ∀ x ∈ xs, Resolved x) : Resolved (operation op xs s (.only o.result))

theorem mem_viable {op : Operation} {xs : List Node} {ts : TypeSet} {o : Overload} :
    o ∈ viable op xs ts ↔
      o ∈ op.overloads ∧ o.accepts (xs.map types) = true ∧ ts.has o.result = true := by
  rw [viable, List.mem_filter, Bool.and_eq_true]

theorem viable_mono {op : Operation} {xs ys : List Node} {ts us : TypeSet}
    (h : List.Forall₂ (· ≤ ·) xs ys) (hts : ts ≤ us) : viable op xs ts ⊆ viable op ys us := by
  intro o ho
  obtain ⟨hmem, hacc, hres⟩ := mem_viable.mp ho
  exact mem_viable.mpr ⟨hmem, Overload.accepts_mono (forall₂_types_of_le h) hacc, hts _ hres⟩

theorem results_viable_le (op : Operation) (xs : List Node) (ts : TypeSet) :
    Overload.results (viable op xs ts) ≤ ts := by
  intro t ht
  obtain ⟨o, ho, rfl⟩ := Overload.has_results.mp ht
  exact (mem_viable.mp ho).2.2

theorem Consistent.of_operation {ρ : String → TypeSet} {op : Operation} {xs : List Node} {s : Span}
    {ts : TypeSet} (h : Consistent ρ (.operation op xs s ts)) : ∀ x ∈ xs, Consistent ρ x := by
  cases h with
  | operation operands => exact operands

theorem Consistent.of_mem_operands {ρ : String → TypeSet} {n x : Node} (h : Consistent ρ n)
    (hx : x ∈ n.operands) : Consistent ρ x := by
  cases h with
  | operation operands => exact operands x hx
  | _ => simp [operands] at hx

/-- What a consistent operation below another one owes to the overloads that are viable there. -/
theorem Consistent.le_viable {ρ : String → TypeSet} {op : Operation} {ms xs : List Node} {s : Span}
    {us ts : TypeSet} (hc : Consistent ρ (.operation op ms s us))
    (hms : List.Forall₂ (· ≤ ·) ms xs) (hus : us ≤ ts) :
    viable op xs ts ≠ [] ∧ us ≤ Overload.results (viable op xs ts) ∧
      ∀ (i : Nat) (m : Node), ms[i]? = some m →
        m.types ≤ Overload.argumentTypes (viable op xs ts) i := by
  have hv : viable op ms us ⊆ viable op xs ts := viable_mono hms hus
  cases hc with
  | operation _ nonempty results arguments =>
    obtain ⟨o, ho⟩ := List.exists_mem_of_ne_nil _ nonempty
    refine ⟨List.ne_nil_of_mem (hv ho), ?_, fun i m hi => ?_⟩
    · rw [← results]
      exact Overload.results_mono hv
    · exact (arguments i m hi).trans (Overload.argumentTypes_mono hv i)

theorem Consistent.types_ne_empty {ρ : String → TypeSet} {n : Node} (h : Consistent ρ n) :
    n.types ≠ .empty := by
  cases h with
  | constant v s => exact TypeSet.only_ne_empty _
  | parameter h => exact h
  | operation _ nonempty results _ =>
    obtain ⟨o, ho⟩ := List.exists_mem_of_ne_nil _ nonempty
    exact TypeSet.ne_empty_iff.mpr ⟨o.result, (mem_viable.mp ho).2.2⟩

theorem Consistent.references {ρ : String → TypeSet} {n : Node} (h : Consistent ρ n) :
    EveryReference (fun name ts => ts = ρ name) n := by
  induction h with
  | constant v s => exact .constant v s
  | parameter => exact .parameter rfl
  | operation _ _ _ _ ih => exact .operation ih

/-! ### One type each -/

theorem Resolved.exists_types_eq {n : Node} (h : Resolved n) : ∃ t, n.types = .only t := by
  cases h with
  | constant v s => exact ⟨v.type, rfl⟩
  | parameter name producer s t => exact ⟨t, rfl⟩
  | operation => exact ⟨_, rfl⟩

theorem Resolved.of_operation {op : Operation} {xs : List Node} {s : Span} {ts : TypeSet}
    (h : Resolved (.operation op xs s ts)) {x : Node} (hx : x ∈ xs) : Resolved x := by
  cases h with
  | operation _ _ _ operands => exact operands x hx

/-- Overloads with the same arguments are one overload, so that its result alone is left. -/
private theorem results_viable_eq {op : Operation} {xs : List Node} {ts : TypeSet} {o : Overload}
    {as : List ValueType} (has : xs.map types = as.map TypeSet.only) (ho : o ∈ viable op xs ts) :
    o.arguments = as ∧ Overload.results (viable op xs ts) = .only o.result := by
  have hargs : ∀ p ∈ viable op xs ts, p.arguments = as := by
    intro p hp
    have hacc := (mem_viable.mp hp).2.1
    rw [has] at hacc
    exact Overload.accepts_only_iff.mp hacc
  refine ⟨hargs o ho, le_antisymm (fun t ht => ?_) ?_⟩
  · obtain ⟨p, hp, rfl⟩ := Overload.has_results.mp ht
    have hpo : p = o := op.overload_unique (mem_viable.mp hp).1 (mem_viable.mp ho).1
      ((hargs p hp).trans (hargs o ho).symm)
    rw [hpo, TypeSet.has_only]
    simp
  · exact TypeSet.only_le_iff.mpr (Overload.has_results.mpr ⟨o, ho, rfl⟩)

/-- Once every parameter has one type, a consistent tree has one type everywhere. -/
theorem Consistent.resolved {ρ : String → TypeSet} {n : Node} (h : Consistent ρ n)
    (hρ : EveryReference (fun name _ => ∃ t, ρ name = .only t) n) : Resolved n := by
  induction h with
  | constant v s => exact .constant v s
  | @parameter name producer s h =>
    obtain ⟨t, ht⟩ := hρ.of_parameter
    rw [ht]
    exact .parameter name producer s t
  | @operation op xs s ts _ nonempty results _ ih =>
    have hxs : ∀ x ∈ xs, Resolved x := fun x hx => ih x hx (hρ.of_operation x hx)
    obtain ⟨as, has⟩ := exists_map_eq_map fun x hx => (hxs x hx).exists_types_eq
    obtain ⟨o, ho⟩ := List.exists_mem_of_ne_nil _ nonempty
    obtain ⟨harg, hres⟩ := results_viable_eq has ho
    rw [← results, hres]
    exact .operation s (mem_viable.mp ho).1 (harg ▸ has) hxs

/-- Consistent operands with the types of an overload make a consistent operation. -/
theorem Consistent.of_overload {ρ : String → TypeSet} {op : Operation} {xs : List Node} {s : Span}
    {o : Overload} (ho : o ∈ op.overloads) (hxs : ∀ x ∈ xs, Consistent ρ x)
    (has : xs.map types = o.arguments.map TypeSet.only) :
    Consistent ρ (.operation op xs s (.only o.result)) := by
  have hv : o ∈ viable op xs (.only o.result) := by
    refine mem_viable.mpr ⟨ho, ?_, by simp⟩
    rw [has]
    exact Overload.accepts_only_iff.mpr rfl
  refine .operation hxs (List.ne_nil_of_mem hv) (results_viable_eq has hv).2 fun i x hi => ?_
  have hmap := congrArg (fun us => us[i]?) has
  simp only [List.getElem?_map, hi, Option.map_some] at hmap
  obtain ⟨a, ha, hax⟩ := Option.map_eq_some_iff.mp hmap.symm
  rw [← hax]
  exact TypeSet.only_le_iff.mpr (Overload.has_argumentTypes.mpr ⟨o, hv, ha⟩)

/-- A resolved tree has the types of the choice that its references make. -/
theorem Resolved.hasType {τ : String → ValueType} {n : Node} (h : Resolved n)
    (hτ : EveryReference (fun name ts => ts = .only (τ name)) n) {t : ValueType}
    (ht : n.types = .only t) : HasType τ n t := by
  induction h generalizing t with
  | constant v s =>
    obtain rfl := TypeSet.only_injective ht
    exact .constant v s
  | parameter name producer s u =>
    have hu : TypeSet.only u = .only (τ name) := hτ.of_parameter
    obtain rfl : τ name = t := TypeSet.only_injective (hu.symm.trans ht)
    exact .parameter name producer s _
  | @operation op xs o s ho types operands ih =>
    obtain rfl := TypeSet.only_injective ht
    refine .operation s _ ho ?_
    exact forall₂_imp_of_mem (map_eq_map_iff.mp types) fun x hx a _ ha =>
      ih x hx (hτ.of_operation x hx) ha

end Node
end TolerantExpr
