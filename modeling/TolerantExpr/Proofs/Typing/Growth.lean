import TolerantExpr.Proofs.Typing.Analyses
import TolerantExpr.Proofs.Typing.Names

/-!
# How a registry grows

While an expression is analyzed its registry keeps the parameters that it has, in their order, and
new ones follow in the order in which the expression first uses them. No parameter changes its
uses, and none gets a type back. A table is fixed from the parameters that are used, without
changing their order, so the slot of every argument can be told from the expression.
-/

namespace TolerantExpr

/-- A parameter and what it is later on: types may be ruled out, and an open use decided. -/
structure OpenParameter.Continues (p q : OpenParameter) : Prop where
  name : q.name = p.name
  types : q.types ≤ p.types
  producer : ∀ b, p.producer = some b → q.producer = some b

namespace OpenParameter.Continues

variable {p q u : OpenParameter}

theorem refl (p : OpenParameter) : p.Continues p := ⟨rfl, le_rfl, fun _ h => h⟩

theorem trans (h : p.Continues q) (h' : q.Continues u) : p.Continues u where
  name := h'.name.trans h.name
  types := h'.types.trans h.types
  producer b hb := h'.producer b (h.producer b hb)

theorem of_le (h : q ≤ p) : p.Continues q where
  name := name_eq_of_le h
  types := h.2
  producer _ hb := (producer_eq_of_le h).trans hb

end OpenParameter.Continues

namespace Registry

abbrev names (r : Registry) : List String := r.entries.map OpenParameter.name

abbrev orders (r : Registry) : List Nat := r.entries.map OpenParameter.order

/-- The entries stand in their order, and new ones come after them. -/
structure Ordered (r : Registry) : Prop where
  increasing : r.orders.Pairwise (· < ·)
  bounded : ∀ o ∈ r.orders, o < r.nextOrder

/-- The names that a registry does not have, in the order in which they come first. -/
def fresh (r : Registry) (names : List String) : List String :=
  (names.filter (· ∉ r.names)).eraseDups

@[simp]
theorem fresh_nil (r : Registry) : r.fresh [] = [] := rfl

theorem fresh_singleton (r : Registry) (name : String) :
    r.fresh [name] = if name ∈ r.names then [] else [name] := by
  rw [fresh, List.filter_cons, List.filter_nil]
  by_cases h : name ∈ r.names
  · rw [if_pos h, if_neg (by rw [decide_eq_true_eq, not_not]; exact h)]
    rfl
  · rw [if_neg h, if_pos (decide_eq_true h)]
    rfl

/-- The second registry has the parameters of the first one, and after them those of the names
that the first one lacks. -/
structure Extends (names : List String) (r s : Registry) : Prop where
  names_eq : s.names = r.names ++ r.fresh names
  continues : ∀ p ∈ r.entries, ∃ q ∈ s.entries, p.Continues q
  ordered : r.Ordered → s.Ordered

/-- Every use is recorded. -/
def Records (us : List (String × Bool)) (r : Registry) : Prop :=
  ∀ u ∈ us, ∃ p ∈ r.entries, p.name = u.1 ∧ p.producer = some u.2

namespace Extends

variable {r s t : Registry} {xs ys : List String}

theorem refl (r : Registry) : Extends [] r r where
  names_eq := by simp
  continues p hp := ⟨p, hp, .refl p⟩
  ordered := id

/-- What is new after the second step is not known, and was not new in the first one. -/
theorem fresh_append (h : Extends xs r s) : r.fresh (xs ++ ys) = r.fresh xs ++ s.fresh ys := by
  unfold fresh
  rw [List.filter_append, List.eraseDups_append]
  congr 2
  rw [List.removeAll, List.filter_filter]
  refine List.filter_congr fun name _ => ?_
  have hmem : name ∈ s.names ↔ name ∈ r.names ∨ name ∈ xs.filter (· ∉ r.names) := by
    rw [h.names_eq, List.mem_append, fresh, List.mem_eraseDups]
  by_cases hr : name ∈ r.names <;> by_cases hx : name ∈ xs <;> simp_all

theorem append (h : Extends xs r s) (h' : Extends ys s t) : Extends (xs ++ ys) r t where
  names_eq := by rw [h'.names_eq, h.names_eq, h.fresh_append, List.append_assoc]
  continues p hp := by
    obtain ⟨q, hq, hpq⟩ := h.continues p hp
    obtain ⟨u, hu, hqu⟩ := h'.continues q hq
    exact ⟨u, hu, hpq.trans hqu⟩
  ordered ho := h'.ordered (h.ordered ho)

/-- A step that names nothing new. -/
theorem then_same (h : Extends xs r s) (h' : Extends [] s t) : Extends xs r t := by
  have := h.append h'
  rwa [List.append_nil] at this

end Extends

theorem Records.of_extends {us : List (String × Bool)} {names : List String} {r s : Registry}
    (hr : Records us r) (h : Extends names r s) : Records us s := by
  intro u hu
  obtain ⟨p, hp, hname, hproducer⟩ := hr u hu
  obtain ⟨q, hq, hpq⟩ := h.continues p hp
  exact ⟨q, hq, hpq.name.trans hname, hpq.producer _ hproducer⟩

theorem Records.append {us vs : List (String × Bool)} {r : Registry} (hu : Records us r)
    (hv : Records vs r) : Records (us ++ vs) r :=
  List.forall_mem_append.mpr ⟨hu, hv⟩

/-! ### Steps -/

section Steps

variable {r s : Registry} {p q : OpenParameter}

/-- A step in which no parameter is added or moved. -/
theorem extends_of_forall₂
    (h : List.Forall₂ (fun p q => p.Continues q ∧ q.order = p.order) r.entries s.entries)
    (hnext : s.nextOrder = r.nextOrder) : Extends [] r s where
  names_eq := by
    rw [fresh_nil, List.append_nil]
    exact map_eq_map_iff.mpr (h.flip.imp fun _ _ hpq => hpq.1.name)
  continues p hp := by
    obtain ⟨q, hq, hpq, -⟩ := exists_of_forall₂_of_mem_right h.flip hp
    exact ⟨q, hq, hpq⟩
  ordered ho := by
    have horders : s.orders = r.orders :=
      map_eq_map_iff.mpr (h.flip.imp fun _ _ hpq => hpq.2)
    exact ⟨horders ▸ ho.increasing, by rw [horders, hnext]; exact ho.bounded⟩

theorem extends_of_le (h : s ≤ r) : Extends [] r s := by
  refine extends_of_forall₂ (h.entries.flip.imp fun p q hle => ?_) h.nextOrder_eq
  exact ⟨.of_le hle, by rw [(OpenParameter.le_def.mp hle).1]⟩

theorem extends_put (hr : r.Distinct) (hp : r.get? q.name = some p) (h : p.Continues q)
    (horder : q.order = p.order) : Extends [] r (r.put q) := by
  rw [put_of_contains (contains_iff.mpr ⟨p, hp⟩)]
  refine extends_of_forall₂ ?_ rfl
  rw [List.forall₂_map_right_iff, List.forall₂_same]
  intro u hu
  split
  · rename_i heq
    -- the entry of that name is the one that was looked up
    obtain rfl := Option.some.inj ((get?_of_mem hr hu).symm.trans (heq ▸ hp))
    exact ⟨h, horder⟩
  · exact ⟨.refl u, rfl⟩

theorem nextOrder_mention (r : Registry) (name : String) :
    (r.contains name = true → (r.mention name).nextOrder = r.nextOrder) ∧
      (¬r.contains name = true → (r.mention name).nextOrder = r.nextOrder + 1) := by
  have hused : ∀ used, ({ r with used := used } : Registry).contains name = r.contains name :=
    fun _ => rfl
  constructor
  · intro hc
    unfold mention
    split <;> simp only [hused, hc, ↓reduceIte]
  · intro hc
    unfold mention
    split <;> simp only [hused, hc, Bool.false_eq_true, ↓reduceIte, put]

theorem extends_mention (r : Registry) (name : String) : Extends [name] r (r.mention name) := by
  obtain ⟨hknown, hnew⟩ := nextOrder_mention r name
  rcases entries_mention r name with ⟨hc, he⟩ | ⟨hc, he⟩
  · have hmem := contains_iff_mem_names.mp hc
    refine ⟨?_, fun p hp => ⟨p, he ▸ hp, .refl p⟩, fun ho => ?_⟩
    · rw [fresh_singleton, if_pos hmem, List.append_nil, names, he]
    · exact ⟨by rw [orders, he]; exact ho.increasing,
        by rw [orders, he, hknown hc]; exact ho.bounded⟩
  · have hmem := fun h => hc (contains_iff_mem_names.mpr h)
    refine ⟨?_, fun p hp => ⟨p, by rw [he]; exact List.mem_append_left _ hp, .refl p⟩,
      fun ho => ⟨?_, ?_⟩⟩
    · rw [fresh_singleton, if_neg hmem, names, he, List.map_append]
      rfl
    · rw [orders, he, List.map_append, List.pairwise_append]
      exact ⟨ho.increasing, List.pairwise_singleton _ _, by simpa using ho.bounded⟩
    · rw [orders, he, hnew hc, List.map_append, List.forall_mem_append]
      refine ⟨fun o hmem => Nat.lt_succ_of_lt (ho.bounded o hmem), ?_⟩
      simp

theorem extends_recordUse (hr : r.Distinct) {name : String} {producer : Bool}
    (h : r.recordUse name producer = .ok s) :
    Extends [] r s ∧ Records [(name, producer)] s := by
  obtain ⟨p, hp, huse, rfl⟩ := recordUse_eq_ok_iff.mp h
  obtain ⟨-, rfl⟩ := get?_eq_some hp
  refine ⟨extends_put (q := { p with producer := some producer }) hr hp ⟨rfl, le_rfl, ?_⟩ rfl, ?_⟩
  · intro b hb
    rcases huse with huse | huse <;> rw [huse] at hb
    · cases hb
    · exact hb
  · intro u hu
    obtain rfl := List.mem_singleton.mp hu
    have hget := get?_put (p := { p with producer := some producer })
      (contains_iff.mpr ⟨p, hp⟩) p.name
    rw [if_pos rfl] at hget
    exact ⟨_, (get?_eq_some hget).1, rfl, rfl⟩

theorem extends_prefer (hr : r.Distinct) {name : String} {wanted : Preference}
    (h : r.prefer name wanted = .ok s) : Extends [] r s := by
  obtain ⟨p, w, hp, -, -, rfl⟩ := exists_of_prefer h
  obtain ⟨-, rfl⟩ := get?_eq_some hp
  exact extends_put (q := { p with preference := w }) hr hp ⟨rfl, le_rfl, fun _ h => h⟩ rfl

/-- Preferences add no parameter and move none. -/
theorem extends_preferAll (hr : r.Distinct) {ds : List (String × Preference)}
    (h : r.preferAll ds = .ok s) : Extends [] r s := by
  induction ds generalizing r with
  | nil =>
    obtain rfl := Except.ok.inj h
    exact .refl r
  | cons d ds ih =>
    obtain ⟨t, ht, h⟩ := preferAll_cons_eq_ok_iff.mp h
    exact (extends_prefer hr ht).then_same (ih ((prefer_sameTypes ht).distinct hr) h)

/-! ### Preferences of parameters -/

theorem preferenceOf_mention (r : Registry) (name m : String) :
    (r.mention name).preferenceOf m = r.preferenceOf m := by
  unfold preferenceOf
  rw [get?_mention]
  cases r.get? m with
  | some p => rfl
  | none =>
    by_cases hm : name = m
    · rw [if_pos hm]
      rfl
    · rw [if_neg hm]
      rfl

theorem preferenceOf_recordUse {name : String} {producer : Bool}
    (h : r.recordUse name producer = .ok s) (m : String) : s.preferenceOf m = r.preferenceOf m := by
  obtain ⟨p, hp, -, rfl⟩ := recordUse_eq_ok_iff.mp h
  obtain ⟨-, rfl⟩ := get?_eq_some hp
  rw [preferenceOf_put (q := { p with producer := some producer }) hp]
  split
  · rename_i hm
    rw [← hm, preferenceOf_of_get? hp]
  · rfl

theorem preferenceOf_of_le (h : s ≤ r) (m : String) : s.preferenceOf m = r.preferenceOf m := by
  unfold preferenceOf
  have hrel := get?_rel_of_le h m
  generalize s.get? m = p, r.get? m = q at hrel
  cases hrel with
  | none => rfl
  | some hle =>
    dsimp only
    rw [(OpenParameter.le_def.mp hle).1]

end Steps
end Registry

namespace Analysis

open Registry

variable {x : Extraction} {formatters : Formatters}

/-! ### The build -/

/-- What the build of an expression with these uses does to the registry. -/
structure Grown (us : List (String × Bool)) (r s : Registry) : Prop
    extends Extends (us.map Prod.fst) r s where
  records : Records us s
  preferences : ∀ name, s.preferenceOf name = r.preferenceOf name

theorem Grown.refl (r : Registry) : Grown [] r r where
  toExtends := .refl r
  records := by simp [Records]
  preferences _ := rfl

theorem Grown.append {us vs : List (String × Bool)} {r s t : Registry} (h : Grown us r s)
    (h' : Grown vs s t) : Grown (us ++ vs) r t where
  toExtends := by
    rw [List.map_append]
    exact h.toExtends.append h'.toExtends
  records := (h.records.of_extends h'.toExtends).append h'.records
  preferences name := (h'.preferences name).trans (h.preferences name)

theorem Grown.of_le {us : List (String × Bool)} {r s t : Registry} (h : Grown us r s)
    (hle : t ≤ s) : Grown us r t where
  toExtends := h.toExtends.then_same (extends_of_le hle)
  records := h.records.of_extends (extends_of_le hle)
  preferences name := (preferenceOf_of_le hle name).trans (h.preferences name)

theorem reference_grows {name : String} {producer : Bool} {s : Span} {σ : State}
    (hσ : σ.registry.Distinct) :
    Meets (reference name producer s) σ
      (fun _ υ => Grown [(name, producer)] σ.registry υ.registry) fun _ _ => True := by
  unfold Meets
  rw [reference_run]
  cases hr : (σ.registry.mention name).recordUse name producer with
  | error e left => trivial
  | ok r =>
    obtain ⟨hextends, hrecords⟩ := extends_recordUse (distinct_mention hσ name) hr
    have hgrown : Grown [(name, producer)] σ.registry r := by
      refine ⟨(extends_mention σ.registry name).then_same hextends, hrecords, fun m => ?_⟩
      rw [preferenceOf_recordUse hr, preferenceOf_mention]
    dsimp only
    split <;> exact hgrown

theorem complete_grows {n : Node} {us : List (String × Bool)} {r : Registry} {σ : State}
    (hσ : σ.registry.Distinct) (h : Grown us r σ.registry) :
    Meets (complete formatters n) σ (fun _ υ => Grown us r υ.registry) fun _ _ => True := by
  unfold Meets
  rw [complete_run]
  have hgrown := h.of_le (n.stabilize_le hσ).2
  cases (n.stabilize σ.registry).fault with
  | some fault => trivial
  | none =>
    dsimp only
    cases (n.stabilize σ.registry).subject.foldRoot formatters with
    | error fault => trivial
    | ok m => exact hgrown

/-- Building an expression makes the registry grow by its uses. -/
def Grows (x : Extraction) (formatters : Formatters) (e : Expr) : Prop :=
  ∀ σ : State, σ.registry.Distinct →
    Meets (build x formatters e) σ (fun _ υ => Grown (e.uses x) σ.registry υ.registry)
      fun _ _ => True

theorem buildAll_grows (es : List Expr) (ih : ∀ e ∈ es, Grows x formatters e) (σ : State)
    (hσ : σ.registry.Distinct) :
    Meets (buildAll x formatters es) σ
      (fun _ υ => Grown (Expr.usesAll x es) σ.registry υ.registry) fun _ _ => True := by
  induction es generalizing σ with
  | nil => exact meets_pure (.refl _)
  | cons e es ihes =>
    rw [buildAll]
    refine ((build_built e σ hσ).and (ih e List.mem_cons_self σ hσ)).bind fun n υ h => ?_
    obtain ⟨hbuilt, hgrown⟩ := h
    have hxs := ihes (fun f hf => ih f (List.mem_cons_of_mem _ hf)) υ hbuilt.distinct
    exact hxs.bind fun xs ω hgrown' => meets_pure (hgrown.append hgrown')

theorem operation_grows {e : Expr} {op : Operation} {es : List Expr} {s : Span}
    (he : Expr.IsOperation e op es s) (ih : ∀ e ∈ es, Grows x formatters e) :
    Grows x formatters e := by
  intro σ hσ
  rw [he.uses_eq]
  rcases build_operation (x := x) he with hb | ⟨fault, hb, -⟩ <;> rw [hb]
  · have hxs := (buildAll_built es (fun e _ => build_built e) σ hσ).and
      (buildAll_grows es ih σ hσ)
    exact hxs.bind fun xs υ ⟨hbuilt, hgrown⟩ => complete_grows hbuilt.distinct hgrown
  · exact meets_throw trivial

theorem build_grows (e : Expr) : Grows x formatters e := by
  induction e with
  | literal l s => exact fun σ _ => meets_pure (.refl _)
  | name n s =>
    intro σ hσ
    rw [build, Expr.uses]
    cases x.excerptAt? s with
    | some y => exact meets_pure (.refl _)
    | none => exact reference_grows hσ
  | negate e s ih => exact operation_grows (.negate e s) (by simpa using ih)
  | binary op l r s ihl ihr => exact operation_grows (.binary op l r s) (by simpa using ⟨ihl, ihr⟩)
  | call f es s ih =>
    cases hb : Builtin.ofName? f with
    | some b => exact operation_grows (.call hb es s) ih
    | none =>
      intro σ hσ
      rw [build, hb]
      cases es with
      | cons e es => exact meets_throw trivial
      | nil =>
        simp only [Expr.uses, hb, Option.isNone_none, List.isEmpty_nil, and_self, ↓reduceIte]
        exact reference_grows hσ

theorem grown_of_run {e : Expr} {r : Registry} (hr : r.Distinct) {n : Node} {σ : State}
    (h : (build x formatters e).run { registry := r } = (.ok n, σ)) :
    Grown (e.uses x) r σ.registry := by
  have hgrows : Meets (build x formatters e) { registry := r }
      (fun _ υ => Grown (e.uses x) r υ.registry) fun _ _ => True := build_grows e _ hr
  unfold Meets at hgrows
  rw [h] at hgrows
  exact hgrows

end Analysis
end TolerantExpr
