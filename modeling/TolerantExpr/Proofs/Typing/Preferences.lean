import TolerantExpr.Analysis
import TolerantExpr.Proofs.Computations
import TolerantExpr.Proofs.Typing.Registries

/-!
# Preferences as demands

The operations of a tree make demands on its numeric parameters, one after the other. Recording
the preferences of a tree succeeds exactly if its demands can be met in turn. What is met once is
kept, and is met again without a change; types, names and uses stay as they are.
-/

namespace TolerantExpr

namespace Node

/-- The demand that an operation makes on an operand, if that is a numeric parameter. -/
def demandAt (wanted : Preference) : Node → List (String × Preference)
  | parameter name _ _ types => if types.single? = some .numeric then [(name, wanted)] else []
  | _ => []

mutual

/-- The preferences that the operations of a tree have for parameters, those of an operation before
those below it. -/
def demands : Node → List (String × Preference)
  | operation op xs _ types =>
    xs.flatMap (demandAt (Analysis.operandPreference op types.single?)) ++ demandsAll xs
  | _ => []

def demandsAll : List Node → List (String × Preference)
  | [] => []
  | x :: xs => x.demands ++ demandsAll xs

end

theorem mem_demandsAll_iff {d : String × Preference} {xs : List Node} :
    d ∈ demandsAll xs ↔ ∃ x ∈ xs, d ∈ x.demands := by
  induction xs with
  | nil => simp [demandsAll]
  | cons x xs ih => rw [demandsAll, List.mem_append, ih, List.exists_mem_cons_iff]

end Node

namespace Registry

/-- The same names, uses and types; preferences may differ. -/
structure SameTypes (s r : Registry) : Prop where
  contains : ∀ name, s.contains name = r.contains name
  types : ∀ name, s.typesOf name = r.typesOf name
  used : s.used = r.used
  distinct : r.Distinct → s.Distinct

theorem SameTypes.refl (r : Registry) : r.SameTypes r := ⟨fun _ => rfl, fun _ => rfl, rfl, id⟩

theorem SameTypes.trans {r s t : Registry} (hst : s.SameTypes t) (hrs : r.SameTypes s) :
    r.SameTypes t where
  contains name := (hrs.contains name).trans (hst.contains name)
  types name := (hrs.types name).trans (hst.types name)
  used := hrs.used.trans hst.used
  distinct h := hrs.distinct (hst.distinct h)

/-- Putting in a parameter of the same name and types. -/
theorem put_sameTypes {r : Registry} {p q : OpenParameter} (hp : r.get? p.name = some p)
    (hname : q.name = p.name) (htypes : q.types = p.types) : (r.put q).SameTypes r := by
  have hc : r.contains q.name = true := contains_iff.mpr ⟨p, hname ▸ hp⟩
  have hget := get?_put hc
  refine ⟨fun name => ?_, fun name => ?_, ?_, fun hr => distinct_put hr q⟩
  · rw [contains, hget, contains]
    by_cases hn : q.name = name
    · rw [if_pos hn, ← hn, hname, hp]
      rfl
    · rw [if_neg hn]
  · unfold typesOf
    rw [hget]
    by_cases hn : q.name = name
    · rw [if_pos hn, ← hn, hname, hp]
      exact htypes
    · rw [if_neg hn]
  · rw [put_of_contains hc]

/-- The preference of a parameter; a name that is not registered has none. -/
def preferenceOf (r : Registry) (name : String) : Preference :=
  match r.get? name with
  | some p => p.preference
  | none => .unset

theorem preferenceOf_of_get? {r : Registry} {name : String} {p : OpenParameter}
    (h : r.get? name = some p) : r.preferenceOf name = p.preference := by
  rw [preferenceOf, h]

theorem preferenceOf_put {r : Registry} {p q : OpenParameter} (hp : r.get? q.name = some p)
    (name : String) :
    (r.put q).preferenceOf name = if q.name = name then q.preference else r.preferenceOf name := by
  unfold preferenceOf
  rw [get?_put (contains_iff.mpr ⟨p, hp⟩)]
  by_cases hn : q.name = name
  · rw [if_pos hn, if_pos hn]
  · rw [if_neg hn, if_neg hn]

/-! ### One demand -/

/-- A demand that can be met settles the preference, and leaves one that is settled alone. -/
theorem exists_of_prefer {r s : Registry} {name : String} {wanted : Preference}
    (h : r.prefer name wanted = .ok s) :
    ∃ p w, r.get? name = some p ∧ (wanted = .unset ∨ w = wanted) ∧
      (p.preference = .unset ∨ w = p.preference) ∧ s = r.put { p with preference := w } := by
  obtain ⟨p, q, hp, hq, rfl⟩ := change_eq_ok_iff.mp h
  rcases OpenParameter.prefer_eq_ok_iff.mp hq with ⟨hw, rfl⟩ | ⟨hkept, rfl⟩
  · exact ⟨q, q.preference, hp, .inl hw, .inr rfl, rfl⟩
  · exact ⟨p, wanted, hp, .inr rfl, hkept.imp_right Eq.symm, rfl⟩

theorem prefer_sameTypes {r s : Registry} {name : String} {wanted : Preference}
    (h : r.prefer name wanted = .ok s) : s.SameTypes r := by
  obtain ⟨p, w, hp, -, -, rfl⟩ := exists_of_prefer h
  obtain ⟨-, rfl⟩ := get?_eq_some hp
  exact put_sameTypes hp rfl rfl

theorem preferenceOf_prefer {r s : Registry} {name : String} {wanted : Preference}
    (h : r.prefer name wanted = .ok s) :
    (wanted = .unset ∨ s.preferenceOf name = wanted) ∧
      ∀ m, r.preferenceOf m = .unset ∨ s.preferenceOf m = r.preferenceOf m := by
  obtain ⟨p, w, hp, hwanted, hkept, rfl⟩ := exists_of_prefer h
  obtain ⟨-, rfl⟩ := get?_eq_some hp
  have hput := preferenceOf_put (q := { p with preference := w }) hp
  refine ⟨?_, fun m => ?_⟩
  · rw [hput, if_pos rfl]
    exact hwanted
  · rw [hput]
    by_cases hm : p.name = m
    · rw [if_pos hm, ← hm, preferenceOf_of_get? hp]
      exact hkept
    · rw [if_neg hm]
      exact .inr rfl

/-- A demand that is met already. -/
theorem prefer_eq_self {r : Registry} (hr : r.Distinct) {name : String} {wanted : Preference}
    (hc : r.contains name = true) (h : wanted = .unset ∨ r.preferenceOf name = wanted) :
    r.prefer name wanted = .ok r := by
  obtain ⟨p, hp⟩ := contains_iff.mp hc
  rw [preferenceOf_of_get? hp] at h
  obtain ⟨-, rfl⟩ := get?_eq_some hp
  have hput : r.put p = r := put_eq_self hr hp
  unfold prefer change OpenParameter.prefer
  rw [hp]
  dsimp only
  rw [if_pos (h.imp_right Eq.symm), Changed.map, hput]

/-! ### Demands in turn -/

/-- Meet demands one after the other. -/
def preferAll (r : Registry) (ds : List (String × Preference)) : Except ParameterError Registry :=
  ds.foldlM (fun r d => (r.prefer d.1 d.2).toExcept) r

variable {r s : Registry} {ds es : List (String × Preference)}

@[simp]
theorem preferAll_nil (r : Registry) : r.preferAll [] = .ok r := rfl

theorem preferAll_cons_eq_ok_iff {d : String × Preference} :
    r.preferAll (d :: ds) = .ok s ↔ ∃ t, r.prefer d.1 d.2 = .ok t ∧ t.preferAll ds = .ok s := by
  rw [preferAll, List.foldlM_cons, except_bind_eq_ok_iff]
  simp only [Changed.toExcept_eq_ok_iff, preferAll]

theorem preferAll_append_eq_ok_iff :
    r.preferAll (ds ++ es) = .ok s ↔ ∃ t, r.preferAll ds = .ok t ∧ t.preferAll es = .ok s := by
  rw [preferAll, List.foldlM_append, except_bind_eq_ok_iff]
  rfl

/-- Meeting demands changes nothing but preferences. -/
theorem preferAll_sameTypes (h : r.preferAll ds = .ok s) : s.SameTypes r := by
  induction ds generalizing r with
  | nil =>
    obtain rfl := Except.ok.inj h
    exact .refl r
  | cons d ds ih =>
    obtain ⟨t, ht, h⟩ := preferAll_cons_eq_ok_iff.mp h
    exact (prefer_sameTypes ht).trans (ih h)

/-- Every demand that was met is settled, and what was settled before has been kept. -/
theorem preferenceOf_preferAll (h : r.preferAll ds = .ok s) :
    (∀ d ∈ ds, d.2 = .unset ∨ s.preferenceOf d.1 = d.2) ∧
      ∀ name, r.preferenceOf name = .unset ∨ s.preferenceOf name = r.preferenceOf name := by
  induction ds generalizing r with
  | nil =>
    obtain rfl := Except.ok.inj h
    exact ⟨by simp, fun name => .inr rfl⟩
  | cons d ds ih =>
    obtain ⟨t, ht, h⟩ := preferAll_cons_eq_ok_iff.mp h
    obtain ⟨hd, hkept⟩ := preferenceOf_prefer ht
    obtain ⟨hds, hkept'⟩ := ih h
    refine ⟨List.forall_mem_cons.mpr ⟨?_, hds⟩, fun name => ?_⟩
    · rcases hd with hd | hd
      · exact .inl hd
      · rw [← hd]
        exact hkept' d.1
    · rcases hkept name with hname | hname
      · exact .inl hname
      · rw [← hname]
        exact hkept' name

/-- Demands that are met already. -/
theorem preferAll_eq_self (hr : r.Distinct) (hc : ∀ d ∈ ds, r.contains d.1 = true)
    (h : ∀ d ∈ ds, d.2 = .unset ∨ r.preferenceOf d.1 = d.2) : r.preferAll ds = .ok r := by
  induction ds with
  | nil => rfl
  | cons d ds ih =>
    rw [List.forall_mem_cons] at hc h
    exact preferAll_cons_eq_ok_iff.mpr ⟨r, prefer_eq_self hr hc.1 h.1, ih hc.2 h.2⟩

end Registry

namespace Analysis

variable {r s : Registry}

theorem preferAt_eq_ok_iff {wanted : Preference} {n : Node} :
    preferAt wanted n r = .ok s ↔ r.preferAll (n.demandAt wanted) = .ok s := by
  cases n with
  | constant v span =>
    simp only [preferAt, Node.demandAt, Registry.preferAll_nil, Except.ok.injEq]
  | operation op xs span ts =>
    simp only [preferAt, Node.demandAt, Registry.preferAll_nil, Except.ok.injEq]
  | parameter name producer span ts =>
    rw [preferAt, Node.demandAt]
    by_cases ht : ts.single? = some .numeric
    · rw [if_pos ht, if_pos ht, Registry.preferAll_cons_eq_ok_iff]
      simp only [except_mapError_eq_ok_iff, Changed.toExcept_eq_ok_iff, Registry.preferAll_nil,
        Except.ok.injEq, exists_eq_right]
    · rw [if_neg ht, if_neg ht]
      simp only [Registry.preferAll_nil, Except.ok.injEq]

theorem preferAtEach_eq_ok_iff {wanted : Preference} {xs : List Node} :
    xs.foldlM (fun r x => preferAt wanted x r) r = .ok s ↔
      r.preferAll (xs.flatMap (Node.demandAt wanted)) = .ok s := by
  induction xs generalizing r with
  | nil =>
    rw [List.flatMap_nil, List.foldlM_nil, Registry.preferAll_nil]
    simp only [pure, Except.pure, Except.ok.injEq]
  | cons x xs ih =>
    rw [List.foldlM_cons, List.flatMap_cons, except_bind_eq_ok_iff,
      Registry.preferAll_append_eq_ok_iff]
    simp only [preferAt_eq_ok_iff, ih]

mutual

/-- The preferences of a tree can be recorded exactly if its demands can be met. -/
theorem preferences_eq_ok_iff {n : Node} {r s : Registry} :
    preferences n r = .ok s ↔ r.preferAll n.demands = .ok s := by
  match n with
  | .constant v span =>
    simp only [preferences, Node.demands, Registry.preferAll_nil, Except.ok.injEq]
  | .parameter name producer span ts =>
    simp only [preferences, Node.demands, Registry.preferAll_nil, Except.ok.injEq]
  | .operation op xs span ts =>
    rw [preferences, Node.demands, except_bind_eq_ok_iff, Registry.preferAll_append_eq_ok_iff]
    refine exists_congr fun t => ?_
    rw [preferAtEach_eq_ok_iff, preferencesAll_eq_ok_iff]

theorem preferencesAll_eq_ok_iff {xs : List Node} {r s : Registry} :
    preferencesAll xs r = .ok s ↔ r.preferAll (Node.demandsAll xs) = .ok s := by
  match xs with
  | [] =>
    simp only [preferencesAll, Node.demandsAll, Registry.preferAll_nil, Except.ok.injEq]
  | x :: xs =>
    rw [preferencesAll, Node.demandsAll, except_bind_eq_ok_iff,
      Registry.preferAll_append_eq_ok_iff]
    refine exists_congr fun t => ?_
    rw [preferences_eq_ok_iff, preferencesAll_eq_ok_iff]

end

theorem preferAt_sameTypes {wanted : Preference} {n : Node} (h : preferAt wanted n r = .ok s) :
    s.SameTypes r :=
  Registry.preferAll_sameTypes (preferAt_eq_ok_iff.mp h)

theorem preferAtEach_sameTypes {wanted : Preference} {xs : List Node}
    (h : xs.foldlM (fun r x => preferAt wanted x r) r = .ok s) : s.SameTypes r :=
  Registry.preferAll_sameTypes (preferAtEach_eq_ok_iff.mp h)

/-- Preferences change no types. -/
theorem preferences_sameTypes {n : Node} (h : preferences n r = .ok s) : s.SameTypes r :=
  Registry.preferAll_sameTypes (preferences_eq_ok_iff.mp h)

end Analysis
end TolerantExpr
