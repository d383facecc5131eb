import TolerantExpr.Operator.Overload
import TolerantExpr.Parameter.Registry
import Mathlib.Data.List.Forall2
import Mathlib.Order.Basic

/-!
# The order on type sets

Sets of types are ordered by inclusion. Ruling out a type means going down in this order, and the
number of types left measures how far down one is.
-/

namespace TolerantExpr.TypeSet

instance : LE TypeSet := ⟨fun a b => ∀ t, a.has t = true → b.has t = true⟩

instance : PartialOrder TypeSet where
  le_refl _ _ h := h
  le_trans _ _ _ hab hbc t h := hbc t (hab t h)
  le_antisymm _ _ hab hba := ext_has fun t => Bool.eq_iff_iff.mpr ⟨hab t, hba t⟩

theorem le_full (a : TypeSet) : a ≤ full := fun t _ => has_full t

theorem inter_le_left (a b : TypeSet) : a.inter b ≤ a := by
  intro t h
  rw [has_inter, Bool.and_eq_true] at h
  exact h.1

theorem inter_le_right (a b : TypeSet) : a.inter b ≤ b := by
  intro t h
  rw [has_inter, Bool.and_eq_true] at h
  exact h.2

theorem le_inter {a b c : TypeSet} (hb : a ≤ b) (hc : a ≤ c) : a ≤ b.inter c := by
  intro t h
  rw [has_inter, hb t h, hc t h]
  rfl

theorem inter_eq_left {a b : TypeSet} (h : a ≤ b) : a.inter b = a :=
  le_antisymm (inter_le_left a b) (le_inter le_rfl h)

theorem only_le_iff {t : ValueType} {a : TypeSet} : only t ≤ a ↔ a.has t = true := by
  constructor
  · exact fun h => h t (by simp)
  · intro h u hu
    rw [has_only, decide_eq_true_eq] at hu
    exact hu ▸ h

theorem only_injective {t u : ValueType} (h : only t = only u) : t = u := by
  have := congrArg (has · u) h
  simpa using this

theorem ne_empty_iff {a : TypeSet} : a ≠ empty ↔ ∃ t, a.has t = true := by
  constructor
  · intro h
    by_contra hn
    exact h (ext_has fun t => by simpa using not_exists.mp hn t)
  · rintro ⟨t, ht⟩ rfl
    simp at ht

theorem only_ne_empty (t : ValueType) : only t ≠ empty := ne_empty_iff.mpr ⟨t, by simp⟩

theorem ne_empty_of_le {a b : TypeSet} (h : a ≤ b) (ha : a ≠ empty) : b ≠ empty := by
  obtain ⟨t, ht⟩ := ne_empty_iff.mp ha
  exact ne_empty_iff.mpr ⟨t, h t ht⟩

/-- Below a single type there is only that type. -/
theorem eq_only_of_le {a : TypeSet} {t : ValueType} (h : a ≤ only t) (ha : a ≠ empty) :
    a = only t := by
  obtain ⟨u, hu⟩ := ne_empty_iff.mp ha
  have := h u hu
  rw [has_only, decide_eq_true_eq] at this
  subst this
  exact le_antisymm h (only_le_iff.mpr hu)

theorem single?_only (t : ValueType) : (only t).single? = some t := by cases t <;> rfl

theorem single?_eq_some_iff {a : TypeSet} {t : ValueType} : a.single? = some t ↔ a = only t := by
  constructor
  · have key : ∀ n s b y t, (⟨n, s, b, y⟩ : TypeSet).single? = some t → ⟨n, s, b, y⟩ = only t := by
      intro n s b y t
      cases t <;> revert n s b y <;> decide
    exact key a.numeric a.string a.boolean a.byteSequence t
  · intro heq
    subst heq
    exact single?_only t

theorem card_mono {a b : TypeSet} (h : a ≤ b) : a.card ≤ b.card := by
  rw [← le_antisymm (inter_le_right b a) (le_inter h le_rfl)]
  exact card_inter_le b a

theorem card_inter_lt {a b : TypeSet} (h : ¬a ≤ b) : (a.inter b).card < a.card := by
  have key : ∀ a b : TypeSet, a.inter b ≠ a → (a.inter b).card < a.card := by
    rintro ⟨n, s, o, y⟩ ⟨n', s', o', y'⟩
    revert n s o y n' s' o' y'
    decide
  exact key a b fun he => h (he ▸ inter_le_right a b)

/-- A smaller set with as many types is the same set. -/
theorem eq_of_le_of_card_le {a b : TypeSet} (h : a ≤ b) (hc : b.card ≤ a.card) : a = b := by
  by_contra hne
  have hlt : ¬b ≤ a := fun hb => hne (le_antisymm h hb)
  have := card_inter_lt hlt
  have := card_mono (le_inter h le_rfl)
  omega

theorem has_ofList {ts : List ValueType} {t : ValueType} :
    (ofList ts).has t = true ↔ t ∈ ts := by
  induction ts with
  | nil => simp [ofList]
  | cons u us ih =>
    have hcons : ofList (u :: us) = (only u).union (ofList us) := rfl
    rw [hcons, has_union, Bool.or_eq_true, ih, has_only, decide_eq_true_eq, List.mem_cons, eq_comm]

end TypeSet

namespace Overload

theorem has_results {os : List Overload} {t : ValueType} :
    (results os).has t = true ↔ ∃ o ∈ os, o.result = t := by
  rw [results, TypeSet.has_ofList, List.mem_map]

theorem has_argumentTypes {os : List Overload} {i : Nat} {t : ValueType} :
    (argumentTypes os i).has t = true ↔ ∃ o ∈ os, o.arguments[i]? = some t := by
  rw [argumentTypes, TypeSet.has_ofList, List.mem_filterMap]

/-- Fewer overloads have fewer results. -/
theorem results_mono {os ps : List Overload} (h : os ⊆ ps) : results os ≤ results ps := by
  intro t ht
  obtain ⟨o, ho, hr⟩ := has_results.mp ht
  exact has_results.mpr ⟨o, h ho, hr⟩

theorem argumentTypes_mono {os ps : List Overload} (h : os ⊆ ps) (i : Nat) :
    argumentTypes os i ≤ argumentTypes ps i := by
  intro t ht
  obtain ⟨o, ho, hi⟩ := has_argumentTypes.mp ht
  exact has_argumentTypes.mpr ⟨o, h ho, hi⟩

/-- An overload accepts operands if each of them may have the argument type at its place. -/
theorem accepts_iff {o : Overload} {ss : List TypeSet} :
    o.accepts ss = true ↔ List.Forall₂ (fun t s => s.has t = true) o.arguments ss := by
  rw [List.forall₂_iff_zip, accepts, Bool.and_eq_true, decide_eq_true_eq, List.all_eq_true]
  exact and_congr_right fun _ => ⟨fun h a b hab => h (a, b) hab, fun h p hp => h hp⟩

theorem accepts_mono {o : Overload} {ss us : List TypeSet} (h : List.Forall₂ (· ≤ ·) ss us)
    (ho : o.accepts ss = true) : o.accepts us = true := by
  rw [accepts_iff] at ho ⊢
  generalize o.arguments = ts at ho
  induction ho generalizing us with
  | nil =>
    cases h
    exact .nil
  | cons hts _ ih =>
    cases h with
    | cons hsu h => exact .cons (hsu _ hts) (ih h)

/-- Operands with one type each are accepted as the arguments that they are, and no others. -/
theorem accepts_only_iff {o : Overload} {ts : List ValueType} :
    o.accepts (ts.map TypeSet.only) = true ↔ o.arguments = ts := by
  rw [accepts_iff, List.forall₂_map_right_iff]
  simp only [TypeSet.has_only, decide_eq_true_eq]
  rw [← List.forall₂_eq_eq_eq]
  exact ⟨fun h => h.imp fun _ _ => Eq.symm, fun h => h.imp fun _ _ => Eq.symm⟩

end Overload
end TolerantExpr
