import TolerantExpr.Evaluation.Operation
import TolerantExpr.Proofs.Numbers.Integers

/-!
# What a tolerance relaxes

Numbers are compared as doubles under a tolerance, while exactly two integers are compared as
integers. Two integers that differ but round to one double are therefore equal under every
tolerance, even one without bounds. Between all other values a tolerance relaxes what holds exactly,
and one without bounds changes nothing.
-/

namespace TolerantExpr

open Binary64 (order? lt_iff le_iff beq_iff)

namespace Number

/-- Two integers that differ but go to the same double. -/
def Merged : Number → Number → Prop
  | int a, int b => a ≠ b ∧ (Binary64.ofInt a.toInt == Binary64.ofInt b.toInt) = true
  | _, _ => False

/-- A number is compared with a double as a double. -/
theorem compare?_of_float {a b : Number} (h : a.isFloat = true ∨ b.isFloat = true) :
    a.compare? b = order? a.toFloat b.toFloat := by
  have hab : a.compare? b = if a.toFloat < b.toFloat then some .lt
      else if a.toFloat == b.toFloat then some .eq
      else if b.toFloat < a.toFloat then some .gt else none := by
    cases a with
    | float x => rfl
    | int n =>
      cases b with
      | float y => rfl
      | int m => simp [isFloat] at h
  rw [hab]
  simp only [lt_iff, beq_iff, Binary64.order?_swap a.toFloat b.toFloat]
  cases order? a.toFloat b.toFloat with
  | none => rfl
  | some o => cases o <;> rfl

theorem compare?_int (a b : Int64) :
    (int a).compare? (int b) = some (Ord.compare a.toInt b.toInt) := by
  unfold compare?
  simp only [Int64.lt_iff_toInt_lt, beq_iff_eq, ← Int64.toInt_inj]
  rcases lt_trichotomy a.toInt b.toInt with h | h | h
  · rw [if_pos h, compare_lt_iff_lt.mpr h]
  · rw [if_neg h.not_lt, if_pos h, compare_eq_iff_eq.mpr h]
  · rw [if_neg h.not_gt, if_neg h.ne', compare_gt_iff_gt.mpr h]

/-- Rounding may make integers equal, but never turns them around. -/
theorem order?_ofInt_cases (i j : Int) :
    order? (Binary64.ofInt i) (Binary64.ofInt j) = some (Ord.compare i j) ∨
      order? (Binary64.ofInt i) (Binary64.ofInt j) = some .eq := by
  rw [Binary64.order?_ofInt, Option.some.injEq, Option.some.injEq]
  exact Binary64.compare_eq_or_eq Binary64.bitsOfInt_mono Binary64.bitsOfInt_mono

/-- Numbers are compared as doubles, unless they are merged; those are equal as doubles, but not
exactly. -/
theorem compare?_cases (a b : Number) :
    ¬a.Merged b ∧ a.compare? b = order? a.toFloat b.toFloat ∨
      a.Merged b ∧ order? a.toFloat b.toFloat = some .eq ∧ ∃ o ≠ .eq, a.compare? b = some o := by
  cases a with
  | float x => exact .inl ⟨id, compare?_of_float (.inl rfl)⟩
  | int a =>
    cases b with
    | float y => exact .inl ⟨id, compare?_of_float (.inr rfl)⟩
    | int b =>
      have hmerged : (int a).Merged (int b) ↔ a.toInt ≠ b.toInt ∧
          order? (Binary64.ofInt a.toInt) (Binary64.ofInt b.toInt) = some .eq := by
        change a ≠ b ∧ _ ↔ _
        rw [beq_iff, ne_eq, ← Int64.toInt_inj]
      rw [hmerged, compare?_int]
      change ¬_ ∧ _ = order? (Binary64.ofInt a.toInt) (Binary64.ofInt b.toInt) ∨
        _ ∧ order? (Binary64.ofInt a.toInt) (Binary64.ofInt b.toInt) = some .eq ∧ _
      by_cases heq : order? (Binary64.ofInt a.toInt) (Binary64.ofInt b.toInt) = some .eq
      · by_cases hab : a.toInt = b.toInt
        · refine .inl ⟨fun h => h.1 hab, ?_⟩
          rw [heq, compare_eq_iff_eq.mpr hab]
        · exact .inr ⟨⟨hab, heq⟩, heq, _, fun h => hab (compare_eq_iff_eq.mp h), rfl⟩
      · exact .inl ⟨fun h => heq h.2, ((order?_ofInt_cases _ _).resolve_right heq).symm⟩

/-- Integers of up to 53 bits are not merged. -/
theorem not_merged_of_le {a b : Int64} (ha : a.toInt.natAbs ≤ 2 ^ 53)
    (hb : b.toInt.natAbs ≤ 2 ^ 53) : ¬(int a).Merged (int b) := by
  rintro ⟨hne, heq⟩
  rw [beq_iff, Binary64.order?_ofInt, Option.some.injEq, compare_eq_iff_eq] at heq
  rcases Int.lt_or_gt_of_ne (fun h => hne (Int64.toInt_inj.mp h)) with h | h
  · exact absurd heq (Binary64.bitsOfInt_lt h ha hb).ne
  · exact absurd heq (Binary64.bitsOfInt_lt h hb ha).ne'

end Number

namespace Comparison

/-- Whether a comparison holds of values that compare in the given way, if they do at all. -/
def holdsOf (op : Comparison) : Option Ordering → Bool
  | some o => op.holds o
  | none => op = .ne

/-- A comparison of doubles, as the machine makes it. -/
theorem holdsOf_order? (op : Comparison) (x y : Float) :
    op.holdsOf (order? x y) = match op with
      | eq => x == y
      | ne => !(x == y)
      | gt => decide (y < x)
      | ge => decide (y ≤ x)
      | lt => decide (x < y)
      | le => decide (x ≤ y) := by
  have hswap := Binary64.order?_swap x y
  rw [Bool.eq_iff_iff]
  cases op <;>
    simp only [decide_eq_true_iff, Bool.not_eq_true', Bool.eq_false_iff, ne_eq, lt_iff, le_iff,
      beq_iff, hswap]
  all_goals
    cases order? x y with
    | none => simp [holdsOf]
    | some o => cases o <;> simp [holdsOf, holds]

/-- Without bounds, comparisons are those of doubles. -/
theorem holdsUnder_exact (op : Comparison) (x y : Float) :
    op.holdsUnder .exact x y = op.holdsOf (order? x y) := by
  rw [holdsOf_order?]
  cases op <;>
    simp [holdsUnder, Tolerance.equal, Tolerance.greater, Tolerance.less, Tolerance.exact,
      Tolerance.nearUnder, Tolerance.holdsUnder, Tolerance.above]

/-- What holds of doubles holds under every tolerance, but for `≠`. -/
theorem holdsUnder_of_holdsOf {op : Comparison} (hop : op ≠ .ne) (t : Tolerance) {x y : Float}
    (h : op.holdsOf (order? x y) = true) : op.holdsUnder t x y = true := by
  rw [holdsOf_order?] at h
  cases op with
  | ne => exact absurd rfl hop
  | eq => simp [holdsUnder, Tolerance.equal, h]
  | gt | ge => simp_all [holdsUnder, Tolerance.greater, Tolerance.above]
  | lt | le => simp_all [holdsUnder, Tolerance.less, Tolerance.above]

/-- What differs under some tolerance differs as doubles. -/
theorem holdsOf_of_holdsUnder_ne {t : Tolerance} {x y : Float}
    (h : ne.holdsUnder t x y = true) : ne.holdsOf (order? x y) = true := by
  rw [holdsOf_order?, Bool.not_eq_true', Bool.eq_false_iff]
  intro heq
  have hequal : Comparison.eq.holdsUnder t x y = true :=
    holdsUnder_of_holdsOf (by decide) t (by rwa [holdsOf_order?])
  change (!t.equal x y) = true at h
  change t.equal x y = true at hequal
  rw [hequal] at h
  cases h

end Comparison

/-- Two numbers that are merged. -/
def Value.Merged : Value → Value → Prop
  | .number a, .number b => a.Merged b
  | _, _ => False

namespace Evaluation

theorem compare_numbers (op : Comparison) (a b : Number) :
    compare op (.number a) (.number b) = .ok (op.holdsOf (a.compare? b)) := by
  unfold compare
  dsimp only
  cases a.compare? b <;> rfl

theorem compareTolerant_numbers (t : Tolerance) (op : Comparison) (a b : Number) :
    compareTolerant t op (.number a) (.number b) = .ok (op.holdsUnder t a.toFloat b.toFloat) := rfl

end Evaluation

namespace Tolerance

open Evaluation

/-- A tolerance relaxes comparisons of two values: it keeps what holds, but for `≠`, which it may
only lose; it does not change what fails; and without bounds it changes nothing. -/
structure Relaxes (t : Tolerance) (l r : Value) : Prop where
  keeps : ∀ op ≠ .ne, compare op l r = .ok true → compareTolerant t op l r = .ok true
  loses : compareTolerant t .ne l r = .ok true → compare .ne l r = .ok true
  fails : ∀ op e, compareTolerant t op l r = .error e ↔ compare op l r = .error e
  exact : t.isExact = true → ∀ op, compareTolerant t op l r = compare op l r

theorem eq_exact_of_isExact {t : Tolerance} (h : t.isExact = true) : t = .exact := by
  obtain ⟨a, b, c, d, e⟩ := t
  simpa [isExact, exact, and_assoc] using h

/-- A tolerance does not matter between values that are not both numbers. -/
theorem compareTolerant_eq {l r : Value} (h : l.number? = none ∨ r.number? = none) (t : Tolerance)
    (op : Comparison) : compareTolerant t op l r = compare op l r := by
  unfold compareTolerant
  split
  · simp [Value.number?] at h
  · rfl

theorem relaxes_of_eq {t : Tolerance} {l r : Value}
    (h : ∀ op, compareTolerant t op l r = compare op l r) : t.Relaxes l r where
  keeps op _ hop := (h op).trans hop
  loses hop := (h .ne).symm.trans hop
  fails op e := by rw [h op]
  exact _ := h

/-- Numbers that are compared as doubles anyway. -/
theorem relaxes_numbers {a b : Number} (h : a.compare? b = order? a.toFloat b.toFloat)
    (t : Tolerance) : t.Relaxes (.number a) (.number b) where
  keeps op hop hkeeps := by
    rw [compare_numbers, h] at hkeeps
    rw [compareTolerant_numbers, Comparison.holdsUnder_of_holdsOf hop t (Except.ok.inj hkeeps)]
  loses hloses := by
    rw [compareTolerant_numbers] at hloses
    rw [compare_numbers, h, Comparison.holdsOf_of_holdsUnder_ne (Except.ok.inj hloses)]
  fails op e := by
    rw [compare_numbers, compareTolerant_numbers]
    simp
  exact ht op := by
    rw [compare_numbers, compareTolerant_numbers, eq_exact_of_isExact ht,
      Comparison.holdsUnder_exact, h]

/-- Merged integers are equal under every tolerance, and `≥` and `≤` hold of them. -/
theorem holds_of_merged {a b : Number} (h : a.Merged b) (t : Tolerance) {op : Comparison}
    (hop : op ∈ [Comparison.eq, .ge, .le]) :
    compareTolerant t op (.number a) (.number b) = .ok true := by
  rcases a.compare?_cases b with ⟨hnot, -⟩ | ⟨-, heq, -⟩
  · exact absurd h hnot
  rw [compareTolerant_numbers]
  refine congrArg Except.ok (Comparison.holdsUnder_of_holdsOf ?_ t ?_)
  · rintro rfl
    simp at hop
  · rw [heq]
    simp only [List.mem_cons, List.not_mem_nil, or_false] at hop
    rcases hop with rfl | rfl | rfl <;> rfl

/-- Exactly they are not equal. -/
theorem compare_eq_of_merged {a b : Number} (h : a.Merged b) :
    compare .eq (.number a) (.number b) = .ok false := by
  rcases a.compare?_cases b with ⟨hnot, -⟩ | ⟨-, -, o, ho, hcompare⟩
  · exact absurd h hnot
  · rw [compare_numbers, hcompare]
    exact congrArg Except.ok (beq_eq_false_iff_ne.mpr ho)

theorem loses_of_merged {a b : Number} (h : a.Merged b) (t : Tolerance) :
    compareTolerant t .ne (.number a) (.number b) = .ok false := by
  have hok : compareTolerant t .eq (.number a) (.number b) = .ok true :=
    holds_of_merged h t (by decide)
  have heq := Except.ok.inj hok
  change t.equal a.toFloat b.toFloat = true at heq
  change Except.ok (!t.equal a.toFloat b.toFloat) = _
  rw [heq]
  rfl

/-- Every tolerance relaxes comparisons of two values exactly if they are not two integers that
are merged into one double. Of merged integers this much is left: `=`, `≥` and `≤` are relaxed,
`≠` is only lost, and nothing fails that does not fail exactly. -/
theorem relaxes_iff_not_merged (l r : Value) :
    ((∀ t : Tolerance, t.Relaxes l r) ↔ ¬l.Merged r) ∧ ∀ t : Tolerance,
      (∀ op ∈ [Comparison.eq, .ge, .le],
        compare op l r = .ok true → compareTolerant t op l r = .ok true) ∧
      (compareTolerant t .ne l r = .ok true → compare .ne l r = .ok true) ∧
      ∀ op e, compareTolerant t op l r = .error e ↔ compare op l r = .error e := by
  by_cases hmerged : l.Merged r
  · cases l with
    | number a =>
      cases r with
      | number b =>
        refine ⟨iff_of_false (fun h => ?_) (not_not.mpr hmerged), fun t => ⟨?_, ?_, ?_⟩⟩
        · have hexact := (h .exact).exact rfl .eq
          rw [holds_of_merged hmerged .exact (by decide), compare_eq_of_merged hmerged] at hexact
          cases hexact
        · exact fun op hop _ => holds_of_merged hmerged t hop
        · rw [loses_of_merged hmerged t]
          simp
        · intro op e
          rw [compare_numbers, compareTolerant_numbers]
          simp
      | _ => exact absurd hmerged id
    | _ => exact absurd hmerged id
  · have hrelaxes : ∀ t : Tolerance, t.Relaxes l r := by
      intro t
      cases l with
      | number a =>
        cases r with
        | number b =>
          rcases a.compare?_cases b with ⟨-, h⟩ | ⟨h, -⟩
          · exact relaxes_numbers h t
          · exact absurd h hmerged
        | _ => exact relaxes_of_eq (compareTolerant_eq (.inr rfl) t)
      | _ => exact relaxes_of_eq (compareTolerant_eq (.inl rfl) t)
    refine ⟨iff_of_true hrelaxes hmerged, fun t => ⟨fun op hop => ?_, (hrelaxes t).loses,
      (hrelaxes t).fails⟩⟩
    refine (hrelaxes t).keeps op ?_
    rintro rfl
    simp at hop

/-- Under the tolerance without bounds, `2 ^ 53 + 1` is no longer above `2 ^ 53`. -/
theorem not_relaxes_merged :
    compare .gt (.int 9007199254740993) (.int 9007199254740992) = .ok true ∧
      compareTolerant .exact .gt (.int 9007199254740993) (.int 9007199254740992) = .ok false := by
  have hrounded : order? (Binary64.ofInt 9007199254740993) (Binary64.ofInt 9007199254740992) =
      some .eq := by
    rw [Binary64.order?_ofInt]
    decide
  constructor
  · rw [Value.int, Value.int, compare_numbers, Number.compare?_int]
    exact congrArg Except.ok (by decide)
  · rw [Value.int, Value.int, compareTolerant_numbers, Comparison.holdsUnder_exact]
    change Except.ok (Comparison.holdsOf .gt
      (order? (Binary64.ofInt 9007199254740993) (Binary64.ofInt 9007199254740992))) = _
    rw [hrounded]
    rfl

end Tolerance
end TolerantExpr
