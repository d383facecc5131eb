import TolerantExpr.Proofs.Evaluation.Tolerances
import TolerantExpr.Proofs.Numbers.Values

/-!
# Comparisons and exact values

An exact comparison of numbers answers as their exact values compare, whatever representations they
are in, with one kind of exceptions: an integer that no double denotes counts as equal to the double
that it is rounded to. Such a pair leaves `<` a strict order, but `=` is no longer transitive: two
integers that are rounded to one double are not equal to each other.
-/

namespace TolerantExpr

open Binary64 (order? HasBits exactOf bitsOfInt hasBits_ofInt exists_hasBits)

/-- Whether a comparison relates two exact values. -/
def Comparison.relates (op : Comparison) (p q : Exact) : Bool :=
  match op with
  | eq => p = q
  | ne => p ≠ q
  | gt => q < p
  | ge => q ≤ p
  | lt => p < q
  | le => p ≤ q

theorem Comparison.holds_compare (op : Comparison) (p q : Exact) :
    op.holds (Ord.compare p q) = op.relates p q := by
  rcases lt_trichotomy p q with h | rfl | h
  · rw [compare_lt_iff_lt.mpr h]
    cases op <;> simp [holds, relates, h, h.le, h.ne, h.not_gt, h.not_ge]
  · rw [compare_eq_iff_eq.mpr rfl]
    cases op <;> simp [holds, relates]
  · rw [compare_gt_iff_gt.mpr h]
    cases op <;> simp [holds, relates, h, h.le, h.ne', h.not_gt, h.not_ge]

namespace Number

/-- The exact value of a number; NaN has none. -/
def value? : Number → Option Exact
  | int n => some (.ofRat n.toInt)
  | float x => (Binary64.ofFloat x).value?

/-- An integer that no double denotes, and the double that it is rounded to. -/
def Conflated : Number → Number → Prop
  | int n, float x | float x, int n =>
    (∀ y, (float y).value? ≠ (int n).value?) ∧ (Binary64.ofInt n.toInt == x) = true
  | _, _ => False

/-! ### Between an integer and a double -/

section Mixed

variable {n : Int64} {x : Float} {p : Exact}

/-- Rounding may make an integer equal to a double, but never turns them around. -/
theorem order?_ofInt_float (hx : (float x).value? = some p) :
    order? (Binary64.ofInt n.toInt) x = some (Ord.compare (.ofRat n.toInt) p) ∨
      order? (Binary64.ofInt n.toInt) x = some .eq := by
  obtain ⟨i, hi, rfl⟩ := exists_hasBits hx
  rw [(hasBits_ofInt n.toInt).order? hi, Option.some.injEq, Option.some.injEq]
  exact Binary64.compare_eq_or_eq (Binary64.bitsOfInt_le_of_exactOf hi.le)
    (Binary64.le_bitsOfInt_of_exactOf hi.le)

/-- An integer is conflated with a double if it is rounded to it and is not its value. -/
theorem conflated_iff (hx : (float x).value? = some p) :
    (int n).Conflated (float x) ↔
      order? (Binary64.ofInt n.toInt) x = some .eq ∧ .ofRat n.toInt ≠ p := by
  change _ ∧ (Binary64.ofInt n.toInt == x) = true ↔ _
  rw [Binary64.beq_iff, and_comm]
  refine and_congr_right fun heq => ⟨fun h hp => h x (by rw [hx, ← hp]; rfl), fun hp y hy => hp ?_⟩
  -- a double with the value of the integer has the bits that it is rounded to
  obtain ⟨i, hi, rfl⟩ := exists_hasBits hx
  obtain ⟨j, hj, hvalue⟩ := exists_hasBits hy
  have hbits := Binary64.bitsOfInt_eq_of_exactOf hj.le hvalue.symm
  rw [(hasBits_ofInt n.toInt).order? hi, Option.some.injEq, compare_eq_iff_eq, hbits] at heq
  rw [hvalue, heq]

/-- How an integer compares with a double: as the exact values do, unless the two are conflated. -/
theorem compare?_int_float (hx : (float x).value? = some p) :
    ¬(int n).Conflated (float x) ∧
        (int n).compare? (float x) = some (Ord.compare (.ofRat n.toInt) p) ∨
      (int n).Conflated (float x) ∧ (int n).compare? (float x) = some .eq ∧
        .ofRat n.toInt ≠ p := by
  rw [conflated_iff hx, compare?_of_float (.inr rfl)]
  change ¬(order? (Binary64.ofInt n.toInt) x = _ ∧ _) ∧ order? (Binary64.ofInt n.toInt) x = _ ∨
    _ ∧ order? (Binary64.ofInt n.toInt) x = _ ∧ _
  by_cases heq : order? (Binary64.ofInt n.toInt) x = some .eq
  · by_cases hp : .ofRat n.toInt = p
    · refine .inl ⟨fun h => h.2 hp, ?_⟩
      rw [heq, compare_eq_iff_eq.mpr hp]
    · exact .inr ⟨⟨heq, hp⟩, heq, hp⟩
  · exact .inl ⟨fun h => heq h.1, (order?_ofInt_float hx).resolve_right heq⟩

end Mixed

/-! ### Between any two numbers -/

theorem ofRat_intCast_strictMono : StrictMono fun n : Int => Exact.ofRat n :=
  fun _ _ h => Exact.ofRat_lt_ofRat.mpr (Int.cast_lt.mpr h)

theorem Conflated.symm {a b : Number} (h : a.Conflated b) : b.Conflated a := by
  cases a <;> cases b <;> exact h

theorem compare?_swap {a b : Number} (h : a.isFloat = true ∨ b.isFloat = true) :
    b.compare? a = (a.compare? b).map Ordering.swap := by
  rw [compare?_of_float h, compare?_of_float h.symm, Binary64.order?_swap]

/-- How two numbers that are not NaN compare: as their exact values do, unless they are conflated;
then they count as equal, but have different values. -/
theorem compare?_values {a b : Number} {p q : Exact} (ha : a.value? = some p)
    (hb : b.value? = some q) :
    ¬a.Conflated b ∧ a.compare? b = some (Ord.compare p q) ∨
      a.Conflated b ∧ a.compare? b = some .eq ∧ p ≠ q := by
  cases a with
  | int m =>
    cases b with
    | int n =>
      obtain rfl := Option.some.inj ha
      obtain rfl := Option.some.inj hb
      refine .inl ⟨id, ?_⟩
      rw [compare?_int, ← cmp_eq_compare, ← cmp_eq_compare]
      exact congrArg some (ofRat_intCast_strictMono.cmp_map_eq _ _).symm
    | float y =>
      obtain rfl := Option.some.inj ha
      exact compare?_int_float hb
  | float x =>
    cases b with
    | int n =>
      obtain rfl := Option.some.inj hb
      rw [compare?_swap (a := int n) (.inr rfl)]
      rcases compare?_int_float ha with ⟨hnot, hcompare⟩ | ⟨h, hcompare, hne⟩
      · refine .inl ⟨fun h => hnot h.symm, ?_⟩
        rw [hcompare, Option.map_some, ← cmp_eq_compare, ← cmp_eq_compare, cmp_swap]
      · refine .inr ⟨h.symm, ?_, hne.symm⟩
        rw [hcompare]
        rfl
    | float y =>
      obtain ⟨i, hi, rfl⟩ := exists_hasBits ha
      obtain ⟨j, hj, rfl⟩ := exists_hasBits hb
      refine .inl ⟨id, ?_⟩
      rw [compare?_of_float (.inl rfl)]
      rw [← cmp_eq_compare, Binary64.exactOf_strictMonoOn.cmp_map_eq hi.le hj.le, cmp_eq_compare]
      exact hi.order? hj

/-- The value of an integer of up to 53 bits is that of a double. -/
theorem not_conflated_of_le {n : Int64} (h : n.toInt.natAbs ≤ 2 ^ 53) (b : Number) :
    ¬(int n).Conflated b := by
  cases b with
  | int m => exact id
  | float x => exact fun hconflated => hconflated.1 _ (Binary64.value?_ofInt h)

/-! ### Chains of comparisons -/

section Bits

variable {a b c : Number} {i j k : Int}

/-- A number that is not NaN is a double with bits. -/
theorem exists_bits {p : Exact} (h : a.value? = some p) : ∃ i, HasBits a.toFloat i := by
  cases a with
  | int n => exact ⟨_, hasBits_ofInt n.toInt⟩
  | float x =>
    obtain ⟨i, hi, -⟩ := exists_hasBits h
    exact ⟨i, hi⟩

/-- A number is below another one as a double, or both are integers. -/
theorem compare?_lt_iff (hi : HasBits a.toFloat i) (hj : HasBits b.toFloat j) :
    a.compare? b = some .lt ↔
      i < j ∨ i ≤ j ∧ ∃ m n : Int64, a = int m ∧ b = int n ∧ m.toInt < n.toInt := by
  have horder := hi.order? hj
  by_cases hfloat : a.isFloat = true ∨ b.isFloat = true
  · rw [compare?_of_float hfloat, horder, Option.some.injEq, compare_lt_iff_lt]
    refine ⟨.inl, fun h => h.resolve_right ?_⟩
    rintro ⟨-, m, n, rfl, rfl, -⟩
    simp [isFloat] at hfloat
  · cases a with
    | float x => exact absurd (.inl rfl) hfloat
    | int m =>
      cases b with
      | float y => exact absurd (.inr rfl) hfloat
      | int n =>
        rw [compare?_int, Option.some.injEq, compare_lt_iff_lt]
        change order? (Binary64.ofInt m.toInt) (Binary64.ofInt n.toInt) = _ at horder
        have hcases := order?_ofInt_cases m.toInt n.toInt
        rw [horder, Option.some.injEq, Option.some.injEq, compare_eq_iff_eq] at hcases
        constructor
        · intro h
          refine .inr ⟨?_, m, n, rfl, rfl, h⟩
          rcases hcases with hlt | heq
          · exact (compare_lt_iff_lt.mp (hlt.trans (compare_lt_iff_lt.mpr h))).le
          · exact heq.le
        · rintro (h | ⟨-, m', n', hm, hn, h⟩)
          · exact compare_lt_iff_lt.mp
              ((hcases.resolve_right h.ne).symm.trans (compare_lt_iff_lt.mpr h))
          · cases hm
            cases hn
            exact h

theorem not_merged_self (a : Number) : ¬a.Merged a := by
  cases a with
  | int n => exact fun h => h.1 rfl
  | float x => exact id

/-- Numbers are equal if they are the same double and no merged integers. -/
theorem compare?_eq_iff (hi : HasBits a.toFloat i) (hj : HasBits b.toFloat j) :
    a.compare? b = some .eq ↔ i = j ∧ ¬a.Merged b := by
  rcases a.compare?_cases b with ⟨hnot, hcompare⟩ | ⟨hmerged, -, o, ho, hcompare⟩
  · rw [hcompare, hi.order? hj, Option.some.injEq, compare_eq_iff_eq]
    exact ⟨fun h => ⟨h, hnot⟩, And.left⟩
  · rw [hcompare, Option.some.injEq]
    exact iff_of_false ho fun h => h.2 hmerged

/-- One number below another stays so along a chain. -/
theorem compare?_lt_trans (hi : HasBits a.toFloat i) (hj : HasBits b.toFloat j)
    (hk : HasBits c.toFloat k) (hab : a.compare? b = some .lt) (hbc : b.compare? c = some .lt) :
    a.compare? c = some .lt := by
  rw [compare?_lt_iff hi hj] at hab
  rw [compare?_lt_iff hj hk] at hbc
  rw [compare?_lt_iff hi hk]
  rcases hab with hij | ⟨hij, l, m, rfl, rfl, hlm⟩
  · rcases hbc with hjk | ⟨hjk, -⟩
    · exact .inl (hij.trans hjk)
    · exact .inl (hij.trans_le hjk)
  · rcases hbc with hjk | ⟨hjk, m', n, hm, rfl, hmn⟩
    · exact .inl (hij.trans_lt hjk)
    · cases hm
      exact .inr ⟨hij.trans hjk, l, n, rfl, rfl, hlm.trans hmn⟩

end Bits

end Number

namespace Evaluation

/-- A comparison that holds in one order only. -/
theorem compare_eq_ok_true {op : Comparison} {o : Ordering} (hop : ∀ o', op.holds o' = (o' == o))
    (hne : op ≠ .ne) {a b : Number} :
    compare op (.number a) (.number b) = .ok true ↔ a.compare? b = some o := by
  rw [compare_numbers, Except.ok.injEq]
  cases a.compare? b with
  | none => simp [Comparison.holdsOf, hne]
  | some o' => simp [Comparison.holdsOf, hop]

/-- Numbers that are not NaN compare as their exact values do, by every operator, exactly if they
are not conflated; conflated numbers count as equal. Among all of them `<` is a strict order, and
`=` leads from one number over a second to a third, unless it is two integers that differ but are
rounded to one double. -/
theorem compare_relates_iff {a b c : Number} {p q r : Exact} (ha : a.value? = some p)
    (hb : b.value? = some q) (hc : c.value? = some r) :
    ((∀ op : Comparison, compare op (.number a) (.number b) = .ok (op.relates p q)) ↔
        ¬a.Conflated b) ∧
      (a.Conflated b →
        ∀ op : Comparison, compare op (.number a) (.number b) = .ok (op.holds .eq)) ∧
      compare .lt (.number a) (.number a) = .ok false ∧
      (compare .lt (.number a) (.number b) = .ok true →
        compare .lt (.number b) (.number c) = .ok true →
        compare .lt (.number a) (.number c) = .ok true) ∧
      (compare .eq (.number a) (.number b) = .ok true →
        compare .eq (.number b) (.number c) = .ok true →
        (compare .eq (.number a) (.number c) = .ok true ↔ ¬a.Merged c)) := by
  obtain ⟨i, hi⟩ := Number.exists_bits ha
  obtain ⟨j, hj⟩ := Number.exists_bits hb
  obtain ⟨k, hk⟩ := Number.exists_bits hc
  have hlt {a b : Number} :
      compare .lt (.number a) (.number b) = .ok true ↔ a.compare? b = some .lt :=
    compare_eq_ok_true (fun _ => rfl) (by decide)
  have heq {a b : Number} :
      compare .eq (.number a) (.number b) = .ok true ↔ a.compare? b = some .eq :=
    compare_eq_ok_true (fun _ => rfl) (by decide)
  refine ⟨?_, ?_, ?_, ?_, ?_⟩
  · rcases Number.compare?_values ha hb with ⟨hnot, hcompare⟩ | ⟨h, hcompare, hne⟩
    · refine iff_of_true (fun op => ?_) hnot
      rw [compare_numbers, hcompare, ← op.holds_compare]
      rfl
    · refine iff_of_false (fun hall => ?_) (not_not.mpr h)
      have hequal := (heq.mpr hcompare).symm.trans (hall .eq)
      exact hne (of_decide_eq_true (Except.ok.inj hequal).symm)
  · intro h op
    rcases Number.compare?_values ha hb with ⟨hnot, -⟩ | ⟨-, hcompare, -⟩
    · exact absurd h hnot
    · rw [compare_numbers, hcompare]
      rfl
  · have hself := (Number.compare?_eq_iff hi hi).mpr ⟨rfl, a.not_merged_self⟩
    rw [compare_numbers, hself]
    rfl
  · rw [hlt, hlt, hlt]
    exact Number.compare?_lt_trans hi hj hk
  · rw [heq, heq, heq, Number.compare?_eq_iff hi hj, Number.compare?_eq_iff hj hk,
      Number.compare?_eq_iff hi hk]
    rintro ⟨rfl, -⟩ ⟨rfl, -⟩
    exact and_iff_right rfl

theorem value?_two_pow_53 :
    (Number.float (Binary64.ofInt 9007199254740992)).value? = some (.ofRat 9007199254740992) := by
  have h := Binary64.value?_ofInt (n := 9007199254740992) (by decide)
  rwa [Int.cast_ofNat] at h

theorem value?_two_pow_53_succ :
    (Number.int 9007199254740993).value? = some (.ofRat 9007199254740993) := by
  have h : (9007199254740993 : Int64).toInt = 9007199254740993 := by decide
  rw [Number.value?, h, Int.cast_ofNat]

/-- Numbers are equal if they are rounded to one double, and one of them is a double. -/
theorem compare_eq_of_bits {a b : Number} {m n : Int}
    (hfloat : a.isFloat = true ∨ b.isFloat = true) (ha : a.toFloat = Binary64.ofInt m)
    (hb : b.toFloat = Binary64.ofInt n) (hbits : bitsOfInt m = bitsOfInt n) :
    compare .eq (.number a) (.number b) = .ok true := by
  rw [compare_numbers, Number.compare?_of_float hfloat, ha, hb, Binary64.order?_ofInt,
    compare_eq_iff_eq.mpr hbits]
  rfl

theorem compare_eq_two_pow_53_succ :
    compare .eq (.int 9007199254740993) (.float (Binary64.ofInt 9007199254740992)) = .ok true :=
  compare_eq_of_bits (m := 9007199254740993) (.inr rfl) rfl rfl (by decide)

theorem compare_eq_two_pow_53 :
    compare .eq (.float (Binary64.ofInt 9007199254740992)) (.int 9007199254740992) = .ok true :=
  compare_eq_of_bits (n := 9007199254740992) (.inl rfl) rfl rfl rfl

theorem relates_two_pow_53_succ :
    Comparison.eq.relates (.ofRat 9007199254740993) (.ofRat 9007199254740992) = false := by
  have hne : Exact.ofRat 9007199254740993 ≠ .ofRat 9007199254740992 :=
    (Exact.ofRat_lt_ofRat.mpr (by norm_num)).ne'
  exact decide_eq_false hne

/-- The integer `2 ^ 53 + 1` and the double `2 ^ 53` are conflated, and over them the integers
`2 ^ 53 + 1` and `2 ^ 53` would be equal if they were not merged. -/
theorem compare_relates_iff_two_pow_53 :
    (Number.int 9007199254740993).Conflated (.float (Binary64.ofInt 9007199254740992)) ∧
      (compare .eq (.int 9007199254740993) (.int 9007199254740992) = .ok true ↔
        ¬(Number.int 9007199254740993).Merged (.int 9007199254740992)) := by
  obtain ⟨hconflated, -, -, -, hchain⟩ :=
    compare_relates_iff value?_two_pow_53_succ value?_two_pow_53
      (show (Number.int 9007199254740992).value? = some _ from rfl)
  refine ⟨not_not.mp fun hnot => ?_,
    hchain compare_eq_two_pow_53_succ compare_eq_two_pow_53⟩
  have hfalse := compare_eq_two_pow_53_succ.symm.trans (hconflated.mpr hnot .eq)
  rw [relates_two_pow_53_succ] at hfalse
  cases hfalse

/-- The integer `2 ^ 53 + 1` is equal to the double `2 ^ 53`, which is equal to the integer
`2 ^ 53`; neither its value nor the integer itself is. -/
theorem not_relates_conflated :
    (Number.int 9007199254740993).value? = some (.ofRat 9007199254740993) ∧
      (Number.float (Binary64.ofInt 9007199254740992)).value? =
        some (.ofRat 9007199254740992) ∧
      compare .eq (.int 9007199254740993) (.float (Binary64.ofInt 9007199254740992)) = .ok true ∧
      Comparison.eq.relates (.ofRat 9007199254740993) (.ofRat 9007199254740992) = false ∧
      compare .eq (.float (Binary64.ofInt 9007199254740992)) (.int 9007199254740992) = .ok true ∧
      compare .eq (.int 9007199254740993) (.int 9007199254740992) = .ok false := by
  refine ⟨value?_two_pow_53_succ, value?_two_pow_53, compare_eq_two_pow_53_succ,
    relates_two_pow_53_succ, compare_eq_two_pow_53, ?_⟩
  rw [Value.int, Value.int, compare_numbers, Number.compare?_int]
  exact congrArg Except.ok (by decide)

end Evaluation
end TolerantExpr
