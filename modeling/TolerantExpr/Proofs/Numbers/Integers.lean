import TolerantExpr.Proofs.Numbers.Doubles

/-!
# Integers as doubles

Rounding an integer to the nearest double keeps the order, but not strictly: from 53 bits on,
integers that differ may go to one double. It never leads to NaN.
-/

namespace TolerantExpr.Binary64

/-! ### Rounding a quotient -/

theorem divHalfEven_cases (num den : Nat) :
    divHalfEven num den = num / den ∨ divHalfEven num den = num / den + 1 := by
  unfold divHalfEven
  dsimp only
  split
  · exact .inl rfl
  · split
    · exact .inr rfl
    · omega

theorem divHalfEven_mono {m n : Nat} (den : Nat) (h : m ≤ n) :
    divHalfEven m den ≤ divHalfEven n den := by
  have hq := Nat.div_le_div_right (c := den) h
  rcases Nat.lt_or_eq_of_le hq with hlt | heq
  · rcases divHalfEven_cases m den with hm | hm <;> rcases divHalfEven_cases n den with hn | hn <;>
      omega
  · have hm := Nat.div_add_mod m den
    have hn := Nat.div_add_mod n den
    rw [heq] at hm
    have hr : m % den ≤ n % den := by omega
    unfold divHalfEven
    dsimp only
    rw [heq]
    split_ifs <;> omega

/-! ### Rounding a natural number -/

/-- A number of `l + 1` bits, scaled to 53 of them, as a fraction. -/
theorem scaleDown_eq (n l : Nat) :
    scaleDown n 1 ((l : Int) - 52) =
      if 52 ≤ l then (n, 2 ^ (l - 52)) else (n * 2 ^ (52 - l), 1) := by
  unfold scaleDown
  by_cases h : 52 ≤ l
  · rw [if_pos h, if_pos (show (0 : Int) ≤ (l : Int) - 52 by omega), Nat.one_shiftLeft]
    rw [show ((l : Int) - 52).toNat = l - 52 by omega]
  · rw [if_neg h, if_neg (show ¬(0 : Int) ≤ (l : Int) - 52 by omega), Nat.shiftLeft_eq]
    rw [show (-((l : Int) - 52)).toNat = 52 - l by omega]

/-- The mantissa of a number of `l + 1` bits, rounded to 53 of them. -/
def mantissaAt (l n : Nat) : Nat :=
  if 52 ≤ l then divHalfEven n (2 ^ (l - 52)) else divHalfEven (n * 2 ^ (52 - l)) 1

theorem mantissaAt_mono (l : Nat) {m n : Nat} (h : m ≤ n) : mantissaAt l m ≤ mantissaAt l n := by
  unfold mantissaAt
  split
  · exact divHalfEven_mono _ h
  · exact divHalfEven_mono _ (Nat.mul_le_mul_right _ h)

/-- The integer part of a number of `l + 1` bits that is scaled to 53 of them. -/
theorem quotient_bounds {l n : Nat} (hl : 2 ^ l ≤ n) (hu : n < 2 ^ (l + 1)) :
    (52 ≤ l → 2 ^ 52 ≤ n / 2 ^ (l - 52) ∧ n / 2 ^ (l - 52) < 2 ^ 53) ∧
      (l < 52 → 2 ^ 52 ≤ n * 2 ^ (52 - l) ∧ n * 2 ^ (52 - l) < 2 ^ 53) := by
  constructor
  · intro h
    have hpos : 0 < 2 ^ (l - 52) := Nat.two_pow_pos _
    rw [Nat.le_div_iff_mul_le hpos, Nat.div_lt_iff_lt_mul hpos, ← Nat.pow_add, ← Nat.pow_add]
    rw [show 52 + (l - 52) = l by omega, show 53 + (l - 52) = l + 1 by omega]
    exact ⟨hl, hu⟩
  · intro h
    have hlow := Nat.mul_le_mul_right (2 ^ (52 - l)) hl
    have hhigh := Nat.mul_lt_mul_of_pos_right hu (Nat.two_pow_pos (52 - l))
    rw [← Nat.pow_add] at hlow hhigh
    rw [show l + (52 - l) = 52 by omega] at hlow
    rw [show l + 1 + (52 - l) = 53 by omega] at hhigh
    exact ⟨hlow, hhigh⟩

theorem mantissaAt_bounds {l n : Nat} (hl : 2 ^ l ≤ n) (hu : n < 2 ^ (l + 1)) :
    2 ^ 52 ≤ mantissaAt l n ∧ mantissaAt l n ≤ 2 ^ 53 := by
  obtain ⟨hlarge, hsmall⟩ := quotient_bounds hl hu
  unfold mantissaAt
  split
  · rename_i h
    have := hlarge h
    rcases divHalfEven_cases n (2 ^ (l - 52)) with hd | hd <;> omega
  · rename_i h
    have := hsmall (Nat.not_le.mp h)
    have hone := Nat.div_one (n * 2 ^ (52 - l))
    rcases divHalfEven_cases (n * 2 ^ (52 - l)) 1 with hd | hd <;> omega

/-- The low bits of the double nearest to a positive number. -/
theorem nearestBits_of_pos {n : Nat} (hn : 0 < n) :
    nearestBits n 1 = min infiniteBits ((n.log2 + 1022) * 2 ^ 52 + mantissaAt n.log2 n) := by
  have hl := Nat.log2_self_le (Nat.pos_iff_ne_zero.mp hn)
  have hu := Nat.lt_log2_self (n := n)
  have hbounds := mantissaAt_bounds hl hu
  obtain ⟨hlarge, hsmall⟩ := quotient_bounds hl hu
  -- the quotient has all of its 53 bits, so that the exponent is not lowered
  have hexponent : mantissaExponent n 1 = (n.log2 : Int) - 52 := by
    have hone : Nat.log2 1 = 0 := by decide
    unfold mantissaExponent
    simp only [hone, Nat.cast_zero, sub_zero, scaleDown_eq]
    by_cases h : 52 ≤ n.log2
    · have := hlarge h
      simp only [if_pos h]
      rw [if_neg (by omega), minExponent]
      omega
    · have := hsmall (Nat.not_le.mp h)
      simp only [if_neg h, Nat.div_one]
      rw [if_neg (by omega), minExponent]
      omega
  unfold nearestBits
  rw [if_neg (Nat.pos_iff_ne_zero.mp hn), hexponent]
  dsimp only
  rw [scaleDown_eq]
  have hmantissa : ¬mantissaAt n.log2 n < 1 <<< 52 := by
    rw [Nat.one_shiftLeft]
    omega
  have hbits : ((n.log2 : Int) - 52 + 1075).toNat <<< 52 + (mantissaAt n.log2 n - 1 <<< 52) =
      (n.log2 + 1022) * 2 ^ 52 + mantissaAt n.log2 n := by
    rw [Nat.shiftLeft_eq, Nat.one_shiftLeft]
    omega
  rw [← hbits]
  unfold mantissaAt at hmantissa ⊢
  by_cases h : 52 ≤ n.log2
  · rw [if_pos h] at hmantissa ⊢
    simp only [if_pos h]
    exact if_neg hmantissa
  · rw [if_neg h] at hmantissa ⊢
    simp only [if_neg h]
    exact if_neg hmantissa

theorem nearestBits_le (n : Nat) : nearestBits n 1 ≤ infiniteBits := by
  rcases Nat.eq_zero_or_pos n with rfl | hn
  · exact Nat.zero_le _
  · rw [nearestBits_of_pos hn]
    exact Nat.min_le_left _ _

/-- Rounding keeps the order. -/
theorem nearestBits_mono {m n : Nat} (h : m ≤ n) : nearestBits m 1 ≤ nearestBits n 1 := by
  rcases Nat.eq_zero_or_pos m with rfl | hm
  · exact Nat.zero_le _
  have hn : 0 < n := Nat.lt_of_lt_of_le hm h
  rw [nearestBits_of_pos hm, nearestBits_of_pos hn]
  refine min_le_min le_rfl ?_
  have hbm := mantissaAt_bounds (Nat.log2_self_le (Nat.pos_iff_ne_zero.mp hm)) Nat.lt_log2_self
  have hbn := mantissaAt_bounds (Nat.log2_self_le (Nat.pos_iff_ne_zero.mp hn)) Nat.lt_log2_self
  have hlog : m.log2 ≤ n.log2 := by
    rw [Nat.le_log2 (Nat.pos_iff_ne_zero.mp hn)]
    exact (Nat.log2_self_le (Nat.pos_iff_ne_zero.mp hm)).trans h
  rcases Nat.lt_or_eq_of_le hlog with hlt | heq
  · omega
  · rw [heq]
    exact Nat.add_le_add_left (mantissaAt_mono _ h) _

theorem divHalfEven_one (n : Nat) : divHalfEven n 1 = n := by
  simp [divHalfEven, Nat.mod_one]

theorem log2_le_of_lt {n : Nat} (h : n < 2 ^ 53) : n.log2 ≤ 52 := by
  rcases Nat.eq_zero_or_pos n with rfl | hn
  · decide
  · exact Nat.lt_succ_iff.mp ((Nat.log2_lt (Nat.pos_iff_ne_zero.mp hn)).mpr h)

/-- A number of up to 53 bits is not rounded. -/
theorem mantissaAt_of_lt {n : Nat} (h : n < 2 ^ 53) :
    mantissaAt n.log2 n = n * 2 ^ (52 - n.log2) := by
  have hlog := log2_le_of_lt h
  unfold mantissaAt
  split
  · rw [show n.log2 = 52 by omega, Nat.sub_self, Nat.pow_zero, divHalfEven_one, Nat.mul_one]
  · rw [divHalfEven_one]

/-- Up to 53 bits, rounding keeps numbers apart. -/
theorem nearestBits_lt {m n : Nat} (h : m < n) (hm : m < 2 ^ 53) :
    nearestBits m 1 < nearestBits n 1 := by
  have hinf := infiniteBits_eq
  have hn : 0 < n := Nat.zero_lt_of_lt h
  have hbn := mantissaAt_bounds (Nat.log2_self_le (Nat.pos_iff_ne_zero.mp hn)) Nat.lt_log2_self
  rw [nearestBits_of_pos hn]
  rcases Nat.eq_zero_or_pos m with rfl | hm0
  · rw [show nearestBits 0 1 = 0 from rfl]
    omega
  have hmlog := log2_le_of_lt hm
  have hlog : m.log2 ≤ n.log2 := by
    rw [Nat.le_log2 (Nat.pos_iff_ne_zero.mp hn)]
    exact (Nat.log2_self_le (Nat.pos_iff_ne_zero.mp hm0)).trans h.le
  have hscale : m * 2 ^ (52 - m.log2) < 2 ^ 53 := by
    have := Nat.mul_lt_mul_of_pos_right (Nat.lt_log2_self (n := m)) (Nat.two_pow_pos (52 - m.log2))
    rwa [← Nat.pow_add, show m.log2 + 1 + (52 - m.log2) = 53 by omega] at this
  rw [nearestBits_of_pos hm0, mantissaAt_of_lt hm]
  rcases Nat.lt_or_eq_of_le hlog with hlt | heq
  · omega
  · have hn53 : n < 2 ^ 53 := by
      refine (Nat.lt_log2_self (n := n)).trans_le (Nat.pow_le_pow_right (by decide) ?_)
      omega
    have hmn := Nat.mul_lt_mul_of_pos_right h (Nat.two_pow_pos (52 - m.log2))
    rw [mantissaAt_of_lt hn53, ← heq]
    omega

/-! ### Rounding an integer -/

/-- The bits of the double nearest to an integer, with its sign. -/
def bitsOfInt (n : Int) : Int := signed (n < 0) (nearestBits n.natAbs 1)

theorem bitsOfInt_mono {a b : Int} (h : a ≤ b) : bitsOfInt a ≤ bitsOfInt b := by
  unfold bitsOfInt
  by_cases ha : a < 0 <;> by_cases hb : b < 0
  · have := nearestBits_mono (show b.natAbs ≤ a.natAbs by omega)
    simp only [ha, hb, decide_true, signed_true]
    omega
  · simp only [ha, hb, decide_true, decide_false, signed_true, signed_false]
    omega
  · omega
  · have := nearestBits_mono (show a.natAbs ≤ b.natAbs by omega)
    simp only [ha, hb, decide_false, signed_false]
    omega

/-- Integers of up to 53 bits stay apart. -/
theorem bitsOfInt_lt {a b : Int} (h : a < b) (ha : a.natAbs ≤ 2 ^ 53) (hb : b.natAbs ≤ 2 ^ 53) :
    bitsOfInt a < bitsOfInt b := by
  unfold bitsOfInt
  by_cases ha' : a < 0 <;> by_cases hb' : b < 0
  · have := nearestBits_lt (show b.natAbs < a.natAbs by omega) (by omega)
    simp only [ha', hb', decide_true, signed_true]
    omega
  · have := nearestBits_lt (show 0 < a.natAbs by omega) (by decide)
    simp only [ha', hb', decide_true, decide_false, signed_true, signed_false]
    omega
  · omega
  · have := nearestBits_lt (show a.natAbs < b.natAbs by omega) (by omega)
    simp only [ha', hb', decide_false, signed_false]
    omega

/-- What keeps the order, if not strictly, may make things equal, but never turns them around. -/
theorem compare_eq_or_eq {α : Type} [LinearOrder α] {p q : α} {i j : Int} (hle : p ≤ q → i ≤ j)
    (hge : q ≤ p → j ≤ i) : compare i j = compare p q ∨ compare i j = .eq := by
  rcases lt_trichotomy p q with h | rfl | h
  · rw [compare_lt_iff_lt.mpr h, compare_lt_iff_lt, compare_eq_iff_eq]
    exact (hle h.le).lt_or_eq
  · exact .inr (compare_eq_iff_eq.mpr (le_antisymm (hle le_rfl) (hge le_rfl)))
  · rw [compare_gt_iff_gt.mpr h, compare_gt_iff_gt, compare_eq_iff_eq]
    exact (hge h.le).lt_or_eq.imp id Eq.symm

/-- The doubles nearest to integers compare as their bits do. -/
theorem order?_ofInt (a b : Int) :
    order? (ofInt a) (ofInt b) = some (compare (bitsOfInt a) (bitsOfInt b)) :=
  order?_withSign _ _ (nearestBits_le _) (nearestBits_le _)

end TolerantExpr.Binary64
