import TolerantExpr.Evaluation.Operation
import Mathlib.Data.Rat.Floor

/-!
# Shifts of integers as arithmetic

A shift to the left multiplies by a power of two, reduced to 64 bits with a sign, and a shift to the
right divides by one and rounds down. No amount is an exception: from 64 places on nothing but the
sign is left, whether or not the amount is still a word of 32 bits, and a negative amount is one
shift the other way, also the least one, whose opposite is out of range.
-/

namespace TolerantExpr

namespace Shift

/-- What a shift by a number of places makes of an integer: to the left the product with a power of
two, reduced to 64 bits with a sign, to the right the quotient, rounded down. -/
def scale (op : Shift) (v : Int) (places : Nat) : Int :=
  match op with
  | left => (v * 2 ^ places).bmod (2 ^ 64)
  | right => ⌊(v : ℚ) / 2 ^ places⌋

theorem scale_right (v : Int) (places : Nat) : right.scale v places = v / 2 ^ places := by
  have h := Rat.floor_intCast_div_natCast v (2 ^ places)
  push_cast at h
  exact h

/-! ### Places within an integer -/

section Within

variable {i : Nat} (hi : i < 64)

include hi

/-- A number of places below 64 is not reduced. -/
theorem toNat_smod_ofNat : ((Int64.ofNat i).toBitVec.smod 64).toNat = i := by
  revert i
  decide

theorem toInt_shiftLeft (n : Int64) : (n <<< Int64.ofNat i).toInt = left.scale n.toInt i := by
  change (n <<< Int64.ofNat i).toBitVec.toInt = (n.toBitVec.toInt * 2 ^ i).bmod (2 ^ 64)
  rw [Int64.toBitVec_shiftLeft, BitVec.shiftLeft_eq', toNat_smod_ofNat hi, BitVec.toInt_shiftLeft,
    Nat.shiftLeft_eq, BitVec.toInt_eq_toNat_bmod, Int.bmod_mul_bmod]
  push_cast
  rfl

theorem toInt_shiftRight (n : Int64) : (n >>> Int64.ofNat i).toInt = right.scale n.toInt i := by
  rw [scale_right]
  change (n >>> Int64.ofNat i).toBitVec.toInt = n.toBitVec.toInt / 2 ^ i
  rw [Int64.toBitVec_shiftRight, BitVec.sshiftRight_eq', toNat_smod_ofNat hi,
    BitVec.toInt_sshiftRight, Int.shiftRight_eq_div_pow]
  push_cast
  rfl

end Within

/-! ### Places beyond it -/

/-- Nothing but the sign is left when all bits are moved out. -/
theorem scale_of_le (op : Shift) (n : Int64) {places : Nat} (h : 64 ≤ places) :
    op.scale n.toInt places = (op.fill n).toInt := by
  cases op with
  | left =>
    have hdvd : (2 : Int) ^ 64 ∣ n.toInt * 2 ^ places :=
      Dvd.dvd.mul_left (pow_dvd_pow 2 h) _
    exact Int.bmod_eq_zero_of_dvd hdvd
  | right =>
    have hpow : (2 : Int) ^ 64 ≤ 2 ^ places := pow_le_pow_right₀ (by decide) h
    have hmin := n.le_toInt
    have hmax := n.toInt_lt
    rw [scale_right, fill]
    split
    · rename_i hneg
      rw [Int64.lt_iff_toInt_lt, Int64.toInt_zero] at hneg
      exact Int.ediv_eq_neg_one_of_neg_of_le hneg (by omega)
    · rename_i hneg
      rw [Int64.lt_iff_toInt_lt, Int64.toInt_zero] at hneg
      exact Int.ediv_eq_zero_of_lt (by omega) (by omega)

/-- The checked move, with what it falls back to. -/
theorem toInt_move? (op : Shift) (n : Int64) (places : UInt32) :
    ((op.move? n places).getD (op.fill n)).toInt = op.scale n.toInt places.toNat := by
  unfold move?
  split
  · rename_i hlt
    rw [UInt32.lt_iff_toNat_lt] at hlt
    cases op with
    | left => exact toInt_shiftLeft hlt n
    | right => exact toInt_shiftRight hlt n
  · rename_i hlt
    rw [UInt32.lt_iff_toNat_lt] at hlt
    exact (op.scale_of_le n (Nat.not_lt.mp hlt)).symm

/-! ### Amounts -/

/-- An amount that is not negative takes effect at once. -/
theorem onIntegers_of_nonneg (op : Shift) (n : Int64) {k : Int64} (hk : 0 ≤ k) :
    op.onIntegers n k = ((places? k).bind (op.move? n)).getD (op.fill n) := by
  rw [onIntegers, dif_neg (Int64.not_lt.mpr hk)]

/-- A negative amount is turned round, and is no longer negative then. -/
theorem onIntegers_of_neg (op : Shift) (n : Int64) {k : Int64} (hk : k < 0) :
    op.onIntegers n k = op.reverse.onIntegers n (negated k) ∧ 0 ≤ negated k := by
  refine ⟨?_, Int64.not_lt.mp (not_negated_neg hk)⟩
  rw [onIntegers, dif_pos hk]

theorem toInt_onIntegers (op : Shift) (n : Int64) {k : Int64} (hk : 0 ≤ k) :
    (op.onIntegers n k).toInt = op.scale n.toInt k.toInt.natAbs := by
  have hnonneg : 0 ≤ k.toInt := Int64.le_iff_toInt_le.mp hk
  rw [onIntegers_of_nonneg op n hk, places?]
  split
  · rename_i hword
    have hplaces : (UInt32.ofNat k.toInt.toNat).toNat = k.toInt.natAbs := by
      rw [UInt32.toNat_ofNat_of_lt' (show k.toInt.toNat < UInt32.size by omega)]
      omega
    rw [Option.bind_some, toInt_move?, hplaces]
  · have hsize : UInt32.size = 2 ^ 32 := rfl
    rw [Option.bind_none, Option.getD_none, op.scale_of_le n (by omega)]

/-- The opposite of an amount moves by as many places, or by so many that nothing is left in either
case. -/
theorem scale_negated (op : Shift) (n : Int64) {k : Int64} (hk : k < 0) :
    op.scale n.toInt (negated k).toInt.natAbs = op.scale n.toInt k.toInt.natAbs := by
  have hneg : k.toInt < 0 := Int64.lt_iff_toInt_lt.mp hk
  have hnegated := toInt_negated hk
  have hmax : Int64.maxValue.toInt = 2 ^ 63 - 1 := rfl
  by_cases hfits : -k.toInt ≤ Int64.maxValue.toInt
  · rw [hnegated, min_eq_left hfits, Int.natAbs_neg]
  · rw [op.scale_of_le n (by omega), op.scale_of_le n (by omega)]

end Shift

namespace Evaluation

open Shift (places? negated)

/-- A shift of an integer by an integer always has a result. To the left it is the product with a
power of two, reduced to 64 bits with a sign, to the right the quotient, rounded down, and a
negative amount stands for the other direction. It is found at once if the amount is not negative,
and by one shift the other way, the amount of which is not negative, if it is. -/
theorem shift_integers (op : Shift) (v k : Int64) :
    (∃ r : Int64, shift op (.int v) (.int k) = .ok (.int r) ∧
      (0 ≤ k → r.toInt = op.scale v.toInt k.toInt.natAbs) ∧
      (k < 0 → r.toInt = op.reverse.scale v.toInt k.toInt.natAbs)) ∧
    (0 ≤ k → op.onIntegers v k = ((places? k).bind (op.move? v)).getD (op.fill v)) ∧
    (k < 0 → op.onIntegers v k = op.reverse.onIntegers v (negated k) ∧ 0 ≤ negated k) := by
  refine ⟨⟨op.onIntegers v k, rfl, op.toInt_onIntegers v, fun hk => ?_⟩,
    op.onIntegers_of_nonneg v, op.onIntegers_of_neg v⟩
  obtain ⟨hturned, hnonneg⟩ := op.onIntegers_of_neg v hk
  rw [hturned, op.reverse.toInt_onIntegers v hnonneg, op.reverse.scale_negated v hk]

/-- The sign bit moved in and out, an amount that is no word of 32 bits, and the least amount. -/
theorem shift_integers_boundaries :
    ((0 : Int64) ≤ 63 ∧ ∃ r : Int64, shift .left (.int 3) (.int 63) = .ok (.int r) ∧
      r.toInt = -2 ^ 63) ∧
    ((0 : Int64) ≤ 4294967296 ∧ ∃ r : Int64, shift .left (.int 1) (.int 4294967296) = .ok (.int r) ∧
      r.toInt = 0) ∧
    (Int64.minValue < 0 ∧ ∃ r : Int64,
      shift .left (.int Int64.minValue) (.int Int64.minValue) = .ok (.int r) ∧ r.toInt = -1) := by
  have hin : (0 : Int64) ≤ 63 := by decide
  have hbeyond : (0 : Int64) ≤ 4294967296 := by decide
  have hleast : Int64.minValue < 0 := by decide
  obtain ⟨⟨r, hr, hvalue, -⟩, -⟩ := shift_integers .left 3 63
  obtain ⟨⟨s, hs, hzero, -⟩, -⟩ := shift_integers .left 1 4294967296
  obtain ⟨⟨t, ht, -, hsign⟩, -⟩ := shift_integers .left Int64.minValue Int64.minValue
  exact ⟨⟨hin, r, hr, hvalue hin⟩,
    ⟨hbeyond, s, hs, (hzero hbeyond).trans (Shift.scale_of_le .left 1 (by decide))⟩,
    ⟨hleast, t, ht, (hsign hleast).trans (Shift.scale_of_le .right Int64.minValue (by decide))⟩⟩

end Evaluation
end TolerantExpr
