import TolerantExpr.Value.Bytes
import Mathlib.Tactic.Ring

/-!
# Byte sequences as numbers

A byte sequence of length `n` writes a number of `8 * n` bits, its first byte on top. Shifting it
towards the front multiplies the number by a power of two and drops what goes beyond the length;
shifting it towards the back divides, without a remainder.
-/

namespace TolerantExpr.Bytes

/-- The number that the bits of a sequence write, the most significant one first. -/
def toNat : Bytes → Nat
  | [] => 0
  | b :: bs => b.toNat * 2 ^ (8 * bs.length) + toNat bs

/-! ### Numbers of sequences -/

variable {bs : Bytes} {s : Nat}

theorem toNat_lt (bs : Bytes) : bs.toNat < 2 ^ (8 * bs.length) := by
  induction bs with
  | nil => exact Nat.one_pos
  | cons b bs ih =>
    calc toNat (b :: bs) < (b.toNat + 1) * 2 ^ (8 * bs.length) := by
          rw [toNat, Nat.add_one_mul b.toNat]
          exact Nat.add_lt_add_left ih _
      _ ≤ 2 ^ 8 * 2 ^ (8 * bs.length) := Nat.mul_le_mul_right _ b.toNat_lt
      _ = 2 ^ (8 * (b :: bs).length) := by rw [List.length_cons, Nat.mul_succ, Nat.pow_add']

theorem toNat_append (bs cs : Bytes) :
    toNat (bs ++ cs) = bs.toNat * 2 ^ (8 * cs.length) + cs.toNat := by
  induction bs with
  | nil => rw [List.nil_append, toNat, Nat.zero_mul, Nat.zero_add]
  | cons b bs ih =>
    rw [List.cons_append, toNat, toNat, ih, List.length_append, Nat.mul_add, Nat.pow_add]
    ring

theorem toNat_replicate_zero (n : Nat) : toNat (List.replicate n 0) = 0 := by
  induction n with
  | zero => rfl
  | succ n ih => rw [List.replicate_succ, toNat, ih, UInt8.toNat_zero, Nat.zero_mul]

/-- The first byte of a sequence holds what is left of the number behind the bits of the others. -/
theorem toNat_cons_div (b : UInt8) (bs : Bytes) :
    toNat (b :: bs) / 2 ^ (8 * bs.length) = b.toNat := by
  rw [toNat, Nat.add_comm, Nat.add_mul_div_right _ _ (Nat.two_pow_pos _),
    Nat.div_eq_of_lt (toNat_lt bs), Nat.zero_add]

theorem toNat_cons_mod (b : UInt8) (bs : Bytes) :
    toNat (b :: bs) % 2 ^ (8 * bs.length) = bs.toNat := by
  rw [toNat, Nat.mul_add_mod_self_right, Nat.mod_eq_of_lt (toNat_lt bs)]

/-- The first bytes of a sequence hold what is left after a division, the others the
remainder. -/
theorem toNat_take_drop (i : Nat) (bs : Bytes) :
    toNat (bs.take i) = bs.toNat / 2 ^ (8 * (bs.length - i)) ∧
      toNat (bs.drop i) = bs.toNat % 2 ^ (8 * (bs.length - i)) := by
  have hsplit := toNat_append (bs.take i) (bs.drop i)
  have hlt := toNat_lt (bs.drop i)
  rw [List.take_append_drop, List.length_drop] at hsplit
  rw [List.length_drop] at hlt
  rw [hsplit]
  constructor
  · rw [Nat.add_comm, Nat.add_mul_div_right _ _ (Nat.two_pow_pos _), Nat.div_eq_of_lt hlt,
      Nat.zero_add]
  · rw [Nat.mul_add_mod_self_right, Nat.mod_eq_of_lt hlt]

/-- A sequence is determined by its length and its number. -/
theorem eq_of_toNat_eq {bs cs : Bytes} (hlength : bs.length = cs.length)
    (h : bs.toNat = cs.toNat) : bs = cs := by
  induction bs generalizing cs with
  | nil => exact (List.eq_nil_of_length_eq_zero hlength.symm).symm
  | cons b bs ih =>
    obtain ⟨c, cs, rfl⟩ := List.exists_cons_of_length_eq_add_one hlength.symm
    rw [List.length_cons, List.length_cons, Nat.add_right_cancel_iff] at hlength
    have htop := toNat_cons_div b bs
    have hrest := toNat_cons_mod b bs
    rw [h, hlength] at htop hrest
    rw [toNat_cons_div] at htop
    rw [toNat_cons_mod] at hrest
    rw [UInt8.toNat_inj.mp htop, ih hlength hrest.symm]

/-- Nothing is left behind the bits of a sequence. -/
theorem toNat_div_eq_zero {k : Nat} (h : 8 * bs.length ≤ k) : bs.toNat / 2 ^ k = 0 :=
  Nat.div_eq_of_lt (Nat.lt_of_lt_of_le bs.toNat_lt (Nat.pow_le_pow_right (by decide) h))

/-- Nothing stays in a sequence whose bits all go beyond its length. -/
theorem toNat_mul_mod_eq_zero {k : Nat} (h : 8 * bs.length ≤ k) :
    bs.toNat * 2 ^ k % 2 ^ (8 * bs.length) = 0 :=
  Nat.mod_eq_zero_of_dvd (Dvd.dvd.mul_left (Nat.pow_dvd_pow 2 h) _)

/-! ### Carries -/

/-- A sequence that agrees with a number in its first byte and in the `n` others writes the
number, reduced to its length. -/
theorem toNat_cons_eq_mod {b : UInt8} {v n : Nat} (hn : bs.length = n)
    (hb : b.toNat = v / 2 ^ (8 * n) % 2 ^ 8) (hbs : bs.toNat = v % 2 ^ (8 * n)) :
    toNat (b :: bs) = v % 2 ^ (8 * (n + 1)) := by
  rw [toNat, hn, hb, hbs, Nat.mul_succ, Nat.pow_add, Nat.mod_mul, Nat.add_comm,
    Nat.mul_comm (2 ^ (8 * n))]

theorem toNat_carryLeft (hs : s ≤ 8) (bs : Bytes) :
    toNat (carryLeft s bs) = bs.toNat * 2 ^ s % 2 ^ (8 * bs.length) := by
  fun_induction carryLeft s bs with
  | case1 => simp [toNat]
  | case2 b => simp [toNat, Nat.shiftLeft_eq]
  | case3 b c bs ih =>
    have hvalue : toNat (b :: c :: bs) * 2 ^ s =
        toNat (c :: bs) * 2 ^ s + b.toNat * 2 ^ s * 2 ^ (8 * (c :: bs).length) := by
      rw [toNat]
      ring
    -- the bits that leave the rest of the sequence are the top bits of its first byte
    have hcarry : toNat (c :: bs) * 2 ^ s / 2 ^ (8 * (c :: bs).length) = c.toNat >>> (8 - s) := by
      have hlength : 8 * (c :: bs).length = 8 * bs.length + (8 - s) + s := by
        rw [List.length_cons]
        omega
      rw [hlength, Nat.pow_add, Nat.mul_div_mul_right _ _ (Nat.two_pow_pos s), Nat.pow_add,
        ← Nat.div_div_eq_div_mul, toNat_cons_div, Nat.shiftRight_eq_div_pow]
    refine toNat_cons_eq_mod (length_carryLeft s (c :: bs)) ?_ ?_
    · rw [hvalue, Nat.add_mul_div_right _ _ (Nat.two_pow_pos _), hcarry, UInt8.toNat_ofNat',
        Nat.shiftLeft_eq, Nat.add_comm]
    · rw [ih, hvalue, Nat.add_mul_mod_self_right]

/-- Shifting towards the back by less than a byte takes in the low bits of the byte in front. -/
theorem toNat_carryRight (hs : s ≤ 8) (a : UInt8) (bs : Bytes) :
    toNat (carryRight s a bs) = toNat (a :: bs) / 2 ^ s % 2 ^ (8 * bs.length) := by
  induction bs generalizing a with
  | nil => exact (Nat.mod_one _).symm
  | cons b bs ih =>
    have hvalue : toNat (a :: b :: bs) / 2 ^ s =
        toNat (b :: bs) / 2 ^ s + a.toNat * 2 ^ (8 - s) * 2 ^ (8 * bs.length) := by
      have hlength : 8 * (b :: bs).length = (8 - s) + 8 * bs.length + s := by
        rw [List.length_cons]
        omega
      rw [toNat, hlength, Nat.pow_add _ _ s, ← Nat.mul_assoc, Nat.add_comm,
        Nat.add_mul_div_right _ _ (Nat.two_pow_pos s), Nat.pow_add, Nat.mul_assoc]
    rw [carryRight]
    refine toNat_cons_eq_mod (length_carryRight s b bs) ?_ ?_
    · rw [hvalue, Nat.add_mul_div_right _ _ (Nat.two_pow_pos _), Nat.div_right_comm, toNat_cons_div,
        UInt8.toNat_ofNat', Nat.shiftLeft_eq, Nat.shiftRight_eq_div_pow, Nat.add_comm]
    · rw [ih, hvalue, Nat.add_mul_mod_self_right]

/-! ### Shifts -/

theorem toNat_shiftUp (bs : Bytes) (k : Nat) :
    toNat (bs.shiftUp k) = bs.toNat * 2 ^ k % 2 ^ (8 * bs.length) := by
  have hk := Nat.div_add_mod k 8
  have hlength := length_shiftUp bs k
  rw [shiftUp, length_carryLeft] at hlength
  rw [shiftUp, toNat_carryLeft (by omega), hlength, toNat_append, toNat_replicate_zero,
    (toNat_take_drop _ bs).2, List.length_replicate, Nat.add_zero]
  rcases Nat.le_total (k / 8) bs.length with hle | hge
  · rw [Nat.min_eq_left hle, ← Nat.mul_mod_mul_right, ← Nat.pow_add, ← Nat.mul_add,
      Nat.sub_add_cancel hle, Nat.mod_mul_mod, Nat.mul_assoc, ← Nat.pow_add, hk]
  · rw [Nat.min_eq_right hge, Nat.sub_eq_zero_of_le hge, Nat.mul_zero, Nat.pow_zero, Nat.mod_one,
      Nat.zero_mul, Nat.zero_mul, Nat.zero_mod, toNat_mul_mod_eq_zero (by omega)]

theorem toNat_shiftDown (bs : Bytes) (k : Nat) : toNat (bs.shiftDown k) = bs.toNat / 2 ^ k := by
  have hk := Nat.div_add_mod k 8
  have hlength := length_shiftDown bs k
  rw [shiftDown, length_carryRight] at hlength
  have hfront : toNat (List.replicate (min (k / 8) bs.length) 0 ++ bs.take (bs.length - k / 8)) =
      bs.toNat / 2 ^ (8 * (k / 8)) := by
    rw [toNat_append, toNat_replicate_zero, Nat.zero_mul, Nat.zero_add, (toNat_take_drop _ bs).1]
    rcases Nat.le_total (k / 8) bs.length with hle | hge
    · rw [Nat.sub_sub_self hle]
    · rw [Nat.sub_eq_zero_of_le hge, Nat.sub_zero, Nat.div_eq_of_lt bs.toNat_lt, toNat_div_eq_zero]
      omega
  rw [shiftDown, toNat_carryRight (by omega), hlength, toNat, UInt8.toNat_zero, Nat.zero_mul,
    Nat.zero_add, hfront, Nat.div_div_eq_div_mul, ← Nat.pow_add, hk]
  exact Nat.mod_eq_of_lt (Nat.lt_of_le_of_lt (Nat.div_le_self _ _) (toNat_lt bs))

/-! ### Amounts with a sign -/

/-- The opposite of an amount. The smallest one has none in 64 bits and goes over to the largest. -/
def opposite (k : Int64) : Int64 := if k = Int64.minValue then Int64.maxValue else -k

theorem toInt_opposite (k : Int64) :
    (opposite k).toInt = if k = Int64.minValue then 2 ^ 63 - 1 else -k.toInt := by
  unfold opposite
  split
  · rfl
  · rename_i h
    have hne : k.toInt ≠ -2 ^ 63 := fun heq => h (Int64.toInt_inj.mp heq)
    have hmin := k.le_toInt
    have hmax := k.toInt_lt
    rw [Int64.toInt_neg, Int.bmod_eq_of_le] <;> omega

theorem shiftDown_eq_of_le {j k : Nat} (hj : 8 * bs.length ≤ j) (hk : 8 * bs.length ≤ k) :
    bs.shiftDown j = bs.shiftDown k := by
  refine eq_of_toNat_eq (by simp) ?_
  rw [toNat_shiftDown, toNat_shiftDown, toNat_div_eq_zero hj, toNat_div_eq_zero hk]

theorem shiftUp_eq_of_le {j k : Nat} (hj : 8 * bs.length ≤ j) (hk : 8 * bs.length ≤ k) :
    bs.shiftUp j = bs.shiftUp k := by
  refine eq_of_toNat_eq (by simp) ?_
  rw [toNat_shiftUp, toNat_shiftUp, toNat_mul_mod_eq_zero hj, toNat_mul_mod_eq_zero hk]

/-- A negative amount shifts the other way by its opposite. No sequence in memory is so long that it
matters which amount the opposite of the smallest one is. -/
theorem shift_opposite {k : Int64} (hk : k < 0) (hlength : bs.length < 2 ^ 60) :
    0 ≤ opposite k ∧ bs.shiftLeft k = bs.shiftRight (opposite k) ∧
      bs.shiftRight k = bs.shiftLeft (opposite k) := by
  have hneg : k.toInt < 0 := Int64.lt_iff_toInt_lt.mp hk
  have hopposite := toInt_opposite k
  have hnonneg : 0 ≤ (opposite k).toInt := by
    rw [hopposite]
    split <;> omega
  have hnot : ¬opposite k < 0 := by
    rw [Int64.lt_iff_toInt_lt, Int64.toInt_zero]
    omega
  refine ⟨Int64.le_iff_toInt_le.mpr hnonneg, ?_⟩
  rw [shiftLeft, shiftLeft, shiftRight, shiftRight, if_pos hk, if_pos hk, if_neg hnot, if_neg hnot]
  by_cases hmin : k = Int64.minValue
  · have hbound : 8 * bs.length ≤ k.toInt.natAbs ∧ 8 * bs.length ≤ (opposite k).toInt.natAbs := by
      rw [hopposite, if_pos hmin, hmin, show Int64.minValue.toInt = -2 ^ 63 from rfl]
      omega
    exact ⟨shiftDown_eq_of_le hbound.1 hbound.2, shiftUp_eq_of_le hbound.1 hbound.2⟩
  · rw [hopposite, if_neg hmin, Int.natAbs_neg]
    exact ⟨rfl, rfl⟩

end TolerantExpr.Bytes
