import TolerantExpr.Proofs.Numbers.Integers

/-!
# The exact values of doubles

A double that is not NaN is a whole number of the least double above zero, or infinite. How many of
them it is grows strictly with its bits, so doubles are ordered as their exact values are. The
double nearest to an integer may lie on either side of it, but no double lies between the two.
-/

namespace TolerantExpr

/-- The exact numbers, with an infinity at either end. -/
abbrev Exact := WithBot (WithTop ℚ)

/-- A rational number as an exact one. -/
def Exact.ofRat (q : ℚ) : Exact := ((q : WithTop ℚ) : WithBot (WithTop ℚ))

namespace Exact

@[simp] theorem ofRat_le_ofRat {p q : ℚ} : ofRat p ≤ ofRat q ↔ p ≤ q := by
  rw [ofRat, ofRat, WithBot.coe_le_coe, WithTop.coe_le_coe]

@[simp] theorem ofRat_lt_ofRat {p q : ℚ} : ofRat p < ofRat q ↔ p < q := by
  rw [ofRat, ofRat, WithBot.coe_lt_coe, WithTop.coe_lt_coe]

@[simp] theorem ofRat_lt_top (q : ℚ) : ofRat q < ⊤ :=
  WithBot.coe_lt_coe.mpr (WithTop.coe_lt_top q)

@[simp] theorem bot_lt_ofRat (q : ℚ) : ⊥ < ofRat q := WithBot.bot_lt_coe _

end Exact

namespace Binary64

open Float.Model

/-- The exact value of a double; NaN has none. -/
def value? : Binary64 → Option Exact
  | nan => none
  | infinite negative => some (if negative then ⊥ else ⊤)
  | finite negative mantissa exponent =>
    let magnitude : ℚ := mantissa * 2 ^ exponent
    some (.ofRat (if negative then -magnitude else magnitude))

/-! ### The magnitude that bits stand for -/

/-- How many times the least double above zero goes into one. -/
@[irreducible] def one : Nat := 2 ^ (-minExponent).toNat

theorem one_eq : one = 2 ^ 52 * 2 ^ 1022 := by
  have hexponent : (-minExponent).toNat = 52 + 1022 := by decide
  unfold one
  rw [hexponent]
  exact pow_add 2 52 1022

theorem one_pos : 0 < one := by
  unfold one
  exact Nat.two_pow_pos _

/-- The magnitude that low bits stand for, in units of the least double above zero. The bits of
infinity go on as if there was one exponent more. -/
def units (n : Nat) : Nat :=
  if n / 2 ^ 52 = 0 then n % 2 ^ 52 else (2 ^ 52 + n % 2 ^ 52) * 2 ^ (n / 2 ^ 52 - 1)

theorem units_of_lt {n : Nat} (h : n < 2 ^ 52) : units n = n := by
  unfold units
  rw [if_pos (Nat.div_eq_of_lt h), Nat.mod_eq_of_lt h]

/-- A mantissa that is rounded up to 54 bits has the bits of the next exponent. -/
theorem units_at (e : Nat) {q : Nat} (hlow : 2 ^ 52 ≤ q) (hhigh : q ≤ 2 ^ 53) :
    units (e * 2 ^ 52 + q) = q * 2 ^ e := by
  unfold units
  rcases Nat.lt_or_eq_of_le hhigh with hlt | rfl
  · rw [show (e * 2 ^ 52 + q) / 2 ^ 52 = e + 1 by omega, if_neg (Nat.succ_ne_zero e),
      show 2 ^ 52 + (e * 2 ^ 52 + q) % 2 ^ 52 = q by omega, Nat.add_sub_cancel]
  · rw [show (e * 2 ^ 52 + 2 ^ 53) / 2 ^ 52 = e + 2 by omega, if_neg (Nat.succ_ne_zero _),
      show 2 ^ 52 + (e * 2 ^ 52 + 2 ^ 53) % 2 ^ 52 = 2 ^ 52 by omega,
      show e + 2 - 1 = e + 1 by omega, Nat.pow_succ 2 e]
    ring

theorem units_strictMono : StrictMono units := by
  refine strictMono_nat_of_lt_succ fun n => ?_
  by_cases hsmall : n < 2 ^ 52
  · rw [units_of_lt hsmall]
    by_cases hnext : n + 1 < 2 ^ 52
    · rw [units_of_lt hnext]
      exact Nat.lt_succ_self n
    · have := units_at 0 (show 2 ^ 52 ≤ n + 1 by omega) (by omega)
      rw [Nat.zero_mul, Nat.zero_add, Nat.pow_zero, Nat.mul_one] at this
      omega
  · obtain ⟨e, q, hlow, hhigh, rfl⟩ : ∃ e q, 2 ^ 52 ≤ q ∧ q < 2 ^ 53 ∧ n = e * 2 ^ 52 + q :=
      ⟨n / 2 ^ 52 - 1, 2 ^ 52 + n % 2 ^ 52, by omega, by omega, by omega⟩
    rw [Nat.add_assoc, units_at e hlow hhigh.le, units_at e (by omega) hhigh]
    exact Nat.mul_lt_mul_of_pos_right (Nat.lt_succ_self q) (Nat.two_pow_pos e)

/-! ### Rounding an integer passes no double -/

theorem divHalfEven_of_mod {num den : Nat} (hden : 0 < den) (h : num % den = 0) :
    divHalfEven num den = num / den := by
  unfold divHalfEven
  dsimp only
  rw [h, if_pos (by omega)]

/-- A number of `l + 1` bits as a fraction whose quotient has 53 bits: the fraction that is rounded
to the mantissa. -/
theorem exists_fraction {l n : Nat} (hl : 2 ^ l ≤ n) (hu : n < 2 ^ (l + 1)) :
    ∃ a d, 0 < d ∧ mantissaAt l n = divHalfEven a d ∧ n * 2 ^ 52 * d = a * 2 ^ l ∧
      2 ^ 52 ≤ a / d ∧ a / d < 2 ^ 53 := by
  obtain ⟨hlarge, hsmall⟩ := quotient_bounds hl hu
  unfold mantissaAt
  by_cases h : 52 ≤ l
  · refine ⟨n, 2 ^ (l - 52), Nat.two_pow_pos _, if_pos h, ?_, hlarge h⟩
    rw [Nat.mul_assoc, ← Nat.pow_add, Nat.add_sub_cancel' h]
  · refine ⟨n * 2 ^ (52 - l), 1, Nat.one_pos, if_neg h, ?_, ?_⟩
    · rw [Nat.mul_one, Nat.mul_assoc, ← Nat.pow_add, Nat.sub_add_cancel (by omega)]
    · rw [Nat.div_one]
      exact hsmall (Nat.not_le.mp h)

/-- The doubles on both sides of a positive number: rounding takes the lower one, or the upper one
if the lower one is not met. -/
theorem exists_neighbours {n : Nat} (hn : 0 < n) :
    ∃ k, units k ≤ n * one ∧ n * one < units (k + 1) ∧ (nearestBits n 1 = min infiniteBits k ∨
      units k ≠ n * one ∧ nearestBits n 1 = min infiniteBits (k + 1)) := by
  obtain ⟨a, d, hd, hmantissa, hscale, hlow, hhigh⟩ :=
    exists_fraction (Nat.log2_self_le (Nat.pos_iff_ne_zero.mp hn)) Nat.lt_log2_self
  -- the number in units, multiplied by the denominator of the fraction
  have hunits : n * one * d = a * 2 ^ (n.log2 + 1022) := by
    calc n * one * d
        = n * 2 ^ 52 * d * 2 ^ 1022 := by rw [one_eq, ← Nat.mul_assoc, Nat.mul_right_comm]
      _ = a * 2 ^ (n.log2 + 1022) := by rw [hscale, Nat.mul_assoc, ← Nat.pow_add]
  have hbits := nearestBits_of_pos hn
  generalize n.log2 + 1022 = e at hunits hbits
  have hbelow := units_at e hlow hhigh.le
  have habove := units_at e (q := a / d + 1) (by omega) hhigh
  have hquotient := Nat.div_mul_le_self a d
  refine ⟨e * 2 ^ 52 + a / d, ?_, ?_, ?_⟩
  · refine Nat.le_of_mul_le_mul_right ?_ hd
    rw [hunits, hbelow, Nat.mul_right_comm]
    exact Nat.mul_le_mul_right _ hquotient
  · refine Nat.lt_of_mul_lt_mul_right (a := d) ?_
    rw [hunits, Nat.add_assoc, habove, Nat.mul_right_comm, Nat.mul_comm _ d]
    exact Nat.mul_lt_mul_of_pos_right (Nat.lt_mul_div_succ a hd) (Nat.two_pow_pos e)
  rw [hbits, hmantissa]
  rcases divHalfEven_cases a d with h | h
  · exact .inl (by rw [h])
  · refine .inr ⟨fun hmet => ?_, by rw [h, Nat.add_assoc]⟩
    rw [hbelow] at hmet
    rw [← hmet, Nat.mul_right_comm] at hunits
    have hdvd := Nat.eq_of_mul_eq_mul_right (Nat.two_pow_pos e) hunits
    have hzero : a % d = 0 := by rw [← hdvd, Nat.mul_mod_left]
    rw [divHalfEven_of_mod hd hzero] at h
    omega

/-- A double that is not above a number is not above the double it is rounded to. -/
theorem le_nearestBits {n k : Nat} (hk : k ≤ infiniteBits) (h : units k ≤ n * one) :
    k ≤ nearestBits n 1 := by
  rcases Nat.eq_zero_or_pos n with rfl | hn
  · rw [Nat.zero_mul, ← units_of_lt (Nat.two_pow_pos 52), units_strictMono.le_iff_le] at h
    exact h.trans (Nat.zero_le _)
  · obtain ⟨j, -, habove, hbits⟩ := exists_neighbours hn
    have hkj := units_strictMono.lt_iff_lt.mp (h.trans_lt habove)
    rcases hbits with hbits | ⟨-, hbits⟩ <;> rw [hbits] <;> exact le_min hk (by omega)

/-- A double that is not below a number is not below the double it is rounded to. -/
theorem nearestBits_le_of_le {n k : Nat} (h : n * one ≤ units k) : nearestBits n 1 ≤ k := by
  rcases Nat.eq_zero_or_pos n with rfl | hn
  · exact Nat.zero_le _
  · obtain ⟨j, hbelow, -, hbits⟩ := exists_neighbours hn
    have hjk := units_strictMono.le_iff_le.mp (hbelow.trans h)
    rcases hbits with hbits | ⟨hne, hbits⟩
    · rw [hbits]
      exact (min_le_right _ _).trans hjk
    · rw [hbits]
      have hjk' := units_strictMono.lt_iff_lt.mp ((lt_of_le_of_ne hbelow hne).trans_le h)
      exact (min_le_right _ _).trans hjk'

/-! ### With the sign -/

/-- What low bits with a sign stand for, in units of the least double above zero. -/
def signedUnits (i : Int) : Int := signed (i < 0) (units i.natAbs)

theorem signed_natAbs (i : Int) : signed (i < 0) i.natAbs = i := by
  by_cases h : i < 0
  · simp only [h, decide_true, signed_true]
    omega
  · simp only [h, decide_false, signed_false]
    omega

theorem signed_neg {f : Nat → Nat} (hf : f 0 = 0) (i : Int) :
    signed (-i < 0) (f (-i).natAbs) = -signed (i < 0) (f i.natAbs) := by
  rw [Int.natAbs_neg]
  rcases lt_trichotomy i 0 with h | rfl | h
  · simp [signed, h, not_lt.mpr h.le]
  · simp [signed, hf]
  · simp [signed, h, not_lt.mpr h.le]

theorem signedUnits_neg (i : Int) : signedUnits (-i) = -signedUnits i :=
  signed_neg (units_of_lt (Nat.two_pow_pos 52)) i

theorem bitsOfInt_neg (n : Int) : bitsOfInt (-n) = -bitsOfInt n :=
  signed_neg (f := fun m => nearestBits m 1) rfl n

theorem signedUnits_natCast (n : Nat) : signedUnits n = units n := by
  simp [signedUnits, signed]

theorem signedUnits_signed (negative : Bool) (n : Nat) :
    signedUnits (signed negative n) = signed negative (units n) := by
  cases negative with
  | false => exact signedUnits_natCast n
  | true => rw [signed_true, signedUnits_neg, signedUnits_natCast, signed_true]

theorem signedUnits_strictMono : StrictMono signedUnits := by
  refine strictMono_of_odd_strictMonoOn_nonneg signedUnits_neg fun i hi j hj hij => ?_
  obtain ⟨m, rfl⟩ := Int.eq_ofNat_of_zero_le hi
  obtain ⟨n, rfl⟩ := Int.eq_ofNat_of_zero_le hj
  rw [signedUnits_natCast, signedUnits_natCast, Int.ofNat_lt]
  exact units_strictMono (Int.ofNat_lt.mp hij)

theorem mul_one_eq_signed (n : Int) : n * one = signed (n < 0) (n.natAbs * one) := by
  conv_lhs => rw [← signed_natAbs n]
  unfold signed
  split
  · rw [Nat.cast_mul, Int.neg_mul]
  · rw [Nat.cast_mul]

/-- The order that rounding keeps between magnitudes, it keeps with the signs. -/
theorem le_signed {i n : Int} {u v b : Nat} (hpos : n < 0 → 0 < u)
    (habove : 0 ≤ i → v ≤ u → i.natAbs ≤ b) (hbelow : u ≤ v → b ≤ i.natAbs)
    (h : signed (i < 0) v ≤ signed (n < 0) u) : i ≤ signed (n < 0) b := by
  by_cases hn : n < 0 <;> by_cases hi : i < 0 <;>
    simp only [hn, hi, decide_true, decide_false, signed_true, signed_false] at h ⊢ <;> omega

/-- A double that is not above an integer is not above the double it is rounded to. -/
theorem le_bitsOfInt {n i : Int} (hi : i ≤ infiniteBits) (h : signedUnits i ≤ n * one) :
    i ≤ bitsOfInt n := by
  rw [mul_one_eq_signed] at h
  refine le_signed (fun hn => ?_) (fun hi0 => le_nearestBits (by omega)) nearestBits_le_of_le h
  exact Nat.mul_pos (Int.natAbs_pos.mpr hn.ne) one_pos

/-- A double that is not below an integer is not below the double it is rounded to. -/
theorem bitsOfInt_le_of_le {n i : Int} (hi : -infiniteBits ≤ i) (h : n * one ≤ signedUnits i) :
    bitsOfInt n ≤ i := by
  have hneg := le_bitsOfInt (n := -n) (i := -i) (by omega) (by rw [signedUnits_neg]; linarith)
  rw [bitsOfInt_neg] at hneg
  omega

/-! ### The value of a double -/

/-- The exact value of the double with the given low bits and sign. -/
def exactOf (i : Int) : Exact :=
  if i = infiniteBits then ⊤ else if i = -infiniteBits then ⊥ else .ofRat (signedUnits i / one)

theorem cast_eq_units {m n : Nat} {e : Nat} (h : units n = m * 2 ^ e) :
    (m : ℚ) * 2 ^ ((e : Int) + minExponent) = (units n : Int) / one := by
  have htwo : (2 : ℚ) ≠ 0 := by decide
  have hmin : minExponent = -((-minExponent).toNat : Int) := by decide
  have hone : (one : ℚ) = 2 ^ (-minExponent).toNat := by
    unfold one
    exact Nat.cast_pow 2 _
  rw [h, hone, zpow_add₀ htwo, hmin, zpow_neg, zpow_natCast, zpow_natCast, Int.neg_neg,
    Int.toNat_natCast, Int.cast_natCast, Nat.cast_mul, Nat.cast_pow, Nat.cast_two, div_eq_mul_inv,
    mul_assoc]

theorem signed_ne_infiniteBits (negative : Bool) {n : Nat} (hn : n < infiniteBits) :
    signed negative n ≠ infiniteBits ∧ signed negative n ≠ -infiniteBits := by
  cases negative <;> simp only [signed_false, signed_true] <;> omega

theorem value?_finite {m n e : Nat} (negative : Bool) (hn : n < infiniteBits)
    (h : units n = m * 2 ^ e) :
    (finite negative m ((e : Int) + minExponent)).value? = some (exactOf (signed negative n)) := by
  obtain ⟨htop, hbot⟩ := signed_ne_infiniteBits negative hn
  unfold value? exactOf
  dsimp only
  rw [if_neg htop, if_neg hbot, cast_eq_units h, signedUnits_signed]
  cases negative <;> simp [neg_div]

/-- The exact value of a double from its bits. -/
theorem value?_of_toBits {x : Float} {negative : Bool} {n : Nat} (hn : n ≤ infiniteBits)
    (hx : x.toBits.toNat = signedBits negative n) :
    (ofFloat x).value? = some (exactOf (signed negative n)) := by
  have hinf := infiniteBits_eq
  have hsign : decide (x.toBits.toNat >>> 63 = 1) = negative := by
    rw [hx, Nat.shiftRight_eq_div_pow]
    cases negative <;> simp [signedBits] <;> omega
  have hfield : x.toBits.toNat >>> 52 % 2048 = n / 2 ^ 52 := by
    rw [hx, Nat.shiftRight_eq_div_pow]
    unfold signedBits
    split <;> omega
  have hfraction : x.toBits.toNat % (1 <<< 52) = n % 2 ^ 52 := by
    rw [hx, Nat.one_shiftLeft]
    unfold signedBits
    split <;> omega
  unfold ofFloat
  dsimp only
  rw [hsign, hfield, hfraction]
  split
  · obtain rfl : n = infiniteBits := by omega
    rw [if_pos (by decide)]
    cases negative <;> rfl
  have hlt : n < infiniteBits := by omega
  split
  · have hsmall : n < 2 ^ 52 := by omega
    have hunits : units n = n * 2 ^ 0 := by rw [units_of_lt hsmall, Nat.pow_zero, Nat.mul_one]
    rw [Nat.mod_eq_of_lt hsmall]
    have hvalue := value?_finite negative hlt hunits
    rwa [Nat.cast_zero, Int.zero_add] at hvalue
  · rename_i hfull
    have hunits : units n = (2 ^ 52 + n % 2 ^ 52) * 2 ^ (n / 2 ^ 52 - 1) := if_neg hfull
    have hvalue := value?_finite negative hlt hunits
    rwa [show ((n / 2 ^ 52 - 1 : Nat) : Int) + minExponent = (n / 2 ^ 52 : Nat) - 1075 by
      rw [minExponent]
      omega, ← Nat.one_shiftLeft] at hvalue

/-- A double with the given low bits, which count with the sign; both zeros have none set. -/
def HasBits (x : Float) (i : Int) : Prop :=
  ∃ negative n, n ≤ infiniteBits ∧ x.toBits.toNat = signedBits negative n ∧ i = signed negative n

namespace HasBits

variable {x y : Float} {i j : Int}

theorem value? (h : HasBits x i) : (ofFloat x).value? = some (exactOf i) := by
  obtain ⟨negative, n, hn, hx, rfl⟩ := h
  exact value?_of_toBits hn hx

theorem le (h : HasBits x i) : -infiniteBits ≤ i ∧ i ≤ infiniteBits := by
  obtain ⟨negative, n, hn, -, rfl⟩ := h
  cases negative <;> simp only [signed_false, signed_true] <;> omega

/-- Doubles are ordered as their bits are. -/
theorem order? (hx : HasBits x i) (hy : HasBits y j) :
    Binary64.order? x y = some (compare i j) := by
  have hdecodes {z : Float} {negative : Bool} {n : Nat} (hn : n ≤ infiniteBits)
      (hz : z.toBits.toNat = signedBits negative n) :
      Decodes (sign negative) n z.toModel.unpack := by
    have h := decodes_unpack negative hn
    rw [← hz] at h
    change Decodes _ n (UnpackedFloat.unpack Format.binary64 (BitVec.ofNat 64
      z.toModel.toBits.toBitVec.toNat)) at h
    rwa [BitVec.ofNat_toNat, BitVec.setWidth_eq] at h
  obtain ⟨a, m, hm, hx, rfl⟩ := hx
  obtain ⟨b, n, hn, hy, rfl⟩ := hy
  exact compare_of_decodes (hdecodes hm hx) (hdecodes hn hy)

end HasBits

/-- Every double that is not NaN has bits. -/
theorem exists_hasBits {x : Float} {p : Exact} (h : (ofFloat x).value? = some p) :
    ∃ i, HasBits x i ∧ p = exactOf i := by
  have hinf := infiniteBits_eq
  have hlt : x.toBits.toNat < 2 ^ 64 := x.toBits.toNat_lt
  have hbits : HasBits x (signed (2 ^ 63 ≤ x.toBits.toNat) (x.toBits.toNat % 2 ^ 63)) := by
    refine ⟨_, _, ?_, ?_, rfl⟩
    · by_contra hnan
      have hfield : x.toBits.toNat >>> 52 % 2048 = 2047 := by
        rw [Nat.shiftRight_eq_div_pow]
        omega
      have hfraction : x.toBits.toNat % (1 <<< 52) ≠ 0 := by
        rw [Nat.one_shiftLeft]
        omega
      unfold ofFloat at h
      dsimp only at h
      rw [if_pos hfield, if_neg hfraction] at h
      cases h
    · unfold signedBits
      simp only [decide_eq_true_eq]
      split <;> omega
  exact ⟨_, hbits, Option.some.inj (h.symm.trans hbits.value?)⟩

/-- A double that is made from bits has them. -/
theorem hasBits_withSign (negative : Bool) {n : Nat} (hn : n ≤ infiniteBits) :
    HasBits (withSign negative n) (signed negative n) := by
  refine ⟨negative, n, hn, ?_, rfl⟩
  have hbits : (UInt64.ofNat (if negative then 1 <<< 63 + n else n)).toBitVec =
      BitVec.ofNat 64 (signedBits negative n) := by
    rw [signedBits]
    rfl
  change (UnpackedFloat.pack Format.binary64 (UnpackedFloat.unpack Format.binary64
    (UInt64.ofNat _).toBitVec)).toNat = _
  rw [hbits, pack_of_decodes (decodes_unpack negative hn)]
  exact (BitVec.toNat_ofNat _ 64).trans (Nat.mod_eq_of_lt (signedBits_lt negative hn))

theorem hasBits_ofInt (n : Int) : HasBits (ofInt n) (bitsOfInt n) :=
  hasBits_withSign _ (nearestBits_le _)

/-! ### Order of the values -/

theorem cast_one_pos : (0 : ℚ) < one := Nat.cast_pos.mpr one_pos

/-- Exact values are ordered as the bits are. -/
theorem exactOf_strictMonoOn :
    StrictMonoOn exactOf (Set.Icc (-infiniteBits : Int) infiniteBits) := by
  intro i hi j hj hij
  have hi' : i ≠ infiniteBits := (hij.trans_le hj.2).ne
  have hj' : j ≠ -infiniteBits := (hi.1.trans_lt hij).ne'
  have hunits : (signedUnits i : ℚ) / one < signedUnits j / one :=
    div_lt_div_of_pos_right (Int.cast_lt.mpr (signedUnits_strictMono hij)) cast_one_pos
  unfold exactOf
  rw [if_neg hi', if_neg hj']
  split_ifs
  · exact WithBot.bot_lt_coe _
  · exact Exact.bot_lt_ofRat _
  · exact Exact.ofRat_lt_top _
  · exact Exact.ofRat_lt_ofRat.mpr hunits

/-- Rounding passes no double: one whose value is not above an integer stays so. -/
theorem le_bitsOfInt_of_exactOf {n i : Int} (hi : -infiniteBits ≤ i ∧ i ≤ infiniteBits)
    (h : exactOf i ≤ .ofRat n) : i ≤ bitsOfInt n := by
  unfold exactOf at h
  split_ifs at h with htop hbot
  · exact absurd (Exact.ofRat_lt_top _) (not_lt.mpr h)
  · rw [hbot]
    exact (hasBits_ofInt n).le.1
  · rw [Exact.ofRat_le_ofRat, div_le_iff₀ cast_one_pos] at h
    exact le_bitsOfInt hi.2 (by exact_mod_cast h)

/-- One whose value is not below an integer stays so. -/
theorem bitsOfInt_le_of_exactOf {n i : Int} (hi : -infiniteBits ≤ i ∧ i ≤ infiniteBits)
    (h : .ofRat n ≤ exactOf i) : bitsOfInt n ≤ i := by
  unfold exactOf at h
  split_ifs at h with htop hbot
  · rw [htop]
    exact (hasBits_ofInt n).le.2
  · exact absurd (Exact.bot_lt_ofRat _) (not_lt.mpr h)
  · rw [Exact.ofRat_le_ofRat, le_div_iff₀ cast_one_pos] at h
    exact bitsOfInt_le_of_le hi.1 (by exact_mod_cast h)

/-! ### Integers that doubles denote -/

/-- An integer that a double denotes is rounded to it. -/
theorem bitsOfInt_eq_of_exactOf {n i : Int} (hi : -infiniteBits ≤ i ∧ i ≤ infiniteBits)
    (h : exactOf i = .ofRat n) : bitsOfInt n = i :=
  le_antisymm (bitsOfInt_le_of_exactOf hi h.ge) (le_bitsOfInt_of_exactOf hi h.le)

theorem mantissaAt_mul_pow {n : Nat} (h : n ≤ 2 ^ 53) :
    mantissaAt n.log2 n * 2 ^ n.log2 = n * 2 ^ 52 := by
  rcases Nat.lt_or_eq_of_le h with hlt | rfl
  · rw [mantissaAt_of_lt hlt, Nat.mul_assoc, ← Nat.pow_add,
      Nat.sub_add_cancel (log2_le_of_lt hlt)]
  · decide

theorem nearestBits_lt_infiniteBits {n : Nat} (h : n ≤ 2 ^ 53) :
    nearestBits n 1 < infiniteBits :=
  (nearestBits_mono h).trans_lt (by decide)

/-- A number of up to 53 bits is met. -/
theorem units_nearestBits {n : Nat} (h : n ≤ 2 ^ 53) : units (nearestBits n 1) = n * one := by
  rcases Nat.eq_zero_or_pos n with rfl | hn
  · rw [Nat.zero_mul]
    exact units_of_lt (Nat.two_pow_pos 52)
  obtain ⟨hlow, hhigh⟩ :=
    mantissaAt_bounds (Nat.log2_self_le (Nat.pos_iff_ne_zero.mp hn)) Nat.lt_log2_self
  have hlt := nearestBits_lt_infiniteBits h
  have hscale := mantissaAt_mul_pow h
  rw [nearestBits_of_pos hn] at hlt ⊢
  rw [min_eq_right (by omega), units_at _ hlow hhigh, pow_add, ← Nat.mul_assoc, hscale, one_eq]
  exact Nat.mul_assoc _ _ _

/-- Integers of up to 53 bits are values of doubles. -/
theorem value?_ofInt {n : Int} (h : n.natAbs ≤ 2 ^ 53) :
    (ofFloat (ofInt n)).value? = some (.ofRat n) := by
  have hunits : signedUnits (bitsOfInt n) = n * one := by
    rw [bitsOfInt, signedUnits_signed, units_nearestBits h, mul_one_eq_signed]
  have hfinite : bitsOfInt n ≠ infiniteBits ∧ bitsOfInt n ≠ -infiniteBits :=
    signed_ne_infiniteBits _ (nearestBits_lt_infiniteBits h)
  obtain ⟨htop, hbot⟩ := hfinite
  rw [(hasBits_ofInt n).value?, exactOf, if_neg htop, if_neg hbot, hunits, Int.cast_mul,
    Int.cast_natCast, mul_div_cancel_right₀ _ cast_one_pos.ne']

end Binary64
end TolerantExpr
