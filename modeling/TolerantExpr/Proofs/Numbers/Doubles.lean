import TolerantExpr.Number.Basic
import Mathlib

/-!
# How doubles compare

The order of doubles, in terms of the one function that decides all comparisons of them, and of the
bits that a double is made from: the low 63 bits are ordered as the magnitudes are, so that with
the sign they are ordered as the doubles are.
-/

namespace TolerantExpr.Binary64

open Float.Model Float.Model.UnpackedFloat

/-! ### One comparison decides all -/

/-- How two doubles compare; NaN compares with nothing. -/
def order? (x y : Float) : Option Ordering := x.toModel.unpack.compare y.toModel.unpack

theorem lt_iff {x y : Float} : x < y ↔ order? x y = some .lt := by
  change Float.lt x y = true ↔ _
  unfold Float.lt
  rw [decide_eq_true_iff]
  change (x.toModel.unpack.compare y.toModel.unpack == some .lt) = true ↔ _
  rw [beq_iff_eq]
  rfl

theorem beq_iff {x y : Float} : (x == y) = true ↔ order? x y = some .eq := by
  change (x.toModel.unpack.compare y.toModel.unpack == some .eq) = true ↔ _
  rw [beq_iff_eq]
  rfl

theorem le_iff {x y : Float} : x ≤ y ↔ order? x y = some .lt ∨ order? x y = some .eq := by
  change Float.le x y = true ↔ _
  unfold Float.le
  rw [decide_eq_true_iff]
  change (x.toModel.unpack.compare y.toModel.unpack).any Ordering.isLE = true ↔ _
  unfold order?
  cases x.toModel.unpack.compare y.toModel.unpack with
  | none => simp
  | some o => cases o <;> simp [Ordering.isLE]

private theorem lexicographic_swap (d e : Int) (m n : Nat) :
    (compare e d).then (compare n m) = ((compare d e).then (compare m n)).swap := by
  rw [Ordering.swap_then, Int.compare_swap, Nat.compare_swap]

private theorem compare_swap (a b : UnpackedFloat) :
    b.compare a = (a.compare b).map Ordering.swap := by
  cases a with
  | notANumber =>
    cases b with
    | infinity t => cases t <;> rfl
    | finite t => cases t <;> rfl
    | _ => rfl
  | infinity s =>
    cases b with
    | infinity t => cases s <;> cases t <;> rfl
    | _ => cases s <;> rfl
  | zero s =>
    cases b with
    | infinity t => cases t <;> rfl
    | finite t => cases t <;> rfl
    | _ => rfl
  | finite s d m =>
    cases b with
    | infinity t => cases s <;> cases t <;> rfl
    | finite t e n =>
      cases s <;> cases t
      · exact congrArg some (congrArg Ordering.swap (lexicographic_swap _ _ _ _))
      · rfl
      · rfl
      · exact congrArg some (lexicographic_swap _ _ _ _)
    | _ => cases s <;> rfl

theorem order?_swap (x y : Float) : order? y x = (order? x y).map Ordering.swap :=
  compare_swap _ _

/-! ### Bits -/

/-- The sign of a double. -/
def sign (negative : Bool) : Sign := if negative then .negative else .positive

/-- The 64 bits of a double, from its sign and the other ones. -/
def signedBits (negative : Bool) (n : Nat) : Nat := if negative then 2 ^ 63 + n else n

/-- What the low bits `n` stand for: infinity, zero, or a mantissa of up to 53 bits with an
exponent, where only the least exponent comes with fewer bits. -/
inductive Decodes (s : Sign) : Nat → UnpackedFloat → Prop where
  | infinity : Decodes s infiniteBits (.infinity s)
  | zero : Decodes s 0 (.zero s)
  | finite {n m : Nat} {e : Int} (h : 0 < m) (hn : (n : Int) = (e + 1074) * 2 ^ 52 + m)
    (hm : m < 2 ^ 53) (he : -1074 ≤ e) (full : e = -1074 ∨ 2 ^ 52 ≤ m) (hlt : n < infiniteBits) :
    Decodes s n (.finite s m e h)

section Fields

variable (b : BitVec 64)

theorem unpackMantissa_toNat :
    (@unpackMantissa Format.binary64 b).toNat = b.toNat % 2 ^ 52 := by
  simp [unpackMantissa]

theorem unpackExponent_toNat :
    (@unpackExponent Format.binary64 b).toNat = b.toNat / 2 ^ 52 % 2 ^ 11 := by
  simp [unpackExponent, Nat.shiftRight_eq_div_pow]

theorem unpackSign_toNat :
    (@unpackSign Format.binary64 b).toNat = b.toNat / 2 ^ 63 := by
  have hb : b.toNat < 2 ^ 64 := b.isLt
  simp [unpackSign, Nat.shiftRight_eq_div_pow]
  omega

end Fields

theorem infiniteBits_eq : infiniteBits = 2047 * 2 ^ 52 := by decide

theorem sign_ofBitVec {v : BitVec 1} {negative : Bool} (h : v.toNat = if negative then 1 else 0) :
    Sign.ofBitVec v = sign negative := by
  cases negative with
  | false =>
    obtain rfl : v = 0#1 := BitVec.eq_of_toNat_eq h
    rfl
  | true =>
    obtain rfl : v = 1#1 := BitVec.eq_of_toNat_eq h
    rfl

theorem signedBits_lt (negative : Bool) {n : Nat} (hn : n ≤ infiniteBits) :
    signedBits negative n < 2 ^ 64 := by
  have hinf := infiniteBits_eq
  unfold signedBits
  split <;> omega

/-- The fields of a double with a sign and low bits. -/
theorem fields_of_signedBits {negative : Bool} {n : Nat} (hn : n ≤ infiniteBits) {b : BitVec 64}
    (hb : b.toNat = signedBits negative n) :
    (@unpackMantissa Format.binary64 b).toNat = n % 2 ^ 52 ∧
      (@unpackExponent Format.binary64 b).toNat = n / 2 ^ 52 ∧
      Sign.ofBitVec (@unpackSign Format.binary64 b) = sign negative := by
  have hinf := infiniteBits_eq
  refine ⟨?_, ?_, sign_ofBitVec ?_⟩
  · rw [unpackMantissa_toNat, hb]
    unfold signedBits
    split <;> omega
  · rw [unpackExponent_toNat, hb]
    unfold signedBits
    split <;> omega
  · rw [unpackSign_toNat, hb]
    unfold signedBits
    split <;> omega

/-- The bits of a double are decoded field by field. -/
theorem decodes_unpack (negative : Bool) {n : Nat} (hn : n ≤ infiniteBits) :
    Decodes (sign negative) n
      (UnpackedFloat.unpack Format.binary64 (BitVec.ofNat 64 (signedBits negative n))) := by
  have hinf := infiniteBits_eq
  generalize hb : BitVec.ofNat 64 (signedBits negative n) = b
  have hnat : b.toNat = signedBits negative n := by
    rw [← hb, BitVec.toNat_ofNat, Nat.mod_eq_of_lt (signedBits_lt negative hn)]
  obtain ⟨hmantissa, hexponent, hsign⟩ := fields_of_signedBits hn hnat
  have hbias : Format.binary64.exponentBias = 1023 := rfl
  unfold UnpackedFloat.unpack
  dsimp only
  rw [hsign]
  by_cases htop : @unpackExponent Format.binary64 b = -1#11
  · have hn' : n = infiniteBits := by
      rw [htop] at hexponent
      change 2047 = n / 2 ^ 52 at hexponent
      omega
    have hzero : @unpackMantissa Format.binary64 b = 0#52 := by
      apply BitVec.eq_of_toNat_eq
      rw [hmantissa, hn', hinf]
      rfl
    rw [if_pos htop, if_pos hzero, hn']
    exact .infinity
  rw [if_neg htop]
  have hlt : n < infiniteBits := by
    refine Nat.lt_of_le_of_ne hn fun hn' => htop (BitVec.eq_of_toNat_eq ?_)
    rw [hexponent, hn', hinf]
    rfl
  by_cases hbottom : @unpackExponent Format.binary64 b = 0#11
  · have hsmall : n < 2 ^ 52 := by
      rw [hbottom] at hexponent
      change 0 = n / 2 ^ 52 at hexponent
      omega
    rw [if_pos hbottom]
    split
    · rename_i hzero
      have hn' : n = 0 := by
        rw [hzero] at hmantissa
        change 0 = n % 2 ^ 52 at hmantissa
        omega
      subst hn'
      exact .zero
    · refine .finite _ ?_ ?_ ?_ ?_ hlt <;> simp only [hmantissa, hexponent, hbias] <;> omega
  · have hfield : n / 2 ^ 52 ≠ 0 := fun h => hbottom (BitVec.eq_of_toNat_eq (hexponent.trans h))
    have himplicit : (1#1 ++ @unpackMantissa Format.binary64 b).toNat =
        2 ^ 52 + n % 2 ^ 52 := by
      rw [BitVec.toNat_append, hmantissa, ← Nat.shiftLeft_add_eq_or_of_lt (by omega)]
      rfl
    rw [if_neg hbottom]
    refine .finite _ ?_ ?_ ?_ ?_ hlt <;> simp only [himplicit, hexponent, hbias] <;> omega

theorem packComponents_eq (negative : Bool) (e : BitVec 11) (m : BitVec 52) :
    packComponents Format.binary64 (sign negative) e m =
      BitVec.ofNat 64 (signedBits negative (e.toNat * 2 ^ 52 + m.toNat)) := by
  have he := e.isLt
  have hm := m.isLt
  apply BitVec.eq_of_toNat_eq
  change ((sign negative).toBitVec ++ e ++ m).toNat = _
  rw [BitVec.toNat_append, BitVec.toNat_append, ← Nat.shiftLeft_add_eq_or_of_lt he,
    ← Nat.shiftLeft_add_eq_or_of_lt hm, Nat.shiftLeft_eq, Nat.shiftLeft_eq]
  refine Eq.trans ?_ (BitVec.toNat_ofNat _ 64).symm
  have hsign : (sign negative).toBitVec.toNat = if negative then 1 else 0 := by
    cases negative <;> rfl
  rw [hsign]
  unfold signedBits
  split <;> omega

/-- Packing puts the bits together again. -/
theorem pack_of_decodes {negative : Bool} {n : Nat} {u : UnpackedFloat}
    (h : Decodes (sign negative) n u) :
    UnpackedFloat.pack Format.binary64 u = BitVec.ofNat 64 (signedBits negative n) := by
  cases h with
  | infinity => exact packComponents_eq negative _ _
  | zero => exact packComponents_eq negative _ _
  | @finite _ m e h hn hm he full hlt =>
    have hinf := infiniteBits_eq
    have hbiased : (e + (Format.binary64.exponentBias : Int) + (52 : Nat)).toNat =
        (e + 1075).toNat := by
      change (e + 1023 + 52).toNat = _
      omega
    have hfits : ¬2 ^ 11 ≤ (e + 1075).toNat + 1 := by omega
    unfold UnpackedFloat.pack
    dsimp only
    rw [hbiased, if_neg hfits]
    split
    · rename_i hlog
      have hfull : 2 ^ 52 ≤ m := by
        change m.log2 + 1 = 53 at hlog
        have := Nat.log2_self_le (Nat.pos_iff_ne_zero.mp h)
        rwa [show m.log2 = 52 by omega] at this
      have hbits : (BitVec.ofNat 11 (e + 1075).toNat).toNat * 2 ^ 52 + (BitVec.ofNat 52 m).toNat =
          n := by
        rw [BitVec.toNat_ofNat, BitVec.toNat_ofNat]
        omega
      rw [← hbits]
      exact packComponents_eq negative _ _
    · rename_i hlog
      have hsmall : m < 2 ^ 52 := by
        by_contra hge
        refine hlog ?_
        change m.log2 + 1 = 53
        have hlow := (Nat.le_log2 (Nat.pos_iff_ne_zero.mp h)).mpr (Nat.not_lt.mp hge)
        have hhigh := (Nat.log2_lt (Nat.pos_iff_ne_zero.mp h)).mpr hm
        omega
      have hbits : (0#11).toNat * 2 ^ 52 + (BitVec.ofNat 52 m).toNat = n := by
        rw [BitVec.toNat_ofNat, BitVec.toNat_ofNat]
        omega
      rw [← hbits]
      exact packComponents_eq negative _ _

/-- What a double that is made from bits denotes. -/
theorem decodes_withSign (negative : Bool) {n : Nat} (hn : n ≤ infiniteBits) :
    Decodes (sign negative) n (withSign negative n).toModel.unpack := by
  have h := decodes_unpack negative hn
  have hbits : (UInt64.ofNat (if negative then 1 <<< 63 + n else n)).toBitVec =
      BitVec.ofNat 64 (signedBits negative n) := by
    rw [signedBits]
    rfl
  change Decodes _ n (UnpackedFloat.unpack Format.binary64 (UnpackedFloat.pack Format.binary64
    (UnpackedFloat.unpack Format.binary64 (UInt64.ofNat _).toBitVec)))
  rw [hbits, pack_of_decodes h]
  exact h

/-! ### Order -/

/-- The low bits with the sign. -/
def signed (negative : Bool) (n : Nat) : Int := if negative then -(n : Int) else n

@[simp] theorem signed_false (n : Nat) : signed false n = n := rfl

@[simp] theorem signed_true (n : Nat) : signed true n = -(n : Int) := rfl

/-- Exponents and mantissas are compared as the bits that they come from. -/
private theorem compare_finite {d e : Int} {m n j k : Nat}
    (hj : (j : Int) = (d + 1074) * 2 ^ 52 + m) (hm : m < 2 ^ 53) (hd : d = -1074 ∨ 2 ^ 52 ≤ m)
    (hk : (k : Int) = (e + 1074) * 2 ^ 52 + n) (hn : n < 2 ^ 53) (he : e = -1074 ∨ 2 ^ 52 ≤ n)
    (hd' : -1074 ≤ d) (he' : -1074 ≤ e) :
    (compare d e).then (compare m n) = compare (j : Int) k := by
  rcases lt_trichotomy d e with h | rfl | h
  · rw [compare_lt_iff_lt.mpr h, compare_lt_iff_lt.mpr (show (j : Int) < k by omega)]
    rfl
  · rw [compare_eq_iff_eq.mpr (rfl : d = d)]
    rcases lt_trichotomy m n with h | rfl | h
    · rw [compare_lt_iff_lt.mpr h, compare_lt_iff_lt.mpr (show (j : Int) < k by omega)]
      rfl
    · rw [compare_eq_iff_eq.mpr (rfl : m = m), compare_eq_iff_eq.mpr (show (j : Int) = k by omega)]
      rfl
    · rw [compare_gt_iff_gt.mpr h, compare_gt_iff_gt.mpr (show (k : Int) < j by omega)]
      rfl
  · rw [compare_gt_iff_gt.mpr h, compare_gt_iff_gt.mpr (show (k : Int) < j by omega)]
    rfl

private theorem eq_some_compare {o : Option Ordering} {i j : Int}
    (h : o = some .lt ∧ i < j ∨ o = some .eq ∧ i = j ∨ o = some .gt ∧ j < i) :
    o = some (compare i j) := by
  rcases h with ⟨rfl, h⟩ | ⟨rfl, h⟩ | ⟨rfl, h⟩
  · rw [compare_lt_iff_lt.mpr h]
  · rw [compare_eq_iff_eq.mpr h]
  · rw [compare_gt_iff_gt.mpr h]

/-- Doubles are ordered as their bits are. -/
theorem compare_of_decodes {a b : Bool} {j k : Nat} {u v : UnpackedFloat}
    (hu : Decodes (sign a) j u) (hv : Decodes (sign b) k v) :
    u.compare v = some (compare (signed a j) (signed b k)) := by
  have hinf := infiniteBits_eq
  cases hu with
  | infinity =>
    cases hv <;> cases a <;> cases b <;> refine eq_some_compare ?_ <;>
      simp [UnpackedFloat.compare, sign, compare] <;> omega
  | zero =>
    cases hv <;> cases a <;> cases b <;> refine eq_some_compare ?_ <;>
      simp [UnpackedFloat.compare, sign] <;> omega
  | @finite _ m d _ hj hm hd hdm hjlt =>
    cases hv with
    | infinity =>
      cases a <;> cases b <;> refine eq_some_compare ?_ <;>
        simp [UnpackedFloat.compare, sign] <;> omega
    | zero =>
      cases a <;> cases b <;> refine eq_some_compare ?_ <;>
        simp [UnpackedFloat.compare, sign] <;> omega
    | @finite _ n e _ hk hn he hen hklt =>
      have hsame := compare_finite hj hm hdm hk hn hen hd he
      cases a <;> cases b
      · exact congrArg some hsame
      · exact eq_some_compare (.inr (.inr ⟨rfl, by rw [signed_false, signed_true]; omega⟩))
      · exact eq_some_compare (.inl ⟨rfl, by rw [signed_false, signed_true]; omega⟩)
      · refine (congrArg (some ∘ Ordering.swap) hsame).trans (eq_some_compare ?_)
        rw [Function.comp_apply, Int.compare_swap, signed_true, signed_true]
        rcases lt_trichotomy (j : Int) k with h | h | h
        · exact .inr (.inr ⟨congrArg some (compare_gt_iff_gt.mpr h), by omega⟩)
        · exact .inr (.inl ⟨congrArg some (compare_eq_iff_eq.mpr h.symm), by omega⟩)
        · exact .inl ⟨congrArg some (compare_lt_iff_lt.mpr h), by omega⟩

/-- Doubles made from bits are ordered as the bits are. -/
theorem order?_withSign (a b : Bool) {j k : Nat} (hj : j ≤ infiniteBits) (hk : k ≤ infiniteBits) :
    order? (withSign a j) (withSign b k) = some (compare (signed a j) (signed b k)) :=
  compare_of_decodes (decodes_withSign a hj) (decodes_withSign b hk)

end TolerantExpr.Binary64
