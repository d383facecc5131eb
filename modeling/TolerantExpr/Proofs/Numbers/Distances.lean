import TolerantExpr.Proofs.Numbers.Doubles

/-!
# The distance of two doubles

The difference of two doubles changes its sign only when they change places: rounding and the bits
of a double treat the sign on its own. So the distance of two doubles is the same from either side,
NaN included.
-/

namespace TolerantExpr.Binary64

open Float.Model Float.Model.UnpackedFloat

/-! ### Rounding -/

theorem abs_roundWithAccuracy (f : Format) (s : Sign) (m : Nat) (e : Int) (a : Accuracy) :
    (roundWithAccuracy f s m e a).abs = (roundWithAccuracy f .positive m e a).abs := by
  unfold roundWithAccuracy
  dsimp only
  split <;> rfl

theorem abs_round (f : Format) (s : Sign) (m : Nat) (e : Int) :
    (round f s m e).abs = (round f .positive m e).abs :=
  abs_roundWithAccuracy _ _ _ _ _

theorem abs_normalize_neg (f : Format) (m e : Int) (s : Sign) :
    (UnpackedFloat.normalize f (-m) e s).abs = (UnpackedFloat.normalize f m e s).abs := by
  unfold UnpackedFloat.normalize
  rcases lt_trichotomy m 0 with h | rfl | h
  · rw [compare_lt_iff_lt.mpr h, compare_gt_iff_gt.mpr (Int.neg_pos.mpr h)]
    exact (abs_round ..).symm
  · rfl
  · rw [compare_gt_iff_gt.mpr h, compare_lt_iff_lt.mpr (Int.neg_neg_of_pos h), Int.neg_neg]
    exact abs_round ..

/-! ### Bits -/

/-- Bits that agree but for the sign have the same magnitude. -/
theorem abs_unpack_packComponents (f : Format) (s : Sign) (e : BitVec f.exponentBits)
    (m : BitVec f.mantissaBitsWithoutImplicit) :
    (UnpackedFloat.unpack f (packComponents f s e m)).abs =
      (UnpackedFloat.unpack f (packComponents f .positive e m)).abs := by
  unfold UnpackedFloat.unpack
  simp only [unpackMantissa_packComponents, unpackExponent_packComponents]
  by_cases htop : e = -1#_
  · by_cases hm : m = 0#_
    · rw [if_pos htop, if_pos htop, if_pos hm, if_pos hm]
      rfl
    · rw [if_pos htop, if_pos htop, if_neg hm, if_neg hm]
  · by_cases hbottom : e = 0#_
    · by_cases hm : m = 0#_
      · rw [if_neg htop, if_neg htop, if_pos hbottom, if_pos hbottom, dif_pos hm, dif_pos hm]
        rfl
      · rw [if_neg htop, if_neg htop, if_pos hbottom, if_pos hbottom, dif_neg hm, dif_neg hm]
        rfl
    · rw [if_neg htop, if_neg htop, if_neg hbottom, if_neg hbottom]
      rfl

/-- The bits of a double keep the magnitude of what they are made from. -/
theorem abs_unpack_pack (f : Format) (u : UnpackedFloat) :
    (UnpackedFloat.unpack f (UnpackedFloat.pack f u)).abs =
      (UnpackedFloat.unpack f (UnpackedFloat.pack f u.abs)).abs := by
  cases u with
  | notANumber => rfl
  | infinity s => exact abs_unpack_packComponents ..
  | zero s => exact abs_unpack_packComponents ..
  | finite s m e hm =>
    rw [UnpackedFloat.abs, UnpackedFloat.pack, UnpackedFloat.pack]
    split
    · exact abs_unpack_packComponents ..
    · split
      · exact abs_unpack_packComponents ..
      · exact abs_unpack_packComponents ..

/-! ### Differences -/

theorem abs_sub_swap (f : Format) (a b : UnpackedFloat) : (sub f a b).abs = (sub f b a).abs := by
  cases a with
  | notANumber => cases b <;> rfl
  | infinity s =>
    cases b with
    | infinity t => cases s <;> cases t <;> rfl
    | _ => rfl
  | zero s =>
    cases b with
    | zero t => cases s <;> cases t <;> rfl
    | _ => rfl
  | finite s m d hm =>
    cases b with
    | finite t n e hn =>
      unfold UnpackedFloat.sub
      dsimp only
      rw [min_comm e d, ← Int.neg_sub, abs_normalize_neg]
    | _ => rfl

/-- The distance of two doubles is the same from either side. -/
theorem abs_sub_comm (x y : Float) : (x - y).abs = (y - x).abs := by
  have hunpacked : (Float.Model.unpack (x.toModel - y.toModel)).abs =
      (Float.Model.unpack (y.toModel - x.toModel)).abs := by
    change (UnpackedFloat.unpack _ (UnpackedFloat.pack _ (sub _ _ _))).abs =
      (UnpackedFloat.unpack _ (UnpackedFloat.pack _ (sub _ _ _))).abs
    rw [abs_unpack_pack, abs_sub_swap, ← abs_unpack_pack]
  change Float.ofModel (Float.Model.pack (Float.Model.unpack (x.toModel - y.toModel)).abs) =
    Float.ofModel (Float.Model.pack (Float.Model.unpack (y.toModel - x.toModel)).abs)
  rw [hunpacked]

/-- Doubles are equal to each other from either side. -/
theorem beq_comm (x y : Float) : (x == y) = (y == x) := by
  rw [Bool.eq_iff_iff, beq_iff, beq_iff, order?_swap x y]
  cases order? x y with
  | none => rfl
  | some o => cases o <;> simp

end TolerantExpr.Binary64
