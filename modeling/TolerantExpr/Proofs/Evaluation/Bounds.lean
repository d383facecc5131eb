import TolerantExpr.Tolerance
import TolerantExpr.Proofs.Numbers.Distances

/-!
# Bounds relax independently

Under a tolerance with several bounds a comparison holds exactly if it holds without bounds or under
one of them alone, where the two bounds of a pair count as one for equality. None of them changes
what another one allows, `>` and `≥` take no notice of slack above, `<` and `≤` of none below, and
equality is the same from either side.
-/

namespace TolerantExpr.Tolerance

/-- A tolerance of which only some bounds are left. -/
def only (t : Tolerance) (bounds : List Bound) : Tolerance where
  lower := if .lower ∈ bounds then t.lower else none
  upper := if .upper ∈ bounds then t.upper else none
  intLower := if .intLower ∈ bounds then t.intLower else none
  intUpper := if .intUpper ∈ bounds then t.intUpper else none
  proportional := if .proportional ∈ bounds then t.proportional else none

/-! ### What is not set -/

@[simp] theorem nearUnder_none (x y : Float) : nearUnder none none x y = false := rfl

@[simp] theorem holdsUnder_none (test : Float → Bool) : holdsUnder none test = false := rfl

/-! ### From either side -/

theorem near_comm (x y low high : Float) : near x y low high = near y x low high :=
  Bool.or_comm _ _

theorem nearUnder_comm (low high : Option Float) (x y : Float) :
    nearUnder low high x y = nearUnder low high y x := by
  rw [nearUnder, near_comm, ← nearUnder]

theorem equal_comm (t : Tolerance) (x y : Float) : t.equal x y = t.equal y x := by
  have hproportional (p : Float) :
      (decide ((x - y).abs ≤ p * y.abs) || decide ((x - y).abs ≤ p * x.abs)) =
        (decide ((y - x).abs ≤ p * x.abs) || decide ((y - x).abs ≤ p * y.abs)) := by
    rw [Binary64.abs_sub_comm x y, Bool.or_comm]
  unfold equal
  rw [Binary64.beq_comm x y, nearUnder_comm _ _ x y, nearUnder_comm _ _ (truncate x) (truncate y)]
  simp only [hproportional]

/-! ### One bound at a time -/

section

variable (t : Tolerance) (x y : Float) (orEqual : Bool)

theorem equal_only : t.equal x y =
    ((x == y) || (t.only [.lower, .upper]).equal x y ||
      (t.only [.intLower, .intUpper]).equal x y || (t.only [.proportional]).equal x y) := by
  cases hxy : x == y with
  | true => simp [equal, hxy]
  | false => simp [equal, only, hxy]

theorem greater_only : t.greater orEqual x y =
    (above orEqual x y || (t.only [.lower]).greater orEqual x y ||
      (t.only [.intLower]).greater orEqual x y ||
      (t.only [.proportional]).greater orEqual x y) := by
  cases hxy : above orEqual x y with
  | true => simp [greater, hxy]
  | false => simp [greater, only, hxy]

theorem less_only : t.less orEqual x y =
    (above orEqual y x || (t.only [.upper]).less orEqual x y ||
      (t.only [.intUpper]).less orEqual x y ||
      (t.only [.proportional]).less orEqual x y) := by
  cases hxy : above orEqual y x with
  | true => simp [less, hxy]
  | false => simp [less, only, hxy]

end

/-- A comparison holds under a tolerance exactly if it holds plainly or under one of its bounds
alone; the two bounds of a pair count as one for equality, which is the same from either side, while
`>` and `≥` depend on slack below and `<` and `≤` on slack above only. -/
theorem bounds_relax_independently (t : Tolerance) (x y : Float) :
    (t.equal x y =
        ((x == y) || (t.only [.lower, .upper]).equal x y ||
          (t.only [.intLower, .intUpper]).equal x y || (t.only [.proportional]).equal x y) ∧
      t.equal x y = t.equal y x) ∧
    ∀ orEqual,
      (t.greater orEqual x y =
          (above orEqual x y || (t.only [.lower]).greater orEqual x y ||
            (t.only [.intLower]).greater orEqual x y ||
            (t.only [.proportional]).greater orEqual x y) ∧
        ∀ upper intUpper,
          { t with upper, intUpper }.greater orEqual x y = t.greater orEqual x y) ∧
      (t.less orEqual x y =
          (above orEqual y x || (t.only [.upper]).less orEqual x y ||
            (t.only [.intUpper]).less orEqual x y ||
            (t.only [.proportional]).less orEqual x y) ∧
        ∀ lower intLower,
          { t with lower, intLower }.less orEqual x y = t.less orEqual x y) :=
  ⟨⟨equal_only t x y, equal_comm t x y⟩, fun orEqual =>
    ⟨⟨greater_only t x y orEqual, fun _ _ => rfl⟩, ⟨less_only t x y orEqual, fun _ _ => rfl⟩⟩⟩

end TolerantExpr.Tolerance
