import Mathlib
import Chiptune.Scalar

/-!
# Exact arithmetic

The real numbers as numbers that sound is computed in. Nothing is rounded, and only counts have an
end. `open Exact` makes the definitions of this library available for real numbers.
-/

namespace Chiptune.Exact

noncomputable scoped instance scalar : Scalar ℝ where
  decideLT := Classical.decRel (· < ·)
  decideLE := Classical.decRel (· ≤ ·)
  ofNat n := n
  ofDecimal d := d.digits / 10 ^ d.places
  pi := Real.pi
  sqrtHalf := √(1 / 2)
  sin := Real.sin
  cos := Real.cos
  arccos := Real.arccos
  pow x y := x ^ y
  fract := Int.fract
  toCount x := min ⌊x⌋₊ maxCount

/-- The whole numbers of this library are those of the reals. -/
theorem ofNat_eq (n : ℕ) : (Scalar.ofNat n : ℝ) = n := rfl

theorem zero_eq : (Scalar.ofNat 0 : ℝ) = 0 := Nat.cast_zero

theorem one_eq : (Scalar.ofNat 1 : ℝ) = 1 := Nat.cast_one

theorem least_eq (x y : ℝ) : Scalar.least x y = min x y := by
  unfold Scalar.least
  split
  · exact (min_eq_left (le_of_lt ‹_›)).symm
  · rw [if_pos le_rfl, min_eq_right (not_lt.mp ‹_›)]

theorem greatest_eq (x y : ℝ) : Scalar.greatest x y = max x y := by
  unfold Scalar.greatest
  split
  · exact (max_eq_left (le_of_lt ‹_›)).symm
  · rw [if_pos le_rfl, max_eq_right (not_lt.mp ‹_›)]

end Chiptune.Exact
