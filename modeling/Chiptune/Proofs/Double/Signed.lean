import Mathlib.Algebra.Order.Floor.Ring
import Chiptune.Proofs.Double.Monotone

/-!
# Finite doubles of either sign

A finite double stands for a rational number (`toRat?`), and comparing, negating, multiplying and
rounding down do what they do on that number.

* `le_iff_le`, `lt_iff_lt`: the order of doubles.
* `Rounded`: a number and the one that the nearest double stands for. It is monotone through zero
  (`Rounded.mono`).
* `toRat?_mul`: a product that does not overflow is rounded once.
* `floor_eq`: `Scalar.floor` is the floor, for negative numbers as well.
-/

namespace Chiptune.Double

open Float.Model Float.Model.UnpackedFloat

variable {x y : Float} {q r : ℚ} {s s' : Sign} {m m' : Nat} {e e' : Int}

/-! ## Signs -/

/-- A sign as a factor. -/
def factor : Sign → ℚ
  | .positive => 1
  | .negative => -1

theorem factor_mul (s s' : Sign) : factor (s * s') = factor s * factor s' := by
  cases s <;> cases s' <;> decide +kernel

theorem factor_neg (s : Sign) : factor (-s) = -factor s := by
  cases s <;> decide +kernel

theorem abs_factor_mul (s : Sign) (q : ℚ) : |factor s * q| = |q| := by
  cases s
  · rw [factor, neg_one_mul, abs_neg]
  · rw [factor, one_mul]

theorem value_zero (e : Int) : value 0 e = 0 := by rw [value, Nat.cast_zero, zero_mul]

/-- A finite double is a sign and a canonical number, which may be zero. -/
structure Stands (x : Float) (q : ℚ) (s : Sign) (m : Nat) (e : Int) : Prop where
  canonical : Canonical m e
  fits : e ≤ 971
  view : view x = signed s m e
  value : q = factor s * value m e

theorem exists_stands (h : toRat? x = some q) : ∃ s m e, Stands x q s m e := by
  unfold toRat? at h
  cases unpacked : view x with
  | notANumber =>
    rw [unpacked] at h
    cases h
  | infinity s =>
    rw [unpacked] at h
    cases h
  | zero s =>
    rw [unpacked] at h
    cases h
    refine ⟨s, 0, -1074, canonical_zero, by norm_num, ?_, ?_⟩
    · rw [unpacked, signed_zero]
    · rw [value_zero, mul_zero]
  | finite s m e pos =>
    obtain ⟨c, fits⟩ := canonical_unpack unpacked
    rw [unpacked] at h
    refine ⟨s, m, e, c, fits, ?_, ?_⟩
    · rw [unpacked, signed_of_pos _ _ pos]
    · cases s <;> cases h
      · rw [factor, neg_one_mul]
      · rw [factor, one_mul]

theorem Stands.toRat? (h : Stands x q s m e) : toRat? x = some q := by
  rw [h.value, Double.toRat?, h.view]
  rcases Nat.eq_zero_or_pos m with rfl | pos
  · rw [signed_zero, value_zero, mul_zero]
  · rw [signed_of_pos _ _ pos]
    cases s
    · rw [factor, neg_one_mul]
    · rw [factor, one_mul]

/-- A canonical number that is not too large is packed as it is. -/
theorem stands_of_packed (packed : view x = stored (signed s m e)) (c : Canonical m e)
    (fits : e ≤ 971) : Stands x (factor s * value m e) s m e := by
  refine ⟨c, fits, ?_, rfl⟩
  rw [packed]
  rcases Nat.eq_zero_or_pos m with rfl | pos
  · rw [signed_zero, stored_zero]
  · rw [signed_of_pos _ _ pos, stored, unpack_pack_finite _ pos c fits]

/-! ## Order -/

theorem compare_finite (c : Canonical m e) (c' : Canonical m' e') :
    (compare e e').then (compare m m') = compare (value m e) (value m' e') := by
  rcases lt_trichotomy (value m e) (value m' e') with lt | same | gt
  · rw [compare_lt_iff_lt.mpr lt]
    rcases (value_lt_value c c').mp lt with below | ⟨rfl, below⟩
    · rw [compare_lt_iff_lt.mpr below]
      rfl
    · rw [compare_eq_iff_eq.mpr rfl, compare_lt_iff_lt.mpr below]
      rfl
  · obtain ⟨rfl, rfl⟩ := c.unique c' same
    rw [compare_eq_iff_eq.mpr rfl, compare_eq_iff_eq.mpr rfl, compare_eq_iff_eq.mpr rfl]
    rfl
  · rw [compare_gt_iff_gt.mpr gt]
    rcases (value_lt_value c' c).mp gt with below | ⟨rfl, below⟩
    · rw [compare_gt_iff_gt.mpr below]
      rfl
    · rw [compare_eq_iff_eq.mpr rfl, compare_gt_iff_gt.mpr below]
      rfl

/-- What is below zero is compared the other way round. -/
theorem compare_neg_neg (q r : ℚ) : compare (-q) (-r) = (compare q r).swap := by
  rcases lt_trichotomy q r with lt | rfl | gt
  · rw [compare_lt_iff_lt.mpr lt, compare_gt_iff_gt.mpr (neg_lt_neg lt)]
    rfl
  · rw [compare_eq_iff_eq.mpr rfl, compare_eq_iff_eq.mpr rfl]
    rfl
  · rw [compare_gt_iff_gt.mpr gt, compare_lt_iff_lt.mpr (neg_lt_neg gt)]
    rfl

/-- **Finite doubles are compared as what they stand for.** -/
theorem compare_signed (c : Canonical m e) (c' : Canonical m' e') :
    (signed s m e).compare (signed s' m' e')
      = some (compare (factor s * value m e) (factor s' * value m' e')) := by
  rcases Nat.eq_zero_or_pos m with rfl | pos <;> rcases Nat.eq_zero_or_pos m' with rfl | pos'
  · rw [signed_zero, signed_zero, value_zero, value_zero, mul_zero, mul_zero,
      compare_eq_iff_eq.mpr rfl]
    rfl
  · have above := value_pos (e := e').mpr pos'
    rw [signed_zero, signed_of_pos _ _ pos', value_zero, mul_zero]
    cases s' with
    | positive =>
      rw [factor, one_mul, compare_lt_iff_lt.mpr above]
      rfl
    | negative =>
      rw [factor, neg_one_mul, compare_gt_iff_gt.mpr (neg_lt_zero.mpr above)]
      rfl
  · have above := value_pos (e := e).mpr pos
    rw [signed_zero, signed_of_pos _ _ pos, value_zero, mul_zero]
    cases s with
    | positive =>
      rw [factor, one_mul, compare_gt_iff_gt.mpr above]
      rfl
    | negative =>
      rw [factor, neg_one_mul, compare_lt_iff_lt.mpr (neg_lt_zero.mpr above)]
      rfl
  · have above := value_pos (e := e).mpr pos
    have above' := value_pos (e := e').mpr pos'
    rw [signed_of_pos _ _ pos, signed_of_pos _ _ pos']
    cases s <;> cases s'
    · rw [factor, neg_one_mul, neg_one_mul, compare_neg_neg, ← compare_finite c c']
      rfl
    · rw [factor, factor, neg_one_mul, one_mul, compare_lt_iff_lt.mpr (by linarith)]
      rfl
    · rw [factor, factor, neg_one_mul, one_mul, compare_gt_iff_gt.mpr (by linarith)]
      rfl
    · rw [factor, one_mul, one_mul, ← compare_finite c c']
      rfl

theorem compare_of_toRat? (hq : toRat? x = some q) (hr : toRat? y = some r) :
    (view x).compare (view y) = some (compare q r) := by
  obtain ⟨s, m, e, stands⟩ := exists_stands hq
  obtain ⟨s', m', e', stands'⟩ := exists_stands hr
  rw [stands.view, stands'.view, stands.value, stands'.value,
    compare_signed stands.canonical stands'.canonical]

theorem le_iff_le (hq : toRat? x = some q) (hr : toRat? y = some r) : x ≤ y ↔ q ≤ r := by
  rw [le_iff, UnpackedFloat.le, compare_of_toRat? hq hr, ← not_lt, ← compare_gt_iff_gt]
  cases compare q r <;> decide

theorem lt_iff_lt (hq : toRat? x = some q) (hr : toRat? y = some r) : x < y ↔ q < r := by
  rw [lt_iff, UnpackedFloat.lt, compare_of_toRat? hq hr, beq_iff_eq, Option.some_inj,
    compare_lt_iff_lt]

/-! ## Operations -/

theorem view_neg (x : Float) : view (-x) = stored (view x).neg := rfl

theorem toRat?_neg (hq : toRat? x = some q) : toRat? (-x) = some (-q) := by
  obtain ⟨s, m, e, stands⟩ := exists_stands hq
  have negated : view (-x) = stored (signed (-s) m e) := by
    rw [view_neg, stands.view]
    rcases Nat.eq_zero_or_pos m with rfl | pos
    · rw [signed_zero, signed_zero]
      rfl
    · rw [signed_of_pos _ _ pos, signed_of_pos _ _ pos]
      rfl
  rw [(stands_of_packed negated stands.canonical stands.fits).toRat?, stands.value, factor_neg,
    neg_mul]

/-- Whole numbers below `2 ^ 53` stand for themselves. -/
theorem toRat?_ofNat {n : Nat} (lt : n < 2 ^ 53) : toRat? (Float.ofNat n) = some (n : ℚ) := by
  rcases Nat.eq_zero_or_pos n with rfl | pos
  · decide +kernel
  · obtain ⟨m, e, pos', viewed, -, same⟩ := view_ofNat pos lt
    rw [toRat?, viewed, ← same]

/-- A number and the one that it is rounded to. -/
inductive Rounded : ℚ → ℚ → Prop
  | nearest (s : Sign) {q : ℚ} {m : Nat} {e : Int} (nonneg : 0 ≤ q) (h : Nearest q m e) :
      Rounded (factor s * q) (factor s * value m e)

/-- **Rounding is monotone through zero.** -/
theorem Rounded.mono {q' r' : ℚ} (h : Rounded q r) (h' : Rounded q' r') (le : q ≤ q') : r ≤ r' := by
  cases h with | @nearest s q m e nonneg h =>
  cases h' with | @nearest s' q' m' e' nonneg' h' =>
  have above := value_nonneg m e
  have above' := value_nonneg m' e'
  cases s <;> cases s' <;> simp only [factor, neg_one_mul, one_mul] at le ⊢
  · exact neg_le_neg (h'.mono h (neg_le_neg_iff.mp le))
  · linarith
  · -- Only zero is neither above nor below zero.
    obtain rfl : q = 0 := by linarith
    obtain rfl : q' = 0 := by linarith
    rw [h.eq_zero, h'.eq_zero, value_zero, value_zero, neg_zero]
  · exact h.mono h' le

/-- Rounding does not pass a double. -/
theorem Rounded.abs_le (h : Rounded q r) (c : Canonical m e) (le : |q| ≤ value m e) :
    |r| ≤ value m e := by
  cases h with | @nearest s q m' e' nonneg h =>
  rw [abs_factor_mul, abs_of_nonneg nonneg] at le
  rw [abs_factor_mul, abs_of_nonneg (value_nonneg m' e')]
  exact h.upper c le

/-- A product is rounded once, also where a factor is zero. -/
theorem mul_signed (s s' : Sign) (c : Canonical m e) (c' : Canonical m' e') :
    ∃ m'' e'', UnpackedFloat.mul .binary64 (signed s m e) (signed s' m' e')
        = signed (s * s') m'' e'' ∧ Nearest (value m e * value m' e') m'' e'' := by
  rcases Nat.eq_zero_or_pos m with rfl | pos
  · refine ⟨0, -1074, ?_, ?_⟩
    · rw [signed_zero, signed_zero, signed]
      split <;> rfl
    · rw [value_zero, zero_mul, ← value_zero (-1074)]
      exact canonical_zero.nearest
  rcases Nat.eq_zero_or_pos m' with rfl | pos'
  · refine ⟨0, -1074, ?_, ?_⟩
    · rw [signed_zero, signed_zero, signed_of_pos _ _ pos]
      rfl
    · rw [value_zero, mul_zero, ← value_zero (-1074)]
      exact canonical_zero.nearest
  · rw [signed_of_pos _ _ pos, signed_of_pos _ _ pos']
    exact nearest_mul s s' pos pos' c c'

/-- **A product that does not overflow is the double nearest to the exact one.** -/
theorem toRat?_mul (hq : toRat? x = some q) (hr : toRat? y = some r) (c : Canonical m e)
    (fits : e ≤ 971) (le : |q * r| ≤ value m e) :
    ∃ p, toRat? (x * y) = some p ∧ Rounded (q * r) p := by
  obtain ⟨s, n, t, stands⟩ := exists_stands hq
  obtain ⟨s', n', t', stands'⟩ := exists_stands hr
  obtain ⟨m', e', product, nearest⟩ := mul_signed s s' stands.canonical stands'.canonical
  have exact : q * r = factor (s * s') * (value n t * value n' t') := by
    rw [stands.value, stands'.value, factor_mul]
    ring
  have nonneg : 0 ≤ value n t * value n' t' :=
    Rat.mul_nonneg (value_nonneg n t) (value_nonneg n' t')
  have rounded := Rounded.nearest (s * s') nonneg nearest
  rw [← exact] at rounded
  have below : value m' e' ≤ value m e := by
    have below := rounded.abs_le c le
    rwa [abs_factor_mul, abs_of_nonneg (value_nonneg m' e')] at below
  have small : e' ≤ 971 := by
    have order := (value_le_value nearest.canonical c).mp below
    omega
  have packed : view (x * y) = stored (signed (s * s') m' e') := by
    rw [← product, ← stands.view, ← stands'.view]
    rfl
  exact ⟨_, (stands_of_packed packed nearest.canonical small).toRat?, rounded⟩

/-! ## Rounding down -/

theorem toCount_eq (hq : toRat? x = some q) (nonneg : 0 ≤ q) :
    Scalar.toCount x = min ⌊q⌋₊ maxCount := by
  obtain ⟨s, m, e, stands⟩ := exists_stands hq
  have count : Scalar.toCount x = (view x).toUInt64.toNat := rfl
  rw [count, stands.view]
  rw [stands.value] at nonneg ⊢
  rcases Nat.eq_zero_or_pos m with rfl | pos
  · rw [signed_zero, value_zero, mul_zero, Nat.floor_zero]
    rfl
  · have above := value_pos (e := e).mpr pos
    rw [signed_of_pos _ _ pos]
    cases s
    · rw [factor, neg_one_mul] at nonneg
      linarith
    · rw [factor, one_mul]
      exact toUInt64_finite

/-- **The floor of a double is the floor of what it stands for.** -/
theorem floor_eq (hq : toRat? x = some q) (small : |q| < 2 ^ 53) : Scalar.floor x = ⌊q⌋ := by
  have zero : toRat? (Float.ofNat 0) = some ((0 : Nat) : ℚ) := toRat?_ofNat (by norm_num)
  have whole {r : ℚ} (le : r ≤ |q|) : ⌊r⌋₊ < 2 ^ 53 :=
    (Nat.floor_lt' (by norm_num)).mpr (le.trans_lt (small.trans_le (by norm_num)))
  unfold Scalar.floor
  split
  · rename_i nonneg
    have nonneg := (le_iff_le zero hq).mp nonneg
    rw [Nat.cast_zero] at nonneg
    have few := whole (le_abs_self q)
    rw [toCount_eq hq nonneg, min_eq_left (by unfold maxCount; omega),
      Int.natCast_floor_eq_floor nonneg]
  · rename_i negative
    have negative := not_le.mp (mt (le_iff_le zero hq).mpr negative)
    rw [Nat.cast_zero] at negative
    have nonneg : 0 ≤ -q := by linarith
    have few := whole (neg_le_abs q)
    have count : Scalar.toCount (-x) = ⌊-q⌋₊ := by
      rw [toCount_eq (toRat?_neg hq) nonneg, min_eq_left (by unfold maxCount; omega)]
    have le := Nat.floor_le nonneg
    have lt := Nat.lt_floor_add_one (-q)
    dsimp only
    rw [count]
    split
    · rename_i fraction
      have fraction := (lt_iff_lt (toRat?_ofNat few) (toRat?_neg hq)).mp fraction
      rw [eq_comm, Int.floor_eq_iff]
      push_cast
      exact ⟨by linarith, by linarith⟩
    · rename_i exact
      have exact := not_lt.mp (mt (lt_iff_lt (toRat?_ofNat few) (toRat?_neg hq)).mpr exact)
      rw [eq_comm, Int.floor_eq_iff]
      push_cast
      exact ⟨by linarith, by linarith⟩

end Chiptune.Double
