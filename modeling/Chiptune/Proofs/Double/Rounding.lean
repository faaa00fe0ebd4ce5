import Mathlib.Algebra.Order.Field.Power
import Mathlib.Algebra.Order.Field.Rat
import Mathlib.Tactic.FieldSimp
import Mathlib.Tactic.Linarith
import Mathlib.Tactic.Positivity
import Mathlib.Tactic.Ring

/-!
# Rounding doubles

A double that is not zero is a mantissa times a power of two, and there is one canonical way to
write it (`Canonical`). Sums and products are computed exactly and then rounded.

* `Locates`: what a mantissa with its round and sticky bits says of the exact value, kept by every
  shift. `Approximates` is the part of it that leaves the bits aside.
* `Rounds`: a canonical number that no canonical number separates from the exact value. A bound that
  is a double is a bound after rounding as well. `Approximates.rounds`: a rounded mantissa is such a
  number.
-/

namespace Chiptune.Double

open Float.Model Float.Model.UnpackedFloat

/-! ## Canonical numbers -/

/-- The number that a mantissa and an exponent stand for. -/
def value (m : Nat) (e : Int) : ℚ := m * 2 ^ e

/-- The way in which doubles write numbers: with as many as 53 bits, and fewer only at the lowest
exponent. -/
structure Canonical (m : Nat) (e : Int) : Prop where
  mantissa_lt : m < 2 ^ 53
  le_exponent : -1074 ≤ e
  normal : 2 ^ 52 ≤ m ∨ e = -1074

theorem value_nonneg (m : Nat) (e : Int) : 0 ≤ value m e := by
  unfold value
  positivity

theorem value_pos {m : Nat} {e : Int} : 0 < value m e ↔ 0 < m := by
  have two : (0 : ℚ) < 2 ^ e := by positivity
  rw [value, mul_pos_iff_of_pos_right two, Nat.cast_pos]

theorem value_add (m n : Nat) (e : Int) : value (m + n) e = value m e + value n e := by
  unfold value
  push_cast
  ring

theorem value_shiftLeft (m k : Nat) (e : Int) : value (m <<< k) (e - k) = value m e := by
  have two : (2 : ℚ) ^ e = 2 ^ k * 2 ^ (e - k) := by
    rw [← zpow_natCast, ← zpow_add₀ (by norm_num)]
    congr 1
    omega
  rw [value, value, Nat.shiftLeft_eq, two]
  push_cast
  ring

/-- A number can be written with any smaller exponent. -/
theorem value_shifted (m : Nat) {e t : Int} (le : t ≤ e) :
    value (m <<< (e - t).toNat) t = value m e := by
  rw [← value_shiftLeft m (e - t).toNat e]
  congr 1
  omega

/-- A larger exponent makes a larger number. -/
theorem value_lt_of_exponent_lt {m m' : Nat} {e e' : Int} (h : Canonical m e)
    (h' : Canonical m' e') (lt : e < e') : value m e < value m' e' := by
  have normal : 2 ^ 52 ≤ m' := by
    rcases h'.normal with normal | lowest
    · exact normal
    · have := h.le_exponent
      omega
  have mantissa : (m : ℚ) < 2 ^ 53 := by exact_mod_cast h.mantissa_lt
  have mantissa' : (2 : ℚ) ^ 52 ≤ m' := by exact_mod_cast normal
  calc value m e < 2 ^ 53 * 2 ^ e := by
        unfold value
        gcongr
    _ = 2 ^ 52 * 2 ^ (e + 1) := by
        rw [zpow_add_one₀ (by norm_num)]
        ring
    _ ≤ m' * 2 ^ e' := by
        gcongr
        · norm_num
        · omega

theorem value_le_of_mantissa_le {m m' : Nat} (e : Int) (le : m ≤ m') :
    value m e ≤ value m' e := by
  unfold value
  gcongr

/-- Canonical numbers are ordered by their exponents, and then by their mantissas. -/
theorem value_le_value {m m' : Nat} {e e' : Int} (h : Canonical m e) (h' : Canonical m' e') :
    value m e ≤ value m' e' ↔ e < e' ∨ e = e' ∧ m ≤ m' := by
  constructor
  · intro le
    rcases Int.lt_trichotomy e e' with lt | rfl | gt
    · exact .inl lt
    · have two : (0 : ℚ) < 2 ^ e := by positivity
      exact .inr ⟨rfl, by exact_mod_cast le_of_mul_le_mul_right le two⟩
    · exact absurd (value_lt_of_exponent_lt h' h gt) (not_lt.mpr le)
  · rintro (lt | ⟨rfl, le⟩)
    · exact (value_lt_of_exponent_lt h h' lt).le
    · exact value_le_of_mantissa_le e le

/-! ## Shifting -/

/-- The mantissa is the whole part of `x`, and its extra bits are clear if it is all of `x`. -/
structure Approximates (em : ExtendedMantissa) (x : ℚ) : Prop where
  le : (em.mantissa : ℚ) ≤ x
  lt : x < em.mantissa + 1
  clear : x = em.mantissa → em.roundBit = false ∧ em.stickyBit = false

/-- Where a number lies from a mantissa on: at it, or in the lower half, the middle or the upper
half of the way to the next one. -/
def Locates : Accuracy → Nat → ℚ → Prop
  | .exact, m, x => x = m
  | .inexact .lt, m, x => m < x ∧ x < m + 1 / 2
  | .inexact .eq, m, x => x = m + 1 / 2
  | .inexact .gt, m, x => m + 1 / 2 < x ∧ x < m + 1

theorem Locates.approximates {em : ExtendedMantissa} {x : ℚ}
    (h : Locates em.accuracy em.mantissa x) : Approximates em x := by
  obtain ⟨m, round, sticky⟩ := em
  have above : (m : ℚ) < m + 1 / 2 := lt_add_of_pos_right _ (by norm_num)
  cases round <;> cases sticky <;>
    simp only [ExtendedMantissa.accuracy, Locates] at h
  · exact ⟨h.ge, by rw [h]; exact lt_add_one _, fun _ => ⟨rfl, rfl⟩⟩
  · exact ⟨h.1.le, by linarith, fun same => absurd same h.1.ne'⟩
  · exact ⟨by linarith, by linarith, fun same => absurd (same.symm.trans h) above.ne⟩
  · exact ⟨by linarith, h.2, fun same => absurd same (above.trans h.1).ne'⟩

theorem accuracy_ofMantissaAndAccuracy (m : Nat) (a : Accuracy) :
    (ExtendedMantissa.ofMantissaAndAccuracy m a).accuracy = a := by
  cases a with
  | exact => rfl
  | inexact o => cases o <;> rfl

theorem mantissa_ofMantissaAndAccuracy (m : Nat) (a : Accuracy) :
    (ExtendedMantissa.ofMantissaAndAccuracy m a).mantissa = m := by
  cases a with
  | exact => rfl
  | inexact o => cases o <;> rfl

/-- The remainder of a quotient, compared with half the divisor, says where the quotient lies. -/
theorem locates_quotient (m : Nat) {d : Nat} (pos : 0 < d) :
    Locates (accuracyOfFraction (m % d) d) (m / d) (m / d) := by
  have divisor : (0 : ℚ) < d := Nat.cast_pos.mpr pos
  have parts : (m / d : ℚ) = (m / d : Nat) + (m % d : Nat) / d := by
    rw [div_eq_iff divisor.ne', add_mul, div_mul_cancel₀ _ divisor.ne', mul_comm]
    exact_mod_cast (Nat.div_add_mod m d).symm
  have less : ((m % d : Nat) : ℚ) < d := Nat.cast_lt.mpr (Nat.mod_lt m pos)
  rw [parts]
  generalize m / d = q
  generalize m % d = r at less ⊢
  have fraction : (r : ℚ) / d < 1 := (div_lt_one divisor).mpr less
  unfold accuracyOfFraction
  split
  · rename_i zero
    rw [zero, Nat.cast_zero, zero_div, add_zero]
    rfl
  · rename_i nonzero
    have above : (0 : ℚ) < r / d :=
      div_pos (Nat.cast_pos.mpr (Nat.pos_of_ne_zero nonzero)) divisor
    rcases Nat.lt_trichotomy (2 * r) d with lt | eq | gt
    · have lower : (r : ℚ) / d < 1 / 2 := by
        have lt : (2 : ℚ) * r < d := by exact_mod_cast lt
        rw [div_lt_iff₀ divisor]
        linarith
      rw [Nat.compare_eq_lt.mpr lt]
      exact ⟨by linarith, by linarith⟩
    · have middle : (r : ℚ) / d = 1 / 2 := by
        have eq : (2 : ℚ) * r = d := by exact_mod_cast eq
        rw [div_eq_iff divisor.ne']
        linarith
      rw [Nat.compare_eq_eq.mpr eq, middle]
      rfl
    · have upper : (1 : ℚ) / 2 < r / d := by
        have gt : (d : ℚ) < 2 * r := by exact_mod_cast gt
        rw [lt_div_iff₀ divisor]
        linarith
      rw [Nat.compare_eq_gt.mpr gt]
      exact ⟨by linarith, by linarith⟩

/-- One bit less: the bit that is shifted out decides between the halves, and whatever was behind it
is behind the middle or the lower end. -/
theorem Locates.shiftRightOne {em : ExtendedMantissa} {x : ℚ}
    (h : Locates em.accuracy em.mantissa x) :
    Locates em.shiftRightOne.accuracy em.shiftRightOne.mantissa (x / 2) := by
  obtain ⟨m, round, sticky⟩ := em
  have parts : (m : ℚ) = 2 * (m / 2 : Nat) + (m % 2 : Nat) := by
    exact_mod_cast (Nat.div_add_mod m 2).symm
  rcases Nat.mod_two_eq_zero_or_one m with zero | one
  · rw [zero, Nat.cast_zero, add_zero] at parts
    cases round <;> cases sticky <;>
      simp only [ExtendedMantissa.accuracy, Locates, ExtendedMantissa.shiftRightOne, zero,
        bne_self_eq_false, Bool.or_false, Bool.or_true] at h ⊢
    · linarith
    · constructor <;> linarith
    · constructor <;> linarith
    · constructor <;> linarith
  · rw [one, Nat.cast_one] at parts
    have odd : (1 != 0) = true := rfl
    cases round <;> cases sticky <;>
      simp only [ExtendedMantissa.accuracy, Locates, ExtendedMantissa.shiftRightOne, one, odd,
        Bool.or_false, Bool.or_true] at h ⊢
    · linarith
    · constructor <;> linarith
    · constructor <;> linarith
    · constructor <;> linarith

theorem Locates.shiftRight {em : ExtendedMantissa} {x : ℚ}
    (h : Locates em.accuracy em.mantissa x) (n : Nat) :
    Locates (em >>> n).accuracy (em >>> n).mantissa (x / 2 ^ n) := by
  show Locates (n.repeat ExtendedMantissa.shiftRightOne em).accuracy
    (n.repeat ExtendedMantissa.shiftRightOne em).mantissa _
  induction n with
  | zero =>
    rw [pow_zero, div_one]
    exact h
  | succ n ih =>
    rw [pow_succ, ← div_div]
    exact ih.shiftRightOne

/-- Rounding goes up by at most one. -/
theorem roundedMantissa_bounds (em : ExtendedMantissa) :
    em.mantissa ≤ em.roundedMantissa ∧ em.roundedMantissa ≤ em.mantissa + 1 := by
  obtain ⟨m, round, sticky⟩ := em
  cases round <;> cases sticky <;>
    simp only [ExtendedMantissa.roundedMantissa, ExtendedMantissa.accuracy,
      Accuracy.roundToNearestEven] <;> omega

/-- Where nothing is lost, nothing is rounded. -/
theorem roundedMantissa_of_clear {em : ExtendedMantissa}
    (clear : em.roundBit = false ∧ em.stickyBit = false) : em.roundedMantissa = em.mantissa := by
  obtain ⟨m, round, sticky⟩ := em
  obtain ⟨rfl, rfl⟩ := clear
  rfl

namespace Approximates

variable {em : ExtendedMantissa} {x : ℚ} {k : Nat}

theorem le_rounded (h : Approximates em x) (hk : (k : ℚ) ≤ x) : k ≤ em.roundedMantissa := by
  have below : k < em.mantissa + 1 := by exact_mod_cast lt_of_le_of_lt hk h.lt
  have up := (roundedMantissa_bounds em).1
  omega

theorem rounded_le (h : Approximates em x) (hk : x ≤ k) : em.roundedMantissa ≤ k := by
  have up := (roundedMantissa_bounds em).2
  rcases h.le.eq_or_lt with same | lt
  · rw [roundedMantissa_of_clear (h.clear same.symm)]
    exact_mod_cast h.le.trans hk
  · have above : em.mantissa < k := by exact_mod_cast lt.trans_le hk
    omega

end Approximates

/-! ## Rounding -/

/-- `m` and `e` are a canonical number that no other separates from `x`: a bound on `x` that is
canonical is a bound on it too. -/
structure Rounds (x : ℚ) (m : Nat) (e : Int) : Prop where
  canonical : Canonical m e
  lower : ∀ {m' e'}, Canonical m' e' → value m' e' ≤ x → value m' e' ≤ value m e
  upper : ∀ {m' e'}, Canonical m' e' → x ≤ value m' e' → value m e ≤ value m' e'

section

variable {em : ExtendedMantissa} {x : ℚ} {t e : Int} {m : Nat}

/-- The smallest number with all 53 bits. -/
theorem canonical_smallest (lowest : -1074 ≤ t) : Canonical (2 ^ 52) t :=
  ⟨by norm_num, lowest, .inl (le_refl _)⟩

/-- Below the lowest exponent there is nothing, so above another one all 53 bits are used. -/
theorem Canonical.full_of_lt (c : Canonical m e) (lt : e < t) (normal : 2 ^ 52 ≤ x ∨ t = -1074) :
    ((2 ^ 52 : Nat) : ℚ) ≤ x := by
  rcases normal with large | low
  · exact_mod_cast large
  · have := c.le_exponent
    omega

/-- **A bound from below that is a double stays one** when the mantissa is rounded. -/
theorem Approximates.le_value (h : Approximates em x) (lowest : -1074 ≤ t)
    (normal : 2 ^ 52 ≤ x ∨ t = -1074) (c : Canonical m e) (le : value m e ≤ x * 2 ^ t) :
    value m e ≤ value em.roundedMantissa t := by
  have two : (0 : ℚ) < 2 ^ t := by positivity
  rcases lt_or_ge e t with lt | ge
  · have rounded : 2 ^ 52 ≤ em.roundedMantissa := h.le_rounded (c.full_of_lt lt normal)
    calc value m e ≤ value (2 ^ 52) t :=
          (value_lt_of_exponent_lt c (canonical_smallest lowest) lt).le
      _ ≤ value em.roundedMantissa t := value_le_of_mantissa_le t rounded
  · rw [← value_shifted m ge] at le ⊢
    exact value_le_of_mantissa_le t (h.le_rounded (le_of_mul_le_mul_right le two))

/-- **A bound from above that is a double stays one** when the mantissa is rounded. -/
theorem Approximates.value_le (h : Approximates em x) (lowest : -1074 ≤ t)
    (normal : 2 ^ 52 ≤ x ∨ t = -1074) (c : Canonical m e) (le : x * 2 ^ t ≤ value m e) :
    value em.roundedMantissa t ≤ value m e := by
  have two : (0 : ℚ) < 2 ^ t := by positivity
  rcases lt_or_ge e t with lt | ge
  · have below := value_lt_of_exponent_lt c (canonical_smallest lowest) lt
    have above : value (2 ^ 52) t ≤ x * 2 ^ t :=
      mul_le_mul_of_nonneg_right (c.full_of_lt lt normal) two.le
    exact absurd (above.trans le) (not_le.mpr below)
  · rw [← value_shifted m ge] at le ⊢
    exact value_le_of_mantissa_le t (h.rounded_le (le_of_mul_le_mul_right le two))

/-- A rounded mantissa is canonical, or one bit too long and then a power of two. -/
theorem Approximates.rounds (h : Approximates em x) (below : x ≤ 2 ^ 53) (lowest : -1074 ≤ t)
    (normal : 2 ^ 52 ≤ x ∨ t = -1074) :
    em.roundedMantissa < 2 ^ 53 ∧ Rounds (x * 2 ^ t) em.roundedMantissa t ∨
      em.roundedMantissa = 2 ^ 53 ∧ Rounds (x * 2 ^ t) (2 ^ 52) (t + 1) := by
  have most : em.roundedMantissa ≤ 2 ^ 53 := h.rounded_le (by exact_mod_cast below)
  rcases most.lt_or_eq with lt | eq
  · left
    have bits : 2 ^ 52 ≤ em.roundedMantissa ∨ t = -1074 :=
      normal.imp_left fun large => h.le_rounded (by exact_mod_cast large)
    exact ⟨lt, ⟨lt, lowest, bits⟩, h.le_value lowest normal, h.value_le lowest normal⟩
  · right
    have same : value em.roundedMantissa t = value (2 ^ 52) (t + 1) := by
      rw [eq, ← value_shiftLeft (2 ^ 52) 1 (t + 1), Nat.cast_one, add_sub_cancel_right]
      rfl
    refine ⟨eq, canonical_smallest (by omega), fun c le => ?_, fun c le => ?_⟩
    · rw [← same]
      exact h.le_value lowest normal c le
    · rw [← same]
      exact h.value_le lowest normal c le

end

end Chiptune.Double
