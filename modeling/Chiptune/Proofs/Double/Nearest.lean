import Chiptune.Proofs.Double.Rounding

/-!
# Rounding to the nearest double

`Rounds` leaves open which of the two doubles next to a number is taken. It is the nearer one, and
of two that are equally near the one with the even mantissa.

* `Nearest`: the double that a number is rounded to.
* `Nearest.mono`: rounding is monotone. Were it not, two doubles with even mantissas would be next
  to each other.
* `nearest_roundWithAccuracy`, `nearest_round`: rounding does that, also where the mantissa that it
  begins with has been cut off already, as that of a quotient.
-/

namespace Chiptune.Double

open Float.Model Float.Model.UnpackedFloat

/-- `m` and `e` are the canonical number that `x` is rounded to: no other is nearer, and one that is
as near is taken only where the mantissa is odd. -/
structure Nearest (x : ℚ) (m : Nat) (e : Int) : Prop extends Rounds x m e where
  above : ∀ {m' e'}, Canonical m' e' → value m e < value m' e' →
    2 * x ≤ value m e + value m' e' ∧ (2 * x = value m e + value m' e' → m % 2 = 0)
  below : ∀ {m' e'}, Canonical m' e' → value m' e' < value m e →
    value m' e' + value m e ≤ 2 * x ∧ (value m' e' + value m e = 2 * x → m % 2 = 0)

/-! ## Monotonicity -/

theorem value_lt_value {m m' : Nat} {e e' : Int} (h : Canonical m e) (h' : Canonical m' e') :
    value m e < value m' e' ↔ e < e' ∨ e = e' ∧ m < m' := by
  rw [← not_le, value_le_value h' h]
  omega

/-- Between two numbers with even mantissas there is another. -/
theorem exists_value_between {m m' : Nat} {e e' : Int} (h : Canonical m e) (h' : Canonical m' e')
    (lt : value m e < value m' e') (even : m % 2 = 0) (even' : m' % 2 = 0) :
    ∃ k, Canonical k e ∧ value m e < value k e ∧ value k e < value m' e' := by
  have bits := h.mantissa_lt
  have next : Canonical (m + 1) e :=
    ⟨by omega, h.le_exponent, h.normal.imp_left fun full => by omega⟩
  rw [value_lt_value h h'] at lt
  refine ⟨m + 1, next, (value_lt_value h next).mpr ?_, (value_lt_value next h').mpr ?_⟩ <;> omega

/-- **Rounding is monotone.** -/
theorem Nearest.mono {x y : ℚ} {m m' : Nat} {e e' : Int} (h : Nearest x m e)
    (h' : Nearest y m' e') (le : x ≤ y) : value m e ≤ value m' e' := by
  by_contra crossed
  have crossed := not_le.mp crossed
  obtain ⟨upper, tie⟩ := h.below h'.canonical crossed
  obtain ⟨lower, tie'⟩ := h'.above h.canonical crossed
  -- Both numbers are the middle between the two doubles, so both mantissas are even.
  have even : m % 2 = 0 := tie (by linarith)
  have even' : m' % 2 = 0 := tie' (by linarith)
  obtain ⟨k, c, above, below⟩ := exists_value_between h'.canonical h.canonical crossed even' even
  have near := (h.below c below).1
  linarith

/-- A canonical number is rounded to itself. -/
theorem Canonical.nearest {m : Nat} {e : Int} (c : Canonical m e) : Nearest (value m e) m e where
  canonical := c
  lower _ le := le
  upper _ le := le
  above _ lt := ⟨by linarith, fun same => by linarith⟩
  below _ lt := ⟨by linarith, fun same => by linarith⟩

/-- There is only one canonical way to write a number. -/
theorem Canonical.unique {m m' : Nat} {e e' : Int} (c : Canonical m e) (c' : Canonical m' e')
    (same : value m e = value m' e') : m = m' ∧ e = e' := by
  have le := (value_le_value c c').mp same.le
  have ge := (value_le_value c' c).mp same.ge
  omega

/-- What is canonical can only be rounded to itself. -/
theorem Nearest.unique {m m' : Nat} {e e' : Int} (h : Nearest (value m e) m' e')
    (c : Canonical m e) : m' = m ∧ e' = e :=
  h.canonical.unique c (le_antisymm (h.upper c le_rfl) (h.lower c le_rfl))

/-! ## Rounded mantissas -/

section

variable {em : ExtendedMantissa} {x : ℚ} {t e : Int} {k m : Nat}

/-- Larger whole numbers are not nearer than the rounded mantissa. -/
theorem Locates.above (h : Locates em.accuracy em.mantissa x) (lt : em.roundedMantissa < k) :
    2 * x ≤ em.roundedMantissa + k ∧
      (2 * x = em.roundedMantissa + k → em.roundedMantissa % 2 = 0) := by
  have next : ((em.roundedMantissa + 1 : Nat) : ℚ) ≤ k := Nat.cast_le.mpr lt
  obtain ⟨n, round, sticky⟩ := em
  cases round <;> cases sticky <;>
    simp only [ExtendedMantissa.accuracy, Locates, ExtendedMantissa.roundedMantissa,
      Accuracy.roundToNearestEven] at h next ⊢ <;> push_cast at next ⊢
  · exact ⟨by linarith, fun same => by linarith⟩
  · exact ⟨by linarith, fun same => by linarith⟩
  · have bit : (0 : ℚ) ≤ ((n % 2 : Nat) : ℚ) := Nat.cast_nonneg _
    exact ⟨by linarith, fun _ => by omega⟩
  · exact ⟨by linarith, fun same => by linarith⟩

/-- Smaller whole numbers are not nearer than the rounded mantissa. -/
theorem Locates.below (h : Locates em.accuracy em.mantissa x) (lt : k < em.roundedMantissa) :
    k + em.roundedMantissa ≤ 2 * x ∧
      (k + em.roundedMantissa = 2 * x → em.roundedMantissa % 2 = 0) := by
  have next : ((k + 1 : Nat) : ℚ) ≤ em.roundedMantissa := Nat.cast_le.mpr lt
  obtain ⟨n, round, sticky⟩ := em
  cases round <;> cases sticky <;>
    simp only [ExtendedMantissa.accuracy, Locates, ExtendedMantissa.roundedMantissa,
      Accuracy.roundToNearestEven] at h next ⊢ <;> push_cast at next ⊢
  · exact ⟨by linarith, fun same => by linarith⟩
  · exact ⟨by linarith, fun same => by linarith⟩
  · have bit : ((n % 2 : Nat) : ℚ) ≤ 1 := by
      exact_mod_cast Nat.le_of_lt_succ (Nat.mod_lt n two_pos)
    exact ⟨by linarith, fun _ => by omega⟩
  · exact ⟨by linarith, fun same => by linarith⟩

/-- Larger doubles are not nearer than the rounded mantissa: those of smaller exponents are not
larger, and the others are whole multiples of the same power of two. -/
theorem Locates.above_value (h : Locates em.accuracy em.mantissa x) (lowest : -1074 ≤ t)
    (normal : 2 ^ 52 ≤ x ∨ t = -1074) (c : Canonical m e)
    (lt : value em.roundedMantissa t < value m e) :
    2 * (x * 2 ^ t) ≤ value em.roundedMantissa t + value m e ∧
      (2 * (x * 2 ^ t) = value em.roundedMantissa t + value m e → em.roundedMantissa % 2 = 0) := by
  have two : (0 : ℚ) < 2 ^ t := by positivity
  rcases lt_or_ge e t with smaller | ge
  · have rounded : 2 ^ 52 ≤ em.roundedMantissa :=
      h.approximates.le_rounded (c.full_of_lt smaller normal)
    have below := value_lt_of_exponent_lt c (canonical_smallest lowest) smaller
    have above := value_le_of_mantissa_le t rounded
    exact absurd (below.trans_le above) lt.not_gt
  · rw [← value_shifted m ge] at lt ⊢
    obtain ⟨near, tie⟩ := h.above (Nat.cast_lt.mp (lt_of_mul_lt_mul_right lt two.le))
    rw [value, value, ← add_mul, ← mul_assoc]
    exact ⟨mul_le_mul_of_nonneg_right near two.le, fun same => tie (mul_right_cancel₀ two.ne' same)⟩

/-- Smaller doubles are not nearer than the rounded mantissa: those of smaller exponents lie below
the least mantissa with all bits. -/
theorem Locates.below_value (h : Locates em.accuracy em.mantissa x) (lowest : -1074 ≤ t)
    (normal : 2 ^ 52 ≤ x ∨ t = -1074) (c : Canonical m e)
    (lt : value m e < value em.roundedMantissa t) :
    value m e + value em.roundedMantissa t ≤ 2 * (x * 2 ^ t) ∧
      (value m e + value em.roundedMantissa t = 2 * (x * 2 ^ t) → em.roundedMantissa % 2 = 0) := by
  have two : (0 : ℚ) < 2 ^ t := by positivity
  rcases lt_or_ge e t with smaller | ge
  · have full := c.full_of_lt smaller normal
    have below := value_lt_of_exponent_lt c (canonical_smallest lowest) smaller
    have near : ((2 ^ 52 : Nat) : ℚ) + em.roundedMantissa ≤ 2 * x := by
      rcases (h.approximates.le_rounded full).eq_or_lt with least | more
      · rw [← least]
        linarith
      · exact (h.below more).1
    have near := mul_le_mul_of_nonneg_right near two.le
    rw [add_mul, mul_assoc] at near
    have strict : value m e + value em.roundedMantissa t < 2 * (x * 2 ^ t) :=
      (add_lt_add_left below _).trans_le near
    exact ⟨strict.le, fun same => absurd same strict.ne⟩
  · rw [← value_shifted m ge] at lt ⊢
    obtain ⟨near, tie⟩ := h.below (Nat.cast_lt.mp (lt_of_mul_lt_mul_right lt two.le))
    rw [value, value, ← add_mul, ← mul_assoc]
    exact ⟨mul_le_mul_of_nonneg_right near two.le, fun same => tie (mul_right_cancel₀ two.ne' same)⟩

/-- A rounded mantissa is the nearest number, written with one bit less where it has become too
long. -/
theorem Locates.nearest (h : Locates em.accuracy em.mantissa x) (below : x ≤ 2 ^ 53)
    (lowest : -1074 ≤ t) (normal : 2 ^ 52 ≤ x ∨ t = -1074) :
    em.roundedMantissa < 2 ^ 53 ∧ Nearest (x * 2 ^ t) em.roundedMantissa t ∨
      em.roundedMantissa = 2 ^ 53 ∧ Nearest (x * 2 ^ t) (2 ^ 52) (t + 1) := by
  rcases h.approximates.rounds below lowest normal with ⟨lt, rounds⟩ | ⟨long, rounds⟩
  · exact .inl ⟨lt, rounds, h.above_value lowest normal, h.below_value lowest normal⟩
  · have same : value (2 ^ 52) (t + 1) = value em.roundedMantissa t := by
      rw [long, ← value_shiftLeft (2 ^ 52) 1 (t + 1), Nat.cast_one, add_sub_cancel_right]
      rfl
    refine .inr ⟨long, rounds, fun c lt => ?_, fun c lt => ?_⟩
    · rw [same] at lt ⊢
      exact ⟨(h.above_value lowest normal c lt).1, fun _ => rfl⟩
    · rw [same] at lt ⊢
      exact ⟨(h.below_value lowest normal c lt).1, fun _ => rfl⟩

end

/-! ## Rounding -/

/-- The double with a mantissa that may be zero. -/
def signed (s : Sign) (m : Nat) (e : Int) : UnpackedFloat :=
  if h : m = 0 then .zero s else .finite s m e (Nat.pos_of_ne_zero h)

/-- The exponent that rounding aims at: 53 bits are kept, or fewer at the lowest exponent. -/
def target (m : Nat) (e : Int) : Int := Format.binary64.targetExponent (totalExponent m e)

theorem target_eq (m : Nat) (e : Int) : target m e = max (m.log2 + 1 + e - 53) (-1074) := rfl

theorem roundWithAccuracy_eq (s : Sign) (m : Nat) (e : Int) (a : Accuracy) :
    roundWithAccuracy .binary64 s m e a =
      let first := shiftToTargetExponent .binary64 m e a
      let final := shiftToTargetExponent .binary64 first.1.roundedMantissa first.2 .exact
      signed s final.1.mantissa final.2 := rfl

theorem shiftToTargetExponent_eq {m n : Nat} {e : Int} (a : Accuracy)
    (h : (target m e - e).toNat = n) :
    shiftToTargetExponent .binary64 m e a
      = (ExtendedMantissa.ofMantissaAndAccuracy m a >>> n, e + n) := by
  rw [← h]
  rfl

/-- The first shift leaves at most 53 bits, and all of them above the lowest exponent. -/
theorem first_shift {m n : Nat} {e : Int} {x : ℚ} (le : m ≤ x) (lt : x < m + 1)
    (h : target m e = e + n) :
    x / 2 ^ n ≤ 2 ^ 53 ∧ -1074 ≤ e + n ∧ (2 ^ 52 ≤ x / 2 ^ n ∨ e + n = -1074) := by
  rw [target_eq] at h
  have two : (0 : ℚ) < 2 ^ n := by positivity
  refine ⟨?_, by omega, ?_⟩
  · rw [div_le_iff₀ two, ← pow_add]
    have bits : m + 1 ≤ 2 ^ (53 + n) :=
      Nat.lt_log2_self.trans_le (Nat.pow_le_pow_right (by norm_num) (by omega))
    exact lt.le.trans (by exact_mod_cast bits)
  · rcases le_or_gt (m.log2 + 1 + e - 53) (-1074) with low | high
    · right
      omega
    · left
      have nonzero : m ≠ 0 := by
        rintro rfl
        rw [Nat.log2_zero] at h high
        omega
      rw [le_div_iff₀ two, ← pow_add]
      have bits : 2 ^ (52 + n) ≤ m :=
        (Nat.pow_le_pow_right (by norm_num) (by omega)).trans (Nat.log2_self_le nonzero)
      exact le.trans' (by exact_mod_cast bits)

/-- A mantissa of 53 bits is not shifted again. -/
theorem target_le {m : Nat} {e : Int} (lt : m < 2 ^ 53) (lowest : -1074 ≤ e) : target m e ≤ e := by
  have bits : m.log2 < 53 := by
    rcases Nat.eq_zero_or_pos m with rfl | pos
    · decide
    · exact (Nat.log2_lt pos.ne').mpr lt
  rw [target_eq]
  omega

/-- **Rounding finds the double nearest to the exact number**, if the mantissa that it begins with
has enough bits. -/
theorem nearest_roundWithAccuracy (s : Sign) {m : Nat} {e : Int} {a : Accuracy} {x : ℚ}
    (h : Locates a m x) (le : e ≤ target m e) :
    ∃ m' e', roundWithAccuracy .binary64 s m e a = signed s m' e' ∧
      Nearest (x * 2 ^ e) m' e' := by
  obtain ⟨n, hn⟩ := Int.eq_ofNat_of_zero_le (Int.sub_nonneg.mpr le)
  have aim : target m e = e + n := by omega
  have start : Locates (ExtendedMantissa.ofMantissaAndAccuracy m a).accuracy
      (ExtendedMantissa.ofMantissaAndAccuracy m a).mantissa x := by
    rw [accuracy_ofMantissaAndAccuracy, mantissa_ofMantissaAndAccuracy]
    exact h
  have above := start.approximates.le
  have next := start.approximates.lt
  rw [mantissa_ofMantissaAndAccuracy] at above next
  obtain ⟨below, lowest, normal⟩ := first_shift above next aim
  have same : x / 2 ^ n * 2 ^ (e + n) = x * 2 ^ e := by
    rw [zpow_add₀ (by norm_num), zpow_natCast]
    field_simp
  have first : (target m e - e).toNat = n := by omega
  rw [roundWithAccuracy_eq, shiftToTargetExponent_eq a first]
  have located := start.shiftRight n
  generalize ExtendedMantissa.ofMantissaAndAccuracy m a >>> n = em at located ⊢
  have cases := located.nearest below lowest normal
  rw [same] at cases
  rcases cases with ⟨lt, nearest⟩ | ⟨eq, nearest⟩
  · have still := target_le lt lowest
    have second : (target em.roundedMantissa (e + n) - (e + n)).toNat = 0 := by omega
    refine ⟨_, _, ?_, nearest⟩
    dsimp only
    rw [shiftToTargetExponent_eq .exact second, Nat.cast_zero, add_zero]
    rfl
  · have once : target (2 ^ 53) (e + n) = e + n + 1 := by
      rw [target_eq, Nat.log2_two_pow]
      omega
    have second : (target em.roundedMantissa (e + n) - (e + n)).toNat = 1 := by
      rw [eq, once]
      omega
    refine ⟨_, _, ?_, nearest⟩
    dsimp only
    rw [shiftToTargetExponent_eq .exact second, eq]
    rfl

theorem log2_shiftLeft {m : Nat} (pos : 0 < m) (k : Nat) : (m <<< k).log2 = m.log2 + k := by
  induction k with
  | zero => rfl
  | succ k ih =>
    have further : m <<< k ≠ 0 := by
      rw [Nat.shiftLeft_eq]
      positivity
    rw [Nat.shiftLeft_succ, Nat.log2_two_mul further, ih, Nat.add_assoc]

theorem target_shiftLeft {m : Nat} (pos : 0 < m) (k : Nat) (e : Int) :
    target (m <<< k) (e - k) = target m e := by
  rw [target_eq, target_eq, log2_shiftLeft pos]
  omega

/-- A number with too few bits is written with more of them first. -/
theorem nearest_round (s : Sign) {m : Nat} (pos : 0 < m) (e : Int) :
    ∃ m' e', UnpackedFloat.round .binary64 s m e = signed s m' e' ∧
      Nearest (value m e) m' e' := by
  obtain ⟨k, hk⟩ : ∃ k, (e - target m e).toNat = k := ⟨_, rfl⟩
  have enough : e - k ≤ target (m <<< k) (e - k) := by
    rw [target_shiftLeft pos]
    omega
  have exact : Locates .exact (m <<< k) ((m <<< k : Nat) : ℚ) := rfl
  have rounded := nearest_roundWithAccuracy s exact enough
  rw [← value, value_shiftLeft, ← hk] at rounded
  exact rounded

end Chiptune.Double
