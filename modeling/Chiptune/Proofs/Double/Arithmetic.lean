import Chiptune.Scalar
import Chiptune.Proofs.Double.Packing

/-!
# Doubles that are not below zero

The arithmetic of doubles as far as durations, volumes and effects need it.

* `nonneg_iff`, `pos_iff`: the order, read off the unpacked numbers.
* `div_nonneg`, `mul_nonneg`, `add_nonneg`: nothing falls below zero, and so nothing stops being a
  number, but where infinity meets infinity or zero.
* `ofScientific_nonneg`: numerals are not below zero.
* `toRat?`: the number that a double stands for; it has the sign of the double.
* `nearest_mul`, `nearest_div`: products and quotients are rounded once.
* `view_ofNat`: whole numbers below `2 ^ 53` are doubles; from one on they are positive
  (`ofNat_pos`).
-/

namespace Chiptune.Double

open Float.Model Float.Model.UnpackedFloat

/-- A double as sign, mantissa and exponent. -/
abbrev view (x : Float) : UnpackedFloat := x.toModel.unpack

variable {x y z : Float}

/-! ## Order -/

theorem le_iff : x ≤ y ↔ (view x).le (view y) = true := by
  show decide _ = true ↔ _
  rw [decide_eq_true_iff]
  exact Iff.rfl

theorem lt_iff : x < y ↔ (view x).lt (view y) = true := by
  show decide _ = true ↔ _
  rw [decide_eq_true_iff]
  exact Iff.rfl

theorem compare_zero (u : UnpackedFloat) (s : Sign) :
    (UnpackedFloat.zero s).le u = true ↔ Unsigned u := by
  constructor
  · intro h
    cases u with
    | zero s' => exact .zero s'
    | notANumber => cases h
    | infinity s' =>
      cases s' with
      | positive => exact .infinity
      | negative => cases h
    | finite s' m e pos =>
      cases s' with
      | positive => exact .finite m e pos
      | negative => cases h
  · intro h
    cases h <;> rfl

theorem nonneg_iff : 0 ≤ x ↔ Unsigned (view x) := by
  rw [le_iff]
  exact compare_zero _ .positive

theorem pos_iff :
    0 < x ↔ view x = .infinity .positive ∨ ∃ m e pos, view x = .finite .positive m e pos := by
  rw [lt_iff]
  generalize view x = u
  constructor
  · intro h
    cases u with
    | zero s => cases h
    | notANumber => cases h
    | infinity s =>
      cases s with
      | positive => exact .inl rfl
      | negative => cases h
    | finite s m e pos =>
      cases s with
      | positive => exact .inr ⟨m, e, pos, rfl⟩
      | negative => cases h
  · rintro (rfl | ⟨m, e, pos, rfl⟩) <;> rfl

theorem le_of_lt (h : x < y) : x ≤ y := by
  rw [lt_iff, UnpackedFloat.lt, beq_iff_eq] at h
  rw [le_iff, UnpackedFloat.le, h]
  rfl

theorem isNaN_eq : x.isNaN = (view x).isNaN := rfl

theorem isNaN_of_le (h : x ≤ y) : x.isNaN = false ∧ y.isNaN = false := by
  rw [le_iff] at h
  rw [isNaN_eq, isNaN_eq]
  generalize view x = u at h ⊢
  generalize view y = v at h ⊢
  cases u with
  | notANumber => cases h
  | _ =>
    cases v with
    | notANumber => cases h
    | _ => exact ⟨rfl, rfl⟩

/-- Only what is not a number is not equal to itself. -/
theorem le_self (h : x.isNaN = false) : x ≤ x := by
  rw [isNaN_eq] at h
  rw [le_iff]
  generalize view x = u at h ⊢
  cases u with
  | notANumber => cases h
  | zero => rfl
  | infinity s => cases s <;> rfl
  | finite s m e pos =>
    cases s <;> simp [UnpackedFloat.le, UnpackedFloat.compare]

/-- The number that a double stands for, if it is finite. -/
def toRat? (x : Float) : Option ℚ :=
  match view x with
  | .zero _ => some 0
  | .finite .positive m e _ => some (value m e)
  | .finite .negative m e _ => some (-value m e)
  | _ => none

theorem toRat?_nonneg {q : ℚ} (h : 0 ≤ x) (hq : toRat? x = some q) : 0 ≤ q := by
  have unsigned := nonneg_iff.mp h
  unfold toRat? at hq
  generalize view x = u at hq unsigned
  cases unsigned with
  | zero s =>
    cases hq
    exact le_refl 0
  | finite m e pos =>
    cases hq
    exact value_nonneg m e
  | infinity => cases hq

/-! ## Least and greatest -/

theorem least_eq (x y : Float) : Scalar.least x y = x ∨ Scalar.least x y = y := by
  unfold Scalar.least
  split
  · exact .inl rfl
  · split
    · exact .inr rfl
    · exact .inl rfl

theorem greatest_eq (x y : Float) : Scalar.greatest x y = x ∨ Scalar.greatest x y = y := by
  unfold Scalar.greatest
  split
  · exact .inl rfl
  · split
    · exact .inr rfl
    · exact .inl rfl

/-- Whatever it is compared with, a number that is cut to another is at most that. -/
theorem least_le (x : Float) (h : y.isNaN = false) : Scalar.least x y ≤ y := by
  unfold Scalar.least
  split
  · exact le_of_lt ‹_›
  · rw [if_pos (le_self h)]
    exact le_self h

theorem le_greatest (x : Float) (h : y.isNaN = false) : y ≤ Scalar.greatest x y := by
  unfold Scalar.greatest
  split
  · exact le_of_lt ‹_›
  · rw [if_pos (le_self h)]
    exact le_self h

/-! ## Quotients and products -/

theorem unsigned_roundWithAccuracy (m : Nat) (e : Int) (a : Accuracy) :
    Unsigned (roundWithAccuracy .binary64 .positive m e a) :=
  .signed _ _

theorem unsigned_round (m : Nat) (e : Int) :
    Unsigned (UnpackedFloat.round .binary64 .positive m e) :=
  unsigned_roundWithAccuracy _ _ _

/-- A quotient is not below zero, unless infinity is divided by itself or zero by zero. -/
theorem div_nonneg (hx : 0 ≤ x) (hy : 0 < y) (h : x.isFinite ∨ y.isFinite) : 0 ≤ x / y := by
  rw [nonneg_iff] at hx ⊢
  have packed : view (x / y) = UnpackedFloat.unpack .binary64 (UnpackedFloat.pack .binary64
      (.div .binary64 (view x) (view y))) := rfl
  rw [packed]
  refine Unsigned.unpack_pack ?_
  have h : (view x).isFinite ∨ (view y).isFinite := h
  rcases pos_iff.mp hy with infinite | ⟨m, e, pos, finite⟩
  · rw [infinite] at h ⊢
    generalize view x = u at hx h ⊢
    cases hx with
    | zero s => exact .zero _
    | finite m e pos => exact .zero _
    | infinity => rcases h with h | h <;> cases h
  · rw [finite]
    generalize view x = u at hx ⊢
    cases hx with
    | zero s => exact .zero _
    | finite m' e' pos' => exact unsigned_roundWithAccuracy _ _ _
    | infinity => exact .infinity

/-- A product is not below zero, unless infinity is multiplied by zero. -/
theorem mul_nonneg (hx : 0 ≤ x) (hy : 0 < y) (h : y.isFinite) : 0 ≤ x * y := by
  rw [nonneg_iff] at hx ⊢
  have packed : view (x * y) = UnpackedFloat.unpack .binary64 (UnpackedFloat.pack .binary64
      (.mul .binary64 (view x) (view y))) := rfl
  rw [packed]
  refine Unsigned.unpack_pack ?_
  have h : (view y).isFinite := h
  rcases pos_iff.mp hy with infinite | ⟨m, e, pos, finite⟩
  · rw [infinite] at h
    cases h
  · rw [finite]
    generalize view x = u at hx ⊢
    cases hx with
    | zero s => exact .zero _
    | finite m' e' pos' => exact unsigned_roundWithAccuracy _ _ _
    | infinity => exact .infinity

/-! ## Sums -/

theorem normalize_pos {n : Nat} (pos : 0 < n) (e : Int) (s : Sign) :
    UnpackedFloat.normalize .binary64 n e s = UnpackedFloat.round .binary64 .positive n e := by
  have above : compare (n : Int) 0 = .gt := Int.compare_eq_gt.mpr (by omega)
  rw [UnpackedFloat.normalize, above]
  rfl

theorem add_finite {m m' : Nat} {e e' : Int} {pos : 0 < m} {pos' : 0 < m'} :
    UnpackedFloat.add .binary64 (.finite .positive m e pos) (.finite .positive m' e' pos')
      = UnpackedFloat.round .binary64 .positive
          (m <<< (e - min e e').toNat + m' <<< (e' - min e e').toNat) (min e e') := by
  refine normalize_pos ?_ _ _
  rw [Nat.shiftLeft_eq]
  positivity

theorem unsigned_add {u v : UnpackedFloat} (hu : Unsigned u) (hv : Unsigned v) :
    Unsigned (.add .binary64 u v) := by
  cases hu with
  | infinity => cases hv <;> exact .infinity
  | zero s =>
    cases hv with
    | zero s' => cases s <;> cases s' <;> exact .zero _
    | finite m e pos => exact .finite m e pos
    | infinity => exact .infinity
  | finite m e pos =>
    cases hv with
    | zero s => exact .finite m e pos
    | infinity => exact .infinity
    | finite m' e' pos' =>
      rw [add_finite]
      exact unsigned_round _ _

theorem view_add (x y : Float) :
    view (x + y) = UnpackedFloat.unpack .binary64 (UnpackedFloat.pack .binary64
      (.add .binary64 (view x) (view y))) := rfl

theorem add_nonneg (hx : 0 ≤ x) (hy : 0 ≤ y) : 0 ≤ x + y := by
  rw [nonneg_iff] at hx hy ⊢
  rw [view_add]
  exact (unsigned_add hx hy).unpack_pack

theorem le_finite {m m' : Nat} {e e' : Int} {pos : 0 < m} {pos' : 0 < m'} :
    (UnpackedFloat.finite .positive m e pos).le (.finite .positive m' e' pos') = true
      ↔ e < e' ∨ e = e' ∧ m ≤ m' := by
  show ((compare e e').then (compare m m')).isLE = true ↔ _
  rcases Int.lt_trichotomy e e' with lt | rfl | gt
  · simp [Int.compare_eq_lt.mpr lt, lt]
  · simp [Nat.isLE_compare]
  · rw [Int.compare_eq_gt.mpr gt]
    simp
    omega

/-- A bound from below stays one when a canonical number is packed. -/
theorem le_unpack_pack {m m' : Nat} {e e' : Int} {pos : 0 < m} (c : Canonical m e)
    (c' : Canonical m' e') (le : value m e ≤ value m' e') :
    (UnpackedFloat.finite .positive m e pos).le (UnpackedFloat.unpack .binary64
      (UnpackedFloat.pack .binary64 (signed .positive m' e'))) = true := by
  have pos' : 0 < m' := value_pos.mp ((value_pos.mpr pos).trans_le le)
  rw [signed_of_pos _ _ pos']
  rcases le_or_gt e' 971 with fits | huge
  · rw [unpack_pack_finite _ pos' c' fits]
    exact le_finite.mpr ((value_le_value c c').mp le)
  · rw [unpack_pack_huge _ pos' huge]
    rfl

theorem le_infinity {u : UnpackedFloat} (h : Unsigned u) :
    u.le (UnpackedFloat.unpack .binary64
      (UnpackedFloat.pack .binary64 (.infinity .positive))) = true := by
  rw [unpack_pack_infinity]
  cases h <;> rfl

/-! ## Numerals -/

/-- The powers of ten that are doubles. -/
theorem powersOfTen {k : Nat} (h : k < Float.exactlyRepresentablePowersOfTen.size) :
    0 < Float.exactlyRepresentablePowersOfTen[k] ∧
      Float.exactlyRepresentablePowersOfTen[k].isFinite := by
  have all : ∀ k : Fin 23, 0 < Float.exactlyRepresentablePowersOfTen[k] ∧
      Float.exactlyRepresentablePowersOfTen[k].isFinite := by decide +kernel
  exact all ⟨k, h⟩

theorem view_toFloat (n : UInt64) :
    view n.toFloat = UnpackedFloat.unpack .binary64 (UnpackedFloat.pack .binary64
      (UnpackedFloat.normalize .binary64 n.toNat 0 .positive)) := rfl

theorem toFloat_nonneg (n : UInt64) : 0 ≤ n.toFloat := by
  rw [nonneg_iff, view_toFloat]
  refine Unsigned.unpack_pack ?_
  rcases Nat.eq_zero_or_pos n.toNat with zero | pos
  · rw [zero]
    exact .zero .positive
  · rw [normalize_pos pos]
    exact unsigned_round _ _

theorem unsigned_ofScientific (m : Nat) (e : Int) : Unsigned (.ofScientific .binary64 m e) := by
  unfold UnpackedFloat.ofScientific
  split
  · exact .zero _
  · split
    · exact .infinity
    · split
      · exact .zero _
      · split
        · exact unsigned_roundWithAccuracy _ _ _
        · exact unsigned_roundWithAccuracy _ _ _

/-- **Numerals are not below zero**, however many digits they have. -/
theorem ofScientific_nonneg (m : Nat) (negative : Bool) (k : Nat) :
    0 ≤ Float.ofScientific m negative k := by
  unfold Float.ofScientific
  split
  · rename_i short
    have listed : k < Float.exactlyRepresentablePowersOfTen.size := by
      simp only [Float.exactlyRepresentablePowersOfTen, List.size_toArray, List.length_cons,
        List.length_nil]
      omega
    obtain ⟨pos, finite⟩ := powersOfTen listed
    split
    · exact div_nonneg (toFloat_nonneg _) pos (.inr finite)
    · exact mul_nonneg (toFloat_nonneg _) pos finite
  · rw [nonneg_iff]
    exact (unsigned_ofScientific _ _).unpack_pack

theorem ofNat_nonneg (n : Nat) : 0 ≤ Float.ofNat n := ofScientific_nonneg n false 0

/-! ## Whole numbers -/

/-- A product is rounded once. -/
theorem nearest_mul (s s' : Sign) {m m' : Nat} {e e' : Int} (pos : 0 < m) (pos' : 0 < m')
    (c : Canonical m e) (c' : Canonical m' e') :
    ∃ m'' e'', UnpackedFloat.mul .binary64 (.finite s m e pos) (.finite s' m' e' pos')
        = signed (s * s') m'' e'' ∧ Nearest (value m e * value m' e') m'' e'' := by
  have lowest := c.le_exponent
  have lowest' := c'.le_exponent
  have bits : 52 ≤ (m * m').log2 ∨ e + e' ≤ -1074 := by
    rcases c.normal with full | low
    · exact .inl ((Nat.le_log2 (by positivity)).mpr (full.trans (Nat.le_mul_of_pos_right m pos')))
    · rcases c'.normal with full | low'
      · exact .inl ((Nat.le_log2 (by positivity)).mpr (full.trans (Nat.le_mul_of_pos_left m' pos)))
      · exact .inr (by omega)
  have enough : e + e' ≤ target (m * m') (e + e') := by
    rw [target_eq]
    omega
  have exact : Locates .exact (m * m') ((m * m' : Nat) : ℚ) := rfl
  have product : ((m * m' : Nat) : ℚ) * 2 ^ (e + e') = value m e * value m' e' := by
    rw [value, value, zpow_add₀ (by norm_num)]
    push_cast
    ring
  rw [← product]
  exact nearest_roundWithAccuracy (s * s') exact enough

/-- A quotient has as many bits as its operands differ by, or one less. -/
theorem log2_le_log2_div (m : Nat) {d : Nat} (pos : 0 < d) :
    m.log2 ≤ (m / d).log2 + d.log2 + 1 := by
  rcases Nat.eq_zero_or_pos m with rfl | nonzero
  · rw [Nat.log2_zero]
    exact Nat.zero_le _
  · have quotient : m / d + 1 ≤ 2 ^ ((m / d).log2 + 1) := Nat.lt_log2_self
    have divisor : d < 2 ^ (d.log2 + 1) := Nat.lt_log2_self
    have below : m < 2 ^ ((m / d).log2 + d.log2 + 1 + 1) :=
      calc m < (m / d + 1) * d := (Nat.div_lt_iff_lt_mul pos).mp (Nat.lt_succ_self _)
        _ ≤ 2 ^ ((m / d).log2 + 1) * 2 ^ (d.log2 + 1) := Nat.mul_le_mul quotient divisor.le
        _ = 2 ^ ((m / d).log2 + d.log2 + 1 + 1) := by
          rw [← pow_add]
          congr 1
          omega
    exact Nat.le_of_lt_succ ((Nat.log2_lt nonzero.ne').mpr below)

/-- A quotient is rounded once. -/
theorem nearest_div (s s' : Sign) {m m' : Nat} (e e' : Int) (pos : 0 < m) (pos' : 0 < m') :
    ∃ m'' e'', UnpackedFloat.div .binary64 (.finite s m e pos) (.finite s' m' e' pos')
        = signed (s / s') m'' e'' ∧ Nearest (value m e / value m' e') m'' e'' := by
  -- The dividend is moved up by `k` bits, so that the quotient has enough of them.
  obtain ⟨t, ht⟩ : ∃ t, min (e - e') (Format.binary64.targetExponent
      (totalExponent m e - totalExponent m' e')) = t := ⟨_, rfl⟩
  obtain ⟨k, hk⟩ : ∃ k, (e - e' - t).toNat = k := ⟨_, rfl⟩
  have quotient : UnpackedFloat.div .binary64 (.finite s m e pos) (.finite s' m' e' pos')
      = roundWithAccuracy .binary64 (s / s') (m <<< k / m') t
          (accuracyOfFraction (m <<< k % m') m') := by
    subst hk ht
    rfl
  have enough : t ≤ target (m <<< k / m') t := by
    have bits := log2_le_log2_div (m <<< k) pos'
    have aim : Format.binary64.targetExponent (totalExponent m e - totalExponent m' e')
        = max ((m.log2 + 1 + e) - (m'.log2 + 1 + e') - 53) (-1074) := rfl
    rw [log2_shiftLeft pos] at bits
    rw [aim] at ht
    rw [target_eq]
    omega
  have exact : ((m <<< k : Nat) : ℚ) / m' * 2 ^ t = value m e / value m' e' := by
    have up := value_shiftLeft m k (e - e')
    have start : e - e' - k = t := by omega
    rw [start, value, value, zpow_sub₀ (by norm_num)] at up
    rw [div_mul_eq_mul_div, up, value, value]
    field_simp
  rw [quotient, ← exact]
  exact nearest_roundWithAccuracy (s / s') (locates_quotient (m <<< k) pos') enough

theorem value_one : value (2 ^ 52) (-52) = 1 := by norm_num [value]

/-- Multiplying by one changes nothing. -/
theorem mul_one_finite {m : Nat} {e : Int} {pos : 0 < m} (c : Canonical m e) :
    UnpackedFloat.mul .binary64 (.finite .positive m e pos)
        (.finite .positive (2 ^ 52) (-52) (Nat.two_pow_pos 52))
      = .finite .positive m e pos := by
  have one : Canonical (2 ^ 52) (-52) := canonical_smallest (by omega)
  obtain ⟨m', e', rounded, nearest⟩ :=
    nearest_mul .positive .positive pos (Nat.two_pow_pos 52) c one
  rw [value_one, mul_one] at nearest
  obtain ⟨rfl, rfl⟩ := nearest.unique c
  exact rounded.trans (signed_of_pos _ _ pos)

/-- A whole number below `2 ^ 53` is a double: it is moved up until it has all 53 bits. -/
theorem exists_canonical {n : Nat} (pos : 1 ≤ n) (lt : n < 2 ^ 53) :
    ∃ m e, Canonical m e ∧ e ≤ 971 ∧ value m e = n := by
  have bits : n.log2 < 53 := (Nat.log2_lt (by omega)).mpr lt
  obtain ⟨k, hk⟩ : ∃ k, n.log2 + k = 52 := ⟨52 - n.log2, by omega⟩
  have long : (n <<< k).log2 = 52 := by rw [log2_shiftLeft pos, hk]
  have nonzero : n <<< k ≠ 0 := by
    rw [Nat.shiftLeft_eq]
    positivity
  obtain ⟨full, short⟩ := (Nat.log2_eq_iff nonzero).mp long
  refine ⟨n <<< k, 0 - k, ⟨short, by omega, .inl full⟩, by omega, ?_⟩
  rw [value_shiftLeft, value, zpow_zero, mul_one]

/-- Whole numbers below `2 ^ 53` are converted as they are. -/
theorem view_toFloat_pos {n : Nat} (pos : 1 ≤ n) (lt : n < 2 ^ 53) :
    ∃ m e pos, view n.toUInt64.toFloat = .finite .positive m e pos ∧ Canonical m e ∧ e ≤ 971 ∧
      value m e = n := by
  have whole : n.toUInt64.toNat = n := Nat.mod_eq_of_lt (by omega)
  obtain ⟨m, e, c, fits, same⟩ := exists_canonical pos lt
  obtain ⟨m', e', rounded, nearest⟩ := nearest_round .positive pos 0
  have exact : value n 0 = value m e := by rw [same, value, zpow_zero, mul_one]
  rw [exact] at nearest
  obtain ⟨rfl, rfl⟩ := nearest.unique c
  have pos' : 0 < m' := value_pos.mp (by rw [same]; exact_mod_cast pos)
  refine ⟨m', e', pos', ?_, c, fits, same⟩
  rw [view_toFloat, whole, normalize_pos pos, rounded, signed_of_pos _ _ pos',
    unpack_pack_finite _ pos' c fits]

theorem view_one : view (Float.ofBits 0x3FF0000000000000)
    = .finite .positive (2 ^ 52) (-52) (Nat.two_pow_pos 52) := by
  have fields : (0x3FF0000000000000 : UInt64).toBitVec
      = packComponents .binary64 .positive 1023#11 0#52 := by decide
  have unpacked : UnpackedFloat.unpack .binary64 (0x3FF0000000000000 : UInt64).toBitVec
      = .finite .positive (2 ^ 52) (-52) (Nat.two_pow_pos 52) := by
    rw [fields, unpack_packComponents, ofFields, if_neg (by decide), if_neg (by decide)]
    rfl
  have packed : view (Float.ofBits 0x3FF0000000000000) = UnpackedFloat.unpack .binary64
      (UnpackedFloat.pack .binary64
        (UnpackedFloat.unpack .binary64 (0x3FF0000000000000 : UInt64).toBitVec)) := rfl
  rw [packed, unpacked,
    unpack_pack_finite _ (by norm_num) (canonical_smallest (by omega)) (by omega)]

/-- **Whole numbers below `2 ^ 53` are doubles.** -/
theorem view_ofNat {n : Nat} (pos : 1 ≤ n) (lt : n < 2 ^ 53) :
    ∃ m e pos, view (Float.ofNat n) = .finite .positive m e pos ∧ Canonical m e ∧
      value m e = n := by
  obtain ⟨m, e, pos', viewed, c, fits, same⟩ := view_toFloat_pos pos lt
  have product : Float.ofNat n = n.toUInt64.toFloat * Float.ofBits 0x3FF0000000000000 := by
    show Float.ofScientific n false 0 = _
    rw [Float.ofScientific, dif_pos ⟨lt, by omega⟩]
    rfl
  have packed : view (Float.ofNat n) = UnpackedFloat.unpack .binary64
      (UnpackedFloat.pack .binary64 (.mul .binary64 (view n.toUInt64.toFloat)
        (view (Float.ofBits 0x3FF0000000000000)))) := by
    rw [product]
    rfl
  refine ⟨m, e, pos', ?_, c, same⟩
  rw [packed, viewed, view_one, mul_one_finite c, unpack_pack_finite _ pos' c fits]

/-- Whole numbers from one on are positive. -/
theorem ofNat_pos {n : Nat} (pos : 1 ≤ n) (lt : n < 2 ^ 53) :
    0 < Float.ofNat n ∧ (Float.ofNat n).isFinite := by
  obtain ⟨m, e, pos', viewed, -⟩ := view_ofNat pos lt
  refine ⟨pos_iff.mpr (.inr ⟨m, e, pos', viewed⟩), ?_⟩
  show (view (Float.ofNat n)).isFinite
  rw [viewed]
  rfl

end Chiptune.Double
