import Chiptune.Proofs.Double.Arithmetic

/-!
# Monotone arithmetic

Sums, products and quotients of doubles that are not below zero keep their order, through every
rounding, overflow to infinity and underflow to zero.

* `extent`: what a double stands for as an extended number. It has the order of doubles
  (`extent_mono`).
* `RoundsTo`: the double that an extended number is rounded to. It is monotone (`RoundsTo.le`).
* `roundsTo_add`, `roundsTo_mul`, `roundsTo_div`: each operation rounds what it is on extended
  numbers, where infinity meets neither zero nor infinity.
* `add_mono`, `mul_mono`, `div_mono`: hence each operation is monotone.
* `toCount_mono`, `ofNat_mono`: so are the conversions from and to counts.
-/

namespace Chiptune.Double

open Float.Model Float.Model.UnpackedFloat
open scoped ENNReal

/-! ## Extended numbers -/

/-- What a double that is not below zero is unpacked to. -/
inductive Magnitude : UnpackedFloat → Prop
  | zero (s : Sign) : Magnitude (.zero s)
  | finite {m : Nat} {e : Int} (pos : 0 < m) (c : Canonical m e) (fits : e ≤ 971) :
      Magnitude (.finite .positive m e pos)
  | infinity : Magnitude (.infinity .positive)

/-- What it stands for. -/
noncomputable def extent : UnpackedFloat → ℝ≥0∞
  | .zero _ | .notANumber => 0
  | .finite _ m e _ => ENNReal.ofReal (value m e)
  | .infinity _ => ⊤

variable {x x' y y' z : Float} {u v : UnpackedFloat}

theorem magnitude_of_nonneg (h : 0 ≤ x) : Magnitude (view x) := by
  have unsigned := nonneg_iff.mp h
  cases unpacked : view x with
  | zero s => exact .zero s
  | notANumber =>
    rw [unpacked] at unsigned
    cases unsigned
  | infinity s =>
    rw [unpacked] at unsigned
    cases unsigned
    exact .infinity
  | finite s m e pos =>
    obtain ⟨c, fits⟩ := canonical_unpack unpacked
    rw [unpacked] at unsigned
    cases unsigned
    exact .finite pos c fits

theorem Magnitude.extent_le (hu : Magnitude u) (hv : Magnitude v) (le : u.le v = true) :
    extent u ≤ extent v := by
  cases hu with
  | zero s => exact bot_le
  | infinity =>
    cases hv with
    | infinity => exact le_rfl
    | _ => cases le
  | finite pos c fits =>
    cases hv with
    | zero s => cases le
    | infinity => exact le_top
    | finite pos' c' fits' =>
      have le := (value_le_value c c').mpr (le_finite.mp le)
      exact ENNReal.ofReal_le_ofReal (Rat.cast_le.mpr le)

theorem nonneg_of_le (hx : 0 ≤ x) (le : x ≤ y) : 0 ≤ y := by
  have hu := nonneg_iff.mp hx
  rw [le_iff] at le
  rw [nonneg_iff]
  generalize view x = u at hu le
  generalize view y = v at le ⊢
  cases hu <;> cases v with
  | zero s => exact .zero s
  | notANumber => cases le
  | infinity s => cases s <;> first | exact .infinity | cases le
  | finite s m e pos => cases s <;> first | exact .finite m e pos | cases le

theorem pos_of_le (pos : 0 < x) (le : x ≤ y) : 0 < y := by
  rw [le_iff] at le
  rw [pos_iff] at pos ⊢
  generalize view y = v at le ⊢
  rcases pos with infinite | ⟨m, e, pos, finite⟩
  · rw [infinite] at le
    cases v with
    | infinity s => cases s <;> first | exact .inl rfl | cases le
    | _ => cases le
  · rw [finite] at le
    cases v with
    | infinity s => cases s <;> first | exact .inl rfl | cases le
    | finite s m e pos => cases s <;> first | exact .inr ⟨m, e, pos, rfl⟩ | cases le
    | _ => cases le

/-- **The extended numbers have the order of doubles.** -/
theorem extent_mono (hx : 0 ≤ x) (le : x ≤ y) : extent (view x) ≤ extent (view y) := by
  have hy : 0 ≤ y := nonneg_of_le hx le
  exact (magnitude_of_nonneg hx).extent_le (magnitude_of_nonneg hy) (le_iff.mp le)

/-! ## Rounding -/

/-- The unpacked number that is packed for an extended number. -/
inductive RoundsTo : ℝ≥0∞ → UnpackedFloat → Prop
  | zero (s : Sign) : RoundsTo 0 (.zero s)
  | nearest {x : ℚ} {m : Nat} {e : Int} (nonneg : 0 ≤ x) (h : Nearest x m e) :
      RoundsTo (ENNReal.ofReal x) (signed .positive m e)
  | infinity : RoundsTo ⊤ (.infinity .positive)

/-- What is packed and unpacked again. -/
abbrev stored (u : UnpackedFloat) : UnpackedFloat :=
  UnpackedFloat.unpack .binary64 (UnpackedFloat.pack .binary64 u)

theorem RoundsTo.unsigned {x : ℝ≥0∞} (h : RoundsTo x u) : Unsigned u := by
  cases h with
  | zero s => exact .zero s
  | nearest nonneg h => exact .signed _ _
  | infinity => exact .infinity

theorem signed_zero (s : Sign) (e : Int) : signed s 0 e = .zero s := dif_pos rfl

theorem stored_zero (s : Sign) : stored (.zero s) = .zero s := by
  cases s <;> rfl

/-- Canonical numbers keep their order when they are packed, also where they become infinite. -/
theorem le_stored {m m' : Nat} {e e' : Int} (c : Canonical m e) (c' : Canonical m' e')
    (le : value m e ≤ value m' e') :
    (stored (signed .positive m e)).le (stored (signed .positive m' e')) = true := by
  rcases Nat.eq_zero_or_pos m with rfl | pos
  · rw [signed_zero, stored_zero]
    exact (compare_zero _ .positive).mpr (Unsigned.signed m' e').unpack_pack
  rcases le_or_gt e 971 with fits | huge
  · rw [signed_of_pos _ _ pos, stored, unpack_pack_finite _ pos c fits]
    exact le_unpack_pack c c' le
  · have pos' : 0 < m' := value_pos.mp ((value_pos.mpr pos).trans_le le)
    have larger := (value_le_value c c').mp le
    rw [signed_of_pos _ _ pos, signed_of_pos _ _ pos', stored, unpack_pack_huge _ pos huge, stored,
      unpack_pack_huge _ pos' (by omega)]
    rfl

theorem canonical_zero : Canonical 0 (-1074) := ⟨by norm_num, le_refl _, .inr rfl⟩

theorem Nearest.eq_zero {m : Nat} {e : Int} (h : Nearest 0 m e) : m = 0 := by
  have zero : value 0 (-1074) = 0 := by rw [value, Nat.cast_zero, zero_mul]
  rw [← zero] at h
  exact (h.unique canonical_zero).1

/-- **Rounding keeps the order**, through overflow and underflow as well. -/
theorem RoundsTo.le {x y : ℝ≥0∞} (hu : RoundsTo x u) (hv : RoundsTo y v) (le : x ≤ y) :
    (stored u).le (stored v) = true := by
  have unsigned := hv.unsigned.unpack_pack
  cases hv with
  | infinity => exact le_infinity hu.unsigned.unpack_pack
  | zero s =>
    cases hu with
    | infinity => exact absurd le (by simp)
    | zero s' =>
      rw [stored_zero]
      exact (compare_zero _ s').mpr unsigned
    | nearest nonneg h =>
      have none := Rat.cast_nonpos.mp (ENNReal.ofReal_eq_zero.mp (le_zero_iff.mp le))
      obtain rfl := le_antisymm none nonneg
      obtain rfl := h.eq_zero
      rw [signed_zero, stored_zero]
      exact (compare_zero _ .positive).mpr unsigned
  | nearest nonneg' h' =>
    cases hu with
    | infinity => exact absurd le (by simp)
    | zero s =>
      rw [stored_zero]
      exact (compare_zero _ s).mpr unsigned
    | nearest nonneg h =>
      have le := (ENNReal.ofReal_le_ofReal_iff (Rat.cast_nonneg.mpr nonneg')).mp le
      exact le_stored h.canonical h'.canonical (h.mono h' (Rat.cast_le.mp le))

/-! ## Operations -/

theorem cast_value_nonneg (m : Nat) (e : Int) : (0 : ℝ) ≤ (value m e : ℚ) :=
  Rat.cast_nonneg.mpr (value_nonneg m e)

theorem cast_value_pos {m : Nat} {e : Int} (pos : 0 < m) : (0 : ℝ) < (value m e : ℚ) :=
  Rat.cast_pos.mpr (value_pos.mpr pos)

theorem roundsTo_finite {m : Nat} {e : Int} {pos : 0 < m} (c : Canonical m e) :
    RoundsTo (ENNReal.ofReal (value m e : ℚ)) (.finite .positive m e pos) := by
  rw [← signed_of_pos _ _ pos]
  exact .nearest (value_nonneg m e) c.nearest

theorem roundsTo_add (hu : Magnitude u) (hv : Magnitude v) :
    RoundsTo (extent u + extent v) (.add .binary64 u v) := by
  cases hu with
  | infinity =>
    rw [extent, top_add]
    cases hv <;> exact .infinity
  | zero s =>
    rw [extent, zero_add]
    cases hv with
    | zero s' => cases s <;> cases s' <;> exact .zero _
    | infinity => exact .infinity
    | finite pos c fits => exact roundsTo_finite c
  | finite pos c fits =>
    cases hv with
    | zero s =>
      rw [extent, extent, add_zero]
      exact roundsTo_finite c
    | infinity =>
      rw [extent, extent, add_top]
      exact .infinity
    | finite pos' c' fits' =>
      rename_i m e m' e'
      have sum : value (m <<< (e - min e e').toNat + m' <<< (e' - min e e').toNat) (min e e')
          = value m e + value m' e' := by
        rw [value_add, value_shifted _ (min_le_left ..), value_shifted _ (min_le_right ..)]
      have some : 0 < m <<< (e - min e e').toNat + m' <<< (e' - min e e').toNat := by
        rw [Nat.shiftLeft_eq]
        positivity
      obtain ⟨m'', e'', rounded, nearest⟩ := nearest_round .positive some (min e e')
      rw [sum] at nearest
      rw [add_finite, rounded, extent, extent,
        ← ENNReal.ofReal_add (cast_value_nonneg m e) (cast_value_nonneg m' e'), ← Rat.cast_add]
      exact .nearest (Rat.add_nonneg (value_nonneg m e) (value_nonneg m' e')) nearest

/-- A product rounds that of the extended numbers, if one factor is neither zero nor infinite. -/
theorem roundsTo_mul (hu : Magnitude u) (hv : Magnitude v) (pos : extent v ≠ 0)
    (finite : extent v ≠ ⊤) : RoundsTo (extent u * extent v) (.mul .binary64 u v) := by
  cases hv with
  | zero s => exact absurd rfl pos
  | infinity => exact absurd rfl finite
  | finite pos' c' fits' =>
    cases hu with
    | zero s =>
      rw [extent, zero_mul]
      exact .zero _
    | infinity =>
      have top : extent (.infinity .positive) = ⊤ := rfl
      rw [top, ENNReal.top_mul pos]
      exact .infinity
    | finite pos c fits =>
      obtain ⟨m'', e'', rounded, nearest⟩ := nearest_mul .positive .positive pos pos' c c'
      rw [rounded, extent, extent, ← ENNReal.ofReal_mul (cast_value_nonneg _ _), ← Rat.cast_mul]
      exact .nearest (Rat.mul_nonneg (value_nonneg _ _) (value_nonneg _ _)) nearest

/-- A quotient rounds that of the extended numbers, unless zero is divided by zero or infinity by
infinity. -/
theorem roundsTo_div (hu : Magnitude u) (hv : Magnitude v) (pos : extent v ≠ 0)
    (h : extent u ≠ ⊤ ∨ extent v ≠ ⊤) :
    RoundsTo (extent u / extent v) (.div .binary64 u v) := by
  cases hv with
  | zero s => exact absurd rfl pos
  | infinity =>
    rw [extent, ENNReal.div_top]
    cases hu with
    | infinity => exact absurd h (by simp [extent])
    | zero s => exact .zero _
    | finite pos c fits => exact .zero _
  | finite pos' c' fits' =>
    cases hu with
    | zero s =>
      rw [extent, ENNReal.zero_div]
      exact .zero _
    | infinity =>
      rw [extent, extent, ENNReal.top_div_of_ne_top ENNReal.ofReal_ne_top]
      exact .infinity
    | finite pos c fits =>
      obtain ⟨m'', e'', rounded, nearest⟩ := nearest_div .positive .positive _ _ pos pos'
      rw [rounded, extent, extent, ← ENNReal.ofReal_div_of_pos (cast_value_pos pos'),
        ← Rat.cast_div]
      exact .nearest (Rat.div_nonneg (value_nonneg _ _) (value_nonneg _ _)) nearest

/-! ## Order -/

theorem extent_ne_zero (pos : 0 < x) : extent (view x) ≠ 0 := by
  rcases pos_iff.mp pos with infinite | ⟨m, e, pos, finite⟩
  · rw [infinite]
    exact ENNReal.top_ne_zero
  · rw [finite]
    exact (ENNReal.ofReal_pos.mpr (cast_value_pos pos)).ne'

theorem extent_ne_top (finite : x.isFinite) : extent (view x) ≠ ⊤ := by
  have finite : (view x).isFinite := finite
  cases unpacked : view x with
  | infinity s =>
    rw [unpacked] at finite
    cases finite
  | finite s m e pos => exact ENNReal.ofReal_ne_top
  | _ => exact ENNReal.zero_ne_top

/-- **Sums are monotone.** -/
theorem add_mono (hx : 0 ≤ x) (hy : 0 ≤ y) (le : x ≤ x') (le' : y ≤ y') : x + y ≤ x' + y' := by
  have sum := roundsTo_add (magnitude_of_nonneg hx) (magnitude_of_nonneg hy)
  have sum' := roundsTo_add (magnitude_of_nonneg (nonneg_of_le hx le))
    (magnitude_of_nonneg (nonneg_of_le hy le'))
  exact le_iff.mpr (sum.le sum' (add_le_add (extent_mono hx le) (extent_mono hy le')))

theorem stored_self (h : Magnitude u) : stored u = u := by
  cases h with
  | zero s => exact stored_zero s
  | finite pos c fits => exact unpack_pack_finite _ pos c fits
  | infinity => exact unpack_pack_infinity _

theorem roundsTo_self (h : Magnitude u) : RoundsTo (extent u) u := by
  cases h with
  | zero s => exact .zero s
  | finite pos c fits => exact roundsTo_finite c
  | infinity => exact .infinity

/-- Doubles that are not below zero have the order of what they stand for. -/
theorem le_of_extent_le (hx : 0 ≤ x) (hy : 0 ≤ y) (le : extent (view x) ≤ extent (view y)) :
    x ≤ y := by
  have hu := magnitude_of_nonneg hx
  have hv := magnitude_of_nonneg hy
  have stored := (roundsTo_self hu).le (roundsTo_self hv) le
  rw [stored_self hu, stored_self hv] at stored
  exact le_iff.mpr stored

theorem le_trans_of_nonneg (hx : 0 ≤ x) (le : x ≤ y) (le' : y ≤ z) : x ≤ z := by
  have hy := nonneg_of_le hx le
  exact le_of_extent_le hx (nonneg_of_le hy le')
    ((extent_mono hx le).trans (extent_mono hy le'))

/-- **Adding what is not below zero does not make less**, with rounding as well. -/
theorem le_add (hx : 0 ≤ x) (hy : 0 ≤ y) : y ≤ x + y := by
  have hv := magnitude_of_nonneg hy
  have sum := roundsTo_add (magnitude_of_nonneg hx) hv
  have le := (roundsTo_self hv).le sum le_add_self
  rw [stored_self hv] at le
  exact le_iff.mpr le

theorem le_add_right (hx : 0 ≤ x) (hy : 0 ≤ y) : x ≤ x + y := by
  have hu := magnitude_of_nonneg hx
  have sum := roundsTo_add hu (magnitude_of_nonneg hy)
  have le := (roundsTo_self hu).le sum le_self_add
  rw [stored_self hu] at le
  exact le_iff.mpr le

theorem extent_ofNat {n : Nat} (pos : 1 ≤ n) (lt : n < 2 ^ 53) :
    extent (view (Float.ofNat n)) = n := by
  obtain ⟨m, e, _, viewed, -, same⟩ := view_ofNat pos lt
  rw [viewed, extent, same, Rat.cast_natCast, ENNReal.ofReal_natCast]

/-- Multiplying by one or more does not make less. -/
theorem le_mul (hx : 0 ≤ x) (one : 1 ≤ y) (finite : y.isFinite) : x ≤ x * y := by
  have hu := magnitude_of_nonneg hx
  have factor : 1 ≤ extent (view y) := by
    rw [← Nat.cast_one, ← extent_ofNat le_rfl (by norm_num)]
    exact extent_mono (ofNat_nonneg 1) one
  have product := roundsTo_mul hu (magnitude_of_nonneg (nonneg_of_le (ofNat_nonneg 1) one))
    (ne_bot_of_le_ne_bot one_ne_zero factor) (extent_ne_top finite)
  have le := (roundsTo_self hu).le product (le_mul_of_one_le_right' factor)
  rw [stored_self hu] at le
  exact le_iff.mpr le

/-- **Products are monotone**, where infinity is not multiplied by zero. -/
theorem mul_mono (hx : 0 ≤ x) (pos : 0 < y) (le : x ≤ x') (le' : y ≤ y') (finite : y'.isFinite) :
    x * y ≤ x' * y' := by
  have hy : 0 ≤ y := le_of_lt pos
  have larger := extent_mono hy le'
  have nonzero := extent_ne_zero pos
  have finite := extent_ne_top finite
  have product := roundsTo_mul (magnitude_of_nonneg hx) (magnitude_of_nonneg hy) nonzero
    (ne_top_of_le_ne_top finite larger)
  have product' := roundsTo_mul (magnitude_of_nonneg (nonneg_of_le hx le))
    (magnitude_of_nonneg (nonneg_of_le hy le')) (ne_bot_of_le_ne_bot nonzero larger) finite
  exact le_iff.mpr (product.le product' (mul_le_mul' (extent_mono hx le) larger))

/-- **Quotients are monotone in the dividend and antitone in the divisor**, where neither zero is
divided by zero nor infinity by infinity. -/
theorem div_mono (hx : 0 ≤ x) (pos : 0 < y) (le : x ≤ x') (le' : y ≤ y')
    (finite : x'.isFinite ∨ y'.isFinite) : x / y' ≤ x' / y := by
  have hy : 0 ≤ y := le_of_lt pos
  have dividend := extent_mono hx le
  have divisor := extent_mono hy le'
  have nonzero := extent_ne_zero pos
  have finite := finite.imp extent_ne_top extent_ne_top
  have quotient := roundsTo_div (magnitude_of_nonneg hx)
    (magnitude_of_nonneg (nonneg_of_le hy le')) (ne_bot_of_le_ne_bot nonzero divisor)
    (finite.imp_left fun h => ne_top_of_le_ne_top h dividend)
  have quotient' := roundsTo_div (magnitude_of_nonneg (nonneg_of_le hx le))
    (magnitude_of_nonneg hy) nonzero (finite.imp_right fun h => ne_top_of_le_ne_top h divisor)
  exact le_iff.mpr (quotient.le quotient' (ENNReal.div_le_div dividend divisor))

/-! ## Counts -/

/-- Bits behind the point are shifted out. -/
theorem roundToInt_eq (m : Nat) (e : Int) : roundToInt .positive m e = ⌊value m e⌋₊ := by
  obtain ⟨k, hk⟩ : ∃ k, (e - 0).toNat = k := ⟨_, rfl⟩
  obtain ⟨n, hn⟩ : ∃ n, (0 - (e - k)).toNat = n := ⟨_, rfl⟩
  have shifts : roundToInt .positive m e
      = (ExtendedMantissa.ofMantissaAndAccuracy (m <<< k) .exact >>> n).mantissa := by
    subst hn hk
    rfl
  have whole : ((m <<< k : Nat) : ℚ) / 2 ^ n = value m e := by
    have low : e - k = -(n : Int) := by omega
    rw [← value_shiftLeft m k e, low, value, zpow_neg, zpow_natCast, div_eq_mul_inv]
  have exact : Locates (ExtendedMantissa.ofMantissaAndAccuracy (m <<< k) .exact).accuracy
      (ExtendedMantissa.ofMantissaAndAccuracy (m <<< k) .exact).mantissa (m <<< k : Nat) := rfl
  have shifted := (exact.shiftRight n).approximates
  rw [whole] at shifted
  rw [shifts, (Nat.floor_eq_iff (value_nonneg m e)).mpr ⟨shifted.le, shifted.lt⟩]

theorem toNat_ofNatClamp (n : Nat) : (UInt64.ofNatClamp n).toNat = min n maxCount := by
  have size : UInt64.size = maxCount + 1 := rfl
  unfold UInt64.ofNatClamp
  split
  · rw [UInt64.toNat_ofNatLT, Nat.min_eq_left (by omega)]
  · rw [UInt64.toNat_ofNatLT, Nat.min_eq_right (by omega)]
    rfl

/-- The count of a finite double is its whole part. -/
theorem toUInt64_finite {m : Nat} {e : Int} {pos : 0 < m} :
    (UnpackedFloat.finite .positive m e pos).toUInt64.toNat = min ⌊value m e⌋₊ maxCount := by
  have count : (UnpackedFloat.finite .positive m e pos).toUInt64
      = .ofNatClamp (roundToInt .positive m e).toNat := rfl
  rw [count, roundToInt_eq, Int.toNat_natCast, toNat_ofNatClamp]

theorem Magnitude.toUInt64_le (hu : Magnitude u) (hv : Magnitude v) (le : u.le v = true) :
    u.toUInt64.toNat ≤ v.toUInt64.toNat := by
  cases hu with
  | zero s => exact Nat.zero_le _
  | infinity =>
    cases hv with
    | infinity => exact Nat.le_refl _
    | _ => cases le
  | finite pos c fits =>
    cases hv with
    | zero s => cases le
    | infinity =>
      rw [toUInt64_finite]
      exact Nat.min_le_right ..
    | finite pos' c' fits' =>
      have le := (value_le_value c c').mpr (le_finite.mp le)
      rw [toUInt64_finite, toUInt64_finite]
      exact min_le_min_right _ (Nat.floor_mono le)

/-- **Counts are monotone**, up to the last one. -/
theorem toCount_mono (hx : 0 ≤ x) (le : x ≤ y) : Scalar.toCount x ≤ Scalar.toCount y :=
  (magnitude_of_nonneg hx).toUInt64_le (magnitude_of_nonneg (nonneg_of_le hx le)) (le_iff.mp le)

/-- **Whole numbers below `2 ^ 53` keep their order.** -/
theorem ofNat_mono {m n : Nat} (pos : 1 ≤ m) (le : m ≤ n) (lt : n < 2 ^ 53) :
    Float.ofNat m ≤ Float.ofNat n := by
  refine le_of_extent_le (ofNat_nonneg m) (ofNat_nonneg n) ?_
  rw [extent_ofNat pos (le.trans_lt lt), extent_ofNat (pos.trans le) lt]
  exact Nat.cast_le.mpr le

end Chiptune.Double
