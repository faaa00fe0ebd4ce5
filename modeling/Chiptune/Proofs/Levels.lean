import Chiptune.Proofs.Double.Signed
import Chiptune.Proofs.Silence
import Chiptune.Render

/-!
# Levels

Whatever double a sample is, its level is a whole number from `-32767` to `32767`, and a higher
sample has no lower level. Rounding the scaled sample does not pass `32767`, which is a double, and
the floor of what it comes to does not either; `-32768` is one step further down.

* `toRat?_clampUnit`: an infinite sample is clamped as well, so every number comes to a finite one.
* `exists_level`: what the level of a number is.
* `Pcm.pairs`: bytes read in pairs.
* `Rendering.levels_inRange`: the result, up to the bytes of a rendering.
-/

namespace Chiptune

open Double Float.Model Float.Model.UnpackedFloat

variable {x y : Float} {q r : ℚ}

/-! ## Clamped samples -/

theorem toRat?_one : toRat? (1 : Float) = some 1 := by
  rw [← Nat.cast_one]
  exact toRat?_ofNat (by norm_num)

theorem toRat?_neg_one : toRat? (-1 : Float) = some (-1) := toRat?_neg toRat?_one

theorem finite_or_infinity (h : x.isNaN = false) :
    (∃ q, toRat? x = some q) ∨ ∃ s, view x = .infinity s := by
  rw [isNaN_eq] at h
  unfold toRat?
  generalize view x = u at h ⊢
  cases u with
  | notANumber => cases h
  | infinity s => exact .inr ⟨s, rfl⟩
  | zero s => exact .inl ⟨0, rfl⟩
  | finite s m e pos => cases s <;> exact .inl ⟨_, rfl⟩

theorem toRat?_clampUnit (hq : toRat? x = some q) :
    toRat? (Scalar.clampUnit x) = some (max (-1) (min 1 q)) := by
  have low : x < -1 ↔ q < -1 := lt_iff_lt hq toRat?_neg_one
  have high : 1 < x ↔ 1 < q := lt_iff_lt toRat?_one hq
  unfold Scalar.clampUnit
  split
  · rename_i below
    have below := low.mp below
    rw [min_eq_right (by linarith), max_eq_left below.le]
    exact toRat?_neg_one
  · rename_i above
    have above := not_lt.mp (mt low.mpr above)
    split
    · rename_i loud
      have loud := high.mp loud
      rw [min_eq_left loud.le, max_eq_right (by norm_num)]
      exact toRat?_one
    · rename_i quiet
      have quiet := not_lt.mp (mt high.mpr quiet)
      rw [min_eq_right quiet, max_eq_right above]
      exact hq

theorem infinity_lt {s : UnpackedFloat.Sign} (h : view x = .infinity s) (hq : toRat? y = some q) :
    (x < y ↔ s = .negative) ∧ (y < x ↔ s = .positive) := by
  rw [lt_iff, lt_iff, h]
  unfold toRat? at hq
  generalize view y = v at hq ⊢
  cases v with
  | notANumber => cases hq
  | infinity s => cases hq
  | zero s' => cases s <;> simp [UnpackedFloat.lt, UnpackedFloat.compare]
  | finite s' m e pos => cases s <;> cases s' <;> simp [UnpackedFloat.lt, UnpackedFloat.compare]

/-- What is infinite is clamped to one of its sign. -/
theorem toRat?_clampUnit_infinity {s : UnpackedFloat.Sign} (h : view x = .infinity s) :
    toRat? (Scalar.clampUnit x) = some (factor s) := by
  have low : x < -1 ↔ s = .negative := (infinity_lt h toRat?_neg_one).1
  have high : 1 < x ↔ s = .positive := (infinity_lt h toRat?_one).2
  unfold Scalar.clampUnit
  cases s with
  | negative =>
    rw [if_pos (low.mpr rfl)]
    exact toRat?_neg_one
  | positive =>
    rw [if_neg (mt low.mp nofun), if_pos (high.mpr rfl)]
    exact toRat?_one

/-- Every number is clamped to a finite one. -/
theorem exists_clampUnit (h : x.isNaN = false) :
    ∃ q, toRat? (Scalar.clampUnit x) = some q ∧ |q| ≤ 1 := by
  rcases finite_or_infinity h with ⟨q, hq⟩ | ⟨s, infinite⟩
  · refine ⟨_, toRat?_clampUnit hq, abs_le.mpr ⟨le_max_left .., max_le (by norm_num) ?_⟩⟩
    exact min_le_left ..
  · refine ⟨_, toRat?_clampUnit_infinity infinite, ?_⟩
    rw [← mul_one (factor s), abs_factor_mul, abs_one]

/-- Only infinity is not below infinity. -/
theorem infinity_of_le (h : view x = .infinity .positive) (le : x ≤ y) :
    view y = .infinity .positive := by
  rw [le_iff, h] at le
  generalize view y = v at le ⊢
  cases v with
  | infinity s => cases s <;> first | rfl | cases le
  | _ => cases le

theorem of_le_infinity (h : view y = .infinity .negative) (le : x ≤ y) :
    view x = .infinity .negative := by
  rw [le_iff, h] at le
  generalize view x = u at le ⊢
  cases u with
  | infinity s => cases s <;> first | rfl | cases le
  | finite s => cases s <;> cases le
  | _ => cases le

/-- **Clamping keeps the order**, with infinite samples as well. -/
theorem clampUnit_mono (le : x ≤ y) (hq : toRat? (Scalar.clampUnit x) = some q)
    (hr : toRat? (Scalar.clampUnit y) = some r) : q ≤ r := by
  obtain ⟨number, number'⟩ := isNaN_of_le le
  obtain ⟨a, ha, unit⟩ := exists_clampUnit number
  obtain rfl := Option.some_inj.mp (hq.symm.trans ha)
  obtain ⟨b, hb, unit'⟩ := exists_clampUnit number'
  obtain rfl := Option.some_inj.mp (hr.symm.trans hb)
  have silent {z : Float} {a : ℚ} (h : view z = .infinity .negative)
      (ha : toRat? (Scalar.clampUnit z) = some a) : a = -1 :=
    Option.some_inj.mp (ha.symm.trans (toRat?_clampUnit_infinity h))
  have loud {z : Float} {a : ℚ} (h : view z = .infinity .positive)
      (ha : toRat? (Scalar.clampUnit z) = some a) : a = 1 :=
    Option.some_inj.mp (ha.symm.trans (toRat?_clampUnit_infinity h))
  rcases finite_or_infinity number with ⟨c, hc⟩ | ⟨_ | _, infinite⟩
  · rcases finite_or_infinity number' with ⟨d, hd⟩ | ⟨_ | _, infinite⟩
    · obtain rfl := Option.some_inj.mp (hq.symm.trans (toRat?_clampUnit hc))
      obtain rfl := Option.some_inj.mp (hr.symm.trans (toRat?_clampUnit hd))
      exact max_le_max le_rfl (min_le_min le_rfl ((le_iff_le hc hd).mp le))
    · rw [silent (of_le_infinity infinite le) hq, silent infinite hr]
    · rw [loud infinite hr]
      exact (abs_le.mp unit).2
  · rw [silent infinite hq]
    exact (abs_le.mp unit').1
  · rw [loud infinite hq, loud (infinity_of_le infinite le) hr]

/-! ## Levels -/

/-- The level of a number: it is clamped and scaled, then rounded to a double, then rounded down. -/
theorem exists_level (h : x.isNaN = false) :
    ∃ q p, toRat? (Scalar.clampUnit x) = some q ∧ Rounded (q * Pcm.fullScale) p ∧
      -32767 ≤ ⌊p⌋ ∧ ⌊p⌋ ≤ 32767 ∧ (Pcm.level x).toInt = ⌊p⌋ := by
  obtain ⟨q, clamped, unit⟩ := exists_clampUnit h
  obtain ⟨m, e, c, fits, same⟩ := exists_canonical (n := Pcm.fullScale) (by decide) (by decide)
  have scale : toRat? (Scalar.ofNat Pcm.fullScale : Float) = some (Pcm.fullScale : ℚ) :=
    toRat?_ofNat (by decide)
  have below : |q * Pcm.fullScale| ≤ value m e := by
    rw [same, abs_mul, abs_of_nonneg (Nat.cast_nonneg (α := ℚ) Pcm.fullScale)]
    exact mul_le_of_le_one_left (Nat.cast_nonneg _) unit
  obtain ⟨p, product, rounded⟩ := toRat?_mul clamped scale c fits below
  have inside := rounded.abs_le c below
  rw [same] at inside
  have number : (Pcm.fullScale : ℚ) = 32767 := by norm_num [Pcm.fullScale]
  obtain ⟨low, high⟩ := abs_le.mp inside
  rw [number] at low high
  have lowest : -32767 ≤ ⌊p⌋ := Int.le_floor.mpr (by exact_mod_cast low)
  have highest : ⌊p⌋ ≤ 32767 := Int.floor_le_iff.mpr (by push_cast; linarith)
  refine ⟨q, p, clamped, rounded, lowest, highest, ?_⟩
  rw [Pcm.level, floor_eq product (inside.trans_lt (by norm_num [Pcm.fullScale])),
    Int16.toInt_ofInt_of_le (by omega) (by omega)]

/-- What is not a number is silent. -/
theorem level_of_isNaN (h : x.isNaN = true) : Pcm.level x = 0 := by
  have nothing : view x = .notANumber := by
    rw [isNaN_eq] at h
    generalize view x = u at h ⊢
    cases u <;> first | rfl | cases h
  rw [double_eq_of_unpack nothing]
  decide +kernel

/-- **Every level is between `-32767` and `32767`.** -/
theorem toInt_level_mem (x : Float) :
    -32767 ≤ (Pcm.level x).toInt ∧ (Pcm.level x).toInt ≤ 32767 := by
  rcases Bool.eq_false_or_eq_true x.isNaN with nothing | number
  · rw [level_of_isNaN nothing]
    decide
  · obtain ⟨q, p, -, -, lowest, highest, level⟩ := exists_level number
    rw [level]
    exact ⟨lowest, highest⟩

/-- **A higher sample has no lower level.** -/
theorem level_mono (le : x ≤ y) : Pcm.level x ≤ Pcm.level y := by
  obtain ⟨number, number'⟩ := isNaN_of_le le
  obtain ⟨q, p, clamped, rounded, -, -, level⟩ := exists_level number
  obtain ⟨q', p', clamped', rounded', -, -, level'⟩ := exists_level number'
  have scaled : q * Pcm.fullScale ≤ q' * Pcm.fullScale :=
    mul_le_mul_of_nonneg_right (clampUnit_mono le clamped clamped') (Nat.cast_nonneg _)
  rw [Int16.le_iff_toInt_le, level, level']
  exact Int.floor_mono (rounded.mono rounded' scaled)

/-- From full volume on, samples are cut off. -/
theorem level_of_le_one (loud : 1 ≤ x) : Pcm.level x = 32767 := by
  have full : Pcm.level (1 : Float) = 32767 := by decide +kernel
  have le := Int16.le_iff_toInt_le.mp (level_mono loud)
  rw [full] at le
  exact Int16.toInt_inj.mp (le_antisymm (toInt_level_mem x).2 le)

theorem level_of_le_neg_one (loud : x ≤ -1) : Pcm.level x = -32767 := by
  have full : Pcm.level (-1 : Float) = -32767 := by decide +kernel
  have le := Int16.le_iff_toInt_le.mp (level_mono loud)
  rw [full] at le
  exact Int16.toInt_inj.mp (le_antisymm le (toInt_level_mem x).1)

/-! ## Bytes -/

namespace Pcm

/-- The whole number of 16 bits in two's complement that two bytes are, the low one first. -/
def twosComplement (low high : UInt8) : Int :=
  let unsigned := low.toNat + 256 * high.toNat
  if unsigned < 32768 then unsigned else unsigned - 65536

/-- The whole numbers that bytes are in pairs. -/
def pairs : List UInt8 → List Int
  | low :: high :: rest => twosComplement low high :: pairs rest
  | _ => []

/-- The low byte and the high one are the remainder and the quotient of the unsigned level. -/
theorem twosComplement_level (level : Int16) :
    twosComplement level.toUInt16.toUInt8 (level.toUInt16 >>> 8).toUInt8 = level.toInt := by
  have signed : level.toInt = level.toUInt16.toBitVec.toInt := rfl
  have bound := level.toUInt16.toNat_lt
  have low : level.toUInt16.toUInt8.toNat = level.toUInt16.toNat % 256 := UInt16.toNat_toUInt8 _
  have high : (level.toUInt16 >>> 8).toUInt8.toNat = level.toUInt16.toNat / 256 := by
    rw [UInt16.toNat_toUInt8, UInt16.toNat_shiftRight, Nat.shiftRight_eq_div_pow]
    exact Nat.mod_eq_of_lt (Nat.div_lt_of_lt_mul bound)
  rw [signed, BitVec.toInt_eq_toNat_cond, UInt16.toNat_toBitVec, twosComplement, low, high,
    Nat.mod_add_div]
  split <;> split <;> omega

/-- **The bytes of levels are those levels in pairs.** -/
theorem pairs_bytes (levels : List Int16) : pairs (bytes levels) = levels.map Int16.toInt := by
  induction levels with
  | nil => rfl
  | cons level levels ih =>
    rw [bytes, List.flatMap_cons, levelBytes, List.cons_append, List.cons_append, List.nil_append,
      pairs, ← bytes, ih, twosComplement_level, List.map_cons]

end Pcm

/-! ## Renderings -/

namespace Rendering

/-- **Levels are in range, in order and can be read back.** A level is between `-32767` and `32767`,
whatever the sample is, and a higher sample has no lower level. From full volume on the levels are
those two, and what is not a number is silent. A rendering has one level for each sample, none of
them the lowest that 16 bits can hold, and two bytes for each level, which in pairs are the
levels. -/
theorem levels_inRange :
    (∀ x : Float, -32767 ≤ (Pcm.level x).toInt ∧ (Pcm.level x).toInt ≤ 32767) ∧
      (∀ x y : Float, x ≤ y → Pcm.level x ≤ Pcm.level y) ∧
      (∀ x : Float, (1 ≤ x → Pcm.level x = 32767) ∧ (x ≤ -1 → Pcm.level x = -32767) ∧
        (x.isNaN = true → Pcm.level x = 0)) ∧
      ∀ (r : Rendering) (source : List Char),
        (∀ level ∈ r.levels source, level ≠ -32768) ∧
          (r.levels source).length = (r.samples source : Array Float).size ∧
          (r.bytes source).length = 2 * (r.levels source).length ∧
          Pcm.pairs (r.bytes source) = (r.levels source).map Int16.toInt := by
  refine ⟨toInt_level_mem, fun x y => level_mono,
    fun x => ⟨level_of_le_one, level_of_le_neg_one, level_of_isNaN⟩, fun r source => ?_⟩
  refine ⟨?_, ?_, ?_, ?_⟩
  · intro level mem lowest
    obtain ⟨x, -, rfl⟩ := List.mem_map.mp mem
    have above := (toInt_level_mem x).1
    rw [lowest] at above
    exact absurd above (by decide)
  · rw [levels, List.length_map, Array.length_toList]
  · exact Pcm.length_bytes _
  · exact Pcm.pairs_bytes _

/-- Samples can be infinite, and what is not a number comes from infinity times zero. -/
theorem levels_inRange_infinity :
    (-1 / 0 : Float) ≤ 0.5 ∧ (-1 / 0 : Float) ≤ -1 ∧ (1 : Float) ≤ 1 / 0 ∧
      (1 / 0 * 0 : Float).isNaN = true ∧
      Pcm.level (-1 / 0 : Float) ≤ Pcm.level (0.5 : Float) ∧ Pcm.level (-1 / 0 : Float) = -32767 ∧
      Pcm.level (1 / 0 : Float) = 32767 ∧ Pcm.level (1 / 0 * 0 : Float) = 0 := by
  have le : (-1 / 0 : Float) ≤ 0.5 := by decide +kernel
  have low : (-1 / 0 : Float) ≤ -1 := by decide +kernel
  have high : (1 : Float) ≤ 1 / 0 := by decide +kernel
  have nothing : (1 / 0 * 0 : Float).isNaN = true := by decide +kernel
  obtain ⟨-, mono, ends, -⟩ := levels_inRange
  exact ⟨le, low, high, nothing, mono _ _ le, (ends _).2.1 low, (ends _).1 high,
    (ends _).2.2 nothing⟩

end Rendering

end Chiptune
