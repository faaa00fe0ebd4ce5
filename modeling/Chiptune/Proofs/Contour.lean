import Chiptune.Proofs.Exact
import Chiptune.Proofs.Double.Arithmetic
import Chiptune.Tone.Envelope

/-!
# The curve of an envelope

What the level of a note does from sample to sample, in exact arithmetic.

* `Contour.amplitude_of_attack` and so on: the level on each of the five segments.
* `Contour.level?`: the same level with quotients that fail where the divisor is zero. It never
  fails (`Contour.level?_eq`).
* `Contour.IsCurve`: up over the attack, towards the sustain level over the decay, level to the end
  of the note, down over the release, and nothing behind it.
* `Envelope.isCurve_contour`: every envelope gives such a curve to every note.
-/

namespace Chiptune

namespace Contour

open Exact

variable {c : Contour ℝ} {i j : ℕ}

/-! ## The segments -/

theorem amplitude_of_attack (h : i < c.attack) : c.amplitude i = i / c.attack := if_pos h

theorem amplitude_of_decay (begun : c.attack ≤ i) (h : i < c.attack + c.decay) :
    c.amplitude i = 1 - (1 - c.sustain) * ((i - c.attack : ℕ) / c.decay) := by
  rw [amplitude, if_neg (Nat.not_lt.mpr begun), if_pos h, ← one_eq]
  rfl

theorem amplitude_of_sustain (begun : c.attack + c.decay ≤ i) (h : i < c.length) :
    c.amplitude i = c.sustain := by
  rw [amplitude, if_neg (by omega), if_neg (by omega), if_pos h]

theorem amplitude_of_release (ramps : c.attack + c.decay ≤ c.length) (begun : c.length ≤ i)
    (h : i < c.total) : c.amplitude i = c.sustain * (c.total - i : ℕ) / c.release := by
  rw [amplitude, if_neg (by omega), if_neg (by omega), if_neg (by omega), if_pos h]
  rfl

theorem amplitude_of_end (ramps : c.attack + c.decay ≤ c.length) (begun : c.length ≤ i)
    (h : c.total ≤ i) : c.amplitude i = 0 := by
  rw [amplitude, if_neg (by omega), if_neg (by omega), if_neg (by omega), if_neg (by omega)]
  exact zero_eq

/-! ## Quotients -/

/-- A quotient, unless it is one by zero. -/
noncomputable def quotient? (x y : ℝ) : Option ℝ := if y = 0 then none else some (x / y)

theorem quotient?_of_pos (x : ℝ) {n : ℕ} (pos : 0 < n) : quotient? x n = some (x / n) :=
  if_neg (Nat.cast_ne_zero.mpr pos.ne')

/-- The level at sample `i`, where every quotient has to have a divisor. -/
noncomputable def level? (c : Contour ℝ) (i : ℕ) : Option ℝ :=
  if i < c.attack then quotient? i c.attack
  else if i < c.attack + c.decay then
    (quotient? (i - c.attack : ℕ) c.decay).map fun t => 1 - (1 - c.sustain) * t
  else if i < c.length then some c.sustain
  else if i < c.total then quotient? (c.sustain * (c.total - i : ℕ)) c.release
  else some 0

theorem total_le_add {α : Type} (c : Contour α) : c.total ≤ c.length + c.release := Nat.min_le_left ..

/-- **No segment divides by zero**: one without samples is never come to. -/
theorem level?_eq (ramps : c.attack + c.decay ≤ c.length) (i : ℕ) :
    c.level? i = some (c.amplitude i) := by
  have total := c.total_le_add
  by_cases attack : i < c.attack
  · rw [level?, if_pos attack, quotient?_of_pos _ (by omega), amplitude_of_attack attack]
  by_cases decay : i < c.attack + c.decay
  · rw [level?, if_neg attack, if_pos decay, quotient?_of_pos _ (by omega),
      amplitude_of_decay (by omega) decay]
    rfl
  by_cases sustain : i < c.length
  · rw [level?, if_neg attack, if_neg decay, if_pos sustain,
      amplitude_of_sustain (by omega) sustain]
  by_cases release : i < c.total
  · rw [level?, if_neg attack, if_neg decay, if_neg sustain, if_pos release,
      quotient?_of_pos _ (by omega), amplitude_of_release ramps (by omega) release]
  · rw [level?, if_neg attack, if_neg decay, if_neg sustain, if_neg release,
      amplitude_of_end ramps (by omega) (by omega)]

/-! ## The attack -/

theorem strictMonoOn_attack : StrictMonoOn c.amplitude (Set.Iio c.attack) := by
  intro i hi j hj lt
  have pos : (0 : ℝ) < c.attack := Nat.cast_pos.mpr (Nat.zero_lt_of_lt hi)
  rw [amplitude_of_attack hi, amplitude_of_attack hj]
  exact div_lt_div_of_pos_right (Nat.cast_lt.mpr lt) pos

theorem attack_lt_one (h : i < c.attack) : c.amplitude i < 1 := by
  have pos : (0 : ℝ) < c.attack := Nat.cast_pos.mpr (Nat.zero_lt_of_lt h)
  rw [amplitude_of_attack h, div_lt_one pos]
  exact Nat.cast_lt.mpr h

/-! ## The decay -/

/-- How much of the decay has passed, from zero to one. -/
noncomputable def passed (c : Contour ℝ) (i : ℕ) : ℝ := (i - c.attack : ℕ) / c.decay

theorem passed_nonneg (c : Contour ℝ) (i : ℕ) : 0 ≤ c.passed i := by
  unfold passed
  positivity

theorem passed_le_one (h : i < c.attack + c.decay) : c.passed i ≤ 1 := by
  have within : i - c.attack ≤ c.decay := by omega
  exact div_le_one_of_le₀ (Nat.cast_le.mpr within) (Nat.cast_nonneg _)

theorem passed_mono (c : Contour ℝ) : Monotone c.passed := by
  intro i j le
  have later : i - c.attack ≤ j - c.attack := by omega
  exact div_le_div_of_nonneg_right (Nat.cast_le.mpr later) (Nat.cast_nonneg _)

/-- The samples of the decay. -/
def decaySpan (c : Contour ℝ) : Set ℕ := Set.Ico c.attack (c.attack + c.decay)

theorem amplitude_of_mem_decaySpan (h : i ∈ c.decaySpan) :
    c.amplitude i = 1 - (1 - c.sustain) * c.passed i := amplitude_of_decay h.1 h.2

theorem antitoneOn_decay (le : c.sustain ≤ 1) : AntitoneOn c.amplitude c.decaySpan := by
  intro i hi j hj later
  rw [amplitude_of_mem_decaySpan hi, amplitude_of_mem_decaySpan hj]
  have := mul_le_mul_of_nonneg_left (c.passed_mono later) (sub_nonneg.mpr le)
  linarith

theorem monotoneOn_decay (ge : 1 ≤ c.sustain) : MonotoneOn c.amplitude c.decaySpan := by
  intro i hi j hj later
  rw [amplitude_of_mem_decaySpan hi, amplitude_of_mem_decaySpan hj]
  have := mul_le_mul_of_nonpos_left (c.passed_mono later) (sub_nonpos.mpr ge)
  linarith

/-- The decay stays between one and the sustain level. -/
theorem decay_mem_uIcc (h : i ∈ c.decaySpan) : c.amplitude i ∈ Set.uIcc 1 c.sustain := by
  have low := c.passed_nonneg i
  have high := passed_le_one h.2
  rw [amplitude_of_mem_decaySpan h]
  rcases le_total c.sustain 1 with le | ge
  · have start : 0 ≤ (1 - c.sustain) * c.passed i := mul_nonneg (sub_nonneg.mpr le) low
    have stop := mul_le_mul_of_nonneg_left high (sub_nonneg.mpr le)
    rw [Set.uIcc_of_ge le]
    constructor <;> linarith
  · have start := mul_nonpos_of_nonpos_of_nonneg (sub_nonpos.mpr ge) low
    have stop := mul_le_mul_of_nonpos_left high (sub_nonpos.mpr ge)
    rw [Set.uIcc_of_le ge]
    constructor <;> linarith

theorem decay_one (pos : 0 < c.decay) : c.amplitude c.attack = 1 := by
  have first : c.attack ∈ c.decaySpan := ⟨Nat.le_refl _, by omega⟩
  rw [amplitude_of_mem_decaySpan first, passed, Nat.sub_self, Nat.cast_zero, zero_div, mul_zero,
    sub_zero]

/-! ## The release -/

/-- The release ends within the samples that can be counted. -/
def Counted (c : Contour ℝ) : Prop := c.length + c.release ≤ maxCount

theorem Counted.total_eq (h : c.Counted) : c.total = c.length + c.release := Nat.min_eq_left h

/-- The samples of the release. -/
def releaseSpan (c : Contour ℝ) : Set ℕ := Set.Ico c.length (c.length + c.release)

theorem amplitude_of_mem_releaseSpan (ramps : c.attack + c.decay ≤ c.length) (h : c.Counted)
    (hi : i ∈ c.releaseSpan) :
    c.amplitude i = c.sustain * (c.length + c.release - i : ℕ) / c.release := by
  have before : i < c.total := by rw [h.total_eq]; exact hi.2
  rw [amplitude_of_release ramps hi.1 before, h.total_eq]

theorem release_eq (ramps : c.attack + c.decay ≤ c.length) (h : c.Counted) (pos : 0 < c.release) :
    c.amplitude c.length = c.sustain := by
  have first : c.length ∈ c.releaseSpan := ⟨Nat.le_refl _, by omega⟩
  have divisor : (c.release : ℝ) ≠ 0 := Nat.cast_ne_zero.mpr pos.ne'
  rw [amplitude_of_mem_releaseSpan ramps h first, Nat.add_sub_cancel_left,
    mul_div_cancel_right₀ _ divisor]

theorem release_pos (ramps : c.attack + c.decay ≤ c.length) (h : c.Counted)
    (loud : 0 < c.sustain) (hi : i ∈ c.releaseSpan) : 0 < c.amplitude i := by
  obtain ⟨begun, before⟩ := hi
  have left : (0 : ℝ) < (c.length + c.release - i : ℕ) := Nat.cast_pos.mpr (by omega)
  have divisor : (0 : ℝ) < c.release := Nat.cast_pos.mpr (by omega)
  rw [amplitude_of_mem_releaseSpan ramps h ⟨begun, before⟩]
  exact div_pos (mul_pos loud left) divisor

theorem strictAntiOn_release (ramps : c.attack + c.decay ≤ c.length) (h : c.Counted)
    (loud : 0 < c.sustain) : StrictAntiOn c.amplitude c.releaseSpan := by
  intro i hi j hj lt
  rw [amplitude_of_mem_releaseSpan ramps h hi, amplitude_of_mem_releaseSpan ramps h hj]
  obtain ⟨begun, before⟩ := hj
  have divisor : (0 : ℝ) < c.release := Nat.cast_pos.mpr (by omega)
  have fewer : c.length + c.release - j < c.length + c.release - i := by omega
  exact div_lt_div_of_pos_right (mul_lt_mul_of_pos_left (Nat.cast_lt.mpr fewer) loud) divisor

/-! ## The whole curve -/

theorem amplitude_mem_Icc (ramps : c.attack + c.decay ≤ c.length) (nonneg : 0 ≤ c.sustain)
    (i : ℕ) : c.amplitude i ∈ Set.Icc 0 (max 1 c.sustain) := by
  have total := c.total_le_add
  have one : (1 : ℝ) ≤ max 1 c.sustain := le_max_left ..
  have level : c.sustain ≤ max 1 c.sustain := le_max_right ..
  rcases Nat.lt_or_ge i c.attack with attack | h
  · have start : 0 ≤ c.amplitude i := by
      rw [amplitude_of_attack attack]
      positivity
    exact ⟨start, (attack_lt_one attack).le.trans one⟩
  rcases Nat.lt_or_ge i (c.attack + c.decay) with decay | h
  · obtain ⟨low, high⟩ := decay_mem_uIcc ⟨h, decay⟩
    exact ⟨(le_min zero_le_one nonneg).trans low, high⟩
  rcases Nat.lt_or_ge i c.length with sustain | h
  · rw [amplitude_of_sustain ‹_› sustain]
    exact ⟨nonneg, level⟩
  rcases Nat.lt_or_ge i c.total with release | h
  · -- Where the release is cut at the last count, it begins below the sustain level.
    have left : ((c.total - i : ℕ) : ℝ) ≤ c.release := Nat.cast_le.mpr (by omega)
    have stop : c.sustain * (c.total - i : ℕ) / c.release ≤ c.sustain :=
      div_le_of_le_mul₀ (Nat.cast_nonneg _) nonneg (mul_le_mul_of_nonneg_left left nonneg)
    rw [amplitude_of_release ramps ‹_› release]
    exact ⟨by positivity, stop.trans level⟩
  · rw [amplitude_of_end ramps ‹_› h]
    exact ⟨le_rfl, zero_le_one.trans one⟩

/-- A curve of attack, decay, sustain and release. -/
structure IsCurve (c : Contour ℝ) : Prop where
  ramps_le : c.attack + c.decay ≤ c.length
  /-- No sample divides by zero. -/
  divides : ∀ i, c.level? i = some (c.amplitude i)
  attack_zero : 0 < c.attack → c.amplitude 0 = 0
  attack_rises : StrictMonoOn c.amplitude (Set.Iio c.attack)
  attack_lt : ∀ i < c.attack, c.amplitude i < 1
  decay_start : 0 < c.decay → c.amplitude c.attack = 1
  decay_falls : c.sustain ≤ 1 → AntitoneOn c.amplitude c.decaySpan
  decay_rises : 1 ≤ c.sustain → MonotoneOn c.amplitude c.decaySpan
  decay_between : ∀ i ∈ c.decaySpan, c.amplitude i ∈ Set.uIcc 1 c.sustain
  sustain_level : ∀ i ∈ Set.Ico (c.attack + c.decay) c.length, c.amplitude i = c.sustain
  release_start : c.Counted → 0 < c.release → c.amplitude c.length = c.sustain
  release_falls : c.Counted → 0 < c.sustain → StrictAntiOn c.amplitude c.releaseSpan
  release_above : c.Counted → 0 < c.sustain → ∀ i ∈ c.releaseSpan, 0 < c.amplitude i
  /-- Behind the release there is nothing, even where it is cut at the last count. -/
  silent : ∀ i, c.length + c.release ≤ i → c.amplitude i = 0
  range : ∀ i, c.amplitude i ∈ Set.Icc 0 (max 1 c.sustain)

/-- All that a curve needs is ramps that end within the note, and a level to sustain. -/
theorem isCurve_of_ramps_le (ramps : c.attack + c.decay ≤ c.length) (nonneg : 0 ≤ c.sustain) :
    c.IsCurve where
  ramps_le := ramps
  divides := level?_eq ramps
  attack_zero pos := by rw [amplitude_of_attack pos, Nat.cast_zero, zero_div]
  attack_rises := strictMonoOn_attack
  attack_lt _ := attack_lt_one
  decay_start := decay_one
  decay_falls := antitoneOn_decay
  decay_rises := monotoneOn_decay
  decay_between _ := decay_mem_uIcc
  sustain_level _ h := amplitude_of_sustain h.1 h.2
  release_start := release_eq ramps
  release_falls := strictAntiOn_release ramps
  release_above h loud _ := release_pos ramps h loud
  silent _ h := by
    have total := c.total_le_add
    exact amplitude_of_end ramps (by omega) (by omega)
  range := amplitude_mem_Icc ramps nonneg

/-- The same samples with an exact sustain level. -/
def exactly {α : Type} (c : Contour α) (level : ℝ) : Contour ℝ :=
  ⟨c.attack, c.decay, level, c.release, c.length⟩

end Contour

open Exact in
/-- **Every envelope gives a curve to every note**, whether its times are counted in exact
arithmetic or in doubles. The level is exact: where the envelope is one of doubles, it sustains the
number that its sustain level stands for. -/
theorem Envelope.isCurve_contour :
    (∀ (e : Envelope ℝ) (length rate : ℕ), 0 ≤ e.sustain → (e.contour length rate).IsCurve) ∧
    ∀ (e : Envelope Float) (level : ℚ) (length rate : ℕ), 0 ≤ e.sustain →
      Double.toRat? e.sustain = some level →
        ((e.contour length rate).exactly level).IsCurve := by
  refine ⟨fun e length rate nonneg => ?_, fun e level length rate nonneg stands => ?_⟩
  · exact Contour.isCurve_of_ramps_le (e.ramps_contour_le length rate) nonneg
  · have level_nonneg : 0 ≤ level := Double.toRat?_nonneg nonneg stands
    exact Contour.isCurve_of_ramps_le (e.ramps_contour_le length rate)
      (Rat.cast_nonneg.mpr level_nonneg)

open Exact in
/-- An attack of half a second, a decay that is cut to the end of the note, and a release of two
seconds behind it. -/
theorem Envelope.isCurve_contour_cutDecay :
    let reals : Envelope ℝ := ⟨1 / 2, 1, 1 / 2, 2⟩
    let doubles : Envelope Float := .ofPercent 50 100 50 200
    (0 ≤ reals.sustain ∧ (reals.contour 6 8).IsCurve) ∧
      (0 ≤ doubles.sustain ∧ Double.toRat? doubles.sustain = some (1 / 2)) ∧
      ((doubles.contour 6 8).attack = 4 ∧ (doubles.contour 6 8).decay = 2 ∧
        (doubles.contour 6 8).release = 16) ∧
      ((doubles.contour 6 8).exactly (1 / 2 : ℚ)).IsCurve := by
  intro reals doubles
  have nonneg : 0 ≤ reals.sustain := by norm_num [reals]
  have nonneg' : 0 ≤ doubles.sustain := by decide +kernel
  have half : Double.toRat? doubles.sustain = some (1 / 2) := by decide +kernel
  exact ⟨⟨nonneg, isCurve_contour.1 reals 6 8 nonneg⟩, ⟨nonneg', half⟩, by decide +kernel,
    isCurve_contour.2 doubles (1 / 2) 6 8 nonneg' half⟩

end Chiptune
