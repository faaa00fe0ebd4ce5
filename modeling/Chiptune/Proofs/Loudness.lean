import Chiptune.Proofs.Contour
import Chiptune.Proofs.LimitAgreement
import Chiptune.Proofs.Rests

/-!
# How loud a piece gets

Bounds on samples, in exact arithmetic.

* `Timbre.loudness`: the most that a sound reaches. No sample of it is louder, for any number of
  voices (`Timbre.abs_sample_le`).
* `Performance.abs_passage_le`: without effects, a note is no louder than its volume, its envelope
  and its sound allow.
* `Performance.Moderate`: what holds of a piece of one voice without effects and releases, with no
  setting above a hundred percent. What is written stands behind all that was written before, so
  that nothing adds up (`Performance.Moderate.step`).
* `Rendering.abs_samples_le`: such a piece stays between `-1` and `1`.
-/

namespace Chiptune

open Exact

/-! ## Waveforms -/

namespace Tone

theorem abs_square_le (frequency t duty : ℝ) : |square frequency t duty| ≤ 1 := by
  have one : |(Scalar.ofNat 1 : ℝ)| = 1 := by rw [one_eq, abs_one]
  unfold square
  split
  · exact one.le
  · exact (abs_neg _).trans_le one.le

theorem abs_sine_le (frequency t : ℝ) : |sine frequency t| ≤ 1 := Real.abs_sin_le_one _

theorem abs_saw_le (frequency t : ℝ) : |saw frequency t| ≤ 1 := by
  have ramp : saw frequency t = Int.fract (frequency * t) := rfl
  rw [ramp, abs_of_nonneg (Int.fract_nonneg _)]
  exact (Int.fract_lt_one _).le

theorem abs_triangle_le (frequency t : ℝ) : |triangle frequency t| ≤ 1 := by
  have lines : triangle frequency t
      = Real.arccos (Real.cos (2 * Real.pi * frequency * t)) * 2 / Real.pi - 1 := by
    rw [← one_eq]
    rfl
  have low := Real.arccos_nonneg (Real.cos (2 * Real.pi * frequency * t))
  have high := Real.arccos_le_pi (Real.cos (2 * Real.pi * frequency * t))
  rw [lines, abs_le]
  constructor
  · have lower := div_nonneg (mul_nonneg low zero_le_two) Real.pi_pos.le
    linarith
  · rw [sub_le_iff_le_add, div_le_iff₀ Real.pi_pos]
    linarith

/-- Partials add no more than their weights. -/
theorem abs_addPartials_le (frequency t : ℝ) (k : ℕ) (total : ℝ) (weights : List ℝ) :
    |addPartials frequency t k total weights| ≤ |total| + (weights.map abs).sum := by
  induction weights generalizing k total with
  | nil => simp [addPartials]
  | cons w ws ih =>
    have one : |sine (frequency * Scalar.ofNat k) t * w| ≤ |w| := by
      rw [abs_mul]
      exact mul_le_of_le_one_left (abs_nonneg w) (abs_sine_le _ _)
    calc |addPartials frequency t (k + 1) (total + sine (frequency * Scalar.ofNat k) t * w) ws|
        ≤ |total + sine (frequency * Scalar.ofNat k) t * w| + (ws.map abs).sum := ih _ _
      _ ≤ |total| + |w| + (ws.map abs).sum := by
        have split := abs_add_le total (sine (frequency * Scalar.ofNat k) t * w)
        linarith
      _ = |total| + ((w :: ws).map abs).sum := by rw [List.map_cons, List.sum_cons, add_assoc]

/-- Weighted sines are no louder than the mean of their weights. -/
theorem abs_harmonics_le (frequency t : ℝ) (weights : List ℝ) :
    |harmonics frequency t weights| ≤ (weights.map abs).sum / weights.length := by
  have positive : 0 ≤ (weights.map abs).sum := List.sum_nonneg (by simp)
  unfold harmonics
  split
  · refine (congrArg abs zero_eq).trans_le ?_
    rw [abs_zero]
    positivity
  · have sum := abs_addPartials_le frequency t 1 (Scalar.ofNat 0) weights
    rw [congrArg abs zero_eq, abs_zero, zero_add] at sum
    rw [ofNat_eq, abs_div, Nat.abs_cast]
    exact div_le_div_of_nonneg_right sum (Nat.cast_nonneg _)

end Tone

/-- The fraction has 52 bits, and the largest one is stretched to just below one. -/
theorem Noise.abs_level_le (bits : UInt64) : |(level bits : ℝ)| ≤ 1 := by
  have short : (bits >>> 12).toNat + 1 ≤ 2 ^ 52 := by
    rw [UInt64.toNat_shiftRight, Nat.shiftRight_eq_div_pow]
    exact Nat.div_lt_of_lt_mul bits.toNat_lt
  have fraction : ((bits >>> 12).toNat : ℝ) + 1 ≤ 2 ^ 52 := by exact_mod_cast short
  have stretched : (level bits : ℝ)
      = (bits >>> 12).toNat / (2 ^ 52 : ℕ) * ((2 ^ 52 + 1 : ℕ) / (2 ^ 51 : ℕ)) - 1 := by
    rw [← one_eq]
    rfl
  have nonneg : (0 : ℝ) ≤ (bits >>> 12).toNat := Nat.cast_nonneg _
  rw [stretched, abs_le]
  push_cast
  constructor <;> linarith

theorem Noise.abs_sample_le (noise : Noise) : |(noise.sample : ℝ × Noise).1| ≤ 1 :=
  abs_level_le noise.next.1

/-! ## Sounds -/

namespace Timbre

/-- The most that a sound reaches: one, or the mean of the weights of its partials. -/
noncomputable def loudness (timbre : Timbre ℝ) : ℝ :=
  match timbre.wave with
  | .harmonics => (timbre.weights.map abs).sum / timbre.weights.length
  | _ => 1

theorem loudness_nonneg (timbre : Timbre ℝ) : 0 ≤ timbre.loudness := by
  have positive : 0 ≤ (timbre.weights.map abs).sum := List.sum_nonneg (by simp)
  unfold loudness
  split
  · positivity
  · exact zero_le_one

theorem abs_wave_le (timbre : Timbre ℝ) (frequency t : ℝ) (noise : Noise) :
    |(timbre.wave.sample frequency t timbre.weights noise).1| ≤ timbre.loudness := by
  obtain ⟨wave, weights, unison⟩ := timbre
  cases wave with
  | square50 | square25 | square12 => exact Tone.abs_square_le ..
  | triangle => exact Tone.abs_triangle_le ..
  | saw => exact Tone.abs_saw_le ..
  | sine => exact Tone.abs_sine_le ..
  | whiteNoise => exact noise.abs_sample_le
  | harmonics => exact Tone.abs_harmonics_le ..

/-- Each voice adds no more than the sound reaches. -/
theorem abs_addVoices_le (timbre : Timbre ℝ) (frequency t : ℝ) (n j : ℕ) (total : ℝ)
    (noise : Noise) :
    |(timbre.addVoices frequency t n j total noise).1| ≤ |total| + n * timbre.loudness := by
  induction n generalizing j total noise with
  | zero => simp [addVoices]
  | succ n ih =>
    have one := timbre.abs_wave_le (frequency * timbre.unison.ratio j) t noise
    have next : timbre.addVoices frequency t (n + 1) j total noise
        = let voice := timbre.wave.sample (frequency * timbre.unison.ratio j) t timbre.weights noise
          timbre.addVoices frequency t n (j + 1) (total + voice.1) voice.2 := rfl
    rw [next]
    generalize timbre.wave.sample (frequency * timbre.unison.ratio j) t timbre.weights noise = voice
      at one ⊢
    calc |(timbre.addVoices frequency t n (j + 1) (total + voice.1) voice.2).1|
        ≤ |total + voice.1| + n * timbre.loudness := ih _ _ _
      _ ≤ |total| + timbre.loudness + n * timbre.loudness := by
        linarith [abs_add_le total voice.1]
      _ = |total| + (n + 1 : ℕ) * timbre.loudness := by
        push_cast
        ring

/-- **No sound is louder than its waveform**, however many voices play it and however far they are
spread. -/
theorem abs_sample_le (timbre : Timbre ℝ) (frequency t : ℝ) (noise : Noise) :
    |(timbre.sample frequency t noise).1| ≤ timbre.loudness := by
  obtain ⟨count, hcount⟩ : ∃ count, max timbre.unison.voices 1 = count := ⟨_, rfl⟩
  have pos : (0 : ℝ) < count := Nat.cast_pos.mpr (by omega)
  have mean : (timbre.sample frequency t noise).1
      = (timbre.addVoices frequency t count 0 (Scalar.ofNat 0) noise).1 / count := by
    rw [← hcount]
    rfl
  have sum := timbre.abs_addVoices_le frequency t count 0 (Scalar.ofNat 0) noise
  rw [congrArg abs zero_eq, abs_zero, zero_add] at sum
  rw [mean, abs_div, abs_of_pos pos, div_le_iff₀ pos, mul_comm]
  exact sum

end Timbre

/-! ## Notes -/

namespace Note

variable {note : Note ℝ}

/-- **A sample of a note is no louder than its volume, its envelope and its sound allow.** -/
theorem abs_dry_le (volume : 0 ≤ note.volume)
    (ramps : note.contour.attack + note.contour.decay ≤ note.contour.length)
    (sustain : 0 ≤ note.contour.sustain) (i : ℕ) (noise : Noise) :
    |(note.dry i noise).1|
      ≤ note.volume * max 1 note.contour.sustain * note.timbre.loudness := by
  obtain ⟨low, high⟩ := Contour.amplitude_mem_Icc ramps sustain i
  have sound := note.timbre.abs_sample_le note.frequency (Scalar.ofNat i / Scalar.ofNat note.rate)
    noise
  have product : (note.dry i noise).1
      = (note.timbre.sample note.frequency (Scalar.ofNat i / Scalar.ofNat note.rate) noise).1
          * note.volume * note.contour.amplitude i := rfl
  calc |(note.dry i noise).1|
      = |(note.timbre.sample note.frequency (Scalar.ofNat i / Scalar.ofNat note.rate) noise).1|
          * note.volume * note.contour.amplitude i := by
        rw [product, abs_mul, abs_mul, abs_of_nonneg volume, abs_of_nonneg low]
    _ ≤ note.timbre.loudness * note.volume * max 1 note.contour.sustain :=
        mul_le_mul (mul_le_mul_of_nonneg_right sound volume) high low
          (mul_nonneg note.timbre.loudness_nonneg volume)
    _ = note.volume * max 1 note.contour.sustain * note.timbre.loudness := by ring

theorem plain_silence (volume : ℝ) : (Input.silence volume).plain = 0 := by
  have silent : (Input.silence volume).plain = Scalar.ofNat 0 * volume := rfl
  rw [silent, zero_eq, zero_mul]

/-- Nothing that a note writes is louder than its loudest sample, also behind its gate. -/
theorem abs_plain_le {bound : ℝ} (h : ∀ i noise, |(note.dry i noise).1| ≤ bound) (n i : ℕ)
    (passage : Passage ℝ) : ∀ input ∈ note.inputs n i passage, |input.plain| ≤ bound := by
  have nonneg : 0 ≤ bound := (abs_nonneg _).trans (h 0 passage.noise)
  induction n generalizing i passage with
  | zero => exact fun _ none => nomatch none
  | succ n ih =>
    refine List.forall_mem_cons.mpr ⟨h i passage.noise, ?_⟩
    split
    · intro input silent
      rw [List.eq_of_mem_replicate silent, plain_silence, abs_zero]
      exact nonneg
    · exact ih _ _

end Note

/-! ## Performances -/

/-- Numerals have no sign. -/
theorem ofDecimal_nonneg (d : Decimal) : (0 : ℝ) ≤ Scalar.ofDecimal d := by
  have quotient : (Scalar.ofDecimal d : ℝ) = d.digits / 10 ^ d.places := rfl
  rw [quotient]
  positivity

/-- No level is below zero. -/
structure Settings.Unsigned (s : Settings ℝ) : Prop where
  volume : 0 ≤ s.volume
  sustain : 0 ≤ s.envelope.sustain

theorem Settings.unsigned_initial : (initial : Settings ℝ).Unsigned where
  volume := ofDecimal_nonneg ⟨5, 1⟩
  sustain := by
    have one : (initial : Settings ℝ).envelope.sustain = Scalar.ofNat 1 := rfl
    rw [one, one_eq]
    exact zero_le_one

theorem Settings.Unsigned.apply {s : Settings ℝ} (h : s.Unsigned) (d : Directive) :
    (s.apply d).Unsigned := by
  have percent (value : Decimal) : (0 : ℝ) ≤ Scalar.ofDecimal value / (100 : ℕ) :=
    div_nonneg (ofDecimal_nonneg value) (Nat.cast_nonneg _)
  constructor
  · rw [volume_apply]
    split
    · exact percent _
    · exact unsigned_initial.volume
    · exact h.volume
  · rw [envelope_apply]
    split
    · exact percent _
    · exact unsigned_initial.sustain
    · exact h.sustain

namespace Performance

variable {setup : Setup} {score : List Directive} {p : Performance ℝ} {d : Directive}

theorem unsigned_of_reached {noise : Noise}
    (h : (start noise : Performance ℝ).Reached setup score p) : p.settings.Unsigned := by
  refine h.invariant (I := fun q => q.settings.Unsigned) (fun d q _ hq => ?_)
    Settings.unsigned_initial
  have settings : (q.step setup d).settings = q.settings.apply d := settings_play setup d q
  rw [settings]
  exact hq.apply d

/-- The most that a note reaches with the settings as they are. -/
noncomputable def loudness (p : Performance ℝ) : ℝ :=
  p.settings.volume * max 1 p.settings.envelope.sustain *
    Timbre.loudness ⟨p.settings.wave, p.settings.weights, p.settings.unison⟩

/-- **Without effects, a note is no louder than the settings allow.** -/
theorem abs_passage_le (dry : p.chain = []) (settings : p.settings.Unsigned) (setup : Setup)
    (pitch : Pitch) (length : Option Length) :
    ∀ x ∈ (p.passage setup (.note pitch length)).samples.toList, |x| ≤ p.loudness := by
  intro x written
  rw [samples_passage dry] at written
  obtain ⟨input, member, rfl⟩ := List.mem_map.mp written
  have ramps := p.settings.envelope.ramps_contour_le (p.duration setup length) setup.rate
  have dry (i : ℕ) (noise : Noise) : |((p.noteOf setup pitch length).dry i noise).1| ≤ p.loudness :=
    Note.abs_dry_le settings.volume ramps settings.sustain i noise
  exact Note.abs_plain_le dry _ _ _ input member

end Performance

/-! ## Moderate pieces -/

/-- A numeral of at most a hundred. -/
def Decimal.upToHundred (d : Decimal) : Bool := d.digits ≤ 100 * 10 ^ d.places

/-- The directive begins no further voice, sets no volume, sustain level or weight above a hundred
percent, and no release. -/
def Directive.moderate : Directive → Bool
  | .voiceReset => false
  | .volume value => value.upToHundred
  | .envelope (_ :: _ :: sustain :: release :: _) => sustain.upToHundred && release.digits = 0
  | .harmony weights => weights.all Decimal.upToHundred
  | _ => true

theorem Directive.digits_of_moderate {d : Directive} (h : d.moderate) :
    ∀ release ∈ d.release?, release.digits = 0 := by
  unfold release?
  split
  · intro release given
    cases given
    exact of_decide_eq_true (Bool.and_eq_true_iff.mp h).2
  · exact nofun

theorem percent_mem_Icc {d : Decimal} (h : d.upToHundred) :
    (Scalar.ofDecimal d : ℝ) / (100 : ℕ) ∈ Set.Icc 0 1 := by
  have quotient : (Scalar.ofDecimal d : ℝ) = d.digits / 10 ^ d.places := rfl
  have digits : (d.digits : ℝ) ≤ 100 * 10 ^ d.places := by exact_mod_cast of_decide_eq_true h
  refine ⟨div_nonneg (ofDecimal_nonneg d) (Nat.cast_nonneg _), ?_⟩
  rw [quotient, div_le_one (by norm_num), div_le_iff₀ (by positivity)]
  exact digits

theorem samplesIn_eq_zero {seconds : ℝ} (none : seconds = 0) (rate : ℕ) :
    samplesIn seconds rate = 0 := by
  have count : samplesIn seconds rate = min ⌊seconds * rate⌋₊ maxCount := rfl
  rw [count, none, zero_mul, Nat.floor_zero, Nat.zero_min]

/-- No release in percent is no release in samples. -/
theorem samplesIn_of_digits {d : Decimal} (none : d.digits = 0) (rate : ℕ) :
    samplesIn ((Scalar.ofDecimal d : ℝ) / (100 : ℕ)) rate = 0 := by
  have quotient : (Scalar.ofDecimal d : ℝ) = d.digits / 10 ^ d.places := rfl
  refine samplesIn_eq_zero ?_ rate
  rw [quotient, none, Nat.cast_zero, zero_div, zero_div]

/-- No level is above one, and notes have no release. -/
structure Settings.Moderate (rate : ℕ) (s : Settings ℝ) : Prop extends s.Unsigned where
  volume_le : s.volume ≤ 1
  sustain_le : s.envelope.sustain ≤ 1
  weights : ∀ w ∈ s.weights, |w| ≤ 1
  release : samplesIn s.envelope.release rate = 0

theorem Settings.moderate_initial (rate : ℕ) : (initial : Settings ℝ).Moderate rate where
  toUnsigned := unsigned_initial
  volume_le := by
    have half : (initial : Settings ℝ).volume = (5 : ℕ) / 10 ^ 1 := rfl
    rw [half]
    norm_num
  sustain_le := one_eq.le
  weights := nofun
  release := samplesIn_eq_zero zero_eq rate

theorem Settings.Moderate.apply {rate : ℕ} {s : Settings ℝ} (h : s.Moderate rate) {d : Directive}
    (hd : d.moderate) : (s.apply d).Moderate rate where
  toUnsigned := h.toUnsigned.apply d
  volume_le := by
    rw [volume_apply]
    split
    · exact (percent_mem_Icc hd).2
    · cases hd
    · exact h.volume_le
  sustain_le := by
    rw [envelope_apply]
    split
    · exact (percent_mem_Icc (Bool.and_eq_true_iff.mp hd).1).2
    · cases hd
    · exact h.sustain_le
  weights := by
    cases d with
    | harmony weights =>
      cases weights with
      | nil => exact h.weights
      | cons w ws =>
        intro x hx
        obtain ⟨value, member, rfl⟩ := List.mem_map.mp hx
        obtain ⟨low, high⟩ := percent_mem_Icc (List.all_eq_true.mp hd value member)
        exact (abs_of_nonneg low).trans_le high
    | voiceReset => cases hd
    | tempo | envelope | unison =>
      simp only [Settings.apply]
      split <;> exact h.weights
    | _ => exact h.weights
  release := by
    refine release_apply h.release ?_ fun release given => ?_
    · rintro rfl
      cases hd
    · exact samplesIn_of_digits (Directive.digits_of_moderate hd release given) rate

theorem Timbre.loudness_le_one {timbre : Timbre ℝ} (h : ∀ w ∈ timbre.weights, |w| ≤ 1) :
    timbre.loudness ≤ 1 := by
  unfold loudness
  split
  · refine div_le_one_of_le₀ ?_ (Nat.cast_nonneg _)
    have sum := List.sum_le_card_nsmul (timbre.weights.map abs) 1 (by simpa using h)
    simpa using sum
  · exact le_rfl

theorem Settings.Moderate.loudness_le_one {rate : ℕ} {s : Settings ℝ} (h : s.Moderate rate) :
    s.volume * max 1 s.envelope.sustain * Timbre.loudness ⟨s.wave, s.weights, s.unison⟩ ≤ 1 := by
  rw [max_eq_left h.sustain_le, mul_one]
  exact mul_le_one₀ h.volume_le (Timbre.loudness_nonneg _) (Timbre.loudness_le_one h.weights)

/-- What is written where nothing stands yet does not add up. -/
theorem Timeline.abs_overlayFrom_le {t : Timeline ℝ} {values : List ℝ} {index count : ℕ}
    (quiet : ∀ i < count, ∀ x, t.samples[i]? = some x → |x| ≤ 1) (behind : min t.size count ≤ index)
    (written : ∀ x ∈ values, |x| ≤ 1) :
    ∀ i < count, ∀ x, (t.overlayFrom index values).samples[i]? = some x → |x| ≤ 1 := by
  induction values generalizing t index with
  | nil => exact quiet
  | cons value values ih =>
    obtain ⟨first, others⟩ := List.forall_mem_cons.mp written
    refine ih (fun i hi x hx => ?_) ?_ others
    · rw [getElem?_overlay] at hx
      split at hx
      · rename_i here
        unfold size at behind
        have absent : t.samples[i]? = none := Array.getElem?_eq_none (by omega)
        rw [absent] at hx
        cases hx
        exact first
      · split at hx
        · cases old : t.samples[i]? with
          | none =>
            rw [old] at hx
            cases hx
            exact (congrArg abs zero_eq).trans_le (by norm_num)
          | some y =>
            rw [old] at hx
            cases hx
            exact quiet i hi _ old
        · exact quiet i hi x hx
    · rw [size_overlay]
      omega

namespace Performance

variable {setup : Setup} {score : List Directive} {p : Performance ℝ} {d : Directive}

/-- A piece of one voice without effects and releases, and with no level above one. Its timeline
ends at the cursor, as far as positions are counted, and no sample is louder than one. -/
structure Moderate (rate : ℕ) (p : Performance ℝ) : Prop where
  dry : p.chain = []
  settings : p.settings.Moderate rate
  cursor_le : p.cursor ≤ maxCount
  size_le : min p.timeline.size maxCount ≤ p.cursor
  quiet : ∀ i < maxCount, ∀ x, p.timeline.samples[i]? = some x → |x| ≤ 1

theorem moderate_start (rate : ℕ) (noise : Noise) : (start noise).Moderate rate where
  dry := rfl
  settings := Settings.moderate_initial rate
  cursor_le := Nat.zero_le _
  size_le := Nat.min_le_left ..
  quiet _ _ _ absent := nomatch absent

theorem Moderate.abs_passage_le_one (h : p.Moderate setup.rate) (d : Directive) :
    ∀ x ∈ (p.passage setup d).samples.toList, |x| ≤ 1 := by
  intro x written
  cases d with
  | note pitch length =>
    exact (abs_passage_le h.dry h.settings.toUnsigned setup pitch length x written).trans
      h.settings.loudness_le_one
  | rest length =>
    rw [samples_passage h.dry] at written
    obtain ⟨input, member, rfl⟩ := List.mem_map.mp written
    rw [List.eq_of_mem_replicate member, Note.plain_silence, abs_zero]
    exact zero_le_one
  | _ => cases written

/-- **Every moderate directive leaves a piece moderate.** -/
theorem Moderate.step (h : p.Moderate setup.rate) (dry : d.dry) (hd : d.moderate) :
    (p.step setup d).Moderate setup.rate where
  dry := chain_step dry h.dry
  settings := by
    have settings : (p.step setup d).settings = p.settings.apply d := settings_play setup d p
    rw [settings]
    exact h.settings.apply hd
  cursor_le := cursor_play_le_maxCount setup d p h.cursor_le
  size_le := by
    have voice : d ≠ .voiceReset := by
      rintro rfl
      cases hd
    have onward : p.cursor ≤ (p.play setup d).cursor := cursor_le_play voice h.cursor_le
    have size := h.size_le
    show min (p.play setup d).timeline.size maxCount ≤ (p.play setup d).cursor
    rw [size_timeline_play]
    split
    · omega
    · -- Behind the last count nothing is asked of what is written.
      have counted := h.cursor_le
      have reach : p.cursor + min (min (p.extent setup d) (setup.budget p.cursor))
          (maxCount - p.cursor) ≤ (p.play setup d).cursor :=
        cursor_add_le_play h.settings.release counted voice (by omega) (by omega)
      omega
  quiet := by
    have timeline : (p.step setup d).timeline = p.timeline.overlayFrom p.cursor _ :=
      timeline_play setup d p
    rw [timeline]
    exact Timeline.abs_overlayFrom_le h.quiet h.size_le (h.abs_passage_le_one d)

/-- So does a whole run. -/
theorem moderate_run (setup : Setup) (noise : Noise) (dry : ∀ d ∈ score, d.dry)
    (moderate : ∀ d ∈ score, d.moderate) :
    ((start noise : Performance ℝ).run setup score).Moderate setup.rate :=
  (runsTo_run setup score _).reached.invariant
    (fun d _ hd h =>
      have member := List.mem_of_getElem? hd
      h.step (dry d member) (moderate d member))
    (moderate_start setup.rate noise)

end Performance

/-! ## Renderings -/

/-- Clamping leaves a sample that is not too loud. -/
theorem clampUnit_of_abs_le {x : ℝ} (h : |x| ≤ 1) : Scalar.clampUnit x = x := by
  obtain ⟨low, high⟩ := abs_le.mp h
  rw [← one_eq] at low high
  exact (if_neg (not_lt.mpr low)).trans (if_neg (not_lt.mpr high))

namespace Rendering

/-- **No note is louder than its settings allow.** The sound of a note, of any frequency and at any
time, for any number of voices that are spread in any way, stays within one, or within the mean of
its weights. So, without effects, everything that a note writes stays within this bound, times the
volume, times the sustain level where that is above one. Without further voices, releases and
settings above a hundred percent, every sample that a count can reach is between `-1` and `1`, and
is not clamped. -/
theorem abs_samples_le (r : Rendering) (source : List Char) (dry : ∀ d ∈ score source, d.dry) :
    (∀ (timbre : Timbre ℝ) (frequency t : ℝ) (noise : Noise),
      |(timbre.sample frequency t noise).1| ≤ timbre.loudness) ∧
    (∀ p : Performance ℝ, (Performance.start (.ofSeed r.seed)).Reached r.setup (score source) p →
      ∀ pitch length, ∀ x ∈ (p.passage r.setup (.note pitch length)).samples.toList,
        |x| ≤ p.settings.volume * max 1 p.settings.envelope.sustain *
          (p.noteOf r.setup pitch length).timbre.loudness) ∧
    ((∀ d ∈ score source, d.moderate) → ∀ i < maxCount, ∀ x : ℝ,
      (r.samples source : Array ℝ)[i]? = some x → (-1 ≤ x ∧ x ≤ 1) ∧ Scalar.clampUnit x = x) := by
  refine ⟨Timbre.abs_sample_le, fun p reached pitch length => ?_, fun moderate i hi x hx => ?_⟩
  · exact Performance.abs_passage_le (Performance.chain_of_reached dry reached)
      (Performance.unsigned_of_reached reached) r.setup pitch length
  · by_cases none : r.rate = 0
    · rw [samples, if_pos none] at hx
      cases hx
    · rw [samples_eq none] at hx
      have quiet := (Performance.moderate_run r.setup (.ofSeed r.seed) dry moderate).quiet i hi x hx
      exact ⟨abs_le.mp quiet, clampUnit_of_abs_le quiet⟩

/-- At full volume, with partials of full weight and with noise. -/
theorem abs_samples_le_fullVolume :
    let source := "v100@h100,50c4@u3,20@6d8r".toList
    ((∀ d ∈ score source, d.dry) ∧ (∀ d ∈ score source, d.moderate)) ∧
      (Performance.start (.ofSeed 1) : Performance ℝ).Reached ⟨8000, some 9⟩ (score source)
        (Performance.start (.ofSeed 1)) ∧
      (∀ x ∈ ((Performance.start (.ofSeed 1) : Performance ℝ).passage ⟨8000, some 9⟩
          (.note ⟨.c, .natural⟩ none)).samples.toList,
        |x| ≤ (Settings.initial : Settings ℝ).volume *
          max 1 (Settings.initial : Settings ℝ).envelope.sustain * 1) ∧
      ∀ x : ℝ, (samples ⟨8000, 1, some 9⟩ source : Array ℝ)[4]? = some x →
        (-1 ≤ x ∧ x ≤ 1) ∧ Scalar.clampUnit x = x := by
  intro source
  have reading : score source = [.volume ⟨100, 0⟩, .harmony [⟨100, 0⟩, ⟨50, 0⟩],
      .note ⟨.c, .natural⟩ (Length.single? 4), .unison [⟨3, 0⟩, ⟨20, 0⟩], .waveform 6,
      .note ⟨.d, .natural⟩ (Length.single? 8), .rest none] := by
    decide +kernel
  have dry : ∀ d ∈ score source, d.dry := by rw [reading]; decide
  have moderate : ∀ d ∈ score source, d.moderate := by rw [reading]; decide
  obtain ⟨-, notes, quiet⟩ := abs_samples_le ⟨8000, 1, some 9⟩ source dry
  exact ⟨⟨dry, moderate⟩, .refl, notes _ .refl ⟨.c, .natural⟩ none, quiet moderate 4 (by decide)⟩

end Rendering

end Chiptune
