import Chiptune.Config.Basic
import Chiptune.Proofs.Heard
import Chiptune.Proofs.Limit

/-!
# The seed

The seed is heard only through white noise (`Rendering.samples_seed`): a piece that plays no note
with it is the same with any seed and without one, whatever else it uses. That it plays none is
seen from a single run (`Performance.Tonal`), and of a source that never selects white noise from
the text alone (`Performance.tonal_of_notMem`).
-/

namespace Chiptune

variable {α : Type} [Scalar α]

/-- A piece without notes of white noise is the same with any generator and does not touch it. -/
theorem Performance.Tonal.run_start {setup : Setup} {score : List Directive} {noise : Noise}
    (h : (start noise : Performance α).Tonal setup score) (other : Noise) :
    ((start other : Performance α).run setup score).timeline
        = ((start noise).run setup score).timeline ∧
      ((start other : Performance α).run setup score).noise = other := by
  have same : (start other : Performance α).run setup score
      = ((start noise).run setup score).withNoise other := h.run_withNoise other
  rw [same]
  exact ⟨rfl, rfl⟩

namespace Rendering

open Performance

/-- Without notes of white noise, a rendering has the samples of a run from any generator. -/
theorem samples_of_tonal {r : Rendering} {source : List Char}
    (h : (start (.ofSeed r.seed) : Performance α).Tonal r.setup (score source)) (hr : r.rate ≠ 0)
    (noise : Noise) :
    (r.samples source : Array α)
      = ((start noise).run r.setup (score source)).timeline.samples := by
  rw [samples_eq hr, performance, ← (h.run_start noise).1]

theorem samples_withSeed {r : Rendering} {source : List Char}
    (h : (start (.ofSeed r.seed) : Performance α).Tonal r.setup (score source)) (seed : UInt64) :
    ({ r with seed }.samples source : Array α) = r.samples source := by
  by_cases hr : r.rate = 0
  · simp [samples, hr]
  · have other : ({ r with seed } : Rendering).rate ≠ 0 := hr
    rw [samples_of_tonal h hr (.ofSeed seed), samples_eq other]
    rfl

/-- **The seed is heard only through white noise.** A run that plays no note with it has the same
timeline from any generator, and leaves every generator as it was; a score that never selects
white noise has no other runs. So the samples of such a source do not depend on the seed, nor on
the generator that stands in where the settings name no seed. -/
theorem samples_seed :
    (∀ (setup : Setup) (score : List Directive) (noise other : Noise),
      (start noise : Performance α).Tonal setup score →
        ((start noise : Performance α).run setup score).timeline
            = ((start other).run setup score).timeline ∧
          ((start noise : Performance α).run setup score).noise = noise ∧
          ((start other : Performance α).run setup score).noise = other) ∧
      (∀ (setup : Setup) (score : List Directive) (noise : Noise),
        .waveform 6 ∉ score → (start noise : Performance α).Tonal setup score) ∧
      (∀ (r : Rendering) (source : List Char),
        (start (.ofSeed r.seed) : Performance α).Tonal r.setup (score source) →
          (∀ seed, ({ r with seed }.samples source : Array α) = r.samples source) ∧
            (r.rate ≠ 0 → ∀ noise, (r.samples source : Array α)
              = ((start noise).run r.setup (score source)).timeline.samples)) ∧
      ∀ (c : Config) (source : List Char) (fresh fresh' : UInt64) (seed : Option Nat),
        (start (.ofSeed (c.rendering fresh).seed) : Performance α).Tonal (c.rendering fresh).setup
            (score source) →
          ({ c with seed }.rendering fresh' |>.samples source : Array α)
            = (c.rendering fresh).samples source := by
  refine ⟨fun setup score noise other tonal => ?_, fun setup score noise never => ?_,
    fun r source tonal => ⟨samples_withSeed tonal, samples_of_tonal tonal⟩,
    fun c source fresh fresh' seed tonal => samples_withSeed tonal _⟩
  · obtain ⟨same, untouched⟩ := tonal.run_start other
    exact ⟨same.symm, (tonal.run_start noise).2, untouched⟩
  · exact tonal_of_notMem never Waveform.noConfusion

/-- It holds of a piece that selects white noise, but only rests with it. -/
theorem samples_seed_noisyRest :
    (start (.ofSeed 1) : Performance Float).Tonal ⟨8, none⟩ (score "@6r@h100c".toList) ∧
      (samples ⟨8, 2, none⟩ "@6r@h100c".toList : Array Float)
        = samples ⟨8, 1, none⟩ "@6r@h100c".toList := by
  have reading : score "@6r@h100c".toList
      = [.waveform 6, .rest none, .harmony [⟨100, 0⟩], .note ⟨.c, .natural⟩ none] := by
    decide +kernel
  have tonal : (start (.ofSeed 1) : Performance Float).Tonal ⟨8, none⟩
      (score "@6r@h100c".toList) := by
    intro pitch length q hq
    rw [reading, played_of_step rfl rfl, played_of_step rfl rfl, played_of_step rfl rfl,
      played_of_step rfl rfl, played_of_end rfl] at hq
    simp only [List.mem_cons, Prod.mk.injEq, reduceCtorEq, false_and, false_or,
      List.not_mem_nil, or_false] at hq
    rw [hq.2]
    exact Waveform.noConfusion
  exact ⟨tonal, (samples_seed.2.2.1 ⟨8, 1, none⟩ _ tonal).1 2⟩

end Rendering

end Chiptune
