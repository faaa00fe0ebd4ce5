import Chiptune.Tone.Waveform

/-!
# Unison

A note can be played by several voices at once, spread on both sides of its frequency, and
sounds as their mean.
-/

namespace Chiptune

/-- The most voices of one note. -/
def maxVoices : Nat := 64

/-- A number of voices and how far they are spread. -/
structure Unison (α : Type) where
  voices : Nat
  /-- The outermost voices stand at `1 + detune / 10000` and its reciprocal. -/
  detune : α

namespace Unison

variable {α : Type} [Scalar α]

/-- At most `maxVoices` voices. -/
def capped (voices : Nat) (detune : α) : Unison α := ⟨min voices maxVoices, detune⟩

/-- One voice on the note's own frequency. -/
def single : Unison α := ⟨1, 0⟩

/-- The frequency of voice `index` relative to the note's. The exponent runs evenly from `-1`
for the first voice to `1` for the last; fewer than two voices are not spread. -/
def ratio (u : Unison α) (index : Nat) : α :=
  if u.voices < 2 then 1
  else
    let exponent := -1 + Scalar.ofNat index * 2 / Scalar.ofNat (u.voices - 1)
    Scalar.pow (1 + u.detune / 10000) exponent

end Unison

/-- The sound of a note. -/
structure Timbre (α : Type) where
  wave : Waveform
  /-- The weights of the partials, for `Waveform.harmonics`. -/
  weights : List α
  unison : Unison α

namespace Timbre

variable {α : Type} [Scalar α]

/-- The samples of `n` voices from voice `j` on, added to `total`. -/
def addVoices (timbre : Timbre α) (frequency t : α) : (n j : Nat) → α → Noise → α × Noise
  | 0, _, total, noise => (total, noise)
  | n + 1, j, total, noise =>
    let (x, noise) :=
      timbre.wave.sample (frequency * timbre.unison.ratio j) t timbre.weights noise
    addVoices timbre frequency t n (j + 1) (total + x) noise

/-- The mean of all voices, `t` seconds after the note began. No voices count as one. -/
def sample (timbre : Timbre α) (frequency t : α) (noise : Noise) : α × Noise :=
  let count := max timbre.unison.voices 1
  let (total, noise) := timbre.addVoices frequency t count 0 0 noise
  (total / Scalar.ofNat count, noise)

end Timbre

end Chiptune
