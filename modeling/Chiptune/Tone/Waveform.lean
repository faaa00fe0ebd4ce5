import Chiptune.Tone.Noise

/-!
# Waveforms

Every waveform but noise is a function of frequency and time since the note began, so a note
always begins at phase zero.
-/

namespace Chiptune

/-- The shapes that a note can have. -/
inductive Waveform where
  /-- A pulse that is high for half of each period. -/
  | square50
  /-- A pulse that is high for a quarter of each period. -/
  | square25
  /-- A pulse that is high for an eighth of each period. -/
  | square12
  | triangle
  | saw
  | sine
  | whiteNoise
  /-- Sine partials with weights of their own. -/
  | harmonics
deriving DecidableEq

/-- The waveform with an index of the notation; one past the last is the half pulse again. -/
def Waveform.ofIndex : Nat → Waveform
  | 0 => square50
  | 1 => square25
  | 2 => square12
  | 3 => triangle
  | 4 => saw
  | 5 => sine
  | 6 => whiteNoise
  | _ => square50

namespace Tone

variable {α : Type} [Scalar α]

/-- A sine. -/
def sine (frequency t : α) : α := Scalar.sin (2 * Scalar.pi * frequency * t)

/-- A pulse: high while the position in the period is at most `duty`, then low. -/
def square (frequency t duty : α) : α := if Scalar.fract (frequency * t) ≤ duty then 1 else -1

/-- A ramp from zero up to one. -/
def saw (frequency t : α) : α := Scalar.fract (frequency * t)

/-- Straight lines from `-1` to `1` and back. -/
def triangle (frequency t : α) : α :=
  Scalar.arccos (Scalar.cos (2 * Scalar.pi * frequency * t)) * 2 / Scalar.pi - 1

/-- The weighted sines from the `k`-th multiple of `frequency` on, added to `total`. -/
def addPartials (frequency t : α) (k : Nat) (total : α) : List α → α
  | [] => total
  | w :: ws => addPartials frequency t (k + 1)
      (total + sine (frequency * Scalar.ofNat k) t * w) ws

/-- Sines at the multiples of `frequency`, weighted and divided by their number; silence without
weights. -/
def harmonics (frequency t : α) (weights : List α) : α :=
  if weights.isEmpty then 0
  else addPartials frequency t 1 0 weights / Scalar.ofNat weights.length

end Tone

/-- One sample of a waveform, `t` seconds after the note began. Only `harmonics` looks at the
weights and only `whiteNoise` at the generator. -/
def Waveform.sample {α : Type} [Scalar α] (wave : Waveform) (frequency t : α) (weights : List α)
    (noise : Noise) : α × Noise :=
  match wave with
  | square50 => (Tone.square frequency t 0.5, noise)
  | square25 => (Tone.square frequency t 0.25, noise)
  | square12 => (Tone.square frequency t 0.125, noise)
  | triangle => (Tone.triangle frequency t, noise)
  | saw => (Tone.saw frequency t, noise)
  | sine => (Tone.sine frequency t, noise)
  | whiteNoise => noise.sample
  | harmonics => (Tone.harmonics frequency t weights, noise)

end Chiptune
