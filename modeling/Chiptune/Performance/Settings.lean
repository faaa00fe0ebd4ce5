import Chiptune.Notation.Token
import Chiptune.Tone.Unison
import Chiptune.Tone.Envelope

/-!
# Settings

What the directives change between notes. A directive that lacks a parameter, or that would stop
the tempo, changes nothing.
-/

namespace Chiptune

/-- The settings that notes and rests are played with. -/
structure Settings (α : Type) where
  /-- Beats per minute. -/
  tempo : α
  /-- Octaves above the reference octave. -/
  octave : Int
  volume : α
  defaultLength : Length
  wave : Waveform
  /-- The weights of the partials, of which the whole is one. -/
  weights : List α
  unison : Unison α
  envelope : Envelope α

/-- The highest octave, `2 ^ 31 - 1`; raising it further has no effect. -/
def highestOctave : Int := 2147483647

/-- The lowest octave, `-2 ^ 31`; lowering it further has no effect. -/
def lowestOctave : Int := -2147483648

namespace Settings

variable {α : Type} [Scalar α]

/-- What a piece begins with. -/
def initial : Settings α :=
  { tempo := 120
    octave := 0
    volume := 0.5
    defaultLength := .eighth
    wave := .square50
    weights := []
    unison := .single
    envelope := .plain }

/-- What a further voice begins with: tempo, unison and the weights of the partials are kept. -/
def newVoice (s : Settings α) : Settings α :=
  { initial with tempo := s.tempo, unison := s.unison, weights := s.weights }

/-- The settings after a directive. -/
def apply (d : Directive) (s : Settings α) : Settings α :=
  match d with
  | .octaveUp => { s with octave := min (s.octave + 1) highestOctave }
  | .octaveDown => { s with octave := max (s.octave - 1) lowestOctave }
  | .tempo value =>
    let tempo := Scalar.ofDecimal value
    if 0 < tempo then { s with tempo } else s
  | .volume value => { s with volume := Scalar.ofDecimal value / 100 }
  | .defaultLength length => { s with defaultLength := length }
  | .waveform index => { s with wave := .ofIndex index }
  | .envelope params =>
    match params.map Scalar.ofDecimal with
    | attack :: decay :: sustain :: release :: _ =>
      { s with envelope := .ofPercent attack decay sustain release }
    | _ => s
  | .harmony [] => s
  | .harmony weights =>
    { s with
      wave := .harmonics
      weights := weights.map fun w => Scalar.ofDecimal w / 100 }
  | .unison params =>
    match params.map Scalar.ofDecimal with
    | voices :: detune :: _ => { s with unison := .capped (Scalar.toCount voices) detune }
    | _ => s
  | .voiceReset => s.newVoice
  | _ => s

end Settings

end Chiptune
