import Chiptune.Tone.Unison
import Chiptune.Tone.Envelope
import Chiptune.Effect.Chain

/-!
# Notes and rests

A note sounds until it ends or its gate closes: within its last period, the first sample that
leaves the effects quieter than the gate's threshold is the last one that sounds. What is left of
the note, and all of a rest, is silence, which goes through the effects as well, so that they can
fade.
-/

namespace Chiptune

/-- What a note or rest is writing: its samples so far, and the effects and the generator after
them. -/
structure Passage (α : Type) where
  samples : Array α
  chain : Chain α
  noise : Noise

/-- A note with all that its sound depends on. -/
structure Note (α : Type) where
  timbre : Timbre α
  frequency : α
  volume : α
  contour : Contour α
  rate : Nat

variable {α : Type} [Scalar α]

/-- The loudness below which the gate of a note closes. -/
def gateThreshold : α := 0.05

/-- `n` samples of silence, sent through the effects and scaled by the volume. -/
def Passage.silence (volume : α) : (n : Nat) → Passage α → Passage α
  | 0, passage => passage
  | n + 1, ⟨samples, chain, noise⟩ =>
    let (wet, chain) := chain.apply 0
    silence volume n ⟨samples.push (wet * volume), chain, noise⟩

@[simp] theorem Passage.size_silence (volume : α) (n : Nat) (passage : Passage α) :
    (passage.silence volume n).samples.size = passage.samples.size + n := by
  induction n generalizing passage with
  | zero => rfl
  | succ n ih =>
    rw [Passage.silence, ih, Array.size_push]
    omega

namespace Note

/-- Sample `i` of the note before the effects. -/
def dry (note : Note α) (i : Nat) (noise : Noise) : α × Noise :=
  let t := Scalar.ofNat i / Scalar.ofNat note.rate
  let (x, noise) := note.timbre.sample note.frequency t noise
  (x * note.volume * note.contour.amplitude i, noise)

/-- Whether the gate closes behind sample `i`, which leaves the effects as `wet`: the note ends
within a period, and the sample is quiet. -/
def gateCloses (note : Note α) (i : Nat) (wet : α) : Bool :=
  Scalar.ofNat (note.contour.total - i) < Scalar.ofNat note.rate / note.frequency &&
    (-gateThreshold < wet && wet < gateThreshold)

/-- The next `n` samples of a note, from the `i`-th on. -/
def play (note : Note α) : (n i : Nat) → Passage α → Passage α
  | 0, _, passage => passage
  | n + 1, i, ⟨samples, chain, noise⟩ =>
    let (x, noise) := note.dry i noise
    let (wet, chain) := chain.apply x
    let passage : Passage α := ⟨samples.push wet, chain, noise⟩
    if note.gateCloses i wet then passage.silence note.volume n
    else note.play n (i + 1) passage

/-- Whatever the gate does, all samples are written. -/
@[simp] theorem size_play (note : Note α) (n i : Nat) (passage : Passage α) :
    (note.play n i passage).samples.size = passage.samples.size + n := by
  induction n generalizing i passage with
  | zero => rfl
  | succ n ih =>
    rw [play]
    dsimp only
    split
    · rw [Passage.size_silence, Array.size_push]; omega
    · rw [ih, Array.size_push]; omega

end Note

end Chiptune
