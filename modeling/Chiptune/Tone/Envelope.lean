import Chiptune.Scalar

/-!
# Envelopes

An envelope gives attack, decay and release in seconds and a sustain level. `Envelope.contour`
resolves it against one note into sample counts: attack and decay end within the note, the
release follows it.
-/

namespace Chiptune

/-- Attack, decay and release in seconds, and the level between decay and release. -/
structure Envelope (α : Type) where
  attack : α
  decay : α
  sustain : α
  release : α

/-- An envelope resolved to the samples of one note. -/
structure Contour (α : Type) where
  attack : Nat
  decay : Nat
  sustain : α
  release : Nat
  length : Nat

variable {α : Type} [Scalar α]

/-- The whole samples in a number of seconds. -/
def samplesIn (seconds : α) (rate : Nat) : Nat := Scalar.toCount (seconds * Scalar.ofNat rate)

namespace Envelope

/-- The note at full level from its first sample to its last. -/
def plain : Envelope α := ⟨0, 0, 1, 0⟩

/-- An envelope whose four values are given in percent. -/
def ofPercent (attack decay sustain release : α) : Envelope α :=
  ⟨attack / 100, decay / 100, sustain / 100, release / 100⟩

/-- The envelope over a note of `length` samples. The attack is cut to the note and the decay to
what the attack leaves of it; the release is not cut. -/
def contour (e : Envelope α) (length rate : Nat) : Contour α :=
  let attack := min (samplesIn e.attack rate) length
  { attack
    decay := min (samplesIn e.decay rate) (length - attack)
    sustain := e.sustain
    release := samplesIn e.release rate
    length }

/-- Attack and decay always end within the note. -/
theorem ramps_contour_le (e : Envelope α) (length rate : Nat) :
    (e.contour length rate).attack + (e.contour length rate).decay ≤ length := by
  simp only [contour]
  omega

end Envelope

namespace Contour

/-- The note and its release, in samples. -/
def total (c : Contour α) : Nat := min (c.length + c.release) maxCount

/-- The level at sample `i`: up to one over the attack, down to the sustain level over the decay,
level to the end of the note, down to zero over the release, then zero. -/
def amplitude (c : Contour α) (i : Nat) : α :=
  if i < c.attack then Scalar.ofNat i / Scalar.ofNat c.attack
  else if i < c.attack + c.decay then
    1 - (1 - c.sustain) * (Scalar.ofNat (i - c.attack) / Scalar.ofNat c.decay)
  else if i < c.length then c.sustain
  else if i < c.total then
    c.sustain * Scalar.ofNat (c.total - i) / Scalar.ofNat c.release
  else 0

end Contour

end Chiptune
