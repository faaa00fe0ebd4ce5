import Chiptune.Proofs.Timeline
import Chiptune.Proofs.Passage
import Chiptune.Proofs.Checked.Sound

/-!
# Checked notes and rests

The loops of a note and of a rest. They write each sample into the timeline as soon as it is
there, while `Note.play` and `Passage.silence` gather a passage that is added afterwards.

* `Track`: a loop between two samples. `Passage.on` is the track of a passage: what the passage
  has so far stands in the timeline from the cursor on.
* `playRest_eq`, `playNote_eq`: from the track of a passage a loop comes to the track of the
  passage that it is about to gather. The cursor and the samples must fit into a count, and a
  note must not be played behind its end.
-/

namespace Chiptune

/-- A timeline while something is written into it, the effects and the generator. -/
structure Track (α : Type) where
  timeline : Timeline α
  chain : Chain α
  noise : Noise

variable {α : Type} [Scalar α]

/-- The track on which a passage stands, from `cursor` on in the timeline `t`. -/
def Passage.on (t : Timeline α) (cursor : Nat) (passage : Passage α) : Track α :=
  ⟨t.overlayFrom cursor passage.samples.toList, passage.chain, passage.noise⟩

namespace Passage

theorem on_add (t : Timeline α) (cursor : Nat) (x : α) (chain : Chain α) (noise : Noise)
    (passage : Passage α) :
    (passage.add x chain noise).on t cursor
      = ⟨(passage.on t cursor).timeline.overlay (cursor + passage.samples.size) x, chain,
          noise⟩ := by
  simp only [on, add, Timeline.overlayFrom_push]

end Passage

namespace Checked

/-! ## Loops -/

/-- Sample `i` of silence. -/
def silent (volume : α) (cursor i : Nat) (track : Track α) : Option (Track α) := do
  let (wet, chain) ← applyChain track.chain 0
  let index ← add cursor i
  let timeline ← overlay track.timeline index (wet * volume)
  return ⟨timeline, chain, track.noise⟩

/-- Sample `i` of a note, and whether the gate closes behind it. -/
def sounding (note : Note α) (cursor i : Nat) (track : Track α) :
    Option (Bool × Track α) := do
  let (x, noise) ← dry note i track.noise
  let (wet, chain) ← applyChain track.chain x
  let left ← sub note.contour.total i
  let closes := Scalar.ofNat left < Scalar.ofNat note.rate / note.frequency &&
    (-gateThreshold < wet && wet < gateThreshold)
  let index ← add cursor i
  let timeline ← overlay track.timeline index wet
  return (closes, ⟨timeline, chain, noise⟩)

/-- The next `n` samples of a rest, from the `i`-th on. -/
def playRest (volume : α) (cursor : Nat) : (n i : Nat) → Track α → Option (Track α)
  | 0, _, track => some track
  | n + 1, i, track => do
    let track ← silent volume cursor i track
    playRest volume cursor n (i + 1) track

/-- The next `n` samples of a note, from the `i`-th on. -/
def playNote (note : Note α) (cursor : Nat) : (n i : Nat) → (gated : Bool) → Track α →
    Option (Track α)
  | 0, _, _, track => some track
  | n + 1, i, true, track => do
    let track ← silent note.volume cursor i track
    playNote note cursor n (i + 1) true track
  | n + 1, i, false, track => do
    let (closes, track) ← sounding note cursor i track
    playNote note cursor n (i + 1) closes track

/-! ## They do not fail -/

variable {passage : Passage α} {cursor i n : Nat}

theorem silent_eq (h : passage.chain.Ready) (volume : α) (t : Timeline α)
    (hi : passage.samples.size = i) (hc : cursor + i ≤ maxCount) :
    silent volume cursor i (passage.on t cursor)
      = some ((passage.add ((passage.chain.apply 0).1 * volume) (passage.chain.apply 0).2
          passage.noise).on t cursor) := by
  subst hi
  have chain : applyChain (passage.on t cursor).chain 0 = some (passage.chain.apply 0) :=
    applyChain_eq h 0
  rw [Passage.on_add]
  simp only [silent, chain, add_eq hc, overlay_eq, Option.bind_eq_bind, Option.bind_some]
  rfl

theorem sounding_eq {note : Note α} (h : passage.chain.Ready) (hf : note.Fits)
    (t : Timeline α) (hi : passage.samples.size = i) (ht : i ≤ note.contour.total)
    (hc : cursor + i ≤ maxCount) :
    sounding note cursor i (passage.on t cursor)
      = some (note.gateCloses i (note.wet i passage), (note.sound i passage).on t cursor) := by
  subst hi
  have drySample : dry note passage.samples.size (passage.on t cursor).noise
      = some (note.dry passage.samples.size passage.noise) := dry_eq hf _ _
  have chain (x : α) : applyChain (passage.on t cursor).chain x = some (passage.chain.apply x) :=
    applyChain_eq h x
  unfold Note.sound
  dsimp only
  rw [Passage.on_add]
  simp only [sounding, drySample, chain, sub_eq ht, add_eq hc, overlay_eq, Option.bind_eq_bind,
    Option.bind_some]
  rfl

/-- **The loop of a rest writes its passage.** -/
theorem playRest_eq (h : passage.chain.Ready) (volume : α) (t : Timeline α)
    (hi : passage.samples.size = i) (hc : cursor + i + n ≤ maxCount) :
    playRest volume cursor n i (passage.on t cursor)
      = some ((passage.silence volume n).on t cursor) := by
  induction n generalizing i passage with
  | zero => rfl
  | succ n ih =>
    rw [playRest, silent_eq h volume t hi (by omega), Passage.silence_succ]
    exact ih (h.apply 0) (by rw [Passage.size_add, hi]) (by omega)

/-- Once its gate is closed, a note goes on as a rest. -/
theorem playNote_gated (note : Note α) (cursor n i : Nat) (track : Track α) :
    playNote note cursor n i true track = playRest note.volume cursor n i track := by
  induction n generalizing i track with
  | zero => rfl
  | succ n ih => simp only [playNote, playRest, ih]

/-- **The loop of a note writes its passage.** -/
theorem playNote_eq {note : Note α} (h : passage.chain.Ready) (hf : note.Fits)
    (t : Timeline α) (hi : passage.samples.size = i) (ht : i + n ≤ note.contour.total)
    (hc : cursor + i + n ≤ maxCount) :
    playNote note cursor n i false (passage.on t cursor)
      = some ((note.play n i passage).on t cursor) := by
  induction n generalizing i passage with
  | zero => rfl
  | succ n ih =>
    have size : (note.sound i passage).samples.size = i + 1 := by
      rw [← hi]
      exact Passage.size_add ..
    have next : (note.sound i passage).chain.Ready := h.apply _
    rw [playNote, sounding_eq h hf t hi (by omega) (by omega), Note.play_succ]
    simp only [Option.bind_eq_bind, Option.bind_some]
    cases note.gateCloses i (note.wet i passage) with
    | true =>
      rw [playNote_gated, if_pos rfl]
      exact playRest_eq next note.volume t size (by omega)
    | false => exact ih next size (by omega) (by omega)

end Checked

end Chiptune
