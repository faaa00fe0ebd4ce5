import Mathlib.Order.Bounds.Basic
import Chiptune.Proofs.Signal

/-!
# The gate of a note

A note in closed form, sample by sample, without going through it.

* `Note.dryAt`, `Note.wetAt`: what a note would feed the effects with, and what they would put out,
  if it sounded all along. `Note.gate?` is the first sample behind which its gate closes. None of
  these depends on the limit.
* `Note.Sounding`: a passage stands before a sample of a note that has sounded so far. One sample
  leads to the next as long as the gate is open (`Note.Sounding.next`).
* `Note.Sounding.inputs_eq`, `Note.Sounding.noise_play`: what goes into the effects and what is
  drawn from the generator, in closed form.
* `Performance.step_note_closedForm`: what playing a note makes of a performance.
-/

namespace Chiptune

variable {α : Type} [Scalar α]

namespace Note

/-! ## A note that sounds all along -/

/-- The mix of all voices at sample `i`, and the generator behind it. -/
def mix (note : Note α) (i : Nat) (noise : Noise) : α × Noise :=
  note.timbre.sample note.frequency (Scalar.ofNat i / Scalar.ofNat note.rate) noise

/-- The generator before sample `i`. -/
def noiseAt (note : Note α) (noise : Noise) : Nat → Noise
  | 0 => noise
  | i + 1 => (note.mix i (note.noiseAt noise i)).2

/-- What goes into the effects at sample `i`. -/
def dryAt (note : Note α) (noise : Noise) (i : Nat) : α :=
  (note.mix i (note.noiseAt noise i)).1 * note.volume * note.contour.amplitude i

/-- The effects before sample `i`. -/
def chainAt (note : Note α) (chain : Chain α) (noise : Noise) (i : Nat) : Chain α :=
  (chain.through ((List.range i).map (note.dryAt noise))).2

/-- What comes out of the effects at sample `i`. -/
def wetAt (note : Note α) (chain : Chain α) (noise : Noise) (i : Nat) : α :=
  ((note.chainAt chain noise i).apply (note.dryAt noise i)).1

/-- The sample behind which the gate closes, the last one that sounds: the first one within a
period of the end that is quiet. -/
def gate? (note : Note α) (chain : Chain α) (noise : Noise) : Option Nat :=
  (List.range note.contour.total).find? fun i => note.gateCloses i (note.wetAt chain noise i)

/-- What sample `i` feeds the effects with: sound up to the gate, silence behind it. -/
def inputAt (note : Note α) (noise : Noise) (gate : Option Nat) (i : Nat) : Input α :=
  if ∀ g ∈ gate, i ≤ g then .sound (note.dryAt noise i) else .silence note.volume

theorem sample_inputAt (note : Note α) (noise : Noise) (gate : Option Nat) (i : Nat) :
    (note.inputAt noise gate i).sample
      = if ∀ g ∈ gate, i ≤ g then note.dryAt noise i else 0 := by
  unfold inputAt
  split <;> rfl

theorem level_inputAt (note : Note α) (noise : Noise) (gate : Option Nat) (i : Nat) (wet : α) :
    (note.inputAt noise gate i).level wet
      = if ∀ g ∈ gate, i ≤ g then wet else wet * note.volume := by
  unfold inputAt
  split <;> rfl

/-- How many of the first `n` samples sound. -/
def sounding (gate : Option Nat) (n : Nat) : Nat := gate.elim n fun g => min n (g + 1)

variable {note : Note α} {chain : Chain α} {noise : Noise}

theorem dry_noiseAt (note : Note α) (noise : Noise) (i : Nat) :
    note.dry i (note.noiseAt noise i) = (note.dryAt noise i, note.noiseAt noise (i + 1)) := rfl

theorem chainAt_succ (note : Note α) (chain : Chain α) (noise : Noise) (i : Nat) :
    note.chainAt chain noise (i + 1)
      = ((note.chainAt chain noise i).apply (note.dryAt noise i)).2 := by
  simp only [chainAt, List.range_succ, List.map_append, Chain.through_append]
  rfl

theorem gateCloses_iff (note : Note α) (i : Nat) (wet : α) :
    note.gateCloses i wet = true ↔
      (Scalar.ofNat (note.contour.total - i) : α) < Scalar.ofNat note.rate / note.frequency ∧
        -gateThreshold < wet ∧ wet < gateThreshold := by
  simp [gateCloses]

/-- The gate closes behind the least sample of those behind which it could. -/
theorem gate?_eq_some_iff (g : Nat) :
    note.gate? chain noise = some g ↔
      IsLeast {i | i < note.contour.total ∧ note.gateCloses i (note.wetAt chain noise i) = true}
        g := by
  rw [gate?, List.find?_range_eq_some]
  constructor
  · rintro ⟨closes, member, first⟩
    refine ⟨⟨List.mem_range.mp member, closes⟩, fun i ⟨_, closes'⟩ => ?_⟩
    by_contra before
    have stays := first i (Nat.lt_of_not_le before)
    simp [closes'] at stays
  · rintro ⟨⟨inside, closes⟩, least⟩
    refine ⟨closes, List.mem_range.mpr inside, fun i before => ?_⟩
    by_contra closes'
    have later := least ⟨Nat.lt_trans before inside, by simpa using closes'⟩
    omega

/-! ## From sample to sample -/

/-- The passage stands before sample `i`, and the note has sounded so far. -/
structure Sounding (note : Note α) (chain : Chain α) (noise : Noise) (i : Nat)
    (passage : Passage α) : Prop where
  chain_eq : passage.chain = note.chainAt chain noise i
  noise_eq : passage.noise = note.noiseAt noise i
  stays : ∀ j < i, note.gateCloses j (note.wetAt chain noise j) = false

namespace Sounding

variable {i : Nat} {passage : Passage α}

theorem start (note : Note α) (passage : Passage α) :
    note.Sounding passage.chain passage.noise 0 passage :=
  ⟨rfl, rfl, fun _ before => absurd before (Nat.not_lt_zero _)⟩

theorem dry_eq (h : note.Sounding chain noise i passage) :
    note.dry i passage.noise = (note.dryAt noise i, note.noiseAt noise (i + 1)) := by
  rw [h.noise_eq, dry_noiseAt]

theorem wet_eq (h : note.Sounding chain noise i passage) :
    note.wet i passage = note.wetAt chain noise i := by
  rw [wet, h.dry_eq, h.chain_eq, wetAt]

/-- Where the gate does not close the note sounds on. -/
theorem next (h : note.Sounding chain noise i passage)
    (opened : note.gateCloses i (note.wetAt chain noise i) = false) :
    note.Sounding chain noise (i + 1) (note.sound i passage) where
  chain_eq := by
    rw [chainAt_succ, ← h.chain_eq]
    simp only [sound, h.dry_eq]
    rfl
  noise_eq := by
    simp only [sound, h.dry_eq]
    rfl
  stays j before := by
    rcases Nat.lt_succ_iff_lt_or_eq.mp before with earlier | rfl
    · exact h.stays j earlier
    · exact opened

/-- A sample behind which the gate could close is not before one that sounds. -/
theorem le_of_closes (h : note.Sounding chain noise i passage) {j : Nat}
    (closes : note.gateCloses j (note.wetAt chain noise j) = true) : i ≤ j := by
  by_contra before
  have stays := h.stays j (Nat.lt_of_not_le before)
  rw [closes] at stays
  cases stays

/-- The gate has not closed before a sample that sounds. -/
theorem le_gate (h : note.Sounding chain noise i passage) :
    ∀ g ∈ note.gate? chain noise, i ≤ g := by
  intro g found
  obtain ⟨⟨-, closes⟩, -⟩ := (gate?_eq_some_iff g).mp found
  exact h.le_of_closes closes

/-- Where the gate closes for the first time, it is the gate of the note. -/
theorem gate_eq (h : note.Sounding chain noise i passage) (inside : i < note.contour.total)
    (closes : note.gateCloses i (note.wetAt chain noise i) = true) :
    note.gate? chain noise = some i :=
  (gate?_eq_some_iff i).mpr ⟨⟨inside, closes⟩, fun _ ⟨_, closes'⟩ => h.le_of_closes closes'⟩

end Sounding

theorem noise_silence (volume : α) (n : Nat) (passage : Passage α) :
    (passage.silence volume n).noise = passage.noise := by
  induction n generalizing passage with
  | zero => rfl
  | succ n ih =>
    rw [Passage.silence_succ, ih]
    rfl

/-- **A note sounds up to its gate, and is silent behind it**, from any sample on that it sounds
up to. -/
theorem Sounding.inputs_eq {i n : Nat} {passage : Passage α}
    (h : note.Sounding chain noise i passage) (inside : i + n ≤ note.contour.total) :
    note.inputs n i passage
      = (List.range' i n).map (note.inputAt noise (note.gate? chain noise)) := by
  induction n generalizing i passage with
  | zero => rfl
  | succ n ih =>
    have here : note.inputAt noise (note.gate? chain noise) i = .sound (note.dryAt noise i) :=
      if_pos h.le_gate
    rw [inputs, h.wet_eq, h.dry_eq, List.range'_succ, List.map_cons, here]
    congr 1
    cases closes : note.gateCloses i (note.wetAt chain noise i) with
    | true =>
      -- The gate is found: no later sample sounds.
      have gate := h.gate_eq (by omega) closes
      refine (List.eq_replicate_iff.mpr ⟨by simp, fun input member => ?_⟩).symm
      obtain ⟨j, later, rfl⟩ := List.mem_map.mp member
      have behind : i < j := by
        have := List.mem_range'_1.mp later
        omega
      rw [inputAt, gate, if_neg (by simp; omega)]
    | false => exact ih (h.next closes) (by omega)

theorem Sounding.noise_play {i n : Nat} {passage : Passage α}
    (h : note.Sounding chain noise i passage) (inside : i + n ≤ note.contour.total) :
    (note.play n i passage).noise
      = note.noiseAt noise (sounding (note.gate? chain noise) (i + n)) := by
  induction n generalizing i passage with
  | zero =>
    have all : sounding (note.gate? chain noise) i = i := by
      unfold sounding
      cases found : note.gate? chain noise with
      | none => rfl
      | some g =>
        have le := h.le_gate g found
        simp only [Option.elim_some]
        omega
    rw [Nat.add_zero, all]
    exact h.noise_eq
  | succ n ih =>
    rw [play_succ, h.wet_eq]
    cases closes : note.gateCloses i (note.wetAt chain noise i) with
    | true =>
      have count : sounding (note.gate? chain noise) (i + (n + 1)) = i + 1 := by
        rw [h.gate_eq (by omega) closes]
        simp only [sounding, Option.elim_some]
        omega
      rw [if_pos rfl, noise_silence, count]
      simp only [sound, h.dry_eq]
      rfl
    | false =>
      have rest := ih (h.next closes) (by omega)
      rw [show i + 1 + n = i + (n + 1) by omega] at rest
      exact rest

/-- The same from the first sample on. -/
theorem inputs_passage (note : Note α) {n : Nat} (inside : n ≤ note.contour.total)
    (passage : Passage α) :
    note.inputs n 0 passage
      = (List.range n).map
          (note.inputAt passage.noise (note.gate? passage.chain passage.noise)) := by
  rw [List.range_eq_range']
  exact (Sounding.start note passage).inputs_eq (by omega)

theorem noise_passage (note : Note α) {n : Nat} (inside : n ≤ note.contour.total)
    (passage : Passage α) :
    (note.play n 0 passage).noise
      = note.noiseAt passage.noise
          (sounding (note.gate? passage.chain passage.noise) n) := by
  have drawn := (Sounding.start note passage).noise_play (n := n) (by omega)
  rwa [Nat.zero_add] at drawn

end Note

/-! ## A note in a performance -/

/-- Inputs that are given sample by sample, and what comes out for each of them. -/
theorem Input.zipWith_level (inputAt : Nat → Input α) {n : Nat} {wets : List α}
    (h : wets.length = n) :
    List.zipWith (fun input wet => input.level wet) ((List.range n).map inputAt) wets
      = wets.mapIdx fun i wet => (inputAt i).level wet := by
  apply List.ext_getElem
  · simp [h]
  · intro i _ _
    simp

namespace Performance

/-- **A note in closed form.** The gate closes behind the least sample, of all samples of the note
and its release, that is within a period of the end and leaves the effects below the threshold;
the limit has no part in this. As far as the limit allows, the effects are fed with the sound of the
note up to the gate and with silence behind it. What comes out is added from the cursor on, behind
the gate at the volume of the note. The generator is drawn from for the samples that sound, the
cursor goes on by the length of the note, and all settings stay. -/
theorem step_note_closedForm (rate : Nat) (pitch : Pitch) (length : Option Length)
    (p : Performance α) :
    let note := p.noteOf ⟨rate, none⟩ pitch length
    let total := min (p.duration ⟨rate, none⟩ length
      + samplesIn p.settings.envelope.release rate) maxCount
    let gate := note.gate? p.chain p.noise
    (∀ g, gate = some g ↔
      IsLeast {i | i < total ∧
        (Scalar.ofNat (total - i) : α) < Scalar.ofNat rate / pitch.frequency p.settings.octave ∧
        -gateThreshold < note.wetAt p.chain p.noise i ∧
        note.wetAt p.chain p.noise i < gateThreshold} g) ∧
    ∀ limit : Option Nat,
      let count := min total (Setup.budget ⟨rate, limit⟩ p.cursor)
      let dry := fun i => if ∀ g ∈ gate, i ≤ g then note.dryAt p.noise i else 0
      let (wets, chain) := p.chain.through ((List.range count).map dry)
      let written := wets.mapIdx fun i wet =>
        if ∀ g ∈ gate, i ≤ g then wet else wet * p.settings.volume
      p.step ⟨rate, limit⟩ (.note pitch length)
        = { place := p.place.advance (.note pitch length)
            settings := p.settings
            cursor := min (p.cursor + p.duration ⟨rate, none⟩ length) maxCount
            chain
            timeline := p.timeline.overlayFrom p.cursor written
            noise := note.noiseAt p.noise (Note.sounding gate count) } := by
  intro note total gate
  refine ⟨fun g => ?_, fun limit => ?_⟩
  · have least : gate = some g ↔ IsLeast _ g := Note.gate?_eq_some_iff g
    simp only [Note.gateCloses_iff] at least
    exact least
  · intro count dry
    have inside : count ≤ note.contour.total := Nat.min_le_left ..
    have inputs : p.inputsOf ⟨rate, limit⟩ (.note pitch length)
        = (List.range count).map (note.inputAt p.noise gate) :=
      note.inputs_passage inside ⟨#[], p.chain, p.noise⟩
    have signal : (p.inputsOf ⟨rate, limit⟩ (.note pitch length)).map (·.sample)
        = (List.range count).map dry := by
      rw [inputs, List.map_map]
      exact List.map_congr_left fun i _ => Note.sample_inputAt ..
    have comesOut : (p.chain.through ((List.range count).map dry)).1.length = count := by
      rw [Chain.length_through, List.length_map, List.length_range]
    have samples := samples_passage_eq ⟨rate, limit⟩ (.note pitch length) p
    have fed := chain_passage ⟨rate, limit⟩ (.note pitch length) p
    have drawn : (p.passage ⟨rate, limit⟩ (.note pitch length)).noise = _ :=
      note.noise_passage inside ⟨#[], p.chain, p.noise⟩
    rw [signal] at samples fed
    rw [inputs, Input.zipWith_level _ comesOut] at samples
    simp only [Note.level_inputAt] at samples
    simp only [step, play, write, samples, fed, drawn]
    rfl

end Performance

end Chiptune
