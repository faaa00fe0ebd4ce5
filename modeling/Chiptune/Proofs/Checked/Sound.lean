import Chiptune.Proofs.Checked.Basic
import Chiptune.Proofs.Passage

/-!
# Checked sound

What is computed for one sample, and before the first sample of a note: frequency, envelope,
voices, effects, and the addition to the timeline.

* `Note.Fits`: attack and decay end within the note, and its length is a count, and so is the
  number of its partials.
* `Chain.Ready`: the line of every echo is no longer than its delay, and a full line has an entry
  at its position. Every sample keeps this (`Chain.Ready.apply`).
* Each function here answers as the one that it checks does. Notes that fit and chains that are
  ready are all that this needs.
-/

namespace Chiptune

/-- Attack and decay end within the note, and the note's length is a count. -/
structure Contour.Fits {α : Type} (c : Contour α) : Prop where
  ramps_le : c.attack + c.decay ≤ c.length
  length_le : c.length ≤ maxCount

/-- The contour fits, and the number of weights is a count. -/
structure Note.Fits {α : Type} (note : Note α) : Prop where
  contour : note.contour.Fits
  weights_le : note.timbre.weights.length ≤ maxCount

/-- The delay is a count, the line is no longer, and one that is full has an oldest output. -/
structure Echo.Ready {α : Type} (e : Echo α) : Prop where
  delay_le : e.delay ≤ maxCount
  size_le : e.line.size ≤ e.delay
  position_lt : 0 < e.delay → e.position < e.delay

/-- Filters are always ready. -/
def Effect.Ready {α : Type} : Effect α → Prop
  | .filter _ => True
  | .echo e => e.Ready

/-- All stages of a chain are ready. -/
def Chain.Ready {α : Type} (chain : Chain α) : Prop := ∀ effect ∈ chain, effect.Ready

theorem Chain.ready_nil {α : Type} : Chain.Ready ([] : Chain α) := List.forall_mem_nil _

namespace Checked

variable {α : Type} [Scalar α]

/-! ## Pitches and envelopes -/

/-- Semitones of the letter that a character writes; other characters have none. -/
def semitone : Char → Option Int
  | 'c' => some 0
  | 'd' => some 2
  | 'e' => some 4
  | 'f' => some 5
  | 'g' => some 7
  | 'a' => some 9
  | 'b' => some 11
  | _ => none

/-- The frequency of a pitch, by the character of its letter. -/
def frequency (octave : Int) (p : Pitch) : Option α := do
  let base ← semitone p.letter.toChar
  let note ← addSigned 72 (← addSigned base p.accidental.shift)
  return midiFrequency (Scalar.ofNat note.toNat) * Scalar.twoPow octave

/-- An envelope over a note of `length` samples. -/
def contour (e : Envelope α) (length rate : Nat) : Option (Contour α) := do
  let attack := min (samplesIn e.attack rate) length
  let left ← sub length attack
  return {
    attack
    decay := min (samplesIn e.decay rate) left
    sustain := e.sustain
    release := samplesIn e.release rate
    length }

/-- The level at sample `i`. -/
def amplitude (c : Contour α) (i : Nat) : Option α := do
  let attackAndDecay ← add c.attack c.decay
  if i < c.attack then return Scalar.ofNat i / Scalar.ofNat c.attack
  else if i < attackAndDecay then
    let behind ← sub i c.attack
    return 1 - (1 - c.sustain) * (Scalar.ofNat behind / Scalar.ofNat c.decay)
  else if i < c.length then return c.sustain
  else if i < c.total then
    let left ← sub c.total i
    return c.sustain * Scalar.ofNat left / Scalar.ofNat c.release
  else return 0

/-- Every letter has semitones, and with its accidental the pitch has a note number. -/
theorem frequency_eq (octave : Int) (p : Pitch) :
    frequency octave p = some (p.frequency octave : α) := by
  obtain ⟨letter, accidental⟩ := p
  cases letter <;> cases accidental <;> rfl

theorem contour_eq (e : Envelope α) (length rate : Nat) :
    contour e length rate = some (e.contour length rate) := by
  simp [contour, sub_eq (Nat.min_le_right (samplesIn e.attack rate) length), Envelope.contour]

theorem fits_contour (e : Envelope α) {length rate : Nat} (h : length ≤ maxCount) :
    (e.contour length rate).Fits where
  ramps_le := e.ramps_contour_le length rate
  length_le := h

theorem amplitude_eq {c : Contour α} (h : c.Fits) (i : Nat) :
    amplitude c i = some (c.amplitude i) := by
  have ramps := add_eq (Nat.le_trans h.ramps_le h.length_le)
  unfold amplitude Contour.amplitude
  simp only [ramps, Option.bind_eq_bind, Option.bind_some]
  split
  · rfl
  · rename_i ha
    rw [sub_eq (Nat.le_of_not_lt ha)]
    split
    · rfl
    · split
      · rfl
      · split
        · rename_i ht
          rw [sub_eq (Nat.le_of_lt ht)]
          rfl
        · rfl

/-! ## Voices -/

/-- The frequency of voice `index` relative to the note's. -/
def ratio (u : Unison α) (index : Nat) : Option α := do
  if u.voices < 2 then return 1
  else
    let last ← sub u.voices 1
    return Scalar.pow (1 + u.detune / 10000) (-1 + Scalar.ofNat index * 2 / Scalar.ofNat last)

/-- The weighted sines above the `k`-th multiple of `frequency`, added to `total`. -/
def addPartials (frequency t : α) : (k : Nat) → α → List α → Option α
  | _, total, [] => some total
  | k, total, w :: ws => do
    let multiple ← add k 1
    addPartials frequency t multiple
      (total + Tone.sine (frequency * Scalar.ofNat multiple) t * w) ws

/-- One sample of a waveform. Only the partials need more than real arithmetic. -/
def sampleWave (wave : Waveform) (frequency t : α) (weights : List α) (noise : Noise) :
    Option (α × Noise) := do
  if wave = .harmonics ∧ ¬ weights.isEmpty then
    let total ← addPartials frequency t 0 0 weights
    return (total / Scalar.ofNat weights.length, noise)
  else return wave.sample frequency t weights noise

/-- The samples of `n` voices from voice `j` on, added to `total`. -/
def addVoices (timbre : Timbre α) (frequency t : α) : (n j : Nat) → α → Noise →
    Option (α × Noise)
  | 0, _, total, noise => some (total, noise)
  | n + 1, j, total, noise => do
    let ratio ← ratio timbre.unison j
    let (x, noise) ← sampleWave timbre.wave (frequency * ratio) t timbre.weights noise
    addVoices timbre frequency t n (j + 1) (total + x) noise

/-- Sample `i` of a note before the effects. -/
def dry (note : Note α) (i : Nat) (noise : Noise) : Option (α × Noise) := do
  let t := Scalar.ofNat i / Scalar.ofNat note.rate
  let count := max note.timbre.unison.voices 1
  let (total, noise) ← addVoices note.timbre note.frequency t count 0 0 noise
  let level ← amplitude note.contour i
  return (total / Scalar.ofNat count * note.volume * level, noise)

theorem ratio_eq (u : Unison α) (index : Nat) : ratio u index = some (u.ratio index) := by
  unfold ratio Unison.ratio
  split
  · rfl
  · rename_i h
    rw [sub_eq (show 1 ≤ u.voices by omega)]
    rfl

theorem addPartials_eq (frequency t : α) {k : Nat} (total : α) {weights : List α}
    (h : k + weights.length ≤ maxCount) :
    addPartials frequency t k total weights
      = some (Tone.addPartials frequency t (k + 1) total weights) := by
  induction weights generalizing k total with
  | nil => rfl
  | cons w ws ih =>
    rw [List.length_cons] at h
    have next : add k 1 = some (k + 1) := add_eq (by omega)
    simp only [addPartials, next, Option.bind_eq_bind, Option.bind_some]
    exact ih _ (by omega)

theorem sampleWave_eq (wave : Waveform) (frequency t : α) {weights : List α}
    (h : weights.length ≤ maxCount) (noise : Noise) :
    sampleWave wave frequency t weights noise
      = some (wave.sample frequency t weights noise) := by
  have partials := addPartials_eq frequency t (k := 0) 0 (by rwa [Nat.zero_add])
  unfold sampleWave
  split
  · rename_i hw
    obtain ⟨rfl, hw⟩ := hw
    simp [partials, Waveform.sample, Tone.harmonics, hw]
  · rfl

theorem addVoices_eq {timbre : Timbre α} (h : timbre.weights.length ≤ maxCount)
    (frequency t : α) (n j : Nat) (total : α) (noise : Noise) :
    addVoices timbre frequency t n j total noise
      = some (timbre.addVoices frequency t n j total noise) := by
  induction n generalizing j total noise with
  | zero => rfl
  | succ n ih => simp [addVoices, Timbre.addVoices, ratio_eq, sampleWave_eq _ _ _ h, ih]

theorem dry_eq {note : Note α} (h : note.Fits) (i : Nat) (noise : Noise) :
    dry note i noise = some (note.dry i noise) := by
  simp [dry, addVoices_eq h.weights_le, amplitude_eq h.contour, Note.dry, Timbre.sample]

/-! ## Effects -/

/-- Runs one sample through an echo. -/
def applyEcho (e : Echo α) (x : α) : Option (α × Echo α) := do
  if e.delay = 0 then return (x, e)
  else if e.line.size < e.delay then return (x, { e with line := e.line.push x })
  else
    let before ← e.line[e.position]?
    let y := x + e.feedback * before
    let line ← write e.line e.position y
    let position ← rem (← add e.position 1) e.delay
    return (y, { e with line, position })

/-- Runs one sample through a stage. -/
def applyStage : Effect α → α → Option (α × Effect α)
  | .filter f, x => let (y, f) := f.apply x; some (y, .filter f)
  | .echo e, x => do let (y, e) ← applyEcho e x; return (y, .echo e)

/-- Runs one sample through all stages. -/
def applyChain : Chain α → α → Option (α × Chain α)
  | [], x => some (x, [])
  | first :: others, x => do
    let (y, first) ← applyStage first x
    let (z, others) ← applyChain others y
    return (z, first :: others)

theorem applyEcho_eq {e : Echo α} (h : e.Ready) (x : α) : applyEcho e x = some (e.apply x) := by
  obtain ⟨feedback, delay, line, position⟩ := e
  unfold applyEcho Echo.apply
  by_cases hd : delay = 0
  · simp [hd]
  by_cases hl : line.size < delay
  · simp [hd, hl]
  have size : line.size = delay := Nat.le_antisymm h.size_le (Nat.le_of_not_lt hl)
  have lt : position < line.size := size ▸ h.position_lt (Nat.pos_of_ne_zero hd)
  have next : add position 1 = some (position + 1) :=
    add_eq (Nat.le_trans lt (size ▸ h.delay_le))
  simp [hd, hl, lt, write_eq lt, next, rem_eq hd]

theorem applyStage_eq {effect : Effect α} (h : effect.Ready) (x : α) :
    applyStage effect x = some (effect.apply x) := by
  cases effect with
  | filter f => rfl
  | echo e => simp [applyStage, applyEcho_eq h, Effect.apply]

theorem applyChain_eq {chain : Chain α} (h : chain.Ready) (x : α) :
    applyChain chain x = some (chain.apply x) := by
  induction chain generalizing x with
  | nil => rfl
  | cons first others ih =>
    obtain ⟨hf, ho⟩ := List.forall_mem_cons.mp h
    simp [applyChain, applyStage_eq hf, ih ho, Chain.apply]

/-! ## The timeline -/

/-- Adds `value` at `index`. -/
def overlay (t : Timeline α) (index : Nat) (value : α) : Option (Timeline α) := do
  if index < t.samples.size then
    let before ← t.samples[index]?
    let samples ← write t.samples index (before + value)
    return ⟨samples⟩
  else return ⟨(t.samples ++ Array.replicate (index - t.samples.size) 0).push value⟩

theorem overlay_eq (t : Timeline α) (index : Nat) (value : α) :
    overlay t index value = some (t.overlay index value) := by
  unfold overlay Timeline.overlay
  split
  · rename_i h
    simp [h, write_eq h, Array.setIfInBounds]
  · rfl

end Checked

/-! ## What a sample keeps -/

variable {α : Type} [Scalar α]

theorem Echo.ready_fresh (feedback : α) {delay : Nat} (h : delay ≤ maxCount) :
    (Echo.fresh feedback delay).Ready where
  delay_le := h
  size_le := Nat.zero_le _
  position_lt := id

theorem Echo.Ready.apply {e : Echo α} (h : e.Ready) (x : α) : (e.apply x).2.Ready := by
  obtain ⟨feedback, delay, line, position⟩ := e
  obtain ⟨delay_le, size_le, position_lt⟩ := h
  unfold Echo.apply
  dsimp only at *
  split
  · exact ⟨delay_le, size_le, position_lt⟩
  · split
    · rename_i hl
      exact ⟨delay_le, by rw [Array.size_push]; exact hl, position_lt⟩
    · exact ⟨delay_le, by simpa using size_le, fun h => Nat.mod_lt _ h⟩

theorem Effect.Ready.apply {effect : Effect α} (h : effect.Ready) (x : α) :
    (effect.apply x).2.Ready := by
  cases effect with
  | filter f => trivial
  | echo e => exact Echo.Ready.apply h x

theorem Chain.Ready.apply {chain : Chain α} (h : chain.Ready) (x : α) :
    (chain.apply x).2.Ready :=
  Chain.forall_apply (fun _ x ready => ready.apply x) h x

/-- A stage that the notation adds is ready. -/
theorem Effect.ready_ofLetter? [Scalar.Counts α] {effect : Effect α} {letter : Char}
    {params : List α} {rate : Nat} (h : ofLetter? letter params rate = some effect) :
    effect.Ready := by
  unfold ofLetter? at h
  split at h <;> cases h
  · trivial
  · trivial
  · exact Echo.ready_fresh _ (Scalar.Counts.toCount_le _)

end Chiptune
