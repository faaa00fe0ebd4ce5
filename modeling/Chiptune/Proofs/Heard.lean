import Chiptune.Proofs.Writes

/-!
# What is heard of a performance

Of all settings, only some can be heard in what is written.

* `Settings.audible`: the settings without weights that no note can use. Directives make the same
  of both (`Settings.audible_apply`), and so do notes and rests (`Performance.passage_audible`).
* `Performance.Tonal`: a run without notes of white noise. It is the same with any generator
  (`Performance.Tonal.run_withNoise`) and leaves it alone (`Performance.noise_run`).
-/

namespace Chiptune

variable {α : Type}

/-! ## Weights -/

namespace Waveform

/-- The weights of the partials, where the waveform looks at them. -/
def heard (wave : Waveform) (weights : List α) : List α :=
  if wave = .harmonics then weights else []

@[simp] theorem heard_heard (wave : Waveform) (weights : List α) :
    wave.heard (wave.heard weights) = wave.heard weights := by
  cases wave <;> rfl

@[simp] theorem heard_ofIndex (index : Nat) (weights : List α) :
    (ofIndex index).heard weights = [] := by
  unfold ofIndex
  split <;> rfl

@[simp] theorem heard_square50 (weights : List α) : square50.heard weights = [] := rfl

end Waveform

/-- The timbre without weights that its waveform does not look at. -/
def Timbre.audible (timbre : Timbre α) : Timbre α :=
  { timbre with weights := timbre.wave.heard timbre.weights }

/-- The note without weights that are not heard. -/
def Note.audible (note : Note α) : Note α := { note with timbre := note.timbre.audible }

/-- The settings without weights that are not heard. -/
def Settings.audible (s : Settings α) : Settings α :=
  { s with weights := s.wave.heard s.weights }

@[simp] theorem Settings.audible_audible (s : Settings α) : s.audible.audible = s.audible := by
  simp [audible]

/-- What the writes of a performance depend on. -/
def Performance.audible (p : Performance α) : Performance α :=
  { p with settings := p.settings.audible, place := .start, timeline := .empty }

variable [Scalar α]

theorem Waveform.sample_heard (wave : Waveform) (frequency t : α) (weights : List α)
    (noise : Noise) :
    wave.sample frequency t (wave.heard weights) noise = wave.sample frequency t weights noise := by
  cases wave <;> rfl

theorem Timbre.addVoices_audible (timbre : Timbre α) (frequency t : α) (n j : Nat) (total : α)
    (noise : Noise) :
    timbre.audible.addVoices frequency t n j total noise
      = timbre.addVoices frequency t n j total noise := by
  induction n generalizing j total noise with
  | zero => rfl
  | succ n ih =>
    rw [addVoices, addVoices]
    simp only [ih]
    simp only [audible, Waveform.sample_heard]

theorem Timbre.sample_audible (timbre : Timbre α) (frequency t : α) (noise : Noise) :
    timbre.audible.sample frequency t noise = timbre.sample frequency t noise := by
  rw [sample, addVoices_audible]
  rfl

theorem Note.dry_audible (note : Note α) (i : Nat) (noise : Noise) :
    note.audible.dry i noise = note.dry i noise := by
  simp only [dry, audible, Timbre.sample_audible]

theorem Note.play_audible (note : Note α) (n i : Nat) (passage : Passage α) :
    note.audible.play n i passage = note.play n i passage := by
  induction n generalizing i passage with
  | zero => rfl
  | succ n ih =>
    rw [play, play]
    simp only [dry_audible, ih]
    rfl

/-- A directive makes the same of settings and of what is heard of them. -/
theorem Settings.audible_apply (d : Directive) (s : Settings α) :
    (s.audible.apply d).audible = (s.apply d).audible := by
  cases d with
  | harmony weights => cases weights <;> simp [audible, apply]
  | tempo | envelope | unison =>
    simp only [apply]
    split <;> simp [audible]
  | voiceReset => simp [audible, apply, newVoice, initial]
  | _ => simp [audible, apply]

namespace Performance

variable {setup : Setup} {score : List Directive} {p q : Performance α} {d : Directive}

theorem passage_audible (setup : Setup) (d : Directive) (p : Performance α) :
    p.audible.passage setup d = p.passage setup d := by
  cases d with
  | note pitch length => exact Note.play_audible (p.noteOf setup pitch length) _ _ _
  | _ => rfl

theorem audible_play (setup : Setup) (d : Directive) (p : Performance α) :
    (p.audible.play setup d).audible = (p.play setup d).audible := by
  have settings := Settings.audible_apply d p.settings
  have passage := passage_audible setup d p
  cases d with
  | note | rest =>
    simp only [play, passage]
    simp only [write, audible, Settings.audible_audible]
    rfl
  | effect letter params =>
    simp only [play, addEffect]
    split <;> simp only [audible, Settings.audible_audible]
  | voiceReset =>
    exact congrArg (fun settings => { p.audible with settings, cursor := 0 }) settings
  | _ => simp only [play, audible, settings]

/-- What sounds alike writes the same, and sounds alike afterwards. -/
theorem writesOf_of_audible (h : p.audible = q.audible) (setup : Setup) (d : Directive) :
    p.writesOf setup d = q.writesOf setup d := by
  have cursor : p.audible.cursor = q.audible.cursor := by rw [h]
  have cursor : p.cursor = q.cursor := cursor
  rw [writesOf, writesOf, ← passage_audible, h, passage_audible, cursor]

theorem audible_step_of_audible (h : p.audible = q.audible) (setup : Setup) (d : Directive) :
    (p.step setup d).audible = (q.step setup d).audible := by
  show (p.play setup d).audible = (q.play setup d).audible
  rw [← audible_play, h, audible_play]

end Performance

/-! ## Noise -/

/-- The passage with another generator. -/
def Passage.withNoise (noise : Noise) (passage : Passage α) : Passage α :=
  { passage with noise }

/-- The performance with another generator. -/
def Performance.withNoise (noise : Noise) (p : Performance α) : Performance α := { p with noise }

/-- No other waveform listens to the generator or touches it. -/
theorem Waveform.sample_of_ne {wave : Waveform} (h : wave ≠ .whiteNoise) (frequency t : α)
    (weights : List α) (noise other : Noise) :
    wave.sample frequency t weights other = ((wave.sample frequency t weights noise).1, other) := by
  cases wave with
  | whiteNoise => exact absurd rfl h
  | _ => rfl

theorem Timbre.addVoices_of_ne {timbre : Timbre α} (h : timbre.wave ≠ .whiteNoise)
    (frequency t : α) (n j : Nat) (total : α) (noise other : Noise) :
    timbre.addVoices frequency t n j total other
      = ((timbre.addVoices frequency t n j total noise).1, other) := by
  induction n generalizing j total noise with
  | zero => rfl
  | succ n ih =>
    have same := Waveform.sample_of_ne h (frequency * timbre.unison.ratio j) t timbre.weights noise
      other
    rw [addVoices, addVoices, same]
    exact ih _ _ _

namespace Note

variable {note : Note α}

theorem dry_of_ne (h : note.timbre.wave ≠ .whiteNoise) (i : Nat) (noise other : Noise) :
    note.dry i other = ((note.dry i noise).1, other) := by
  have same := Timbre.addVoices_of_ne h note.frequency
    (Scalar.ofNat i / Scalar.ofNat note.rate) (max note.timbre.unison.voices 1) 0 0 noise other
  simp only [dry, Timbre.sample, same]

theorem wet_withNoise (h : note.timbre.wave ≠ .whiteNoise) (i : Nat) (passage : Passage α)
    (noise : Noise) : note.wet i (passage.withNoise noise) = note.wet i passage := by
  have same := dry_of_ne h i passage.noise noise
  simp only [wet, Passage.withNoise, same]

theorem sound_withNoise (h : note.timbre.wave ≠ .whiteNoise) (i : Nat) (passage : Passage α)
    (noise : Noise) :
    note.sound i (passage.withNoise noise) = (note.sound i passage).withNoise noise := by
  have same := dry_of_ne h i passage.noise noise
  simp only [sound, Passage.withNoise, same]
  rfl

end Note

theorem Passage.silence_withNoise (volume : α) (n : Nat) (passage : Passage α) (noise : Noise) :
    (passage.withNoise noise).silence volume n = (passage.silence volume n).withNoise noise := by
  induction n generalizing passage with
  | zero => rfl
  | succ n ih =>
    rw [silence_succ, silence_succ, ← ih]
    rfl

theorem Note.play_withNoise {note : Note α} (h : note.timbre.wave ≠ .whiteNoise) (n i : Nat)
    (passage : Passage α) (noise : Noise) :
    note.play n i (passage.withNoise noise) = (note.play n i passage).withNoise noise := by
  induction n generalizing i passage with
  | zero => rfl
  | succ n ih =>
    rw [play_succ, play_succ, wet_withNoise h, sound_withNoise h]
    split
    · exact Passage.silence_withNoise _ _ _ _
    · exact ih _ _

theorem Waveform.eq_of_ofIndex {index : Nat} (h : ofIndex index = .whiteNoise) : index = 6 := by
  unfold ofIndex at h
  split at h <;> first | rfl | cases h

/-- White noise is selected by its index only. -/
theorem Settings.wave_apply_ne {s : Settings α} {d : Directive} (h : s.wave ≠ .whiteNoise)
    (hd : d ≠ .waveform 6) : (s.apply d).wave ≠ .whiteNoise := by
  cases d with
  | waveform index =>
    intro noise
    exact hd (congrArg _ (Waveform.eq_of_ofIndex noise))
  | harmony weights =>
    cases weights with
    | nil => exact h
    | cons => exact Waveform.noConfusion
  | tempo | envelope | unison =>
    simp only [apply]
    split <;> exact h
  | voiceReset => exact Waveform.noConfusion
  | _ => exact h

namespace Performance

variable {setup : Setup} {score : List Directive} {p : Performance α} {d : Directive}

/-- No note of a run is played with white noise. -/
def Tonal (setup : Setup) (score : List Directive) (p : Performance α) : Prop :=
  ∀ pitch length q, (.note pitch length, q) ∈ p.played setup score →
    q.settings.wave ≠ .whiteNoise

/-- A score that never selects white noise is played without it. -/
theorem tonal_of_notMem (never : .waveform 6 ∉ score) (h : p.settings.wave ≠ .whiteNoise) :
    p.Tonal setup score := by
  intro pitch length q hq
  fun_induction played setup score p with
  | case1 => cases hq
  | case2 => cases hq
  | case3 p d hd hl ih =>
    rcases List.mem_cons.mp hq with here | later
    · rw [(Prod.mk.inj here).2]
      exact h
    · refine ih ?_ later
      show (p.play setup d).settings.wave ≠ _
      rw [settings_play]
      refine Settings.wave_apply_ne h ?_
      rintro rfl
      exact never (List.mem_of_getElem? hd)

/-- Unless it is a note of white noise, a directive writes the same with any generator. -/
theorem passage_withNoise
    (h : ∀ pitch length, d = .note pitch length → p.settings.wave ≠ .whiteNoise) (noise : Noise) :
    (p.withNoise noise).passage setup d = (p.passage setup d).withNoise noise := by
  cases d with
  | note pitch length =>
    have tonal : (p.noteOf setup pitch length).timbre.wave ≠ .whiteNoise := h pitch length rfl
    exact Note.play_withNoise tonal _ 0 ⟨#[], p.chain, p.noise⟩ noise
  | rest length => exact Passage.silence_withNoise _ _ ⟨#[], p.chain, p.noise⟩ noise
  | _ => rfl

theorem play_withNoise
    (h : ∀ pitch length, d = .note pitch length → p.settings.wave ≠ .whiteNoise) (noise : Noise) :
    (p.withNoise noise).play setup d = (p.play setup d).withNoise noise := by
  have passage : (p.withNoise noise).passage setup d = (p.passage setup d).withNoise noise :=
    passage_withNoise h noise
  cases d with
  | note | rest =>
    simp only [play, passage]
    rfl
  | effect letter params =>
    simp only [play, addEffect]
    split <;> rfl
  | _ => rfl

/-- A run that has begun without white noise goes on without it. -/
theorem Tonal.step (h : p.Tonal setup score) (hd : score[p.place.index]? = some d)
    (hl : p.limitReached setup = false) : (p.step setup d).Tonal setup score := by
  intro pitch length q hq
  refine h pitch length q ?_
  rw [played_of_step hd hl]
  exact List.mem_cons_of_mem _ hq

theorem Tonal.step_withNoise (h : p.Tonal setup score) (hd : score[p.place.index]? = some d)
    (hl : p.limitReached setup = false) (noise : Noise) :
    (p.withNoise noise).step setup d = (p.step setup d).withNoise noise := by
  have play : (p.withNoise noise).play setup d = (p.play setup d).withNoise noise := by
    refine play_withNoise (fun pitch length note => h pitch length p ?_) noise
    rw [played_of_step hd hl, note]
    exact List.mem_cons_self
  simp only [Performance.step, play]
  rfl

/-- **Only notes of white noise listen to the generator**: a run without them is the same with any
other. -/
theorem Tonal.run_withNoise (h : p.Tonal setup score) (noise : Noise) :
    (p.withNoise noise).run setup score = (p.run setup score).withNoise noise := by
  fun_induction run setup score p with
  | case1 p hd => exact run_of_end hd
  | case2 p d hd hl => exact run_of_limitReached hl
  | case3 p d hd hl ih =>
    have further := Bool.eq_false_iff.mpr hl
    have next : (p.withNoise noise).run setup score
        = ((p.withNoise noise).step setup d).run setup score := run_of_step hd further
    rw [next, h.step_withNoise hd further, ih (h.step hd further)]

/-- **Only notes of white noise touch the generator.** -/
theorem noise_run (h : p.Tonal setup score) : (p.run setup score).noise = p.noise := by
  have same : p.run setup score = (p.run setup score).withNoise p.noise :=
    h.run_withNoise p.noise
  rw [same]
  rfl

end Performance

end Chiptune
