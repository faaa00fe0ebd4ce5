import Mathlib.Data.List.Forall2
import Chiptune.Proofs.Limit
import Chiptune.Proofs.Writes

/-!
# Timing

When something is played does not depend on how it sounds.

* `Directive.InStep`: two directives that take the same time. Notes may differ in pitch, and
  directives of timbre stand for each other.
* `Performance.InStep`: two performances that a clock cannot tell apart. Directives in step keep
  this (`Performance.InStep.step`), so scores in step do (`Performance.InStep.run`): neither sound
  nor gate, chain or generator flows into it.
* `Rendering.size_samples_inStep`: what the clock shows after every step, and the length of the
  renderings.
-/

namespace Chiptune

variable {α : Type}

/-- What related entries have in common is the same along both lists. -/
theorem map_eq_of_forall₂ {β γ : Type} {R : β → β → Prop} {f : β → γ} {xs ys : List β}
    (h : List.Forall₂ R xs ys) (same : ∀ x y, R x y → f x = f y) : xs.map f = ys.map f := by
  rw [← List.forall₂_eq_eq_eq, List.forall₂_map_left_iff, List.forall₂_map_right_iff]
  exact h.imp same

/-! ## Directives in step -/

/-- Directives that change only how notes sound. -/
def Directive.IsTimbre : Directive → Prop
  | .octaveUp | .octaveDown | .volume _ | .waveform _ | .harmony _ | .unison _ | .effect _ _ => True
  | _ => False

/-- Directives that take the same time: notes of the same length, two of timbre, or the same. -/
inductive Directive.InStep : Directive → Directive → Prop
  | note (pitch pitch' : Pitch) (length : Option Length) :
      InStep (.note pitch length) (.note pitch' length)
  | timbre {d e : Directive} (hd : d.IsTimbre) (he : e.IsTimbre) : InStep d e
  | same (d : Directive) : InStep d d

/-- Scores that are in step at every place. -/
abbrev ScoresInStep : List Directive → List Directive → Prop := List.Forall₂ Directive.InStep

theorem ScoresInStep.getElem? {a b : List Directive} (h : ScoresInStep a b) {i : Nat}
    {d : Directive} (hd : a[i]? = some d) : ∃ e, b[i]? = some e ∧ d.InStep e := by
  obtain ⟨inside, rfl⟩ := List.getElem?_eq_some_iff.mp hd
  have inside' : i < b.length := h.length_eq ▸ inside
  exact ⟨b[i], List.getElem?_eq_getElem inside', h.get inside inside'⟩

theorem ScoresInStep.getElem?_none {a b : List Directive} (h : ScoresInStep a b) {i : Nat}
    (hd : a[i]? = none) : b[i]? = none := by
  rw [List.getElem?_eq_none_iff] at hd ⊢
  exact h.length_eq ▸ hd

theorem Place.advance_timbre {d : Directive} (h : d.IsTimbre) (p : Place) :
    p.advance d = ⟨p.index + 1, p.repeats⟩ := by
  cases d <;> first | rfl | exact h.elim

theorem Directive.InStep.advance {d e : Directive} (h : d.InStep e) (p : Place) :
    p.advance d = p.advance e := by
  cases h with
  | note | same => rfl
  | timbre hd he => rw [Place.advance_timbre hd, Place.advance_timbre he]

/-! ## Settings and clocks -/

/-- Settings with which notes and rests take the same time. -/
structure Settings.InStep (s t : Settings α) : Prop where
  tempo : s.tempo = t.tempo
  defaultLength : s.defaultLength = t.defaultLength
  envelope : s.envelope = t.envelope

namespace Performance

variable {p q : Performance α}

/-- What a clock shows: the index of the next directive, the cursor and the length so far. -/
def clock (p : Performance α) : Nat × Nat × Nat := (p.place.index, p.cursor, p.timeline.size)

/-- Performances that a clock cannot tell apart, now or later. -/
structure InStep (p q : Performance α) : Prop where
  place : p.place = q.place
  settings : p.settings.InStep q.settings
  cursor : p.cursor = q.cursor
  size : p.timeline.size = q.timeline.size

theorem InStep.clock (h : p.InStep q) : p.clock = q.clock := by
  rw [Performance.clock, Performance.clock, h.place, h.cursor, h.size]

theorem InStep.limitReached (h : p.InStep q) (setup : Setup) :
    p.limitReached setup = q.limitReached setup := by
  simp only [Performance.limitReached, h.cursor, h.size]

end Performance

variable [Scalar α]

/-! ## Settings after directives -/

theorem Settings.inStep_timbre {d : Directive} (h : d.IsTimbre) (s : Settings α) :
    (s.apply d).InStep s := by
  cases d with
  | harmony weights => cases weights <;> exact ⟨rfl, rfl, rfl⟩
  | unison params =>
    simp only [apply]
    split <;> exact ⟨rfl, rfl, rfl⟩
  | octaveUp | octaveDown | volume | waveform | effect => exact ⟨rfl, rfl, rfl⟩
  | _ => exact h.elim

/-- The same directive changes what takes time in the same way. -/
theorem Settings.InStep.apply_same {s t : Settings α} (h : s.InStep t) (d : Directive) :
    (s.apply d).InStep (t.apply d) := by
  have same := h
  obtain ⟨tempo, length, envelope⟩ := h
  cases d with
  | tempo value =>
    simp only [apply]
    split
    · exact ⟨rfl, length, envelope⟩
    · exact same
  | defaultLength => exact ⟨tempo, rfl, envelope⟩
  | envelope params =>
    simp only [apply]
    split
    · exact ⟨tempo, length, rfl⟩
    · exact same
  | harmony weights => cases weights <;> exact ⟨tempo, length, envelope⟩
  | unison params =>
    simp only [apply]
    split <;> exact ⟨tempo, length, envelope⟩
  | voiceReset => exact ⟨tempo, rfl, rfl⟩
  | _ => exact ⟨tempo, length, envelope⟩

theorem Settings.InStep.apply {s t : Settings α} (h : s.InStep t) {d e : Directive}
    (hd : d.InStep e) : (s.apply d).InStep (t.apply e) := by
  cases hd with
  | note => exact h
  | same => exact h.apply_same d
  | timbre hd he =>
    obtain ⟨tempo, length, envelope⟩ := inStep_timbre hd s
    obtain ⟨tempo', length', envelope'⟩ := inStep_timbre he t
    exact ⟨by rw [tempo, tempo', h.tempo], by rw [length, length', h.defaultLength],
      by rw [envelope, envelope', h.envelope]⟩

/-! ## Steps and runs -/

namespace Performance

variable {setup : Setup} {a b : List Directive} {d e : Directive} {p q : Performance α}

theorem extent_timbre (h : d.IsTimbre) : p.extent setup d = 0 := by
  cases d <;> first | rfl | exact h.elim

theorem cursor_play_timbre (h : d.IsTimbre) : (p.play setup d).cursor = p.cursor := by
  rw [cursor_play]
  cases d <;> first | rfl | exact h.elim

namespace InStep

theorem duration (h : p.InStep q) (length : Option Length) :
    p.duration setup length = q.duration setup length := by
  simp only [Performance.duration, h.settings.tempo, h.settings.defaultLength]

/-- **Notes and rests in step have the same extent.** A release counts, and with it the envelope;
timbre, pitch and volume do not. -/
theorem extent (h : p.InStep q) (hd : d.InStep e) :
    p.extent setup d = q.extent setup e := by
  cases hd with
  | note pitch pitch' length =>
    simp only [Performance.extent, noteOf, h.duration length, h.settings.envelope]
  | timbre hd he => rw [extent_timbre hd, extent_timbre he]
  | same =>
    cases d <;> simp only [Performance.extent, noteOf, h.duration, h.settings.envelope]

theorem cursor_play (h : p.InStep q) (hd : d.InStep e) :
    (p.play setup d).cursor = (q.play setup e).cursor := by
  cases hd with
  | note => simp only [Performance.cursor_play, h.duration, h.cursor]
  | timbre hd he => rw [cursor_play_timbre hd, cursor_play_timbre he, h.cursor]
  | same => cases d <;> simp only [Performance.cursor_play, h.duration, h.cursor]

/-- **Directives in step leave performances in step.** -/
theorem step (h : p.InStep q) (hd : d.InStep e) :
    (p.step setup d).InStep (q.step setup e) where
  place := by rw [place_step, place_step, h.place, hd.advance]
  settings := by
    show (p.play setup d).settings.InStep (q.play setup e).settings
    rw [settings_play, settings_play]
    exact h.settings.apply hd
  cursor := h.cursor_play hd
  size := by
    show (p.play setup d).timeline.size = (q.play setup e).timeline.size
    rw [size_timeline_play, size_timeline_play, h.extent hd, h.cursor, h.size]

/-- Scores in step keep performances in step, however many directives are played. -/
theorem trace (h : p.InStep q) (scores : ScoresInStep a b) (n : Nat) :
    List.Forall₂ InStep (p.trace setup a n) (q.trace setup b n) := by
  induction n generalizing p q with
  | zero => exact .nil
  | succ n ih =>
    rw [Performance.trace, Performance.trace, ← h.place]
    cases hd : a[p.place.index]? with
    | none =>
      rw [scores.getElem?_none hd]
      exact .nil
    | some d =>
      obtain ⟨e, he, step⟩ := scores.getElem? hd
      rw [he]
      exact .cons (h.step step) (ih (h.step step))

/-- A run plays directives in step, in performances that are in step. -/
theorem played (h : p.InStep q) (scores : ScoresInStep a b) :
    List.Forall₂ (fun x y => x.1.InStep y.1 ∧ x.2.InStep y.2) (p.played setup a)
      (q.played setup b) := by
  fun_induction Performance.played setup a p generalizing q with
  | case1 p hd =>
    rw [played_of_end (scores.getElem?_none (h.place ▸ hd))]
    exact .nil
  | case2 p d hd hl =>
    rw [played_of_limitReached ((h.limitReached setup).symm.trans hl)]
    exact .nil
  | case3 p d hd hl ih =>
    obtain ⟨e, he, step⟩ := scores.getElem? hd
    rw [h.place] at he
    rw [played_of_step he (h.limitReached setup ▸ Bool.eq_false_iff.mpr hl)]
    exact .cons ⟨step, h⟩ (ih (h.step step))

theorem run (h : p.InStep q) (scores : ScoresInStep a b) :
    (p.run setup a).InStep (q.run setup b) := by
  fun_induction Performance.run setup a p generalizing q with
  | case1 p hd =>
    rw [run_of_end (scores.getElem?_none (h.place ▸ hd))]
    exact h
  | case2 p d hd hl =>
    rw [run_of_limitReached ((h.limitReached setup).symm.trans hl)]
    exact h
  | case3 p d hd hl ih =>
    obtain ⟨e, he, step⟩ := scores.getElem? hd
    rw [h.place] at he
    rw [run_of_step he (h.limitReached setup ▸ Bool.eq_false_iff.mpr hl)]
    exact ih (h.step step)

end InStep

/-- Pieces begin in step, whatever their generators. -/
theorem inStep_start (noise other : Noise) :
    (start noise : Performance α).InStep (start other) :=
  ⟨rfl, ⟨rfl, rfl, rfl⟩, rfl, rfl⟩

end Performance

/-! ## Renderings -/

namespace Rendering

open Performance

theorem size_samples_eq (r : Rendering) (source : List Char) :
    (r.samples source : Array α).size
      = if r.rate = 0 then 0 else (r.performance source : Performance α).timeline.size := by
  by_cases hr : r.rate = 0
  · simp [samples, hr]
  · rw [if_neg hr, samples_eq hr]
    rfl

/-- **Timing does not depend on timbre.** Two pieces with scores in step show the same clock
before every directive that they play and in the end, with any generators, and as well if each is
traced past the limit; so their renderings are equally long. -/
theorem size_samples_inStep :
    (∀ (a b : List Directive), ScoresInStep a b →
      ∀ (setup : Setup) (noise other : Noise),
        (∀ n, ((start noise : Performance α).trace setup a n).map clock
            = ((start other : Performance α).trace setup b n).map clock) ∧
          ((start noise : Performance α).played setup a).map (·.2.clock)
            = ((start other : Performance α).played setup b).map (·.2.clock) ∧
          ((start noise : Performance α).run setup a).clock
            = ((start other : Performance α).run setup b).clock) ∧
      ∀ (rate : Nat) (limit : Option Nat) (seed seed' : UInt64) (source source' : List Char),
        ScoresInStep (score source) (score source') →
          (samples ⟨rate, seed, limit⟩ source : Array α).size
            = (samples ⟨rate, seed', limit⟩ source' : Array α).size := by
  constructor
  · intro a b scores setup noise other
    have start : (start noise : Performance α).InStep (start other) := inStep_start noise other
    exact ⟨fun n => map_eq_of_forall₂ (start.trace scores n) fun _ _ h => h.clock,
      map_eq_of_forall₂ (start.played scores) fun _ _ h => h.2.clock, (start.run scores).clock⟩
  · intro rate limit seed seed' source source' scores
    rw [size_samples_eq, size_samples_eq]
    split
    · rfl
    · exact ((inStep_start (.ofSeed seed) (.ofSeed seed')).run scores).size

/-- It holds of a repeat of pulses and one of noise behind an echo, both cut by a limit. -/
theorem size_samples_inStep_noise :
    ScoresInStep (score "@0v9[c4>]9;r".toList) (score "@6#e50,1[g+4@h1,2]9;r".toList) ∧
      ((start (.ofSeed 1) : Performance Float).run ⟨8, some 70⟩
          (score "@0v9[c4>]9;r".toList)).clock
        = ((start (.ofSeed 2) : Performance Float).run ⟨8, some 70⟩
          (score "@6#e50,1[g+4@h1,2]9;r".toList)).clock ∧
      (samples ⟨8, 1, some 70⟩ "@0v9[c4>]9;r".toList : Array Float).size
        = (samples ⟨8, 2, some 70⟩ "@6#e50,1[g+4@h1,2]9;r".toList : Array Float).size := by
  have scores : ScoresInStep (score "@0v9[c4>]9;r".toList)
      (score "@6#e50,1[g+4@h1,2]9;r".toList) := by
    let quarter : Length := ⟨[⟨4, false⟩], by decide, by decide⟩
    have pulses : score "@0v9[c4>]9;r".toList
        = [.waveform 0, .volume ⟨9, 0⟩, .repeatStart, .note ⟨.c, .natural⟩ (some quarter),
          .octaveDown, .repeatEnd (some 9), .voiceReset, .rest none] := by decide +kernel
    have noise : score "@6#e50,1[g+4@h1,2]9;r".toList
        = [.waveform 6, .effect 'e' [⟨50, 0⟩, ⟨1, 0⟩], .repeatStart,
          .note ⟨.g, .sharp⟩ (some quarter), .harmony [⟨1, 0⟩, ⟨2, 0⟩], .repeatEnd (some 9),
          .voiceReset, .rest none] := by decide +kernel
    rw [pulses, noise]
    exact .cons (.timbre trivial trivial) <| .cons (.timbre trivial trivial) <|
      .cons (.same _) <| .cons (.note _ _ _) <| .cons (.timbre trivial trivial) <|
      .cons (.same _) <| .cons (.same _) <| .cons (.same _) .nil
  obtain ⟨clocks, sizes⟩ := @size_samples_inStep Float _
  exact ⟨scores, (clocks _ _ scores ⟨8, some 70⟩ (.ofSeed 1) (.ofSeed 2)).2.2,
    sizes 8 (some 70) 1 2 _ _ scores⟩

end Rendering

end Chiptune
