import Chiptune.Performance.Timeline
import Chiptune.Performance.Place
import Chiptune.Performance.Settings
import Chiptune.Performance.Note

/-!
# Performances

A `Performance` is everything that a piece has come to at one moment. `Performance.step` plays
one directive and `Performance.run` all of them, until the end of the score or until the limit
on its samples is reached.
-/

namespace Chiptune

/-- What is fixed for a whole performance. -/
structure Setup where
  /-- Samples per second. -/
  rate : Nat
  /-- The most samples to write. -/
  limit : Option Nat

/-- The state of a performance. -/
structure Performance (α : Type) where
  place : Place
  settings : Settings α
  /-- The sample at which the next note or rest begins. -/
  cursor : Nat
  chain : Chain α
  timeline : Timeline α
  noise : Noise

namespace Setup

/-- How many samples may still be written from `cursor` on. -/
def budget (setup : Setup) (cursor : Nat) : Nat :=
  match setup.limit with
  | none => maxCount
  | some limit => limit - cursor

end Setup

namespace Performance

variable {α : Type} [Scalar α]

/-- The start of a piece. -/
def start (noise : Noise) : Performance α :=
  { place := .start
    settings := .initial
    cursor := 0
    chain := []
    timeline := .empty
    noise }

/-- The samples of a note or rest: of its own length, if it has one, else of the default
length. -/
def duration (setup : Setup) (length : Option Length) (p : Performance α) : Nat :=
  (length.getD p.settings.defaultLength).samples p.settings.tempo setup.rate

/-- A note as the settings have it. -/
def noteOf (setup : Setup) (pitch : Pitch) (length : Option Length) (p : Performance α) :
    Note α :=
  { timbre := ⟨p.settings.wave, p.settings.weights, p.settings.unison⟩
    frequency := pitch.frequency p.settings.octave
    volume := p.settings.volume
    contour := p.settings.envelope.contour (p.duration setup length) setup.rate
    rate := setup.rate }

/-- What a directive writes at the cursor: the samples of a note with its release, or of a rest,
as far as the limit allows. Other directives write nothing. -/
def passage (setup : Setup) (d : Directive) (p : Performance α) : Passage α :=
  let nothing : Passage α := ⟨#[], p.chain, p.noise⟩
  match d with
  | .note pitch length =>
    let note := p.noteOf setup pitch length
    note.play (min note.contour.total (setup.budget p.cursor)) 0 nothing
  | .rest length =>
    nothing.silence p.settings.volume (min (p.duration setup length) (setup.budget p.cursor))
  | _ => nothing

/-- Adds a passage at the cursor and moves the cursor on by `length`. -/
def write (length : Nat) (passage : Passage α) : Performance α → Performance α
  | ⟨place, settings, cursor, _, timeline, _⟩ =>
    { place, settings
      cursor := min (cursor + length) maxCount
      chain := passage.chain
      timeline := timeline.overlayFrom cursor passage.samples.toList
      noise := passage.noise }

/-- Goes back to the start of the piece with the settings of a further voice. -/
def resetVoice (p : Performance α) : Performance α :=
  { p with cursor := 0, settings := p.settings.newVoice }

/-- Adds an effect at the end of the chain, if the letter names one. -/
def addEffect (setup : Setup) (letter : Char) (params : List Decimal) (p : Performance α) :
    Performance α :=
  match Effect.ofLetter? letter (params.map Scalar.ofDecimal) setup.rate with
  | some effect => { p with chain := p.chain ++ [effect] }
  | none => p

/-- What a directive does, apart from saying which one comes next. -/
def play (setup : Setup) (d : Directive) (p : Performance α) : Performance α :=
  match d with
  | .note _ length => p.write (p.duration setup length) (p.passage setup d)
  | .rest length => p.write (p.duration setup length) (p.passage setup d)
  | .effect letter params => p.addEffect setup letter params
  | .voiceReset => p.resetVoice
  | d => { p with settings := p.settings.apply d }

/-- Plays one directive and goes on to the next. -/
def step (setup : Setup) (d : Directive) (p : Performance α) : Performance α :=
  let p := p.play setup d
  { p with place := p.place.advance d }

/-- Whether the timeline or the cursor has reached the limit. -/
def limitReached (setup : Setup) (p : Performance α) : Bool :=
  match setup.limit with
  | none => false
  | some limit => limit ≤ p.timeline.size || limit ≤ p.cursor

/-- Playing a directive does not move the place. -/
@[simp] theorem place_play (setup : Setup) (d : Directive) (p : Performance α) :
    (p.play setup d).place = p.place := by
  cases d <;> simp only [play, write, addEffect, resetVoice]
  split <;> rfl

@[simp] theorem place_step (setup : Setup) (d : Directive) (p : Performance α) :
    (p.step setup d).place = p.place.advance d := by
  simp [step]

/-- Plays a score from where the performance stands to its end, or until the limit is
reached. -/
def run (setup : Setup) (score : List Directive) (p : Performance α) : Performance α :=
  match _h : score[p.place.index]? with
  | none => p
  | some d => if p.limitReached setup then p else run setup score (p.step setup d)
termination_by p.place.lanes (3 * score.length)
decreasing_by
  rw [place_step]
  exact Place.lanes_advance d p.place (List.getElem?_eq_some_iff.mp _h).1

/-- Behind its last directive a score is over. -/
theorem run_of_end {setup : Setup} {score : List Directive} {p : Performance α}
    (h : score[p.place.index]? = none) : p.run setup score = p := by
  rw [run]; split <;> simp_all

/-- At the limit a performance stops. -/
theorem run_of_limitReached {setup : Setup} {score : List Directive} {p : Performance α}
    (h : p.limitReached setup = true) : p.run setup score = p := by
  rw [run]; split <;> simp [h]

/-- Otherwise a performance plays the next directive and goes on. -/
theorem run_of_step {setup : Setup} {score : List Directive} {p : Performance α} {d : Directive}
    (hd : score[p.place.index]? = some d) (hl : p.limitReached setup = false) :
    p.run setup score = (p.step setup d).run setup score := by
  rw [run]; split <;> simp_all

/-- The performance after each of the next directives, at most `n` of them. The limit cuts notes
and rests short as in `run`, but does not end the trace. -/
def trace (setup : Setup) (score : List Directive) : (n : Nat) → Performance α →
    List (Performance α)
  | 0, _ => []
  | n + 1, p =>
    match score[p.place.index]? with
    | none => []
    | some d =>
      let next := p.step setup d
      next :: trace setup score n next

end Performance

end Chiptune
