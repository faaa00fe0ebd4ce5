import Chiptune.Proofs.Checked.Scanner
import Chiptune.Proofs.Checked.Passage
import Chiptune.Proofs.Place
import Chiptune.Proofs.Run
import Chiptune.Proofs.TextSize
import Chiptune.Render

/-!
# Checked rendering

From source text to samples with checked operations, and the proof that none of them fails.

* `Performance.Sane`: a place within the score, ready effects, and a cursor that is a count. Every
  directive keeps this (`Performance.Sane.step`).
* `CountedScore`: what a score has that comes from a text (`counted_score`).
* `play_eq`, `step_eq`, `run_eq`: from a sane performance the checked functions answer as those
  that they check do, for a limit that is a count.
* `samples_eq_some`: so does the rendering of every text.
-/

namespace Chiptune

/-- What a performance of a score comes with. -/
structure Performance.Sane {α : Type} (score : List Directive) (p : Performance α) : Prop where
  place : p.place.Within score.length
  chain : p.chain.Ready
  cursor_le : p.cursor ≤ maxCount
  weights_le : p.settings.weights.length ≤ maxCount

/-- The number of directives is a count, and so is that of the weights that each of them gives. -/
structure CountedScore (score : List Directive) : Prop where
  length_le : score.length ≤ maxCount
  weights_le : ∀ d ∈ score, d.weights.length ≤ maxCount

/-- A passage that the limit has cut ends at a count. -/
theorem Setup.add_budget_le {setup : Setup} {limit cursor : Nat} (hl : setup.limit = some limit)
    (hn : limit ≤ maxCount) (hc : cursor ≤ maxCount) (total : Nat) :
    cursor + min total (setup.budget cursor) ≤ maxCount := by
  simp only [budget, hl]
  omega

namespace Checked

/-! ## Places -/

/-- The place after the end of a repeat that is closed by `count`. -/
def closeRepeat (count : Option Nat) (p : Place) : Option Place := do
  match p.repeats with
  | [] => return ⟨← add p.index 1, []⟩
  | innermost :: outer =>
    let remaining ← sub (innermost.remaining.getD (passes count)) 1
    if remaining = 0 then return ⟨← add p.index 1, outer⟩
    else return ⟨← add innermost.start 1, ⟨innermost.start, some remaining⟩ :: outer⟩

/-- The place after a directive. -/
def follow (d : Directive) (p : Place) : Option Place := do
  match d with
  | .repeatStart => return ⟨← add p.index 1, ⟨p.index, none⟩ :: p.repeats⟩
  | .repeatEnd count => closeRepeat count p
  | _ => return ⟨← add p.index 1, p.repeats⟩

/-- Where the place after a directive can be told, it is that place. -/
theorem eq_of_follow {d : Directive} {p q : Place} (h : follow d p = some q) :
    q = p.advance d := by
  obtain ⟨index, repeats⟩ := p
  cases d with
  | repeatEnd count =>
    cases repeats with
    | nil => exact eq_of_add h
    | cons innermost outer =>
      obtain ⟨remaining, hr, h⟩ := Option.bind_eq_some_iff.mp h
      obtain rfl := eq_of_sub hr
      simp only [Place.advance, Place.closeRepeat]
      split at h <;> rename_i h0
      · rw [if_pos h0]
        exact eq_of_add h
      · rw [if_neg h0]
        exact eq_of_add h
  | _ => exact eq_of_add h

theorem closeRepeat_eq {n : Nat} {p : Place} (h : p.Within n) (hi : p.index < n)
    (hn : n ≤ maxCount) (count : Option Nat) :
    closeRepeat count p = some (p.closeRepeat count) := by
  obtain ⟨index, repeats⟩ := p
  have next : add index 1 = some (index + 1) := add_eq (Nat.le_trans hi hn)
  cases repeats with
  | nil => simp [closeRepeat, next, Place.closeRepeat]
  | cons innermost outer =>
    have remaining : 1 ≤ innermost.remaining.getD (passes count) := by
      have := h.remaining_ne innermost List.mem_cons_self
      cases hr : innermost.remaining with
      | none => exact passes_pos count
      | some k => exact Nat.pos_of_ne_zero fun h0 => this (hr.trans (congrArg some h0))
    have start := h.start_lt innermost List.mem_cons_self
    have back : add innermost.start 1 = some (innermost.start + 1) := add_eq (by omega)
    simp only [closeRepeat, sub_eq remaining, next, back, Place.closeRepeat, Option.bind_eq_bind,
      Option.bind_some]
    split <;> rfl

theorem follow_eq {n : Nat} {p : Place} (h : p.Within n) (hi : p.index < n) (hn : n ≤ maxCount)
    (d : Directive) : follow d p = some (p.advance d) := by
  have next : add p.index 1 = some (p.index + 1) := add_eq (by omega)
  cases d with
  | repeatEnd count => exact closeRepeat_eq h hi hn count
  | _ => simp [follow, next, Place.advance]

end Checked

/-! ## Performances -/

variable {α : Type} [Scalar α]

namespace Checked

/-- A performance after a note or rest of `length` samples that has come to `track`. -/
def leave (length : Nat) (p : Performance α) (track : Track α) : Performance α :=
  { p with
    cursor := min (p.cursor + length) maxCount
    chain := track.chain
    timeline := track.timeline
    noise := track.noise }

/-- What a directive does, apart from saying which one comes next. Only notes and rests do
anything that could fail. -/
def play (setup : Setup) (d : Directive) (p : Performance α) : Option (Performance α) :=
  let track : Track α := ⟨p.timeline, p.chain, p.noise⟩
  match d with
  | .note pitch length => do
    let duration := p.duration setup length
    let frequency ← frequency p.settings.octave pitch
    let contour ← contour p.settings.envelope duration setup.rate
    let note : Note α :=
      { timbre := ⟨p.settings.wave, p.settings.weights, p.settings.unison⟩
        frequency
        volume := p.settings.volume
        contour
        rate := setup.rate }
    let n := min contour.total (setup.budget p.cursor)
    leave duration p <$> playNote note p.cursor n 0 false track
  | .rest length =>
    let duration := p.duration setup length
    let n := min duration (setup.budget p.cursor)
    leave duration p <$> playRest p.settings.volume p.cursor n 0 track
  | d => some (p.play setup d)

/-- Plays the directive at the place and goes on to the next. -/
def step (setup : Setup) (score : List Directive) (p : Performance α) :
    Option (Performance α) := do
  let d ← score[p.place.index]?
  let p ← play setup d p
  let place ← follow d p.place
  return p.moveTo place

theorem place_of_play {setup : Setup} {d : Directive} {p q : Performance α}
    (h : play setup d p = some q) : q.place = p.place := by
  cases d with
  | note pitch length =>
    simp only [play, Option.bind_eq_bind, Option.bind_eq_some_iff] at h
    obtain ⟨_, _, _, _, h⟩ := h
    obtain ⟨track, -, rfl⟩ := Option.map_eq_some_iff.mp h
    rfl
  | rest length =>
    obtain ⟨track, -, rfl⟩ := Option.map_eq_some_iff.mp h
    rfl
  | _ =>
    cases h
    exact Performance.place_play ..

/-- A step brings the performance nearer to its end. -/
theorem lanes_below_of_step {setup : Setup} {score : List Directive} {p q : Performance α}
    (h : step setup score p = some q) :
    Lanes.Below (q.place.lanes (3 * score.length)) (p.place.lanes (3 * score.length)) := by
  simp only [step, Option.bind_eq_bind, Option.bind_eq_some_iff] at h
  obtain ⟨d, hd, played, hp, place, hplace, h⟩ := h
  cases h
  rw [place_of_play hp] at hplace
  rw [Performance.place_moveTo, eq_of_follow hplace]
  exact Place.lanes_advance d p.place (List.getElem?_eq_some_iff.mp hd).1

/-- Plays a score from where the performance stands to its end, or until the limit is
reached. -/
def run (setup : Setup) (score : List Directive) (p : Performance α) : Option (Performance α) :=
  if p.place.index < score.length then
    if p.limitReached setup then some p
    else
      match _h : step setup score p with
      | some p => run setup score p
      | none => none
  else some p
termination_by p.place.lanes (3 * score.length)
decreasing_by exact lanes_below_of_step _h

/-- The samples of a source, no more than the limit. -/
def samples (r : Rendering) (source : List Char) : Option (Array α) :=
  if r.rate = 0 then some #[]
  else do
    let tokens ← tokens source 0
    let p ← run r.setup (tokens.map (·.directive)) (.start (.ofSeed r.seed))
    match r.limit with
    | none => return p.timeline.samples
    | some limit => return p.timeline.samples.take limit

end Checked

namespace Performance

variable {setup : Setup} {score : List Directive} {p : Performance α}

theorem sane_start (score : List Directive) (noise : Noise) :
    (start noise : Performance α).Sane score where
  place := Place.within_start _
  chain := Chain.ready_nil
  cursor_le := Nat.zero_le _
  weights_le := Nat.zero_le _

/-- Every directive leaves ready effects ready. -/
theorem ready_play [Scalar.Counts α] (h : p.chain.Ready) (d : Directive) :
    (p.play setup d).chain.Ready :=
  forall_play setup d p (fun _ x ready => ready.apply x)
    (fun _ _ _ added => Effect.ready_ofLetter? added) h

theorem weights_play_le {d : Directive} (h : p.settings.weights.length ≤ maxCount)
    (hd : d.weights.length ≤ maxCount) :
    (p.play setup d).settings.weights.length ≤ maxCount := by
  cases d with
  | harmony weights =>
    cases weights with
    | nil => exact h
    | cons w ws =>
      simp only [play, Settings.apply, List.length_map]
      exact hd
  | effect letter params =>
    obtain ⟨chain, same⟩ := addEffect_eq setup p letter params
    rw [play, same]
    exact h
  | tempo | envelope | unison =>
    simp only [play, Settings.apply]
    split <;> exact h
  | _ => exact h

/-- **Every directive of a score leaves a sane performance.** -/
theorem Sane.step [Scalar.Counts α] (h : p.Sane score) (hs : CountedScore score) {d : Directive}
    (hd : score[p.place.index]? = some d) : (p.step setup d).Sane score where
  place := by
    rw [place_step]
    exact h.place.advance (List.getElem?_eq_some_iff.mp hd).1 d
  chain := ready_play h.chain d
  cursor_le := cursor_play_le_maxCount setup d p h.cursor_le
  weights_le := weights_play_le h.weights_le (hs.weights_le d (List.mem_of_getElem? hd))

end Performance

namespace Checked

variable [Scalar.Counts α] {setup : Setup} {score : List Directive} {p : Performance α}
  {limit : Nat}

theorem play_eq (h : p.Sane score) (hl : setup.limit = some limit) (hn : limit ≤ maxCount)
    (d : Directive) : play setup d p = some (p.play setup d) := by
  cases d with
  | note pitch length =>
    have fits : (p.noteOf setup pitch length).Fits :=
      ⟨fits_contour _ (Scalar.Counts.toCount_le _), h.weights_le⟩
    have behind (n : Nat) : 0 + min n (setup.budget p.cursor) ≤ n := by omega
    have written : playNote (p.noteOf setup pitch length) p.cursor _ 0 false
        (Passage.on p.timeline p.cursor ⟨#[], p.chain, p.noise⟩) = some _ :=
      playNote_eq h.chain fits p.timeline rfl (behind _) (Setup.add_budget_le hl hn h.cursor_le _)
    simp only [play, frequency_eq, contour_eq, Option.bind_eq_bind, Option.bind_some]
    exact congrArg (Option.map (leave (p.duration setup length) p)) written
  | rest length =>
    have written : playRest p.settings.volume p.cursor _ 0
        (Passage.on p.timeline p.cursor ⟨#[], p.chain, p.noise⟩) = some _ :=
      playRest_eq h.chain p.settings.volume p.timeline rfl
        (Setup.add_budget_le hl hn h.cursor_le (p.duration setup length))
    exact congrArg (Option.map (leave (p.duration setup length) p)) written
  | _ => rfl

theorem step_eq (h : p.Sane score) (hl : setup.limit = some limit) (hn : limit ≤ maxCount)
    (hs : CountedScore score) {d : Directive} (hd : score[p.place.index]? = some d) :
    step setup score p = some (p.step setup d) := by
  have next := follow_eq h.place (List.getElem?_eq_some_iff.mp hd).1 hs.length_le d
  simp [step, hd, play_eq h hl hn d, next, Performance.step_eq_moveTo]

/-- **The checked run is the run**: no operation of it fails. -/
theorem run_eq (h : p.Sane score) (hl : setup.limit = some limit) (hn : limit ≤ maxCount)
    (hs : CountedScore score) : run setup score p = some (p.run setup score) := by
  fun_induction Performance.run setup score p with
  | case1 p hd =>
    have finished := List.getElem?_eq_none_iff.mp hd
    rw [run, if_neg (Nat.not_lt.mpr finished)]
  | case2 p d hd reached =>
    rw [run, if_pos (List.getElem?_eq_some_iff.mp hd).1, if_pos reached]
  | case3 p d hd reached ih =>
    rw [run, if_pos (List.getElem?_eq_some_iff.mp hd).1, if_neg reached,
      step_eq h hl hn hs hd]
    exact ih (h.step hs hd)

/-- A text says no more than it has characters. -/
theorem counted_score {source : List Char} (h : source.length ≤ maxCount) :
    CountedScore (Rendering.score source) where
  length_le := by
    rw [Rendering.score, List.length_map]
    exact Nat.le_trans (Scanner.length_tokensFrom_le 0 source) h
  weights_le d hd := by
    obtain ⟨token, ht, rfl⟩ := List.mem_map.mp hd
    exact Nat.le_trans (Scanner.weights_le_of_mem ht) h

/-- **Rendering never fails.** For every text, rate, seed and limit the checked rendering answers,
and with the samples of the plain one: no read is outside the text, the score, the timeline or the
line of an echo, no difference is below zero, no sum is too large, no remainder is modulo zero,
and every letter has its semitones. The limit and the number of characters are counts, as all
that a machine can hold. -/
theorem samples_eq_some (rate : Nat) (seed : UInt64) {limit : Nat} (hlimit : limit ≤ maxCount)
    {source : List Char} (hsource : source.length ≤ maxCount) :
    samples ⟨rate, seed, some limit⟩ source
      = some (Rendering.samples ⟨rate, seed, some limit⟩ source : Array Float) := by
  unfold samples Rendering.samples
  by_cases hr : rate = 0
  · simp [hr]
  have scan : tokens source 0 = some (tokenize source) :=
    tokens_eq ⟨List.drop_zero, Nat.zero_le _, hsource⟩
  have run : run ⟨rate, some limit⟩ (Rendering.score source) (.start (.ofSeed seed))
      = some ((Performance.start (.ofSeed seed) : Performance Float).run ⟨rate, some limit⟩
          (Rendering.score source)) :=
    run_eq (Performance.sane_start _ _) rfl hlimit (counted_score hsource)
  simp only [Rendering.score] at run
  simp only [hr, if_false, scan, run, Rendering.setup, Rendering.performance, Rendering.score,
    Option.bind_eq_bind, Option.bind_some]
  rfl

/-- Neither does that of a text with open and stray repeats, with a limit of five samples. -/
theorem samples_eq_some_strayRepeats :
    5 ≤ maxCount ∧ "[[c]3#e50,0];".toList.length ≤ maxCount ∧
      samples ⟨8000, 1, some 5⟩ "[[c]3#e50,0];".toList
        = some (Rendering.samples ⟨8000, 1, some 5⟩ "[[c]3#e50,0];".toList : Array Float) :=
  ⟨by decide, by decide, samples_eq_some 8000 1 (by decide) (by decide)⟩

end Checked

end Chiptune
