import Chiptune.Proofs.Limit
import Chiptune.Proofs.Timeline

/-!
# What a limited rendering keeps

A limited run and the unlimited one make the same steps until the limit cuts a passage. The cut
passage is the beginning of the whole one, and what the unlimited run plays after it is written
behind the cursor. So the two agree before the cursor, if no voice begins again at the start.

* `Settled p q`: what stood before the cursor in `p` stands in `q`. `settled_run`: a run settles
  what it begins with.
* `getElem?_run_limit`: a limited run and the unlimited one agree before the limit and before the
  cursor of the limited one.
* `size_le_cursor_run_limit`: without releases the timeline does not pass the cursor.
* `Rendering.getElem?_samples_limit`: both, for the renderings of a text.
-/

namespace Chiptune

variable {α : Type} [Scalar α]

namespace Performance

variable {setup : Setup} {score : List Directive} {p q : Performance α} {d : Directive}

/-! ## Behind the cursor -/

/-- The cursor only goes back where a further voice begins. -/
theorem cursor_le_play (hd : d ≠ .voiceReset) (hp : p.cursor ≤ maxCount) :
    p.cursor ≤ (p.play setup d).cursor := by
  cases d with
  | note pitch length =>
    simp only [play, write]
    omega
  | rest length =>
    simp only [play, write]
    omega
  | effect letter params =>
    obtain ⟨chain, same⟩ := addEffect_eq setup p letter params
    have cursor : (p.addEffect setup letter params).cursor = p.cursor := by rw [same]
    exact Nat.le_of_eq cursor.symm
  | voiceReset => exact absurd rfl hd
  | _ => exact Nat.le_refl _

/-- The cursor of `q` is not before that of `p`, and what stood before it in `p` stands in `q`. -/
structure Settled (p q : Performance α) : Prop where
  cursor_le : p.cursor ≤ q.cursor
  cursor_le_maxCount : q.cursor ≤ maxCount
  size_le : p.timeline.size ≤ q.timeline.size
  same : ∀ i < p.cursor, i < p.timeline.size →
    q.timeline.samples[i]? = p.timeline.samples[i]?

theorem Settled.step (h : p.Settled q) (hd : d ≠ .voiceReset) : p.Settled (q.step setup d) where
  cursor_le := Nat.le_trans h.cursor_le (cursor_le_play hd h.cursor_le_maxCount)
  cursor_le_maxCount := cursor_play_le_maxCount setup d q h.cursor_le_maxCount
  size_le := Nat.le_trans h.size_le (size_le_play setup d q)
  same i hi hs := by
    have behind := Nat.lt_of_lt_of_le hi h.cursor_le
    have stands := Nat.lt_of_lt_of_le hs h.size_le
    rw [← h.same i hi hs]
    show (q.play setup d).timeline.samples[i]? = _
    rw [timeline_play, Timeline.getElem?_overlayFrom_of_lt behind stands]

/-- **A voice does not touch what it has left behind.** -/
theorem settled_run (setup : Setup) (voice : .voiceReset ∉ score) (hp : p.cursor ≤ maxCount) :
    p.Settled (p.run setup score) := by
  refine (runsTo_run setup score p).reached.invariant (fun d q hd h => h.step ?_)
    ⟨Nat.le_refl _, hp, Nat.le_refl _, fun _ _ _ => rfl⟩
  rintro rfl
  exact voice (List.mem_of_getElem? hd)

/-! ## The passage that the limit cuts -/

variable {rate n : Nat}

theorem cursor_step_limit (limit : Option Nat) :
    (p.step ⟨rate, limit⟩ d).cursor = (p.step ⟨rate, none⟩ d).cursor := by
  cases d with
  | effect letter params =>
    obtain ⟨chain, limited⟩ := addEffect_eq ⟨rate, limit⟩ p letter params
    obtain ⟨chain', free⟩ := addEffect_eq ⟨rate, none⟩ p letter params
    simp only [step, play, limited, free]
  | _ => rfl

/-- What the limit leaves of a passage is the beginning of it. -/
theorem passage_limit_prefix [Scalar.Counts α] (n : Nat) (d : Directive) (p : Performance α) :
    (p.passage ⟨rate, some n⟩ d).samples.toList
      <+: (p.passage ⟨rate, none⟩ d).samples.toList := by
  have count := extent_le ⟨rate, none⟩ d p
  have shorter : min (p.extent ⟨rate, none⟩ d) (n - p.cursor)
      ≤ min (p.extent ⟨rate, none⟩ d) maxCount := by omega
  cases d with
  | note pitch length => exact Note.prefix_play_of_le _ shorter 0 _
  | rest length => exact Passage.prefix_silence_of_le _ shorter _
  | _ => exact List.prefix_rfl

/-- Where the limit cuts a passage, the timelines with and without it agree up to the limit. -/
theorem getElem?_step_limit [Scalar.Counts α] (hc : p.cursor < n)
    (cut : n - p.cursor < p.extent ⟨rate, none⟩ d) {i : Nat} (hi : i < n) :
    (p.step ⟨rate, none⟩ d).timeline.samples[i]?
      = (p.step ⟨rate, some n⟩ d).timeline.samples[i]? := by
  have reached : n ≤ (p.step ⟨rate, some n⟩ d).timeline.size :=
    le_size_of_cut (.inr rfl) hc cut
  have extent : p.extent ⟨rate, some n⟩ d = p.extent ⟨rate, none⟩ d := by cases d <;> rfl
  have written : (p.passage ⟨rate, some n⟩ d).samples.toList.length = n - p.cursor := by
    rw [Array.length_toList, size_passage, extent]
    exact Nat.min_eq_right (Nat.le_of_lt cut)
  obtain ⟨more, whole⟩ : (p.passage ⟨rate, some n⟩ d).samples.toList <+: _ :=
    passage_limit_prefix n d p
  show (p.play ⟨rate, none⟩ d).timeline.samples[i]?
    = (p.play ⟨rate, some n⟩ d).timeline.samples[i]?
  have standing : i < (p.play ⟨rate, some n⟩ d).timeline.size := Nat.lt_of_lt_of_le hi reached
  rw [timeline_play] at standing ⊢
  rw [timeline_play, ← whole, Timeline.overlayFrom_append]
  exact Timeline.getElem?_overlayFrom_of_lt (by omega) standing more

/-! ## The whole run -/

/-- **A limited run and the unlimited one agree before the limit**, as far as the cursor of the
limited one has come. -/
theorem getElem?_run_limit [Scalar.Counts α] (voice : .voiceReset ∉ score)
    (hp : p.cursor ≤ maxCount) (h : p.WithinLimit ⟨rate, some n⟩) {i : Nat}
    (hi : i < min n (p.run ⟨rate, some n⟩ score).cursor) :
    (p.run ⟨rate, some n⟩ score).timeline.samples[i]?
      = (p.run ⟨rate, none⟩ score).timeline.samples[i]? := by
  fun_induction run (⟨rate, some n⟩ : Setup) score p with
  | case1 p hd => rw [run_of_end hd]
  | case2 p d hd hl =>
    have full := Option.some.inj (h.size_eq hl)
    exact ((settled_run _ voice hp).same i (by omega) (by omega)).symm
  | case3 p d hd hl ih =>
    have unlimited : p.run ⟨rate, none⟩ score = (p.step ⟨rate, none⟩ d).run ⟨rate, none⟩ score :=
      run_of_step hd rfl
    have counted (limit : Option Nat) : (p.step ⟨rate, limit⟩ d).cursor ≤ maxCount :=
      cursor_play_le_maxCount _ d p hp
    by_cases cut : p.extent ⟨rate, none⟩ d ≤ n - p.cursor
    · rw [unlimited, ← step_limit cut]
      exact ih (counted _) (h.step d) hi
    · -- Here the limited run ends, and the other one goes on behind the cursor.
      simp only [limitReached, Bool.or_eq_true, decide_eq_true_eq, not_or, Nat.not_le] at hl
      have limited := le_size_of_cut (.inr rfl) hl.2 (Nat.lt_of_not_le cut)
      have free := le_size_of_cut (.inl rfl) hl.2 (Nat.lt_of_not_le cut)
      have ends : (p.step ⟨rate, some n⟩ d).run ⟨rate, some n⟩ score = p.step ⟨rate, some n⟩ d :=
        run_of_limitReached (by simp [limitReached, limited])
      rw [ends, cursor_step_limit] at hi
      have settled := settled_run (⟨rate, none⟩ : Setup) voice (counted none)
      rw [ends, unlimited, settled.same i (by omega) (by omega)]
      exact (getElem?_step_limit hl.2 (Nat.lt_of_not_le cut) (by omega)).symm

end Performance

/-! ## Without releases -/

/-- The release in percent that a directive gives to the notes after it. -/
def Directive.release? : Directive → Option Decimal
  | envelope (_ :: _ :: _ :: release :: _) => some release
  | _ => none

/-- No directive of the score gives a release of one sample or more. -/
def ReleaseFree (α : Type) [Scalar α] (rate : Nat) (score : List Directive) : Prop :=
  ∀ d ∈ score, ∀ release ∈ d.release?, samplesIn (Scalar.ofDecimal release / 100 : α) rate = 0

/-- Only `@e` with four numbers and a further voice change the envelope. -/
theorem Settings.envelope_apply (d : Directive) (s : Settings α) :
    (s.apply d).envelope
      = match d with
        | .envelope (attack :: decay :: sustain :: release :: _) =>
          .ofPercent (Scalar.ofDecimal attack) (Scalar.ofDecimal decay) (Scalar.ofDecimal sustain)
            (Scalar.ofDecimal release)
        | .voiceReset => .plain
        | _ => s.envelope := by
  cases d with
  | envelope params =>
    match params with
    | [] | [_] | [_, _] | [_, _, _] | _ :: _ :: _ :: _ :: _ => rfl
  | harmony weights => cases weights <;> rfl
  | tempo | unison =>
    simp only [apply]
    split <;> rfl
  | _ => rfl

theorem Settings.release_apply {rate : Nat} {s : Settings α} {d : Directive}
    (h : samplesIn s.envelope.release rate = 0) (hd : d ≠ .voiceReset)
    (given : ∀ release ∈ d.release?, samplesIn (Scalar.ofDecimal release / 100 : α) rate = 0) :
    samplesIn (s.apply d).envelope.release rate = 0 := by
  rw [envelope_apply]
  split
  · exact given _ rfl
  · exact absurd rfl hd
  · exact h

namespace Performance

variable {score : List Directive} {p : Performance α} {d : Directive} {rate n : Nat}

/-- Notes have no release, and the timeline ends at the cursor or before it. -/
structure Unreleased (rate : Nat) (p : Performance α) : Prop where
  release : samplesIn p.settings.envelope.release rate = 0
  cursor_le : p.cursor ≤ maxCount
  size_le : p.timeline.size ≤ p.cursor

/-- Without a release a directive writes no more than the cursor goes on. -/
theorem cursor_add_le_play {setup : Setup}
    (release : samplesIn p.settings.envelope.release setup.rate = 0) (hp : p.cursor ≤ maxCount)
    (hd : d ≠ .voiceReset) {k : Nat} (hk : k ≤ p.extent setup d)
    (counted : p.cursor + k ≤ maxCount) : p.cursor + k ≤ (p.play setup d).cursor := by
  have onward (d : Directive) (hd : d ≠ .voiceReset) : p.cursor ≤ (p.play setup d).cursor :=
    cursor_le_play hd hp
  cases d with
  | note pitch length =>
    have total : p.extent setup (.note pitch length) ≤ p.duration setup length := by
      show min (p.duration setup length + samplesIn p.settings.envelope.release setup.rate) maxCount
        ≤ p.duration setup length
      rw [release]
      exact Nat.min_le_left ..
    simp only [play, write]
    omega
  | rest length =>
    simp only [extent] at hk
    simp only [play, write]
    omega
  | _ =>
    have still := onward _ hd
    simp only [extent] at hk
    omega

theorem Unreleased.step (h : p.Unreleased rate) (hn : n ≤ maxCount) (hd : d ≠ .voiceReset)
    (given : ∀ release ∈ d.release?, samplesIn (Scalar.ofDecimal release / 100 : α) rate = 0) :
    (p.step ⟨rate, some n⟩ d).Unreleased rate where
  release := by
    show samplesIn (p.play ⟨rate, some n⟩ d).settings.envelope.release rate = 0
    rw [settings_play]
    exact Settings.release_apply h.release hd given
  cursor_le := cursor_play_le_maxCount _ d p h.cursor_le
  size_le := by
    show (p.play ⟨rate, some n⟩ d).timeline.size ≤ (p.play ⟨rate, some n⟩ d).cursor
    have onward : p.cursor ≤ (p.play ⟨rate, some n⟩ d).cursor := cursor_le_play hd h.cursor_le
    rw [size_timeline_play]
    split
    · exact Nat.le_trans h.size_le onward
    · have budget : Setup.budget ⟨rate, some n⟩ p.cursor = n - p.cursor := rfl
      have written : p.cursor + min (p.extent ⟨rate, some n⟩ d)
          (Setup.budget ⟨rate, some n⟩ p.cursor) ≤ (p.play ⟨rate, some n⟩ d).cursor :=
        cursor_add_le_play h.release h.cursor_le hd (Nat.min_le_left ..) (by omega)
      exact Nat.max_le.mpr ⟨Nat.le_trans h.size_le onward, written⟩

/-- **Without releases a limited run does not write past its cursor.** -/
theorem size_le_cursor_run_limit (voice : .voiceReset ∉ score) (free : ReleaseFree α rate score)
    (hn : n ≤ maxCount) (h : p.Unreleased rate) :
    (p.run ⟨rate, some n⟩ score).timeline.size ≤ (p.run ⟨rate, some n⟩ score).cursor := by
  have kept := (runsTo_run ⟨rate, some n⟩ score p).reached.invariant
    (I := Unreleased rate) (fun d q hd h => ?_) h
  · exact kept.size_le
  · have member := List.mem_of_getElem? hd
    refine h.step hn ?_ (free d member)
    rintro rfl
    exact voice member

end Performance

/-! ## Renderings -/

open Float.Model UnpackedFloat in
/-- No time at all is no sample, at any rate. -/
theorem samplesIn_zero (rate : Nat) : samplesIn (0 : Float) rate = 0 := by
  have zero : (0 : Float).toModel.unpack = .zero .positive := rfl
  show (pack (mul Format.binary64 (0 : Float).toModel.unpack
    (Float.ofNat rate).toModel.unpack)).unpack.toUInt64.toNat = 0
  rw [zero]
  cases (Float.ofNat rate).toModel.unpack with
  | notANumber => rfl
  | infinity sign => cases sign <;> rfl
  | zero sign => cases sign <;> rfl
  | finite sign mantissa exponent positive =>
    show (pack (.zero (.positive * sign))).unpack.toUInt64.toNat = 0
    cases sign <;> rfl

theorem Performance.unreleased_start (rate : Nat) (noise : Noise) :
    (start noise : Performance Float).Unreleased rate where
  release := samplesIn_zero rate
  cursor_le := Nat.zero_le _
  size_le := Nat.le_refl _

namespace Rendering

/-- **What the limited rendering keeps is what the full one has there.** For a text with one voice
the two agree, sample for sample, before the limit and before the cursor at which the limited
performance ends. Without releases the limited rendering is the beginning of the full one. -/
theorem getElem?_samples_limit (rate : Nat) (seed : UInt64) (n : Nat) {source : List Char}
    (voice : .voiceReset ∉ score source) :
    (∀ i < min n (performance ⟨rate, seed, some n⟩ source : Performance Float).cursor,
      (samples ⟨rate, seed, some n⟩ source : Array Float)[i]?
        = (samples ⟨rate, seed, none⟩ source : Array Float)[i]?) ∧
    (n ≤ maxCount → ReleaseFree Float rate (score source) →
      (samples ⟨rate, seed, some n⟩ source : Array Float)
        = (samples ⟨rate, seed, none⟩ source : Array Float).take n) := by
  by_cases hr : rate = 0
  · simp [samples, hr]
  have start := Performance.withinLimit_start (α := Float) ⟨rate, some n⟩ (.ofSeed seed)
  have agree : ∀ i < min n (performance ⟨rate, seed, some n⟩ source : Performance Float).cursor,
      (samples ⟨rate, seed, some n⟩ source : Array Float)[i]?
        = (samples ⟨rate, seed, none⟩ source : Array Float)[i]? := by
    intro i hi
    rw [samples_eq (r := ⟨rate, seed, some n⟩) hr, samples_eq (r := ⟨rate, seed, none⟩) hr]
    exact Performance.getElem?_run_limit voice (Nat.zero_le _) start hi
  refine ⟨agree, fun hn free => ?_⟩
  have size : (samples ⟨rate, seed, some n⟩ source : Array Float).size
      = min n (samples ⟨rate, seed, none⟩ source : Array Float).size := by
    rw [samples_eq (r := ⟨rate, seed, some n⟩) hr, samples_eq (r := ⟨rate, seed, none⟩) hr]
    exact Performance.size_run_limit start
  have reach : (samples ⟨rate, seed, some n⟩ source : Array Float).size
      ≤ (performance ⟨rate, seed, some n⟩ source : Performance Float).cursor := by
    rw [samples_eq (r := ⟨rate, seed, some n⟩) hr]
    exact Performance.size_le_cursor_run_limit voice free hn (Performance.unreleased_start ..)
  refine Array.ext_getElem? fun i => ?_
  rw [Array.take_eq_extract, Array.getElem?_extract, ← size, Nat.sub_zero, Nat.zero_add]
  by_cases hi : i < (samples ⟨rate, seed, some n⟩ source : Array Float).size
  · rw [if_pos hi]
    exact agree i (by omega)
  · rw [if_neg hi, Array.getElem?_eq_none (Nat.le_of_not_lt hi)]

/-- It holds of noise in a repeat, behind an effect, with a limit inside the second note. -/
theorem getElem?_samples_limit_noise :
    .voiceReset ∉ score "#e50,1[@6c]9".toList ∧ 3 ≤ maxCount ∧
      ReleaseFree Float 8 (score "#e50,1[@6c]9".toList) ∧
      (samples ⟨8, 1, some 3⟩ "#e50,1[@6c]9".toList : Array Float)
        = (samples ⟨8, 1, none⟩ "#e50,1[@6c]9".toList : Array Float).take 3 := by
  have reading : score "#e50,1[@6c]9".toList =
      [.effect 'e' [⟨50, 0⟩, ⟨1, 0⟩], .repeatStart, .waveform 6, .note ⟨.c, .natural⟩ none,
        .repeatEnd (some 9)] := by decide +kernel
  have voice : .voiceReset ∉ score "#e50,1[@6c]9".toList := by rw [reading]; decide
  have free : ReleaseFree Float 8 (score "#e50,1[@6c]9".toList) := by
    rw [reading]
    simp [ReleaseFree, Directive.release?]
  exact ⟨voice, by decide, free, (getElem?_samples_limit 8 1 3 voice).2 (by decide) free⟩

end Rendering

end Chiptune
