import Chiptune.Proofs.Heard
import Chiptune.Proofs.Limit
import Chiptune.Proofs.Place
import Chiptune.Proofs.Silence
import Chiptune.Proofs.Grammar.Separator

/-!
# Voices

A text with a `;` is rendered as the two texts around it, one over the other, if the first one
leaves nothing behind that the second would take over.

* `Performance.writes_append`: a run of a longer score is that of the first part, and then goes on.
* `Performance.writes_shift`: directives that stand before a score do not change what it writes.
* `Performance.Neutral`: what a performance must leave as it was, so that a further voice begins as
  a piece does. Weights may be left: they are not heard before the voice has set its own.
* `Rendering.samples_voices`: the writes, the length and the samples of both voices.
-/

namespace Chiptune

variable {α : Type} [Scalar α]

namespace Performance

variable {setup : Setup} {score : List Directive} {p q : Performance α} {rate : Nat}

/-! ## Parts of a score -/

/-- A run of a longer score plays the first part, and goes on where that has ended. -/
theorem played_append (setup : Setup) (a b : List Directive) (p : Performance α) :
    p.played setup (a ++ b) = p.played setup a ++ (p.run setup a).played setup (a ++ b) := by
  fun_induction run setup a p with
  | case1 p hd => rw [played_of_end hd, List.nil_append]
  | case2 p d hd hl => rw [show p.played setup a = [] from played_of_limitReached hl, List.nil_append]
  | case3 p d hd hl ih =>
    have inside := (List.getElem?_eq_some_iff.mp hd).1
    have same : (a ++ b)[p.place.index]? = some d := by rw [List.getElem?_append_left inside, hd]
    have further := Bool.eq_false_iff.mpr hl
    rw [played_of_step same further, played_of_step hd further, ih, List.cons_append]

theorem writes_append (setup : Setup) (a b : List Directive) (p : Performance α) :
    p.writes setup (a ++ b) = p.writes setup a ++ (p.run setup a).writes setup (a ++ b) := by
  rw [writes, played_append, List.flatMap_append]
  rfl

/-- A run of a longer score comes where the first part has ended, and goes on. -/
theorem run_append (setup : Setup) (a b : List Directive) (p : Performance α) :
    p.run setup (a ++ b) = (p.run setup a).run setup (a ++ b) := by
  fun_induction run setup a p with
  | case1 p hd => rfl
  | case2 p d hd hl => rfl
  | case3 p d hd hl ih =>
    have inside := (List.getElem?_eq_some_iff.mp hd).1
    have same : (a ++ b)[p.place.index]? = some d := by rw [List.getElem?_append_left inside, hd]
    rw [← ih, run_of_step same (Bool.eq_false_iff.mpr hl)]

/-- A run that the limit does not stop ends behind its score. -/
theorem index_run (h : p.place.Within score.length)
    (further : (p.run setup score).limitReached setup = false) :
    (p.run setup score).place.index = score.length := by
  have ends := runsTo_run setup score p
  have within : (p.run setup score).place.Within score.length := by
    refine ends.reached.invariant (I := fun q => q.place.Within score.length)
      (fun d q hd hq => ?_) h
    rw [place_step]
    exact hq.advance (List.getElem?_eq_some_iff.mp hd).1 d
  rcases ends.2 with behind | limit
  · exact Nat.le_antisymm within.index_le (List.getElem?_eq_none_iff.mp behind)
  · rw [further] at limit
    cases limit

/-- **Directives before a score do not change what it writes**, from a performance that sounds the
same and stands at the same directive of the score. -/
theorem writes_shift {p q : Performance α} (before : List Directive)
    (audible : q.audible = p.audible) (place : q.place = p.place.shift before.length) :
    q.writes ⟨rate, none⟩ (before ++ score) = p.writes ⟨rate, none⟩ score := by
  have here : (before ++ score)[q.place.index]? = score[p.place.index]? := by
    rw [place]
    show (before ++ score)[p.place.index + before.length]? = _
    rw [List.getElem?_append_right (Nat.le_add_left ..), Nat.add_sub_cancel]
  cases hd : score[p.place.index]? with
  | none => rw [writes, writes, played_of_end hd, played_of_end (here.trans hd)]
  | some d =>
    rw [writes_of_step hd rfl, writes_of_step (here.trans hd) rfl,
      writesOf_of_audible audible]
    refine congrArg _ (writes_shift before (audible_step_of_audible audible _ d) ?_)
    rw [place_step, place_step, place, Place.shift_advance]
termination_by p.place.lanes (3 * score.length)
decreasing_by
  rw [place_step]
  exact Place.lanes_advance d p.place (List.getElem?_eq_some_iff.mp hd).1

/-- **Writes leave no gap.** -/
theorem contiguous_writes (score : List Directive) (h : p.WithinLimit setup) :
    Timeline.Contiguous p.timeline.size (p.writes setup score) := by
  fun_induction run setup score p with
  | case1 p hd => rw [writes, played_of_end hd]; trivial
  | case2 p d hd hl =>
    rw [writes, show p.played setup score = [] from played_of_limitReached hl]
    trivial
  | case3 p d hd hl ih =>
    rw [writes_of_step hd (Bool.eq_false_iff.mpr hl)]
    refine Timeline.Contiguous.append ?_ ?_
    · by_cases hb : 0 < setup.budget p.cursor
      · exact Timeline.contiguous_placed (h.cursor_le hb) _
      · have none : (p.passage setup d).samples.toList = [] := by
          rw [← List.length_eq_zero_iff, Array.length_toList, size_passage]
          omega
        rw [writesOf, none]
        trivial
    · rw [← timeline_step]
      exact ih (h.step d)

/-! ## A further voice -/

/-- The performance has left, or restored, what a further voice would take over, weights apart. -/
structure Neutral (p : Performance α) : Prop where
  tempo : p.settings.tempo = (Settings.initial : Settings α).tempo
  unison : p.settings.unison = .single
  chain : p.chain = []
  repeats : p.place.repeats = []

/-- A further voice sounds like a piece of its own. -/
theorem Neutral.audible_voice (h : p.Neutral) :
    (p.step setup .voiceReset).audible = (start p.noise).audible := by
  have settings : p.settings.newVoice.audible = (Settings.initial : Settings α).audible := by
    rw [Settings.newVoice, h.tempo, h.unison]
    simp [Settings.audible, Settings.initial]
  obtain ⟨place, old, cursor, chain, timeline, noise⟩ := p
  obtain rfl : chain = [] := h.chain
  exact congrArg (fun settings => { start noise with settings }) settings

/-- **A further voice writes what it writes as a piece of its own.** -/
theorem writes_voice {noise : Noise} {a : List Directive} (b : List Directive)
    (neutral : ((start noise : Performance α).run ⟨rate, none⟩ a).Neutral)
    (tonal : (start noise : Performance α).Tonal ⟨rate, none⟩ a) :
    (start noise : Performance α).writes ⟨rate, none⟩ (a ++ .voiceReset :: b)
      = (start noise).writes ⟨rate, none⟩ a ++ (start noise).writes ⟨rate, none⟩ b := by
  have index : ((start noise : Performance α).run ⟨rate, none⟩ a).place.index = a.length :=
    index_run (Place.within_start _) rfl
  have same : ((start noise : Performance α).run ⟨rate, none⟩ a).noise = noise :=
    noise_run tonal
  rw [writes_append]
  generalize (start noise : Performance α).run ⟨rate, none⟩ a = p at neutral index same
  have next : (a ++ .voiceReset :: b)[p.place.index]? = some .voiceReset := by
    rw [index, List.getElem?_append_right (Nat.le_refl _), Nat.sub_self]
    rfl
  rw [writes_of_step next rfl]
  refine congrArg _ ?_
  show (p.step ⟨rate, none⟩ .voiceReset).writes ⟨rate, none⟩ (a ++ .voiceReset :: b) = _
  rw [List.append_cons]
  refine writes_shift _ ?_ ?_
  · rw [neutral.audible_voice, same]
  · have place : p.place = ⟨a.length, []⟩ := by rw [← index, ← neutral.repeats]
    show p.place.advance .voiceReset = ⟨0 + (a ++ [Directive.voiceReset]).length, []⟩
    rw [place, Nat.zero_add, List.length_append]
    rfl

end Performance

/-! ## Renderings -/

namespace Rendering

/-- The positions and values that a rendering writes, in order. -/
def writes (r : Rendering) (source : List Char) : List (Nat × α) :=
  if r.rate = 0 then [] else (Performance.start (.ofSeed r.seed)).writes r.setup (score source)

/-- A rendering without a limit is the timeline of its writes. -/
theorem samples_eq_ofWrites (rate : Nat) (seed : UInt64) (source : List Char) :
    (samples ⟨rate, seed, none⟩ source : Array α)
      = (Timeline.ofWrites (writes ⟨rate, seed, none⟩ source)).samples := by
  by_cases hr : rate = 0
  · simp [samples, writes, hr, Timeline.ofWrites, Timeline.empty]
  · rw [samples_eq (r := ⟨rate, seed, none⟩) hr, writes, if_neg hr, performance,
      Performance.timeline_run]
    rfl

theorem contiguous_writes (r : Rendering) (source : List Char) :
    Timeline.Contiguous 0 (r.writes source : List (Nat × α)) := by
  unfold writes
  split
  · trivial
  · exact Performance.contiguous_writes (score source) (Performance.withinLimit_start _ _)

/-- A further voice is written as a rendering of its own. -/
theorem writes_voice {rate : Nat} {seed : UInt64} {a : List Char} (b : List Char)
    (neutral : (performance ⟨rate, seed, none⟩ a : Performance α).Neutral)
    (tonal : (Performance.start (.ofSeed seed) : Performance α).Tonal ⟨rate, none⟩ (score a)) :
    (writes ⟨rate, seed, none⟩ (a ++ ';' :: b) : List (Nat × α))
      = writes ⟨rate, seed, none⟩ a ++ writes ⟨rate, seed, none⟩ b := by
  by_cases hr : rate = 0
  · simp [writes, hr]
  · simp only [writes, if_neg hr, score_append_voice]
    exact Performance.writes_voice (score b) neutral tonal

/-- **Voices mix independently.** If the first one leaves tempo, unison and effects as they were
and no repeat open, and plays no note of white noise, then both write what they write by
themselves, one after the other. So the whole is as long as the longer one, and where the second
writes once, its sample is added to that of the first. -/
theorem samples_voices (rate : Nat) (seed : UInt64) {a : List Char} (b : List Char)
    (neutral : (performance ⟨rate, seed, none⟩ a : Performance Float).Neutral)
    (tonal : (Performance.start (.ofSeed seed) : Performance Float).Tonal ⟨rate, none⟩ (score a)) :
    (writes ⟨rate, seed, none⟩ (a ++ ';' :: b) : List (Nat × Float))
        = writes ⟨rate, seed, none⟩ a ++ writes ⟨rate, seed, none⟩ b ∧
      (samples ⟨rate, seed, none⟩ (a ++ ';' :: b) : Array Float).size
        = max (samples ⟨rate, seed, none⟩ a : Array Float).size
            (samples ⟨rate, seed, none⟩ b : Array Float).size ∧
      ∀ i, (writes ⟨rate, seed, none⟩ b : List (Nat × Float)).countP (·.1 = i) ≤ 1 →
        (samples ⟨rate, seed, none⟩ (a ++ ';' :: b) : Array Float)[i]?
            = Option.merge (· + ·) (samples ⟨rate, seed, none⟩ a : Array Float)[i]?
                (samples ⟨rate, seed, none⟩ b : Array Float)[i]? ∧
          ∀ x ∈ (samples ⟨rate, seed, none⟩ (a ++ ';' :: b) : Array Float)[i]?,
            SameSample x ((samples ⟨rate, seed, none⟩ a : Array Float)[i]?.getD 0
              + (samples ⟨rate, seed, none⟩ b : Array Float)[i]?.getD 0) := by
  have both := writes_voice b neutral tonal
  refine ⟨both, ?_, fun i once => ?_⟩
  · simp only [samples_eq_ofWrites, both]
    show ((Timeline.empty : Timeline Float).overlayAll (_ ++ _)).size = _
    rw [Timeline.overlayAll_append, Timeline.size_overlayAll]
    rfl
  · have mixed : (samples ⟨rate, seed, none⟩ (a ++ ';' :: b) : Array Float)[i]?
        = Option.merge (· + ·) (samples ⟨rate, seed, none⟩ a : Array Float)[i]?
            (samples ⟨rate, seed, none⟩ b : Array Float)[i]? := by
      simp only [samples_eq_ofWrites, both]
      exact Timeline.getElem?_overlayAll_append _ (contiguous_writes _ b) once
    refine ⟨mixed, fun x hx => ?_⟩
    rw [mixed] at hx
    generalize (samples ⟨rate, seed, none⟩ a : Array Float)[i]? = left at hx ⊢
    generalize (samples ⟨rate, seed, none⟩ b : Array Float)[i]? = right at hx ⊢
    match left, right, hx with
    | some x, some y, rfl => exact .inl rfl
    | some x, none, rfl => exact (add_silence x).symm
    | none, some y, rfl => exact (silence_add y).symm

/-- It holds behind a voice with partials and a volume of its own. -/
theorem samples_voices_partials :
    (performance ⟨8, 1, none⟩ "@h100v30c".toList : Performance Float).Neutral ∧
      (Performance.start (.ofSeed 1) : Performance Float).Tonal ⟨8, none⟩
        (score "@h100v30c".toList) ∧
      (writes ⟨8, 1, none⟩ ("@h100v30c".toList ++ ';' :: ['c']) : List (Nat × Float))
        = writes ⟨8, 1, none⟩ "@h100v30c".toList ++ writes ⟨8, 1, none⟩ ['c'] := by
  have reading : score "@h100v30c".toList
      = [.harmony [⟨100, 0⟩], .volume ⟨30, 0⟩, .note ⟨.c, .natural⟩ none] := by decide +kernel
  have chain (p : Performance Float) (h : p.chain = []) :
      (p.step ⟨8, none⟩ (.note ⟨.c, .natural⟩ none)).chain = [] := by
    have length := Performance.length_chain_passage ⟨8, none⟩ (.note ⟨.c, .natural⟩ none) p
    rw [h] at length
    exact List.length_eq_zero_iff.mp length
  have neutral : (performance ⟨8, 1, none⟩ "@h100v30c".toList : Performance Float).Neutral := by
    rw [performance, reading, Performance.run_of_step rfl rfl, Performance.run_of_step rfl rfl,
      Performance.run_of_step rfl rfl, Performance.run_of_end rfl]
    exact ⟨rfl, rfl, chain _ rfl, rfl⟩
  have tonal : (Performance.start (.ofSeed 1) : Performance Float).Tonal ⟨8, none⟩
      (score "@h100v30c".toList) := by
    refine Performance.tonal_of_notMem ?_ Waveform.noConfusion
    rw [reading]
    decide
  exact ⟨neutral, tonal, (samples_voices 8 1 ['c'] neutral tonal).1⟩

end Rendering

end Chiptune
