import Chiptune.Proofs.Signal
import Chiptune.Proofs.Voices

/-!
# Rests

Without effects, rests and all that follows the gate of a note are written as zeros times the
volume. A volume can be too large for a double, and zero times infinity is not a number.

* `Performance.samples_passage`: without effects, what goes in is what is written.
* `Undisturbed`: no sample has changed, and those that are new are silent. Zeros that are added
  disturb nothing (`Undisturbed.overlayFrom`), whatever stands there already.
* `Performance.writesSilence_iff`: silence is written as zeros exactly where the volume is finite.
* `Performance.undisturbed_run`: what plays no sound disturbs nothing.
* `Rendering.silence_adds_nothing`: all of this for the states that a source comes to, and for
  voices that are laid over it.
-/

namespace Chiptune

variable {α : Type} [Scalar α]

/-! ## Without effects -/

/-- What is written where no effects are: sound as it goes in, and silence at its volume. -/
def Input.plain (input : Input α) : α := input.level input.sample

/-- Behind its gate a note is silent at its own volume. -/
theorem Note.volume_of_mem_inputs {note : Note α} {volume : α} {n i : Nat} {passage : Passage α}
    (h : .silence volume ∈ note.inputs n i passage) : volume = note.volume := by
  induction n generalizing i passage with
  | zero => cases h
  | succ n ih =>
    rw [inputs, List.mem_cons] at h
    rcases h with sound | h
    · cases sound
    · split at h
      · simpa using List.eq_of_mem_replicate h
      · exact ih h

namespace Performance

variable {setup : Setup} {p : Performance α} {d : Directive}

/-- **Without effects, what goes in is what is written.** -/
theorem samples_passage (dry : p.chain = []) (setup : Setup) (d : Directive) :
    (p.passage setup d).samples.toList = (p.inputsOf setup d).map Input.plain := by
  rw [samples_passage_eq, dry, Chain.through_eq_byStage, Chain.byStage, List.zipWith_map_right,
    List.zipWith_self]
  rfl

theorem getElem?_passage (dry : p.chain = []) (setup : Setup) (d : Directive) (i : Nat) :
    (p.passage setup d).samples[i]? = (p.inputsOf setup d)[i]?.map Input.plain := by
  rw [← Array.getElem?_toList, samples_passage dry, List.getElem?_map]

theorem volume_of_mem_inputsOf {volume : α} (h : Input.silence volume ∈ p.inputsOf setup d) :
    volume = p.settings.volume := by
  cases d with
  | note pitch length => exact Note.volume_of_mem_inputs h
  | rest length => simpa using List.eq_of_mem_replicate h
  | _ => cases h

end Performance

/-- Only `v` and a further voice change the volume. -/
theorem Settings.volume_apply (d : Directive) (s : Settings α) :
    (s.apply d).volume
      = match d with
        | .volume value => Scalar.ofDecimal value / 100
        | .voiceReset => (initial : Settings α).volume
        | _ => s.volume := by
  cases d with
  | harmony weights => cases weights <;> rfl
  | tempo | envelope | unison =>
    simp only [apply]
    split <;> rfl
  | _ => rfl

theorem Settings.finite_initial : (initial : Settings Float).volume.isFinite := by decide +kernel

/-! ## Samples that stay -/

/-- No sample of the first array has changed in the second, and further ones are silent. Behind
the end of an array there is silence. -/
structure Undisturbed (xs ys : Array Float) : Prop where
  size_le : xs.size ≤ ys.size
  same : ∀ i : Nat, SameSample (ys[i]?.getD 0) (xs[i]?.getD 0)

namespace Undisturbed

variable {xs ys zs : Array Float} {t : Timeline Float}

theorem refl (xs : Array Float) : Undisturbed xs xs := ⟨Nat.le_refl _, fun _ => .refl _⟩

theorem trans (h : Undisturbed xs ys) (h' : Undisturbed ys zs) : Undisturbed xs zs :=
  ⟨Nat.le_trans h.size_le h'.size_le, fun i => (h'.same i).trans (h.same i)⟩

theorem overlay (index : Nat) {value : Float} (silent : SameSample value 0) :
    Undisturbed t.samples (t.overlay index value).samples := by
  constructor
  · have grown := t.size_overlay index value
    unfold Timeline.size at grown
    omega
  · intro i
    rw [Timeline.getElem?_overlay]
    by_cases here : i = index
    · rw [if_pos here]
      cases t.samples[i]? with
      | none => exact silent
      | some x => exact add_silent silent
    · rw [if_neg here]
      by_cases before : i < index
      · rw [if_pos before]
        exact .refl _
      · rw [if_neg before]
        exact .refl _

theorem overlayFrom (index : Nat) {values : List Float}
    (silent : ∀ x ∈ values, SameSample x 0) :
    Undisturbed t.samples (t.overlayFrom index values).samples := by
  induction values generalizing t index with
  | nil => exact .refl _
  | cons value values ih =>
    obtain ⟨first, others⟩ := List.forall_mem_cons.mp silent
    exact (overlay index first).trans (ih (index + 1) others)

end Undisturbed

/-! ## Directives -/

namespace Directive

/-- The directive adds no effect. -/
def dry : Directive → Bool
  | .effect .. => false
  | _ => true

/-- The directive makes no sound: it is neither a note nor an effect. -/
def mute : Directive → Bool
  | .note .. | .effect .. => false
  | _ => true

/-- The volume that the directive sets, if it sets one, is a finite double. -/
def bounded : Directive → Bool
  | .volume value => (Scalar.ofDecimal value / 100 : Float).isFinite
  | _ => true

theorem dry_of_mute {d : Directive} (h : d.mute) : d.dry := by
  cases d <;> first | rfl | cases h

end Directive

namespace Performance

variable {setup : Setup} {p : Performance Float} {d : Directive}

theorem chain_step {p : Performance α} (dry : d.dry) (h : p.chain = []) :
    (p.step setup d).chain = [] := by
  have written : (p.passage setup d).chain = [] :=
    List.length_eq_zero_iff.mp (by rw [length_chain_passage, h, List.length_nil])
  show (p.play setup d).chain = []
  cases d with
  | effect letter params => cases dry
  | note pitch length => exact written
  | rest length => exact written
  | _ => exact h

theorem volume_step (bounded : d.bounded) (h : p.settings.volume.isFinite) :
    (p.step setup d).settings.volume.isFinite := by
  show (p.play setup d).settings.volume.isFinite
  rw [settings_play, Settings.volume_apply]
  cases d with
  | volume value => exact bounded
  | voiceReset => exact Settings.finite_initial
  | _ => exact h

/-- Where no effects are and the volume is finite, silence is written as silence. -/
theorem silent_passage (dry : p.chain = []) (finite : p.settings.volume.isFinite)
    (mute : d.mute) : ∀ x ∈ (p.passage setup d).samples.toList, SameSample x 0 := by
  intro x written
  rw [samples_passage dry] at written
  obtain ⟨input, member, rfl⟩ := List.mem_map.mp written
  cases d with
  | note | effect => cases mute
  | rest length =>
    obtain rfl := List.eq_of_mem_replicate member
    exact (silence_mul_iff _).mpr finite
  | _ => cases member

/-- **A directive that makes no sound disturbs nothing**, where no effects are and the volume is
finite. -/
theorem undisturbed_step (dry : p.chain = []) (finite : p.settings.volume.isFinite)
    (mute : d.mute) :
    Undisturbed p.timeline.samples (p.step setup d).timeline.samples := by
  show Undisturbed _ (p.play setup d).timeline.samples
  rw [timeline_play]
  exact Undisturbed.overlayFrom _ (silent_passage dry finite mute)

end Performance

/-! ## From a directive on -/

/-- No directive before the `k`-th is played any more: the place is behind them, and so is what its
repeats go back to, or nothing goes back. -/
structure Place.Beyond (score : List Directive) (k : Nat) (p : Place) : Prop where
  le_index : k ≤ p.index
  closed : (∀ r ∈ p.repeats, k ≤ r.start) ∨ ∀ count, .repeatEnd count ∉ score.drop k

namespace Place.Beyond

variable {score : List Directive} {k : Nat} {p : Place} {d : Directive}

theorem mem_drop (h : p.Beyond score k) (hd : score[p.index]? = some d) : d ∈ score.drop k := by
  obtain ⟨i, hi⟩ := Nat.exists_eq_add_of_le h.le_index
  refine List.mem_of_getElem? (i := i) ?_
  rw [List.getElem?_drop, ← hi, hd]

theorem advance (h : p.Beyond score k) (hd : d ∈ score.drop k) :
    (p.advance d).Beyond score k := by
  obtain ⟨index, repeats⟩ := p
  obtain ⟨le_index, closed⟩ := h
  have onward : k ≤ index + 1 := Nat.le_succ_of_le le_index
  cases d with
  | repeatStart =>
    refine ⟨onward, closed.imp_left fun le_start => ?_⟩
    exact List.forall_mem_cons.mpr ⟨le_index, le_start⟩
  | repeatEnd count =>
    rcases closed with le_start | none
    · cases repeats with
      | nil => exact ⟨onward, .inl le_start⟩
      | cons innermost outer =>
        obtain ⟨start, outer_le⟩ := List.forall_mem_cons.mp le_start
        simp only [Place.advance, closeRepeat]
        split
        · exact ⟨onward, .inl outer_le⟩
        · exact ⟨Nat.le_succ_of_le start, .inl (List.forall_mem_cons.mpr ⟨start, outer_le⟩)⟩
    · exact absurd hd (none count)
  | _ => exact ⟨onward, closed⟩

end Place.Beyond

namespace Performance

variable {setup : Setup} {score : List Directive} {p : Performance Float}

/-- What is played from the `k`-th directive on is what stands there. -/
theorem mem_drop_of_played {k : Nat} (h : p.place.Beyond score k) :
    ∀ play ∈ p.played setup score, play.1 ∈ score.drop k := by
  fun_induction run setup score p with
  | case1 p hd => simp [played_of_end hd]
  | case2 p d hd hl => simp [played_of_limitReached hl]
  | case3 p d hd hl ih =>
    have member := h.mem_drop hd
    rw [played_of_step hd (Bool.eq_false_iff.mpr hl)]
    refine List.forall_mem_cons.mpr ⟨member, ih ?_⟩
    rw [place_step]
    exact h.advance member

/-- **A run that makes no sound disturbs nothing.** -/
theorem undisturbed_run (mute : ∀ play ∈ p.played setup score, play.1.mute ∧ play.1.bounded)
    (dry : p.chain = []) (finite : p.settings.volume.isFinite) :
    Undisturbed p.timeline.samples (p.run setup score).timeline.samples := by
  fun_induction run setup score p with
  | case1 p hd => exact .refl _
  | case2 p d hd hl => exact .refl _
  | case3 p d hd hl ih =>
    rw [played_of_step hd (Bool.eq_false_iff.mpr hl)] at mute
    obtain ⟨⟨mute, bounded⟩, later⟩ := List.forall_mem_cons.mp mute
    exact (undisturbed_step dry finite mute).trans
      (ih later (chain_step (Directive.dry_of_mute mute) dry) (volume_step bounded finite))

/-! ## A voice that rests -/

theorem chain_of_reached {noise : Noise} {p : Performance α} (dry : ∀ d ∈ score, d.dry)
    (h : (start noise : Performance α).Reached setup score p) : p.chain = [] :=
  h.invariant (I := fun q => q.chain = [])
    (fun _ _ hd none => chain_step (dry _ (List.mem_of_getElem? hd)) none) rfl

/-- A further voice begins with a finite volume, whatever the first one has set. -/
theorem undisturbed_voice {a : List Directive} (b : List Directive) (dry : p.chain = [])
    (index : p.limitReached setup = false → p.place.index = a.length)
    (mute : ∀ play ∈ p.played setup (a ++ .voiceReset :: b), play.1.mute ∧ play.1.bounded) :
    Undisturbed p.timeline.samples (p.run setup (a ++ .voiceReset :: b)).timeline.samples := by
  cases further : p.limitReached setup with
  | true =>
    rw [run_of_limitReached further]
    exact .refl _
  | false =>
    have next : (a ++ .voiceReset :: b)[p.place.index]? = some .voiceReset := by
      simp [index further]
    rw [played_of_step next further] at mute
    rw [run_of_step next further]
    exact undisturbed_run (List.forall_mem_cons.mp mute).2 dry Settings.finite_initial

/-- What is played behind a `;` is what stands there, where no repeat goes back before it. -/
theorem mem_of_played_voice {a b : List Directive}
    (index : p.limitReached setup = false → p.place.index = a.length)
    (closed : p.place.repeats = [] ∨ ∀ count, .repeatEnd count ∉ b) :
    ∀ play ∈ p.played setup (a ++ .voiceReset :: b), play.1 ∈ .voiceReset :: b := by
  cases further : p.limitReached setup with
  | true => simp [played_of_limitReached further]
  | false =>
    have behind : (a ++ .voiceReset :: b).drop a.length = .voiceReset :: b := by simp
    have beyond : p.place.Beyond (a ++ .voiceReset :: b) a.length := by
      refine ⟨(index further).ge, ?_⟩
      rw [behind]
      refine closed.imp (fun none => ?_) fun straight => ?_
      · simp [none]
      · simpa using straight
    have all : ∀ play ∈ p.played setup (a ++ .voiceReset :: b), _ := mem_drop_of_played beyond
    rwa [behind] at all

/-- The silence of a directive is written as zeros: that of a rest, and that behind the gate of a
note. -/
def WritesSilence (setup : Setup) (d : Directive) (p : Performance Float) : Prop :=
  ∀ (i : Nat) (volume : Float), (p.inputsOf setup d)[i]? = some (.silence volume) →
    ∃ x, (p.passage setup d).samples[i]? = some x ∧ SameSample x 0

/-- **Silence is written as zeros exactly where the volume is finite**, if there is any silence. -/
theorem writesSilence_iff (dry : p.chain = []) (setup : Setup) (d : Directive) :
    p.WritesSilence setup d ↔
      ((∃ volume, Input.silence volume ∈ p.inputsOf setup d) → p.settings.volume.isFinite) := by
  have sample (i : Nat) (volume : Float) (h : (p.inputsOf setup d)[i]? = some (.silence volume)) :
      (p.passage setup d).samples[i]? = some (0 * p.settings.volume) := by
    rw [getElem?_passage dry, h, volume_of_mem_inputsOf (List.mem_of_getElem? h)]
    rfl
  constructor
  · rintro silent ⟨volume, member⟩
    obtain ⟨i, h⟩ := List.getElem?_of_mem member
    obtain ⟨x, written, zero⟩ := silent i volume h
    rw [sample i volume h, Option.some.injEq] at written
    rw [← silence_mul_iff, written]
    exact zero
  · intro finite i volume h
    have finite := finite ⟨volume, List.mem_of_getElem? h⟩
    exact ⟨_, sample i volume h, (silence_mul_iff _).mpr finite⟩

end Performance

/-! ## Renderings -/

namespace Rendering

/-- What is played behind a source and a `;`. -/
def voicePlayed (r : Rendering) (source voice : List Char) : List Directive :=
  ((r.performance source : Performance Float).played r.setup
    (score (source ++ ';' :: voice))).map (·.1)

theorem index_performance (r : Rendering) (source : List Char)
    (further : (r.performance source : Performance Float).limitReached r.setup = false) :
    (r.performance source : Performance Float).place.index = (score source).length :=
  Performance.index_run (Place.within_start _) further

/-- **Silence adds nothing, as far as volumes are finite.** Whatever state a source without effects
comes to, silence is written as zeros exactly where the volume is finite, and there a rest
disturbs nothing; in all states the volume is finite if all volumes of the source are. A voice
that plays no note and no effect disturbs nothing, if the volumes that it sets are finite. It plays
what stands in it, unless it closes a repeat that the source has left open. -/
theorem silence_adds_nothing (r : Rendering) (source : List Char)
    (dry : ∀ d ∈ score source, d.dry) :
    (∀ p : Performance Float,
      (Performance.start (.ofSeed r.seed)).Reached r.setup (score source) p →
      ((∀ d ∈ score source, d.bounded) → p.settings.volume.isFinite) ∧
      (∀ d, p.WritesSilence r.setup d ↔
        ((∃ volume, Input.silence volume ∈ p.inputsOf r.setup d) → p.settings.volume.isFinite)) ∧
      (p.settings.volume.isFinite → ∀ length,
        Undisturbed p.timeline.samples (p.step r.setup (.rest length)).timeline.samples)) ∧
    ∀ voice : List Char,
      ((∀ d ∈ r.voicePlayed source voice, d.mute ∧ d.bounded) →
        Undisturbed (r.samples source) (r.samples (source ++ ';' :: voice))) ∧
      ((r.performance source : Performance Float).place.repeats = [] ∨
          (∀ count, .repeatEnd count ∉ score voice) →
        ∀ d ∈ r.voicePlayed source voice, d ∈ .voiceReset :: score voice) := by
  refine ⟨fun p reached => ?_, fun voice => ⟨fun mute => ?_, fun closed d hd => ?_⟩⟩
  · have plain := Performance.chain_of_reached dry reached
    refine ⟨fun bounded => ?_, Performance.writesSilence_iff plain r.setup, fun finite length => ?_⟩
    · exact reached.invariant (I := fun q => q.settings.volume.isFinite)
        (fun _ _ hd h => Performance.volume_step (bounded _ (List.mem_of_getElem? hd)) h)
        Settings.finite_initial
    · exact Performance.undisturbed_step plain finite rfl
  · by_cases hr : r.rate = 0
    · simp only [samples, if_pos hr]
      exact .refl _
    · have plain : (r.performance source : Performance Float).chain = [] :=
        Performance.chain_of_reached dry (Performance.runsTo_run ..).reached
      have whole : (r.performance (source ++ ';' :: voice) : Performance Float)
          = (r.performance source).run r.setup (score source ++ .voiceReset :: score voice) := by
        rw [performance, score_append_voice, Performance.run_append]
        rfl
      rw [samples_eq hr, samples_eq hr, whole]
      refine Performance.undisturbed_voice _ plain (index_performance r source) ?_
      rw [voicePlayed, score_append_voice] at mute
      simpa using mute
  · rw [voicePlayed, score_append_voice] at hd
    obtain ⟨play, member, rfl⟩ := List.mem_map.mp hd
    exact Performance.mem_of_played_voice (index_performance r source) closed play member

/-- It holds of a rest before a note, and of a voice that rests. -/
theorem silence_adds_nothing_restingVoice :
    (∀ d ∈ score ['r', 'c'], d.dry) ∧
      (Performance.start (.ofSeed 0) : Performance Float).Reached (setup ⟨8, 0, none⟩)
        (score ['r', 'c']) (Performance.start (.ofSeed 0)) ∧
      (Performance.start (.ofSeed 0) : Performance Float).settings.volume.isFinite ∧
      Undisturbed (Performance.start (.ofSeed 0) : Performance Float).timeline.samples
        ((Performance.start (.ofSeed 0) : Performance Float).step (setup ⟨8, 0, none⟩)
          (.rest none)).timeline.samples ∧
      (∀ count, .repeatEnd count ∉ score "v30r".toList) ∧
      (∀ d ∈ voicePlayed ⟨8, 0, none⟩ ['r', 'c'] "v30r".toList, d.mute ∧ d.bounded) ∧
      Undisturbed (samples ⟨8, 0, none⟩ ['r', 'c'])
        (samples ⟨8, 0, none⟩ (['r', 'c'] ++ ';' :: "v30r".toList)) := by
  have first : score ['r', 'c'] = [.rest none, .note ⟨.c, .natural⟩ none] := by decide +kernel
  have second : score "v30r".toList = [.volume ⟨30, 0⟩, .rest none] := by decide +kernel
  have dry : ∀ d ∈ score ['r', 'c'], d.dry := by rw [first]; decide
  have straight : ∀ count, .repeatEnd count ∉ score "v30r".toList := by rw [second]; simp
  obtain ⟨states, voices⟩ := silence_adds_nothing ⟨8, 0, none⟩ ['r', 'c'] dry
  obtain ⟨undisturbed, played⟩ := voices "v30r".toList
  have mute : ∀ d ∈ voicePlayed ⟨8, 0, none⟩ ['r', 'c'] "v30r".toList, d.mute ∧ d.bounded := by
    intro d hd
    have all : ∀ d ∈ .voiceReset :: score "v30r".toList, d.mute ∧ d.bounded := by
      rw [second]
      decide +kernel
    exact all d (played (.inr straight) d hd)
  exact ⟨dry, .refl, Settings.finite_initial,
    (states (Performance.start (.ofSeed 0)) .refl).2.2 Settings.finite_initial none,
    straight, mute, undisturbed mute⟩

/-- A volume of 309 digits is infinite, and a rest at that volume is not silent. -/
theorem rest_not_silent :
    let source := 'v' :: List.replicate 309 '9' ++ ['r', '4']
    (∀ d ∈ score source, d.dry) ∧
      ∃ x ∈ (samples ⟨8, 0, none⟩ source : Array Float), ¬ SameSample x 0 := by
  intro source
  have reading : score source = [.volume ⟨10 ^ 309 - 1, 0⟩, .rest (Length.single? 4)] := by
    decide +kernel
  have heard : ((((Performance.start (.ofSeed 0) : Performance Float).step ⟨8, none⟩
      (.volume ⟨10 ^ 309 - 1, 0⟩)).step ⟨8, none⟩ (.rest (Length.single? 4))).timeline.samples.any
        fun x => !(x == 0)) = true := by decide +kernel
  obtain ⟨x, member, loud⟩ := Array.any_eq_true'.mp heard
  refine ⟨by rw [reading]; decide, x, ?_, ?_⟩
  · rw [samples_eq (by decide), performance, reading, Performance.run_of_step rfl rfl,
      Performance.run_of_step rfl rfl, Performance.run_of_end rfl]
    simp only [setup]
    exact member
  · rintro (rfl | ⟨zero, -⟩)
    · cases loud
    · rw [zero] at loud
      cases loud

end Rendering

end Chiptune
