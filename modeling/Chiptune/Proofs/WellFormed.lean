import Chiptune.Proofs.Double.Monotone
import Chiptune.Proofs.Grammar.LongestMatch
import Chiptune.Proofs.Passage
import Chiptune.Proofs.Run
import Chiptune.Render

/-!
# Settings stay well-formed

Numbers in the notation have no sign, so no setting falls below zero, whatever a source says and
however large its numbers are.

* `Settings.WellFormed`, `Effect.WellFormed`: what holds of settings and of the stages of a chain.
  Every directive keeps it (`Settings.WellFormed.apply`, `Performance.WellFormed.step`).
* `Length.Computes`: a length is computed without dividing by zero, and to a number.
* `Performance.wellFormed_of_reached`: both hold of all that a source comes to.
-/

namespace Chiptune

open Double

/-! ## Amounts -/

/-- A number that is not below zero. It may be infinite. -/
structure Amount (x : Float) : Prop where
  nonneg : 0 ≤ x
  isNumber : x.isNaN = false

theorem amount_of_nonneg {x : Float} (h : 0 ≤ x) : Amount x := ⟨h, (isNaN_of_le h).2⟩

theorem amount_ofDecimal (d : Decimal) : Amount (Scalar.ofDecimal d) :=
  amount_of_nonneg (ofScientific_nonneg d.digits true d.places)

theorem amount_ofNat (n : Nat) : Amount (Scalar.ofNat n) := amount_of_nonneg (ofNat_nonneg n)

theorem Amount.percent {x : Float} (h : Amount x) : Amount (x / 100) := by
  obtain ⟨pos, finite⟩ := ofNat_pos (n := 100) (by norm_num) (by norm_num)
  exact amount_of_nonneg (div_nonneg h.nonneg pos (.inr finite))

/-- Parameters are amounts. -/
theorem amount_of_mem {params : List Decimal} {values : List Float}
    (h : params.map Scalar.ofDecimal = values) {x : Float} (hx : x ∈ values) : Amount x := by
  subst h
  obtain ⟨d, -, rfl⟩ := List.mem_map.mp hx
  exact amount_ofDecimal d

/-! ## Lengths -/

/-- At least one part, and denominators from one on. -/
structure Length.WellFormed (l : Length) : Prop where
  parts : l.parts ≠ []
  denominators : ∀ v ∈ l.parts, 1 ≤ v.denominator ∧ v.denominator ≤ maxWhole

/-- The length that a directive gives. -/
def Directive.length? : Directive → Option Length
  | .note _ length | .rest length => length
  | .defaultLength length => some length
  | _ => none

theorem Length.wellFormed_eighth : Length.eighth.WellFormed where
  parts := by decide
  denominators := by decide

namespace Grammar

/-- Denominators are whole numbers of the notation. -/
theorem Ties.wellFormed_length? {ties : Ties} {l : Length} (h : ties.length? = some l) :
    l.WellFormed where
  parts := l.nonempty
  denominators := by
    intro v hv
    refine ⟨l.positive v hv, ?_⟩
    rw [Length.parts_of_ofParts? h] at hv
    obtain ⟨part, -, value⟩ := List.mem_filterMap.mp (List.mem_filter.mp hv).1
    obtain ⟨digits, -, rfl⟩ := Option.map_eq_some_iff.mp value
    exact Nat.min_le_right ..

theorem Lexeme.wellFormed_length? {x : Lexeme} {d : Directive} {l : Length}
    (h : x.directive? = some d) (hl : d.length? = some l) : l.WellFormed := by
  cases x with
  | note | rest =>
    cases h
    exact Ties.wellFormed_length? hl
  | defaultLength ties =>
    obtain ⟨length, given, rfl⟩ := Option.map_eq_some_iff.mp h
    cases hl
    exact Ties.wellFormed_length? given
  | mark m => cases m <;> cases h <;> cases hl
  | _ =>
    cases h
    cases hl

end Grammar

/-- **Every length in a source is well-formed.** -/
theorem Rendering.wellFormed_length? {source : List Char} {d : Directive} {l : Length}
    (h : d ∈ score source) (hl : d.length? = some l) : l.WellFormed := by
  obtain ⟨t, ht, rfl⟩ := List.mem_map.mp h
  obtain ⟨found, -, tokens⟩ := Grammar.exists_scans 0 source
  rw [tokenize, tokens] at ht
  obtain ⟨place, -, said⟩ := List.mem_filterMap.mp ht
  obtain ⟨directive, given, rfl⟩ := Option.map_eq_some_iff.mp said
  exact Grammar.Lexeme.wellFormed_length? given hl

/-- The computation of a length: its divisors are positive and its results are numbers, up to the
number of samples before it is cut to a whole one. -/
structure Length.Computes (tempo : Float) (rate : Nat) (l : Length) : Prop where
  tempo_pos : 0 < tempo
  denominator_pos : ∀ v ∈ l.parts, 0 < (Scalar.ofNat v.denominator : Float)
  part : ∀ v ∈ l.parts, Amount (v.seconds tempo)
  seconds : Amount (l.seconds tempo)
  samples : Amount (l.seconds tempo * Scalar.ofNat rate)

theorem ofNat_pos_of_whole {n : Nat} (pos : 1 ≤ n) (le : n ≤ maxWhole) :
    0 < (Scalar.ofNat n : Float) ∧ (Scalar.ofNat n : Float).isFinite :=
  ofNat_pos pos (by unfold maxWhole at le; omega)

theorem NoteValue.amount_seconds {tempo : Float} (pos : 0 < tempo) {v : NoteValue}
    (denominator : 1 ≤ v.denominator ∧ v.denominator ≤ maxWhole) : Amount (v.seconds tempo) := by
  obtain ⟨beat, finite⟩ := ofNat_pos (n := 240) (by norm_num) (by norm_num)
  obtain ⟨divisor, finite'⟩ := ofNat_pos_of_whole denominator.1 denominator.2
  have plain : 0 ≤ (240 : Float) / tempo / Scalar.ofNat v.denominator :=
    div_nonneg (div_nonneg (le_of_lt beat) pos (.inl finite)) divisor (.inr finite')
  unfold seconds
  refine amount_of_nonneg ?_
  split
  · exact mul_nonneg plain (by decide +kernel) (by decide +kernel)
  · exact plain

theorem Length.seconds_nonneg {tempo : Float} {l : Length}
    (h : ∀ v ∈ l.parts, Amount (v.seconds tempo)) : 0 ≤ l.seconds tempo := by
  have sum (parts : List NoteValue) (h : ∀ v ∈ parts, Amount (v.seconds tempo)) :
      ∀ total : Float, 0 ≤ total →
        0 ≤ parts.foldl (fun total v => total + v.seconds tempo) total := by
    induction parts with
    | nil => exact fun _ h => h
    | cons v parts ih =>
      obtain ⟨first, others⟩ := List.forall_mem_cons.mp h
      exact fun total ht => ih others _ (add_nonneg ht first.nonneg)
  exact sum l.parts h 0 (ofNat_nonneg 0)

/-- **No length divides by zero, and every length is a number.** -/
theorem Length.WellFormed.computes {l : Length} (h : l.WellFormed) {tempo : Float}
    (pos : 0 < tempo) {rate : Nat} (low : 1 ≤ rate) (high : rate ≤ maxWhole) :
    l.Computes tempo rate := by
  have part (v : NoteValue) (hv : v ∈ l.parts) : Amount (v.seconds tempo) :=
    NoteValue.amount_seconds pos (h.denominators v hv)
  have seconds := Length.seconds_nonneg part
  obtain ⟨factor, finite⟩ := ofNat_pos_of_whole low high
  exact {
    tempo_pos := pos
    denominator_pos := fun v hv =>
      (ofNat_pos_of_whole (h.denominators v hv).1 (h.denominators v hv).2).1
    part
    seconds := amount_of_nonneg seconds
    samples := amount_of_nonneg (mul_nonneg seconds factor finite) }

/-! ## Settings -/

structure Envelope.WellFormed (e : Envelope Float) : Prop where
  attack : Amount e.attack
  decay : Amount e.decay
  sustain : Amount e.sustain
  release : Amount e.release

structure Unison.WellFormed (u : Unison Float) : Prop where
  voices : u.voices ≤ maxVoices
  detune : Amount u.detune

/-- What holds of settings at every moment of a piece. -/
structure Settings.WellFormed (s : Settings Float) : Prop where
  tempo : 0 < s.tempo
  volume : Amount s.volume
  defaultLength : s.defaultLength.WellFormed
  weights : ∀ w ∈ s.weights, Amount w
  harmonics : s.wave = .harmonics → s.weights ≠ []
  unison : s.unison.WellFormed
  envelope : s.envelope.WellFormed

theorem Envelope.wellFormed_plain : Envelope.plain.WellFormed :=
  ⟨amount_ofNat 0, amount_ofNat 0, amount_ofNat 1, amount_ofNat 0⟩

theorem Unison.wellFormed_single : Unison.single.WellFormed where
  voices := by decide
  detune := amount_ofNat 0

theorem Waveform.ofIndex_ne_harmonics (index : Nat) : ofIndex index ≠ .harmonics := by
  unfold ofIndex
  split <;> exact noConfusion

namespace Settings

theorem wellFormed_initial : (initial : Settings Float).WellFormed where
  tempo := (ofNat_pos (n := 120) (by norm_num) (by norm_num)).1
  volume := amount_ofDecimal ⟨5, 1⟩
  defaultLength := Length.wellFormed_eighth
  weights := List.forall_mem_nil _
  harmonics := Waveform.noConfusion
  unison := Unison.wellFormed_single
  envelope := Envelope.wellFormed_plain

/-- A further voice keeps tempo, unison and weights, and its waveform does not look at these. -/
theorem WellFormed.newVoice {s : Settings Float} (h : s.WellFormed) : s.newVoice.WellFormed :=
  { wellFormed_initial with
    tempo := h.tempo
    weights := h.weights
    harmonics := Waveform.noConfusion
    unison := h.unison }

/-- **Directives keep settings well-formed.** -/
theorem WellFormed.apply {s : Settings Float} (h : s.WellFormed) {d : Directive}
    (hd : ∀ l, d.length? = some l → l.WellFormed) : (s.apply d).WellFormed := by
  cases d with
  | tempo value =>
    simp only [Settings.apply]
    split
    · exact { h with tempo := ‹_› }
    · exact h
  | volume value => exact { h with volume := (amount_ofDecimal value).percent }
  | defaultLength length => exact { h with defaultLength := hd length rfl }
  | waveform index =>
    exact { h with harmonics := fun same => absurd same (Waveform.ofIndex_ne_harmonics index) }
  | envelope params =>
    simp only [Settings.apply]
    split
    · rename_i attack decay sustain release others given
      have amount (x : Float) (hx : x ∈ attack :: decay :: sustain :: release :: others) :
          Amount (x / 100) := (amount_of_mem given hx).percent
      exact { h with envelope := ⟨amount _ (by simp), amount _ (by simp), amount _ (by simp),
        amount _ (by simp)⟩ }
    · exact h
  | harmony weights =>
    cases weights with
    | nil => exact h
    | cons w ws =>
      refine { h with weights := ?_, harmonics := fun _ => List.cons_ne_nil _ _ }
      intro x hx
      obtain ⟨weight, -, rfl⟩ := List.mem_map.mp hx
      exact (amount_ofDecimal weight).percent
  | unison params =>
    simp only [Settings.apply]
    split
    · rename_i voices detune others given
      have amount : Amount detune := amount_of_mem given (by simp)
      exact { h with unison := ⟨Nat.min_le_right .., amount⟩ }
    · exact h
  | voiceReset => exact h.newVoice
  | octaveUp | octaveDown => exact { h with }
  | _ => exact h

end Settings

/-! ## Effects -/

/-- The feedback of an echo does not make it louder. -/
structure Echo.WellFormed (e : Echo Float) : Prop where
  nonneg : 0 ≤ e.feedback
  le_one : e.feedback ≤ 1

/-- The cutoff of a filter lies between 1 Hz and 0.49 of the rate, where that is as much. -/
structure Filter.WellFormed (rate : Nat) (f : Filter Float) : Prop where
  q : Scalar.sqrtHalf ≤ f.q
  one_le_cutoff : 1 ≤ f.cutoff
  cutoff_le : 1 ≤ (Scalar.ofNat rate * 0.49 : Float) → f.cutoff ≤ Scalar.ofNat rate * 0.49

def Effect.WellFormed (rate : Nat) : Effect Float → Prop
  | .filter f => f.WellFormed rate
  | .echo e => e.WellFormed

theorem Echo.wellFormed_fresh {feedback : Float} (h : Amount feedback) (delay : Nat) :
    (Echo.fresh feedback delay).WellFormed where
  nonneg := by
    show 0 ≤ Scalar.least feedback 1
    rcases least_eq feedback 1 with same | same
    · rw [same]
      exact h.nonneg
    · rw [same]
      exact ofNat_nonneg 1
  le_one := least_le feedback (amount_ofNat 1).isNumber

theorem Filter.wellFormed_fresh (band : Band) (cutoff : Float) {q : Float}
    (h : Scalar.sqrtHalf ≤ q) (rate : Nat) : (Filter.fresh band cutoff q rate).WellFormed rate where
  q := h
  one_le_cutoff := le_greatest _ (amount_ofNat 1).isNumber
  cutoff_le := by
    intro high
    show Scalar.greatest (Scalar.least cutoff (Scalar.ofNat rate * 0.49)) 1 ≤ _
    rcases greatest_eq (Scalar.least cutoff (Scalar.ofNat rate * 0.49)) 1 with same | same
    · rw [same]
      exact least_le cutoff (isNaN_of_le high).2
    · rw [same]
      exact high

/-- Stages that the notation adds are well-formed. -/
theorem Effect.wellFormed_ofLetter? {letter : Char} {params : List Decimal} {rate : Nat}
    {effect : Effect Float}
    (h : ofLetter? letter (params.map Scalar.ofDecimal) rate = some effect) :
    effect.WellFormed rate := by
  have resonance {x : Float} (amount : Amount x) : Scalar.sqrtHalf ≤ x / 100 + Scalar.sqrtHalf :=
    le_add amount.percent.nonneg (by decide +kernel)
  unfold ofLetter? at h
  split at h
  · rename_i cutoff x others given
    cases h
    exact Filter.wellFormed_fresh _ _ (resonance (amount_of_mem given (by simp))) rate
  · rename_i cutoff x others given
    cases h
    exact Filter.wellFormed_fresh _ _ (resonance (amount_of_mem given (by simp))) rate
  · rename_i x seconds others given
    cases h
    exact Echo.wellFormed_fresh (amount_of_mem given (by simp)).percent _
  · cases h

theorem Echo.feedback_apply (e : Echo Float) (x : Float) :
    (e.apply x).2.feedback = e.feedback := by
  unfold apply
  dsimp only
  split
  · rfl
  · split <;> rfl

/-- Samples change neither feedback nor cutoff. -/
theorem Effect.WellFormed.apply {rate : Nat} {effect : Effect Float} (h : effect.WellFormed rate)
    (x : Float) : (effect.apply x).2.WellFormed rate := by
  cases effect with
  | filter f => exact ⟨h.q, h.one_le_cutoff, h.cutoff_le⟩
  | echo e =>
    have same := Echo.feedback_apply e x
    have wellFormed : (e.apply x).2.WellFormed := ⟨by rw [same]; exact h.nonneg, by
      rw [same]; exact h.le_one⟩
    exact wellFormed

/-! ## Performances -/

namespace Performance

variable {setup : Setup} {score : List Directive} {p : Performance Float}

/-- Settings and effects are well-formed. -/
structure WellFormed (rate : Nat) (p : Performance Float) : Prop where
  settings : p.settings.WellFormed
  chain : ∀ effect ∈ p.chain, effect.WellFormed rate

theorem wellFormed_start (rate : Nat) (noise : Noise) : (start noise).WellFormed rate where
  settings := Settings.wellFormed_initial
  chain := List.forall_mem_nil _

/-- **Directives keep performances well-formed.** -/
theorem WellFormed.step (h : p.WellFormed setup.rate) {d : Directive}
    (hd : ∀ l, d.length? = some l → l.WellFormed) : (p.step setup d).WellFormed setup.rate where
  settings := by
    show (p.play setup d).settings.WellFormed
    rw [settings_play]
    exact h.settings.apply hd
  chain := forall_play setup d p (fun _ x wellFormed => wellFormed.apply x)
    (fun _ _ _ added => Effect.wellFormed_ofLetter? added) h.chain

/-- **Settings stay well-formed.** In everything that a source comes to, past the limit as well,
settings and effects are well-formed, and so is every length that the source gives; with any of
these, and with the default length, durations at a rate of 32 bits are computed without dividing by
zero, and to numbers. -/
theorem wellFormed_of_reached {setup : Setup} {noise : Noise} {source : List Char}
    {p : Performance Float} (h : (start noise).Reached setup (Rendering.score source) p) :
    p.WellFormed setup.rate ∧
      (∀ d ∈ Rendering.score source, ∀ l, d.length? = some l → l.WellFormed) ∧
      (1 ≤ setup.rate → setup.rate ≤ maxWhole → ∀ l,
        (l = p.settings.defaultLength ∨ ∃ d ∈ Rendering.score source, d.length? = some l) →
          l.Computes p.settings.tempo setup.rate) := by
  have lengths (d : Directive) (hd : d ∈ Rendering.score source) (l : Length)
      (hl : d.length? = some l) : l.WellFormed := Rendering.wellFormed_length? hd hl
  have wellFormed : p.WellFormed setup.rate :=
    h.invariant (fun d _ hd hp => hp.step (lengths d (List.mem_of_getElem? hd)))
      (wellFormed_start _ noise)
  refine ⟨wellFormed, lengths, ?_⟩
  rintro low high l (rfl | ⟨d, hd, hl⟩)
  · exact wellFormed.settings.defaultLength.computes wellFormed.settings.tempo low high
  · exact (lengths d hd l hl).computes wellFormed.settings.tempo low high

/-- It holds at the end of a source whose numbers are at the edges, at the lowest rate. -/
theorem wellFormed_of_reached_edges :
    let score := Rendering.score "t0.5#l9999999,50#e150,0@h0,7@u99,3l0&3.;[c0.&7]2".toList
    let p : Performance Float := (start (.ofSeed 0)).run ⟨1, some 5⟩ score
    (start (.ofSeed 0)).Reached ⟨1, some 5⟩ score p ∧ p.WellFormed 1 ∧
      p.settings.defaultLength.Computes p.settings.tempo 1 ∧
      ∀ d ∈ score, ∀ l, d.length? = some l → l.Computes p.settings.tempo 1 := by
  intro score p
  have reached : (start (.ofSeed 0)).Reached ⟨1, some 5⟩ score p := (runsTo_run _ _ _).reached
  obtain ⟨wellFormed, -, computes⟩ := wellFormed_of_reached reached
  have computes := computes (by decide) (by decide)
  exact ⟨reached, wellFormed, computes _ (.inl rfl),
    fun d hd l hl => computes l (.inr ⟨d, hd, hl⟩)⟩

end Performance

end Chiptune
