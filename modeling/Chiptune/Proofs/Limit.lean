import Chiptune.Proofs.Passage
import Chiptune.Proofs.Run
import Chiptune.Render

/-!
# The limit on samples

* `WithinLimit`: what the limit keeps. The cursor goes on by whole notes while writes are cut, so
  it may stand behind the limit and then says nothing about the timeline; below the limit the
  timeline reaches it. Every directive keeps this (`WithinLimit.step`), also past the limit.
* `Timeline.Gapless`: each value of a passage is added at a position that exists or is the next
  one. Nothing is ever filled with silence.
* `withinLimit_of_reached`: both hold of all that a piece comes to, a limit that is reached is
  reached exactly, and a rendering has nothing to cut off.
* `size_run_limit`: a limited run is as long as the unlimited one, or as the limit. The two make
  the same steps (`step_limit`) until a passage is cut, and with it the limit is reached.
-/

namespace Chiptune

variable {α : Type}

namespace Timeline

variable [Scalar α]

/-- `overlayFrom` adds each value at a position that exists or is the next one. -/
def Gapless (t : Timeline α) (index : Nat) : List α → Prop
  | [] => True
  | value :: values => index ≤ t.size ∧ Gapless (t.overlay index value) (index + 1) values

theorem gapless_of_le {t : Timeline α} {index : Nat} (h : index ≤ t.size) (values : List α) :
    t.Gapless index values := by
  induction values generalizing t index with
  | nil => trivial
  | cons value values ih => exact ⟨h, ih (by rw [size_overlay]; omega)⟩

end Timeline

namespace Performance

/-- Without a limit the timeline reaches the cursor; with one, it reaches the cursor or the limit,
and does not pass the limit. -/
def WithinLimit {α : Type} (setup : Setup) (p : Performance α) : Prop :=
  match setup.limit with
  | none => p.cursor ≤ p.timeline.size
  | some limit => min p.cursor limit ≤ p.timeline.size ∧ p.timeline.size ≤ limit

section

variable {α : Type} {setup : Setup} {p : Performance α}

/-- Below the limit, or without one, the timeline reaches the cursor. -/
theorem WithinLimit.cursor_le (h : p.WithinLimit setup) (hb : 0 < setup.budget p.cursor) :
    p.cursor ≤ p.timeline.size := by
  unfold WithinLimit Setup.budget at *
  split at h <;> rename_i hl <;> simp only [hl] at hb <;> omega

theorem WithinLimit.size_le (h : p.WithinLimit setup) {limit : Nat}
    (hl : setup.limit = some limit) : p.timeline.size ≤ limit := by
  unfold WithinLimit at h
  simp only [hl] at h
  exact h.2

/-- A limit that is reached is reached exactly. -/
theorem WithinLimit.size_eq (h : p.WithinLimit setup) (hl : p.limitReached setup = true) :
    setup.limit = some p.timeline.size := by
  unfold limitReached at hl
  unfold WithinLimit at h
  split at hl
  · cases hl
  · rename_i limit hs
    simp only [hs] at h ⊢
    simp only [Bool.or_eq_true, decide_eq_true_eq] at hl
    congr 1
    omega

end

variable [Scalar α] {setup : Setup} {score : List Directive} {p q : Performance α}

theorem withinLimit_start (setup : Setup) (noise : Noise) :
    (start noise : Performance α).WithinLimit setup := by
  unfold WithinLimit
  split <;> simp [start]

/-- Every directive stays within the limit. -/
theorem WithinLimit.step (h : p.WithinLimit setup) (d : Directive) :
    (p.step setup d).WithinLimit setup := by
  have cursor := cursor_play_le setup d p
  have size := size_timeline_play setup d p
  show (p.play setup d).WithinLimit setup
  unfold WithinLimit Setup.budget at *
  split at h <;> rename_i hl <;> simp only [hl] at size ⊢ <;> split at size <;> omega

/-- **No passage leaves a gap.** -/
theorem WithinLimit.gapless (h : p.WithinLimit setup) (d : Directive) :
    p.timeline.Gapless p.cursor (p.passage setup d).samples.toList := by
  by_cases hb : 0 < setup.budget p.cursor
  · exact Timeline.gapless_of_le (h.cursor_le hb) _
  · have none : (p.passage setup d).samples.toList = [] := by
      rw [← List.length_eq_zero_iff, Array.length_toList, size_passage]
      omega
    rw [none]
    trivial

theorem Reached.keeps_withinLimit (h : p.Reached setup score q) (hp : p.WithinLimit setup) :
    q.WithinLimit setup :=
  h.invariant (fun d _ _ h => h.step d) hp

theorem withinLimit_run (setup : Setup) (score : List Directive) (noise : Noise) :
    ((start noise : Performance α).run setup score).WithinLimit setup :=
  (runsTo_run setup score _).reached.keeps_withinLimit (withinLimit_start setup noise)

end Performance

/-- Rendering has nothing to cut off at the end. -/
theorem Rendering.samples_eq [Scalar α] {r : Rendering} (h : r.rate ≠ 0) (source : List Char) :
    (r.samples source : Array α) = (r.performance source).timeline.samples := by
  unfold samples
  rw [if_neg h]
  split
  · rfl
  · rename_i limit hl
    have within := Performance.withinLimit_run (α := α) r.setup (score source) (.ofSeed r.seed)
    exact Array.extract_eq_self_of_le (within.size_le hl)

namespace Performance

variable [Scalar α]

/-- **The invariant of cursor, timeline and limit.** All that a piece comes to, past the limit as
well, is `WithinLimit`; so whatever is played next is added without a gap, a limit that is reached
is reached exactly, and a rendering is all of its timeline. -/
theorem withinLimit_of_reached :
    (∀ (setup : Setup) (score : List Directive) (noise : Noise) (p : Performance α),
      (start noise).Reached setup score p →
        p.WithinLimit setup ∧
          (∀ d, score[p.place.index]? = some d →
            (p.step setup d).timeline
                = p.timeline.overlayFrom p.cursor (p.passage setup d).samples.toList ∧
              p.timeline.Gapless p.cursor (p.passage setup d).samples.toList) ∧
          (p.limitReached setup = true → setup.limit = some p.timeline.size)) ∧
      ∀ (r : Rendering) (source : List Char), r.rate ≠ 0 →
        (r.samples source : Array α) = (r.performance source).timeline.samples := by
  refine ⟨fun setup score noise p h => ?_, fun r source h => Rendering.samples_eq h source⟩
  have within := h.keeps_withinLimit (withinLimit_start setup noise)
  exact ⟨within, fun d _ => ⟨timeline_play setup d p, within.gapless d⟩, within.size_eq⟩

/-- It holds behind a rest that the limit cuts, and of the rendering of that rest. -/
theorem withinLimit_of_reached_cutRest :
    (start (.ofSeed 0) : Performance Float).Reached ⟨8000, some 3⟩ [.rest none]
        ((start (.ofSeed 0)).step ⟨8000, some 3⟩ (.rest none)) ∧
      ((start (.ofSeed 0) : Performance Float).step ⟨8000, some 3⟩ (.rest none)).WithinLimit
        ⟨8000, some 3⟩ ∧
      (Rendering.samples ⟨8000, 0, some 3⟩ ['r'] : Array Float)
        = (Rendering.performance ⟨8000, 0, some 3⟩ ['r']).timeline.samples :=
  have reached := .single ⟨.rest none, rfl, rfl⟩
  ⟨reached, (withinLimit_of_reached.1 _ _ _ _ reached).1,
    withinLimit_of_reached.2 ⟨8000, 0, some 3⟩ ['r'] (by decide)⟩

/-! ## A limited run and the unlimited one -/

variable {score : List Directive} {p q : Performance α} {rate n : Nat} {d : Directive}

/-- The timeline never shrinks. -/
theorem Reached.size_le {setup : Setup} (h : p.Reached setup score q) :
    p.timeline.size ≤ q.timeline.size :=
  h.invariant (fun d q _ hq => Nat.le_trans hq (size_le_play setup d q)) (Nat.le_refl _)

theorem size_le_run (setup : Setup) (score : List Directive) (p : Performance α) :
    p.timeline.size ≤ (p.run setup score).timeline.size :=
  (runsTo_run setup score p).reached.size_le

/-- A passage that the limit does not cut is the same without the limit. -/
theorem step_limit [Scalar.Counts α] (h : p.extent ⟨rate, none⟩ d ≤ n - p.cursor) :
    p.step ⟨rate, some n⟩ d = p.step ⟨rate, none⟩ d := by
  have count := extent_le ⟨rate, none⟩ d p
  have cut : min (p.extent ⟨rate, none⟩ d) (n - p.cursor)
      = min (p.extent ⟨rate, none⟩ d) maxCount := by omega
  have same : p.passage ⟨rate, some n⟩ d = p.passage ⟨rate, none⟩ d := by
    cases d with
    | note pitch length =>
      exact congrArg (fun k => (p.noteOf ⟨rate, none⟩ pitch length).play k 0
        ⟨#[], p.chain, p.noise⟩) cut
    | rest length =>
      exact congrArg (fun k => Passage.silence p.settings.volume k ⟨#[], p.chain, p.noise⟩) cut
    | _ => rfl
  cases d with
  | note pitch length => simp only [step, play, same]; rfl
  | rest length => simp only [step, play, same]; rfl
  | _ => rfl

/-- A passage that would pass the sample `n` reaches it, with `n` as the limit or without one. -/
theorem le_size_of_cut [Scalar.Counts α] {limit : Option Nat} (hl : limit = none ∨ limit = some n)
    (hc : p.cursor < n) (h : n - p.cursor < p.extent ⟨rate, none⟩ d) :
    n ≤ (p.step ⟨rate, limit⟩ d).timeline.size := by
  have count := extent_le ⟨rate, none⟩ d p
  have extent : p.extent ⟨rate, limit⟩ d = p.extent ⟨rate, none⟩ d := by cases d <;> rfl
  have budget : Setup.budget ⟨rate, limit⟩ p.cursor = maxCount ∨
      Setup.budget ⟨rate, limit⟩ p.cursor = n - p.cursor := by
    rcases hl with rfl | rfl
    · exact .inl rfl
    · exact .inr rfl
  show n ≤ (p.play ⟨rate, limit⟩ d).timeline.size
  rw [size_timeline_play, extent]
  split <;> omega

/-- **A limited run is as long as the unlimited one, cut to the limit.** -/
theorem size_run_limit [Scalar.Counts α] (h : p.WithinLimit ⟨rate, some n⟩) :
    (p.run ⟨rate, some n⟩ score).timeline.size
      = min n (p.run ⟨rate, none⟩ score).timeline.size := by
  fun_induction run (⟨rate, some n⟩ : Setup) score p with
  | case1 p hd =>
    have le := h.size_le rfl
    rw [run_of_end hd]
    omega
  | case2 p d hd hl =>
    have eq := Option.some.inj (h.size_eq hl)
    have le := size_le_run ⟨rate, none⟩ score p
    omega
  | case3 p d hd hl ih =>
    have unlimited : p.run ⟨rate, none⟩ score = (p.step ⟨rate, none⟩ d).run ⟨rate, none⟩ score :=
      run_of_step hd rfl
    rw [unlimited]
    by_cases cut : p.extent ⟨rate, none⟩ d ≤ n - p.cursor
    · rw [ih (h.step d), step_limit cut]
    · simp only [limitReached, Bool.or_eq_true, decide_eq_true_eq, not_or, Nat.not_le] at hl
      have limited := le_size_of_cut (.inr rfl) hl.2 (Nat.lt_of_not_le cut)
      have free := le_size_of_cut (.inl rfl) hl.2 (Nat.lt_of_not_le cut)
      have le := (h.step d).size_le rfl
      have grows := size_le_run ⟨rate, none⟩ score (p.step ⟨rate, none⟩ d)
      rw [run_of_limitReached (by simp [limitReached, limited])]
      omega

end Performance

/-- **The limit shortens and nothing else.** A limited rendering has as many samples as the limit,
or as the unlimited one where that is shorter. -/
theorem Rendering.size_samples_limit (r : Rendering) (source : List Char) (n : Nat) :
    ({ r with limit := some n }.samples source : Array Float).size
      = min n ({ r with limit := none }.samples source : Array Float).size := by
  by_cases h : r.rate = 0
  · simp [samples, h]
  · have limited : ({ r with limit := some n } : Rendering).rate ≠ 0 := h
    have free : ({ r with limit := none } : Rendering).rate ≠ 0 := h
    rw [samples_eq limited, samples_eq free]
    exact Performance.size_run_limit (Performance.withinLimit_start _ _)

end Chiptune
