import Chiptune.Proofs.Signal
import Chiptune.Proofs.LimitAgreement

/-!
# What is behind the cursor

A voice goes on from its cursor and leaves what it has come past.

* `Chain.Continues`: a chain has heard a signal and may have got further stages; none is gone, moved
  or replaced. What a directive leaves of the chain continues it (`Chain.continues_passage`).
* `Performance.Frame`: what playing a directive may change. `Performance.frame_step`: every
  directive keeps to it.
* `Performance.Stretch`: a part of a run in which no voice begins again, with any number of repeats.
* `Performance.finality`: all of this for what a piece comes to, and that a stretch leaves every
  sample before the cursor at its start.
-/

namespace Chiptune

variable {α : Type} [Scalar α]

/-! ## Stages that stay -/

namespace Effect

/-- The stage as it is before it has heard anything. -/
def unheard : Effect α → Effect α
  | filter f => filter { f with x1 := 0, x2 := 0, y1 := 0, y2 := 0 }
  | echo e => echo { e with line := #[], position := 0 }

/-- `later` is the same stage, behind a signal. -/
def Hears (effect later : Effect α) : Prop := ∃ signal, later = (effect.through signal).2

theorem unheard_apply (effect : Effect α) (x : α) : (effect.apply x).2.unheard = effect.unheard := by
  cases effect with
  | filter f => rfl
  | echo e =>
    simp only [apply, Echo.apply]
    split
    · rfl
    · split <;> rfl

/-- What a stage hears does not make it another one. -/
theorem Hears.unheard_eq {effect later : Effect α} (h : effect.Hears later) :
    later.unheard = effect.unheard := by
  obtain ⟨signal, rfl⟩ := h
  induction signal generalizing effect with
  | nil => rfl
  | cons x signal ih => exact ih.trans (unheard_apply effect x)

theorem hears_self (effect : Effect α) : effect.Hears effect := ⟨[], rfl⟩

theorem through_append (effect : Effect α) (xs ys : List α) :
    (effect.through (xs ++ ys)).2 = ((effect.through xs).2.through ys).2 := by
  induction xs generalizing effect with
  | nil => rfl
  | cons x xs ih => exact ih _

theorem Hears.trans {first second third : Effect α} (h : first.Hears second)
    (h' : second.Hears third) : first.Hears third := by
  obtain ⟨xs, rfl⟩ := h
  obtain ⟨ys, rfl⟩ := h'
  exact ⟨xs ++ ys, (through_append first xs ys).symm⟩

end Effect

/-- All stages of a chain are there in another one, in their order, each behind some signal. Further
ones may follow them. -/
inductive Chain.Continues : Chain α → Chain α → Prop
  | added (chain : Chain α) : Continues [] chain
  | stage {effect later : Effect α} {effects laters : Chain α} (hears : effect.Hears later)
      (others : Continues effects laters) : Continues (effect :: effects) (later :: laters)

namespace Chain

theorem continues_append (chain added : Chain α) : chain.Continues (chain ++ added) := by
  induction chain with
  | nil => exact .added added
  | cons effect effects ih => exact .stage effect.hears_self ih

theorem Continues.refl (chain : Chain α) : chain.Continues chain := by
  have same := continues_append chain []
  rwa [List.append_nil] at same

theorem Continues.trans {first second third : Chain α} (h : first.Continues second)
    (h' : second.Continues third) : first.Continues third := by
  induction h generalizing third with
  | added => exact .added third
  | stage hears _ ih =>
    cases h' with
    | stage hears' others' => exact .stage (hears.trans hears') (ih others')

/-- A signal leaves each stage where it is. -/
theorem continues_byStage (chain : Chain α) (signal : List α) :
    chain.Continues (chain.byStage signal).2 := by
  induction chain generalizing signal with
  | nil => exact .added _
  | cons effect effects ih => exact .stage ⟨signal, rfl⟩ (ih _)

/-- Without what it has heard, a chain that goes on is the beginning of the later one. -/
theorem Continues.prefix_unheard {chain later : Chain α} (h : chain.Continues later) :
    chain.map Effect.unheard <+: later.map Effect.unheard := by
  induction h with
  | added => exact List.nil_prefix
  | stage hears _ ih =>
    rw [List.map_cons, List.map_cons, hears.unheard_eq]
    exact (List.prefix_cons_inj _).mpr ih

end Chain

/-! ## One directive -/

/-- Only notes and rests take time. -/
def Directive.takesTime : Directive → Bool
  | .note .. | .rest _ => true
  | _ => false

theorem Timeline.le_of_mem_placed {β : Type} {index : Nat} {values : List β} {write : Nat × β}
    (h : write ∈ placed index values) : index ≤ write.1 := by
  induction values generalizing index with
  | nil => cases h
  | cons value values ih =>
    rcases List.mem_cons.mp h with rfl | later
    · exact Nat.le_refl _
    · exact Nat.le_of_succ_le (ih later)

namespace Performance

variable {setup : Setup} {score : List Directive} {p q : Performance α} {d : Directive}

theorem continues_passage (setup : Setup) (d : Directive) (p : Performance α) :
    p.chain.Continues (p.passage setup d).chain := by
  rw [chain_passage, Chain.through_eq_byStage]
  exact Chain.continues_byStage _ _

/-- What does not take time writes nothing, is not heard by the effects and does not touch the
generator. -/
theorem step_of_not_takesTime (h : d.takesTime = false) :
    p.writesOf setup d = [] ∧ (p.step setup d).noise = p.noise ∧
      p.chain <+: (p.step setup d).chain := by
  cases d with
  | note | rest => cases h
  | effect letter params =>
    refine ⟨rfl, ?_⟩
    simp only [step, play, addEffect]
    split
    · exact ⟨rfl, List.prefix_append ..⟩
    · exact ⟨rfl, List.prefix_rfl⟩
  | _ => exact ⟨rfl, rfl, List.prefix_rfl⟩

theorem continues_step (setup : Setup) (d : Directive) (p : Performance α) :
    p.chain.Continues (p.step setup d).chain := by
  cases time : d.takesTime with
  | false =>
    obtain ⟨-, -, added, same⟩ : _ ∧ _ ∧ p.chain <+: (p.step setup d).chain :=
      step_of_not_takesTime time
    rw [← same]
    exact Chain.continues_append p.chain added
  | true =>
    cases d with
    | note pitch length => exact continues_passage setup (.note pitch length) p
    | rest length => exact continues_passage setup (.rest length) p
    | _ => cases time

/-- What playing the directive `d` may change of `p`, with the outcome `q`. -/
structure Frame (setup : Setup) (d : Directive) (p q : Performance α) : Prop where
  /-- The timeline is changed by writes, and these are at the cursor or behind it. -/
  timeline : q.timeline = p.timeline.overlayAll (p.writesOf setup d)
  cursor_le_write : ∀ write ∈ p.writesOf setup d, p.cursor ≤ write.1
  /-- Only notes and rests write, are heard by the effects or touch the generator. -/
  still : d.takesTime = false →
    p.writesOf setup d = [] ∧ q.noise = p.noise ∧ p.chain <+: q.chain
  size_le : p.timeline.size ≤ q.timeline.size
  /-- The cursor goes back for a further voice only, and that writes nothing. -/
  cursor_le : d ≠ .voiceReset → p.cursor ≤ q.cursor
  rewinds : d = .voiceReset → q.cursor = 0 ∧ q.timeline = p.timeline
  /-- Stages stay in their order, with their parameters. -/
  continues : p.chain.Continues q.chain
  prefix_unheard : p.chain.map Effect.unheard <+: q.chain.map Effect.unheard

/-- **Every directive keeps to its frame.** -/
theorem frame_step (counted : p.cursor ≤ maxCount) (setup : Setup) (d : Directive) :
    p.Frame setup d (p.step setup d) where
  timeline := timeline_step setup d p
  cursor_le_write _ h := Timeline.le_of_mem_placed h
  still := step_of_not_takesTime
  size_le := size_le_play setup d p
  cursor_le hd := cursor_le_play hd counted
  rewinds hd := by subst hd; exact ⟨rfl, rfl⟩
  continues := continues_step setup d p
  prefix_unheard := (continues_step setup d p).prefix_unheard

/-- A directive leaves what is before the cursor. -/
theorem getElem?_step_of_lt (h : p.WithinLimit setup) (d : Directive) {i : Nat}
    (hi : i < p.cursor) : (p.step setup d).timeline.samples[i]? = p.timeline.samples[i]? := by
  show (p.play setup d).timeline.samples[i]? = _
  rw [timeline_play]
  by_cases room : 0 < setup.budget p.cursor
  · exact Timeline.getElem?_overlayFrom_of_lt hi (Nat.lt_of_lt_of_le hi (h.cursor_le room)) _
  · -- Past the limit the timeline may end before the cursor, but nothing is written there.
    have nothing : (p.passage setup d).samples.toList = [] := by
      rw [← List.length_eq_zero_iff, Array.length_toList, size_passage]
      omega
    rw [nothing, Timeline.overlayFrom]

/-! ## Stretches of a run -/

/-- `p` comes to `q` without a further voice: by playing directives, at the limit and past it as
well. -/
def Stretch (setup : Setup) (score : List Directive) : Performance α → Performance α → Prop :=
  Relation.ReflTransGen fun p q =>
    ∃ d, score[p.place.index]? = some d ∧ d ≠ .voiceReset ∧ q = p.step setup d

theorem Stretch.reached (h : p.Stretch setup score q) : p.Reached setup score q :=
  Relation.ReflTransGen.mono (fun _ _ ⟨d, hd, _, next⟩ => ⟨d, hd, next⟩) p q h

/-- Where the cursor is a count it stays one. -/
theorem Reached.cursor_le_maxCount (h : p.Reached setup score q) (hp : p.cursor ≤ maxCount) :
    q.cursor ≤ maxCount :=
  h.invariant (I := fun q => q.cursor ≤ maxCount)
    (fun d q _ counted => cursor_play_le_maxCount setup d q counted) hp

/-- Wherever a piece comes to, its effects are those that it had, and further ones. -/
theorem Reached.continues (h : p.Reached setup score q) : p.chain.Continues q.chain := by
  induction h with
  | refl => exact .refl p.chain
  | tail _ next ih =>
    obtain ⟨d, -, rfl⟩ := next
    exact ih.trans (continues_step setup d _)

/-- **A stretch leaves what is before the cursor at its start**, and the cursor does not go back. -/
theorem Stretch.leaves (h : p.Stretch setup score q) (within : p.WithinLimit setup)
    (counted : p.cursor ≤ maxCount) :
    p.cursor ≤ q.cursor ∧ ∀ i < p.cursor, q.timeline.samples[i]? = p.timeline.samples[i]? := by
  induction h with
  | refl => exact ⟨Nat.le_refl _, fun _ _ => rfl⟩
  | tail before next ih =>
    obtain ⟨d, -, onward, rfl⟩ := next
    obtain ⟨cursor_le, same⟩ := ih
    have reached := Stretch.reached before
    refine ⟨Nat.le_trans cursor_le (cursor_le_play onward (reached.cursor_le_maxCount counted)), ?_⟩
    intro i hi
    rw [getElem?_step_of_lt (reached.keeps_withinLimit within) d (Nat.lt_of_lt_of_le hi cursor_le),
      same i hi]

/-- **Between voices, all that is before the cursor is final.** Wherever a piece comes to, at the
limit and past it as well, a directive changes the timeline by writes at the cursor or behind it,
and only notes and rests do so, are heard by the effects or touch the generator; the timeline never
shrinks, the cursor goes back for a further voice only, and all effects stay, to the end of the
piece. So a part of a run without a further voice leaves every sample before the cursor at its
start, whatever it repeats. -/
theorem finality {noise : Noise} (h : (start noise).Reached setup score p) :
    (∀ d, score[p.place.index]? = some d → p.Frame setup d (p.step setup d)) ∧
      (∀ q, p.Reached setup score q → p.chain.Continues q.chain) ∧
      ∀ q, p.Stretch setup score q →
        p.cursor ≤ q.cursor ∧ ∀ i < p.cursor, q.timeline.samples[i]? = p.timeline.samples[i]? := by
  have counted : p.cursor ≤ maxCount := h.cursor_le_maxCount (Nat.zero_le _)
  have within := h.keeps_withinLimit (withinLimit_start setup noise)
  exact ⟨fun d _ => frame_step counted setup d, fun _ reached => reached.continues,
    fun _ stretch => stretch.leaves within counted⟩

/-- It holds of a rest in a repeat that is played again. -/
theorem finality_repeatedRest :
    let setup : Setup := ⟨8, some 5⟩
    let score : List Directive := [.repeatStart, .rest none, .repeatEnd (some 2), .voiceReset]
    let p : Performance Float :=
      ((start (.ofSeed 0)).step setup .repeatStart).step setup (.rest none)
    let q := (p.step setup (.repeatEnd (some 2))).step setup (.rest none)
    (start (.ofSeed 0)).Reached setup score p ∧ p.Stretch setup score q ∧ p.cursor = 2 ∧
      q.place.index = p.place.index ∧ p.cursor ≤ q.cursor ∧
      ∀ i < p.cursor, q.timeline.samples[i]? = p.timeline.samples[i]? := by
  intro setup score p q
  have reached : (start (.ofSeed 0)).Reached setup score p :=
    .tail (.single ⟨.repeatStart, rfl, rfl⟩) ⟨.rest none, rfl, rfl⟩
  have stretch : p.Stretch setup score q :=
    .tail (.single ⟨.repeatEnd (some 2), rfl, by decide, rfl⟩) ⟨.rest none, rfl, by decide, rfl⟩
  obtain ⟨-, -, leaves⟩ := finality reached
  obtain ⟨onward, same⟩ := leaves q stretch
  exact ⟨reached, stretch, by decide +kernel, rfl, onward, same⟩

end Performance

end Chiptune
