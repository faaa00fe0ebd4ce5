import Chiptune.Performance.Basic

/-!
# What a directive writes

The passage of a directive in samples, and what playing it makes of timeline and cursor. Later
modules use these and do not unfold `Performance.play`.

* `Note.play_succ`, `Passage.silence_succ`: one sample of a note or of silence, and then the rest.
* `Note.prefix_play_of_le`: a note that is cut short is the beginning of the note.
* `size_passage`: notes and rests write as many samples as they have (`extent`), as far as the
  limit allows (`Setup.budget`); other directives write nothing.
* `forall_play`: what every sample keeps of a stage, and every added stage has, all stages have.
* `timeline_play`, `size_timeline_play`: the passage is added at the cursor.
* `cursor_play`: the cursor goes on by whole notes and rests, but not past the samples that are
  written without a limit (`cursor_play_le`).
-/

namespace Chiptune

/-- Scalars whose counts stay within `maxCount`. -/
class Scalar.Counts (α : Type) [Scalar α] : Prop where
  toCount_le : ∀ x : α, Scalar.toCount x ≤ maxCount

instance : Scalar.Counts Float where
  toCount_le x := Nat.le_of_lt_succ x.toUInt64.toNat_lt

theorem Contour.total_le {α : Type} (c : Contour α) : c.total ≤ maxCount := Nat.min_le_right ..

/-! ## Sample by sample -/

/-- The passage with one sample more. -/
def Passage.add {α : Type} (x : α) (chain : Chain α) (noise : Noise) (passage : Passage α) :
    Passage α :=
  ⟨passage.samples.push x, chain, noise⟩

theorem Passage.size_add {α : Type} (x : α) (chain : Chain α) (noise : Noise)
    (passage : Passage α) :
    (passage.add x chain noise).samples.size = passage.samples.size + 1 :=
  Array.size_push ..

theorem Passage.toList_add {α : Type} (x : α) (chain : Chain α) (noise : Noise)
    (passage : Passage α) :
    (passage.add x chain noise).samples.toList = passage.samples.toList ++ [x] :=
  Array.toList_push ..

theorem Passage.silence_succ {α : Type} [Scalar α] (volume : α) (n : Nat) (passage : Passage α) :
    passage.silence volume (n + 1)
      = (passage.add ((passage.chain.apply 0).1 * volume) (passage.chain.apply 0).2
          passage.noise).silence volume n := rfl

/-- Silence adds to what has been written. -/
theorem Passage.prefix_silence {α : Type} [Scalar α] (volume : α) (n : Nat)
    (passage : Passage α) :
    passage.samples.toList <+: (passage.silence volume n).samples.toList := by
  induction n generalizing passage with
  | zero => exact List.prefix_rfl
  | succ n ih =>
    have one := List.prefix_append passage.samples.toList
      [(passage.chain.apply 0).1 * volume]
    rw [← Passage.toList_add _ (passage.chain.apply 0).2 passage.noise] at one
    exact one.trans (ih _)

/-- A rest that is cut short is the beginning of the rest. -/
theorem Passage.prefix_silence_of_le {α : Type} [Scalar α] (volume : α) {m n : Nat} (h : m ≤ n)
    (passage : Passage α) :
    (passage.silence volume m).samples.toList <+: (passage.silence volume n).samples.toList := by
  induction m generalizing n passage with
  | zero => exact Passage.prefix_silence volume n passage
  | succ m ih =>
    obtain ⟨n, rfl⟩ := Nat.exists_eq_add_of_lt h
    exact ih (Nat.le_add_right m n) _

theorem Passage.length_chain_silence {α : Type} [Scalar α] (volume : α) (n : Nat)
    (passage : Passage α) : (passage.silence volume n).chain.length = passage.chain.length := by
  induction n generalizing passage with
  | zero => rfl
  | succ n ih =>
    rw [silence_succ, ih]
    exact Chain.length_apply _ _

namespace Note

variable {α : Type} [Scalar α]

/-- The passage after sample `i` of a note. -/
def sound (note : Note α) (i : Nat) (passage : Passage α) : Passage α :=
  let (x, noise) := note.dry i passage.noise
  let (wet, chain) := passage.chain.apply x
  passage.add wet chain noise

/-- How loud sample `i` of a note leaves the effects. -/
def wet (note : Note α) (i : Nat) (passage : Passage α) : α :=
  (passage.chain.apply (note.dry i passage.noise).1).1

theorem play_succ (note : Note α) (n i : Nat) (passage : Passage α) :
    note.play (n + 1) i passage
      = if note.gateCloses i (note.wet i passage) then
          (note.sound i passage).silence note.volume n
        else note.play n (i + 1) (note.sound i passage) := rfl

/-- A note adds to what has been written. -/
theorem prefix_play (note : Note α) (n i : Nat) (passage : Passage α) :
    passage.samples.toList <+: (note.play n i passage).samples.toList := by
  induction n generalizing i passage with
  | zero => exact List.prefix_rfl
  | succ n ih =>
    have one : passage.samples.toList <+: (note.sound i passage).samples.toList := by
      rw [sound, Passage.toList_add]
      exact List.prefix_append ..
    rw [play_succ]
    split
    · exact one.trans (Passage.prefix_silence ..)
    · exact one.trans (ih ..)

/-- A note that is cut short is the beginning of the note: the gate looks at the whole note, not
at what may be written of it. -/
theorem prefix_play_of_le (note : Note α) {m n : Nat} (h : m ≤ n) (i : Nat)
    (passage : Passage α) :
    (note.play m i passage).samples.toList <+: (note.play n i passage).samples.toList := by
  induction m generalizing n i passage with
  | zero => exact prefix_play note n i passage
  | succ m ih =>
    obtain ⟨n, rfl⟩ := Nat.exists_eq_add_of_lt h
    rw [play_succ, play_succ]
    split
    · exact Passage.prefix_silence_of_le _ (Nat.le_add_right m n) _
    · exact ih (Nat.le_add_right m n) _ _

theorem length_chain_play (note : Note α) (n i : Nat) (passage : Passage α) :
    (note.play n i passage).chain.length = passage.chain.length := by
  induction n generalizing i passage with
  | zero => rfl
  | succ n ih =>
    have sound : (note.sound i passage).chain.length = passage.chain.length :=
      Chain.length_apply _ _
    rw [play_succ]
    split
    · rw [Passage.length_chain_silence, sound]
    · rw [ih, sound]

end Note

/-! ## What every sample keeps of a stage -/

section

variable {α : Type} [Scalar α] {P : Effect α → Prop}
  (keep : ∀ effect x, P effect → P (effect.apply x).2)

include keep

theorem Chain.forall_apply {chain : Chain α} (h : ∀ effect ∈ chain, P effect) (x : α) :
    ∀ effect ∈ (chain.apply x).2, P effect := by
  induction chain generalizing x with
  | nil => exact h
  | cons first others ih =>
    obtain ⟨hf, ho⟩ := List.forall_mem_cons.mp h
    exact List.forall_mem_cons.mpr ⟨keep _ _ hf, ih ho _⟩

theorem Passage.forall_silence {passage : Passage α} (h : ∀ effect ∈ passage.chain, P effect)
    (volume : α) (n : Nat) : ∀ effect ∈ (passage.silence volume n).chain, P effect := by
  induction n generalizing passage with
  | zero => exact h
  | succ n ih => exact ih (Chain.forall_apply keep h 0)

theorem Note.forall_play (note : Note α) {passage : Passage α}
    (h : ∀ effect ∈ passage.chain, P effect) (n i : Nat) :
    ∀ effect ∈ (note.play n i passage).chain, P effect := by
  induction n generalizing i passage with
  | zero => exact h
  | succ n ih =>
    have next : ∀ effect ∈ (note.sound i passage).chain, P effect := Chain.forall_apply keep h _
    rw [play_succ]
    split
    · exact Passage.forall_silence keep next _ _
    · exact ih next _

end

/-! ## Directives -/

namespace Performance

variable {α : Type} [Scalar α] (setup : Setup) (d : Directive) (p : Performance α)

/-- How many samples a directive writes where the limit is far. -/
def extent : Nat :=
  match d with
  | .note pitch length => (p.noteOf setup pitch length).contour.total
  | .rest length => p.duration setup length
  | _ => 0

/-- **A passage has the extent of its directive, cut to the budget.** -/
@[simp] theorem size_passage :
    (p.passage setup d).samples.size = min (p.extent setup d) (setup.budget p.cursor) := by
  cases d <;> simp [passage, extent]

/-- What is written goes through the effects and leaves as many. -/
theorem length_chain_passage : (p.passage setup d).chain.length = p.chain.length := by
  cases d with
  | note pitch length => exact Note.length_chain_play _ _ _ _
  | rest length => exact Passage.length_chain_silence _ _ _
  | _ => rfl

/-- What every sample keeps of a stage, what is written leaves. -/
theorem forall_passage {P : Effect α → Prop}
    (keep : ∀ effect x, P effect → P (effect.apply x).2) (h : ∀ effect ∈ p.chain, P effect) :
    ∀ effect ∈ (p.passage setup d).chain, P effect := by
  cases d with
  | note pitch length => exact Note.forall_play keep _ h _ _
  | rest length => exact Passage.forall_silence keep h _ _
  | _ => exact h

/-- **What every sample keeps of a stage holds of all stages**, if it holds of those that the
notation adds. -/
theorem forall_play {P : Effect α → Prop} (keep : ∀ effect x, P effect → P (effect.apply x).2)
    (add : ∀ (letter : Char) (params : List Decimal) (effect : Effect α),
      Effect.ofLetter? letter (params.map Scalar.ofDecimal) setup.rate = some effect → P effect)
    (h : ∀ effect ∈ p.chain, P effect) : ∀ effect ∈ (p.play setup d).chain, P effect := by
  cases d with
  | note pitch length => exact forall_passage setup (.note pitch length) p keep h
  | rest length => exact forall_passage setup (.rest length) p keep h
  | effect letter params =>
    simp only [play, addEffect]
    split
    · rename_i effect added
      have new := add letter params effect added
      exact List.forall_mem_append.mpr ⟨h, List.forall_mem_singleton.mpr new⟩
    · exact h
  | _ => exact h

/-- An effect that is added changes nothing but the chain. -/
theorem addEffect_eq (letter : Char) (params : List Decimal) :
    ∃ chain, p.addEffect setup letter params = { p with chain } := by
  unfold addEffect
  split
  · exact ⟨_, rfl⟩
  · exact ⟨p.chain, rfl⟩

/-- Only notes and rests do more than change a setting or add an effect. -/
theorem settings_play : (p.play setup d).settings = p.settings.apply d := by
  cases d with
  | effect letter params =>
    obtain ⟨chain, same⟩ := addEffect_eq setup p letter params
    rw [play, same]
    rfl
  | _ => rfl

theorem timeline_play :
    (p.play setup d).timeline
      = p.timeline.overlayFrom p.cursor (p.passage setup d).samples.toList := by
  cases d with
  | effect letter params =>
    obtain ⟨chain, same⟩ := addEffect_eq setup p letter params
    rw [play, same]
    rfl
  | _ => rfl

theorem size_timeline_play :
    (p.play setup d).timeline.size
      = if min (p.extent setup d) (setup.budget p.cursor) = 0 then p.timeline.size
        else max p.timeline.size (p.cursor + min (p.extent setup d) (setup.budget p.cursor)) := by
  rw [timeline_play]
  split
  · rename_i h
    have none : (p.passage setup d).samples.toList = [] := by
      rw [← List.length_eq_zero_iff, Array.length_toList, size_passage, h]
    rw [none, Timeline.overlayFrom]
  · rename_i h
    have some : (p.passage setup d).samples.toList ≠ [] := by
      rw [← List.length_pos_iff, Array.length_toList, size_passage]
      omega
    rw [Timeline.size_overlayFrom _ _ some, Array.length_toList, size_passage]

/-- The timeline never shrinks. -/
theorem size_le_play : p.timeline.size ≤ (p.play setup d).timeline.size := by
  rw [size_timeline_play]; split <;> omega

/-- Notes and rests move the cursor by their length, whatever is written of them. -/
theorem cursor_play :
    (p.play setup d).cursor
      = match d with
        | .note _ length | .rest length => min (p.cursor + p.duration setup length) maxCount
        | .voiceReset => 0
        | _ => p.cursor := by
  cases d with
  | effect letter params =>
    obtain ⟨chain, same⟩ := addEffect_eq setup p letter params
    rw [play, same]
  | _ => rfl

theorem cursor_play_le :
    (p.play setup d).cursor ≤ p.cursor + min (p.extent setup d) maxCount := by
  rw [cursor_play]
  cases d with
  | note pitch length =>
    have : (p.noteOf setup pitch length).contour.length = p.duration setup length := rfl
    simp only [extent, Contour.total]
    omega
  | rest length =>
    simp only [extent]
    omega
  | voiceReset => exact Nat.zero_le _
  | _ => exact Nat.le_add_right ..

/-- Where the cursor is a count it stays one. -/
theorem cursor_play_le_maxCount (h : p.cursor ≤ maxCount) :
    (p.play setup d).cursor ≤ maxCount := by
  rw [cursor_play]
  cases d with
  | note | rest => exact Nat.min_le_right ..
  | voiceReset => exact Nat.zero_le _
  | _ => exact h

/-- Within counts the extent of a directive is a count. -/
theorem extent_le [Scalar.Counts α] : p.extent setup d ≤ maxCount := by
  cases d with
  | note pitch length => exact Contour.total_le _
  | rest length => exact Scalar.Counts.toCount_le _
  | _ => exact Nat.zero_le _

end Performance

end Chiptune
