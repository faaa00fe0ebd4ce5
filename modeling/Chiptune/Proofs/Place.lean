import Chiptune.Performance.Place

/-!
# Places in a score

* `Place.Within`: a place stands in its score or behind the end of it, repeats were opened in the
  score, and a repeat that has met its end is to be played again. Every directive keeps this.
* `Place.shift`: the place in a score that has other directives before it. `Place.shift_advance`:
  the way through a score does not depend on what stands before it.
-/

namespace Chiptune.Place

/-- What a place of a score with `n` directives comes with. -/
structure Within (n : Nat) (p : Place) : Prop where
  index_le : p.index ≤ n
  start_lt : ∀ r ∈ p.repeats, r.start < n
  remaining_ne : ∀ r ∈ p.repeats, r.remaining ≠ some 0

theorem within_start (n : Nat) : start.Within n :=
  ⟨Nat.zero_le _, List.forall_mem_nil _, List.forall_mem_nil _⟩

/-- Every directive leads to a place within the score. -/
theorem Within.advance {n : Nat} {p : Place} (h : p.Within n) (hi : p.index < n)
    (d : Directive) : (p.advance d).Within n := by
  obtain ⟨index, repeats⟩ := p
  obtain ⟨-, start_lt, remaining_ne⟩ := h
  cases d with
  | repeatStart =>
    exact ⟨hi, List.forall_mem_cons.mpr ⟨hi, start_lt⟩,
      List.forall_mem_cons.mpr ⟨by simp, remaining_ne⟩⟩
  | repeatEnd count =>
    cases repeats with
    | nil => exact ⟨hi, start_lt, remaining_ne⟩
    | cons innermost outer =>
      obtain ⟨start, outer_lt⟩ := List.forall_mem_cons.mp start_lt
      obtain ⟨-, outer_ne⟩ := List.forall_mem_cons.mp remaining_ne
      simp only [Place.advance, closeRepeat]
      split
      · exact ⟨hi, outer_lt, outer_ne⟩
      · rename_i again
        exact ⟨start, List.forall_mem_cons.mpr ⟨start, outer_lt⟩,
          List.forall_mem_cons.mpr ⟨by simpa using again, outer_ne⟩⟩
  | _ => exact ⟨hi, start_lt, remaining_ne⟩

/-! ## Behind other directives -/

/-- The place with `k` further directives before the score. -/
def shift (k : Nat) (p : Place) : Place :=
  ⟨p.index + k, p.repeats.map fun r => ⟨r.start + k, r.remaining⟩⟩

theorem shift_closeRepeat (k : Nat) (count : Option Nat) (p : Place) :
    (p.shift k).closeRepeat count = (p.closeRepeat count).shift k := by
  obtain ⟨index, repeats⟩ := p
  have next : index + k + 1 = index + 1 + k := Nat.add_right_comm index k 1
  cases repeats with
  | nil => simp [shift, closeRepeat, next]
  | cons innermost outer =>
    have again : innermost.start + k + 1 = innermost.start + 1 + k := Nat.add_right_comm ..
    simp only [shift, closeRepeat, List.map_cons]
    split
    · rw [next]
    · rw [again, List.map_cons]

theorem shift_advance (k : Nat) (d : Directive) (p : Place) :
    (p.shift k).advance d = (p.advance d).shift k := by
  have next : p.index + k + 1 = p.index + 1 + k := Nat.add_right_comm p.index k 1
  cases d with
  | repeatEnd count => exact shift_closeRepeat k count p
  | _ => simp [shift, advance, next]

end Chiptune.Place
