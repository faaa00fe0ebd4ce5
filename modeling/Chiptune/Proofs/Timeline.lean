import Chiptune.Performance.Timeline

/-!
# Positions of a timeline

What writes make of a single position.

* `getElem?_overlay`: a write adds to what stands at its index (`mix`), and the positions before
  it exist afterwards. All others stay as they are.
* `getElem?_overlayFrom_of_lt`: what stands before a passage stays.
-/

namespace Chiptune.Timeline

variable {α : Type} [Scalar α]

theorem overlayFrom_append (t : Timeline α) (index : Nat) (xs ys : List α) :
    t.overlayFrom index (xs ++ ys)
      = (t.overlayFrom index xs).overlayFrom (index + xs.length) ys := by
  induction xs generalizing t index with
  | nil => rfl
  | cons x xs ih =>
    rw [List.cons_append, overlayFrom, ih, overlayFrom, List.length_cons, Nat.add_assoc,
      Nat.add_comm 1]

/-- A sample more in a passage is a write more behind it. -/
theorem overlayFrom_push (t : Timeline α) (cursor : Nat) (xs : Array α) (x : α) :
    t.overlayFrom cursor (xs.push x).toList
      = (t.overlayFrom cursor xs.toList).overlay (cursor + xs.size) x := by
  rw [Array.toList_push, overlayFrom_append, Array.length_toList]
  rfl

/-- The sample at a position after a write to it: the sum with what stood there, or the value
alone where nothing did. -/
def mix (old : Option α) (value : α) : α := old.elim value (· + value)

/-- **What a write makes of each position.** -/
theorem getElem?_overlay (t : Timeline α) (index : Nat) (value : α) (i : Nat) :
    (t.overlay index value).samples[i]?
      = if i = index then some (mix t.samples[i]? value)
        else if i < index then some (t.samples[i]?.getD 0)
        else t.samples[i]? := by
  unfold overlay
  split
  · rename_i inside
    rw [Array.getElem?_set]
    by_cases here : i = index
    · subst here
      simp [mix, inside]
    · by_cases before : i < index
      · have old : i < t.samples.size := Nat.lt_trans before inside
        simp [here, Ne.symm here, before, old]
      · simp [here, Ne.symm here, before]
  · rename_i outside
    have filled : (t.samples ++ Array.replicate (index - t.samples.size) 0).size = index := by
      rw [Array.size_append, Array.size_replicate]; omega
    rw [Array.getElem?_push, filled]
    by_cases here : i = index
    · subst here
      have absent : t.samples[i]? = none := Array.getElem?_eq_none (Nat.le_of_not_lt outside)
      simp [mix, absent]
    · rw [if_neg here, if_neg here, Array.getElem?_append, Array.getElem?_replicate]
      by_cases old : i < t.samples.size
      · have before : i < index := by omega
        simp [old, before]
      · have absent : t.samples[i]? = none := Array.getElem?_eq_none (Nat.le_of_not_lt old)
        rw [if_neg old, absent]
        by_cases before : i < index
        · rw [if_pos (by omega), if_pos before]; rfl
        · rw [if_neg (by omega), if_neg before]

/-- A write leaves what stands before it. -/
theorem getElem?_overlay_of_lt {t : Timeline α} {index i : Nat} (hi : i < index)
    (hs : i < t.size) (value : α) : (t.overlay index value).samples[i]? = t.samples[i]? := by
  have old : i < t.samples.size := hs
  rw [getElem?_overlay, if_neg (Nat.ne_of_lt hi), if_pos hi, Array.getElem?_eq_getElem old,
    Option.getD_some]

theorem getElem?_overlayFrom_of_lt {t : Timeline α} {index i : Nat} (hi : i < index)
    (hs : i < t.size) (values : List α) :
    (t.overlayFrom index values).samples[i]? = t.samples[i]? := by
  induction values generalizing t index with
  | nil => rfl
  | cons value values ih =>
    have grown : i < (t.overlay index value).size := by rw [size_overlay]; omega
    rw [overlayFrom, ih (Nat.lt_succ_of_lt hi) grown, getElem?_overlay_of_lt hi hs]

end Chiptune.Timeline
