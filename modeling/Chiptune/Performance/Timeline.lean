import Chiptune.Scalar

/-!
# Timelines

A timeline holds the samples of a piece. Voices that begin again at its start write over the
same positions, so a write adds to what is there already. A timeline only grows.
-/

namespace Chiptune

/-- The samples written so far. -/
structure Timeline (α : Type) where
  samples : Array α

namespace Timeline

variable {α : Type}

/-- No samples. -/
def empty : Timeline α := ⟨#[]⟩

/-- How many samples there are. -/
def size (t : Timeline α) : Nat := t.samples.size

@[simp] theorem size_empty : (empty : Timeline α).size = 0 := rfl

variable [Scalar α]

/-- Adds `value` at `index`. Positions before it that do not exist yet become silent. -/
def overlay (t : Timeline α) (index : Nat) (value : α) : Timeline α :=
  if h : index < t.samples.size then ⟨t.samples.set index (t.samples[index] + value)⟩
  else ⟨(t.samples ++ Array.replicate (index - t.samples.size) 0).push value⟩

/-- A write makes the timeline just long enough. -/
@[simp] theorem size_overlay (t : Timeline α) (index : Nat) (value : α) :
    (t.overlay index value).size = max t.size (index + 1) := by
  unfold overlay size
  split
  · simp only [Array.size_set]; omega
  · simp only [Array.size_push, Array.size_append, Array.size_replicate]; omega

/-- Adds values one after the other from `index` on. -/
def overlayFrom (t : Timeline α) (index : Nat) : List α → Timeline α
  | [] => t
  | value :: values => overlayFrom (t.overlay index value) (index + 1) values

/-- Writes without a gap make the timeline as long as the last of them needs. -/
theorem size_overlayFrom (t : Timeline α) (index : Nat) {values : List α} (h : values ≠ []) :
    (t.overlayFrom index values).size = max t.size (index + values.length) := by
  induction values generalizing t index with
  | nil => exact absurd rfl h
  | cons value values ih =>
    cases values with
    | nil => simp [overlayFrom]
    | cons next values =>
      rw [overlayFrom, ih _ _ (by simp), size_overlay]
      simp only [List.length_cons]
      omega

/-- The timeline that a sequence of writes leaves, each an index and a value. -/
def ofWrites (writes : List (Nat × α)) : Timeline α :=
  writes.foldl (fun t (index, value) => t.overlay index value) empty

end Timeline

end Chiptune
