import Chiptune.Proofs.Exact
import Chiptune.Proofs.Writes

/-!
# The sum of all writes

What any sequence of writes makes of an empty timeline: with indexes in any order, several writes
to one position, and gaps.

* `Timeline.getElem?_overlayAll_eq`: each position sees the writes one by one (`Timeline.after`).
* `Timeline.size_ofWrites`: the timeline is as long as the largest index needs.
* `Timeline.getElem?_ofWrites`: a sample is the sum of its values from left to right, which begins
  with silence where a later position was written to before (`Timeline.silentFirst`).
* `Timeline.ofWrites_perm`: in exact arithmetic the order of the writes does not matter.
-/

namespace Chiptune

/-- Scalars that add without rounding. -/
class Scalar.AddsExactly (α : Type) [Scalar α] : Prop where
  zero_add : ∀ x : α, 0 + x = x
  add_comm : ∀ x y : α, x + y = y + x
  add_right_comm : ∀ x y z : α, x + y + z = x + z + y

open Exact in
instance : Scalar.AddsExactly ℝ where
  zero_add x := (congrArg (· + x) zero_eq).trans (zero_add x)
  add_comm := add_comm
  add_right_comm := add_right_comm

namespace Timeline

variable {α : Type}

/-! ## What is written at a position -/

/-- The values that are written at `i`, in order. -/
def valuesAt (i : Nat) (writes : List (Nat × α)) : List α :=
  (writes.filter (·.1 = i)).map (·.2)

/-- Whether a later position is written to before `i` is. -/
def silentFirst (i : Nat) (writes : List (Nat × α)) : Bool :=
  (writes.takeWhile (·.1 ≠ i)).any (i < ·.1)

theorem valuesAt_cons (i index : Nat) (value : α) (writes : List (Nat × α)) :
    valuesAt i ((index, value) :: writes)
      = if index = i then value :: valuesAt i writes else valuesAt i writes := by
  by_cases here : index = i <;> simp [valuesAt, here]

theorem silentFirst_cons (i index : Nat) (value : α) (writes : List (Nat × α)) :
    silentFirst i ((index, value) :: writes)
      = if index = i then false else decide (i < index) || silentFirst i writes := by
  by_cases here : index = i <;> simp [silentFirst, here]

/-- Timelines with the same samples are the same. -/
theorem ext_getElem? {t u : Timeline α} (h : ∀ i : Nat, t.samples[i]? = u.samples[i]?) :
    t = u := by
  obtain ⟨samples⟩ := t
  exact congrArg mk (Array.ext_getElem? h)

variable [Scalar α]

/-- The sum of values from left to right, beginning with the first; no values have none. -/
def sum? : List α → Option α
  | [] => none
  | value :: values => some (values.foldl (· + ·) value)

/-! ## Position by position -/

/-- What a write makes of the sample at position `i`, if that exists. -/
def after (i : Nat) (old : Option α) (write : Nat × α) : Option α :=
  if i = write.1 then some (mix old write.2)
  else if i < write.1 then some (old.getD 0)
  else old

section After

variable {i index : Nat}

theorem after_self (i : Nat) (old : Option α) (value : α) :
    after i old (i, value) = some (mix old value) := if_pos rfl

theorem after_of_lt (h : i < index) (old : Option α) (value : α) :
    after i old (index, value) = some (old.getD 0) := by
  rw [after, if_neg (Nat.ne_of_lt h), if_pos h]

theorem after_of_gt (h : index < i) (old : Option α) (value : α) :
    after i old (index, value) = old := by
  rw [after, if_neg (Nat.ne_of_gt h), if_neg (Nat.not_lt_of_gt h)]

end After

theorem getElem?_overlayAll_eq (t : Timeline α) (writes : List (Nat × α)) (i : Nat) :
    (t.overlayAll writes).samples[i]? = writes.foldl (after i) t.samples[i]? := by
  induction writes generalizing t with
  | nil => rfl
  | cons write writes ih =>
    obtain ⟨index, value⟩ := write
    rw [overlayAll_cons, ih, getElem?_overlay, List.foldl_cons]
    rfl

/-- A sample that exists is added to, and nothing else happens to it. -/
theorem foldl_after_some (i : Nat) (old : α) (writes : List (Nat × α)) :
    writes.foldl (after i) (some old) = some ((valuesAt i writes).foldl (· + ·) old) := by
  induction writes generalizing old with
  | nil => rfl
  | cons write writes ih =>
    obtain ⟨index, value⟩ := write
    rw [List.foldl_cons, valuesAt_cons]
    rcases Nat.lt_trichotomy i index with before | rfl | behind
    · rw [after_of_lt before, if_neg (Nat.ne_of_gt before), Option.getD_some, ih]
    · rw [after_self, if_pos rfl, ih, List.foldl_cons]
      rfl
    · rw [after_of_gt behind, if_neg (Nat.ne_of_lt behind), ih]

/-- A sample that does not exist yet is made by the first write that reaches it: as silence by one
behind it, as the value by one at it. -/
theorem foldl_after_none (i : Nat) (writes : List (Nat × α)) :
    writes.foldl (after i) none
      = if silentFirst i writes then some ((valuesAt i writes).foldl (· + ·) 0)
        else sum? (valuesAt i writes) := by
  induction writes with
  | nil => rfl
  | cons write writes ih =>
    obtain ⟨index, value⟩ := write
    rw [List.foldl_cons, valuesAt_cons, silentFirst_cons]
    rcases Nat.lt_trichotomy i index with before | rfl | behind
    · rw [after_of_lt before, foldl_after_some]
      simp [before, Nat.ne_of_gt before]
    · rw [after_self, foldl_after_some]
      simp [sum?, mix]
    · rw [after_of_gt behind, ih]
      simp [Nat.ne_of_lt behind, Nat.not_lt_of_gt behind]

/-- **A sample is the ordered sum of what is written at its position.** -/
theorem getElem?_ofWrites (writes : List (Nat × α)) (i : Nat) :
    (ofWrites writes).samples[i]?
      = if silentFirst i writes then some ((valuesAt i writes).foldl (· + ·) 0)
        else sum? (valuesAt i writes) := by
  rw [← foldl_after_none]
  exact getElem?_overlayAll_eq empty writes i

/-! ## The length -/

theorem size_ofWrites_cons (index : Nat) (value : α) (writes : List (Nat × α)) :
    (ofWrites ((index, value) :: writes)).size = max (index + 1) (ofWrites writes).size := by
  have grown := size_overlayAll (empty.overlay index value) writes
  rw [size_overlay, size_empty, Nat.zero_max] at grown
  exact grown

/-- A timeline ends behind its largest index. -/
theorem size_ofWrites (writes : List (Nat × α)) :
    (ofWrites writes).size = ((writes.map (·.1)).max?).elim 0 (· + 1) := by
  induction writes with
  | nil => rfl
  | cons write writes ih =>
    obtain ⟨index, value⟩ := write
    rw [size_ofWrites_cons, ih, List.map_cons, List.max?_cons]
    cases (writes.map (·.1)).max? with
    | none => exact Nat.max_zero _
    | some largest => exact Nat.add_max_add_right index largest 1

/-! ## The order of writes -/

section Exchange

variable [Scalar.AddsExactly α]

open Scalar.AddsExactly

/-- Silence and then a value is the value alone. -/
theorem mix_silence (old : Option α) (x : α) : mix (some (old.getD 0)) x = mix old x := by
  cases old with
  | none => exact zero_add x
  | some y => rfl

theorem mix_comm (old : Option α) (x y : α) :
    mix (some (mix old x)) y = mix (some (mix old y)) x := by
  cases old with
  | none => exact add_comm x y
  | some z => exact add_right_comm z x y

theorem after_comm (i : Nat) (old : Option α) (v w : Nat × α) :
    after i (after i old v) w = after i (after i old w) v := by
  obtain ⟨j, x⟩ := v
  obtain ⟨k, y⟩ := w
  rcases Nat.lt_trichotomy i j with hj | rfl | hj <;>
    rcases Nat.lt_trichotomy i k with hk | rfl | hk <;>
    simp [after_self, after_of_lt, after_of_gt, mix_silence, mix_comm old x y, *]

/-- Two writes can be exchanged. -/
theorem overlay_comm (t : Timeline α) (v w : Nat × α) :
    (t.overlay v.1 v.2).overlay w.1 w.2 = (t.overlay w.1 w.2).overlay v.1 v.2 := by
  have write (t : Timeline α) (v : Nat × α) (i : Nat) :
      (t.overlay v.1 v.2).samples[i]? = after i t.samples[i]? v := getElem?_overlay t v.1 v.2 i
  refine ext_getElem? fun i => ?_
  rw [write, write, write, write, after_comm]

/-- **Where nothing is rounded, the order of the writes does not matter.** -/
theorem ofWrites_perm {writes writes' : List (Nat × α)} (h : writes.Perm writes') :
    ofWrites writes = ofWrites writes' :=
  h.foldl_eq' (fun v _ w _ t => overlay_comm t v w) empty

end Exchange

open Exact in
/-- **A timeline is the ordered sum of its writes**, whatever their indexes are: it ends behind the
largest of them, and each sample is the sum of its values from left to right. The sum begins with
silence where a later position was written to first, and else with the first value. In exact
arithmetic every order of the writes gives the same timeline. -/
theorem ofWrites_eq_sum :
    (∀ writes : List (Nat × α),
      (ofWrites writes).size = ((writes.map (·.1)).max?).elim 0 (· + 1) ∧
        ∀ i, (ofWrites writes).samples[i]?
          = if silentFirst i writes then some ((valuesAt i writes).foldl (· + ·) 0)
            else sum? (valuesAt i writes)) ∧
    ∀ writes writes' : List (Nat × ℝ), writes.Perm writes' →
      ofWrites writes = ofWrites writes' :=
  ⟨fun writes => ⟨size_ofWrites writes, getElem?_ofWrites writes⟩, fun _ _ => ofWrites_perm⟩

open Exact in
/-- A gap, a write back into it and two writes to one position: the sum of large and small doubles
depends on their order, that of exact numbers does not. -/
theorem ofWrites_eq_sum_gap :
    let writes : List (Nat × Float) := [(2, 1), (0, 0.25), (2, 1e16), (2, -1e16)]
    let reals : List (Nat × ℝ) := [(2, 1), (2, 1e16), (2, -1e16)]
    (writes.map (·.1)).max? = some 2 ∧ (ofWrites writes).size = 3 ∧
      silentFirst 0 writes = true ∧ (ofWrites writes).samples[0]? = some (0 + 0.25) ∧
      (ofWrites writes).samples[2]? = some (1 + 1e16 + -1e16) ∧
      (1 + 1e16 + -1e16 : Float) = 0 ∧
      reals.Perm reals.reverse ∧ ofWrites reals = ofWrites reals.reverse := by
  intro writes reals
  have perm : reals.Perm reals.reverse := reals.reverse_perm.symm
  obtain ⟨size, samples⟩ := ofWrites_eq_sum.1 writes
  exact ⟨rfl, size, rfl, samples 0, samples 2, by decide +kernel, perm,
    (ofWrites_eq_sum (α := Float)).2 reals reals.reverse perm⟩

end Timeline

end Chiptune
