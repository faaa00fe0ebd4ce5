import Chiptune.Proofs.Timeline
import Chiptune.Proofs.Passage

/-!
# What a run writes

A run as the list of what it does to its timeline, write by write.

* `Performance.played`: the directives that a run plays, each with the performance that plays it.
* `Performance.writes`: the positions and values that a run writes, in order.
* `Performance.timeline_run`: the timeline of a run is that of its writes.
* `Timeline.getElem?_overlayAll`: where writes leave no gap (`Timeline.Contiguous`), the sample at a
  position is the sum of all that is written there.
-/

namespace Chiptune

variable {α : Type}

namespace Timeline

/-- Values with their positions, from `index` on. -/
def placed {β : Type} (index : Nat) : List β → List (Nat × β)
  | [] => []
  | value :: values => (index, value) :: placed (index + 1) values

theorem placed_injective {β : Type} {index : Nat} {xs ys : List β}
    (h : placed index xs = placed index ys) : xs = ys := by
  induction xs generalizing index ys with
  | nil => cases ys <;> simp_all [placed]
  | cons x xs ih =>
    cases ys with
    | nil => simp [placed] at h
    | cons y ys =>
      simp only [placed, List.cons.injEq, Prod.mk.injEq, true_and] at h
      rw [h.1, ih h.2]

/-- Each of the writes is at a position that exists, where the first `size` exist, or at the next
one. -/
def Contiguous (size : Nat) : List (Nat × α) → Prop
  | [] => True
  | (index, _) :: writes => index ≤ size ∧ Contiguous (max size (index + 1)) writes

theorem Contiguous.mono {m n : Nat} {writes : List (Nat × α)} (h : Contiguous m writes)
    (le : m ≤ n) : Contiguous n writes := by
  induction writes generalizing m n with
  | nil => trivial
  | cons write writes ih => exact ⟨Nat.le_trans h.1 le, ih h.2 (by omega)⟩

theorem contiguous_placed {size index : Nat} (h : index ≤ size) (values : List α) :
    Contiguous size (placed index values) := by
  induction values generalizing size index with
  | nil => trivial
  | cons value values ih => exact ⟨h, ih (by omega)⟩

variable [Scalar α]

/-- The timeline after further writes, each an index and a value. -/
def overlayAll (t : Timeline α) (writes : List (Nat × α)) : Timeline α :=
  writes.foldl (fun t (index, value) => t.overlay index value) t

theorem overlayAll_cons (t : Timeline α) (index : Nat) (value : α) (writes : List (Nat × α)) :
    t.overlayAll ((index, value) :: writes) = (t.overlay index value).overlayAll writes := rfl

theorem overlayAll_append (t : Timeline α) (xs ys : List (Nat × α)) :
    t.overlayAll (xs ++ ys) = (t.overlayAll xs).overlayAll ys := List.foldl_append

theorem overlayAll_placed (t : Timeline α) (index : Nat) (values : List α) :
    t.overlayAll (placed index values) = t.overlayFrom index values := by
  induction values generalizing t index with
  | nil => rfl
  | cons value values ih => rw [placed, overlayAll_cons, ih, overlayFrom]

/-- Further writes make the timeline as long as they would make an empty one, or leave its size. -/
theorem size_overlayAll (t : Timeline α) (writes : List (Nat × α)) :
    (t.overlayAll writes).size = max t.size ((empty : Timeline α).overlayAll writes).size := by
  induction writes generalizing t with
  | nil => exact (Nat.max_zero t.size).symm
  | cons write writes ih =>
    obtain ⟨index, value⟩ := write
    rw [overlayAll_cons, overlayAll_cons, ih, ih (empty.overlay index value), size_overlay,
      size_overlay, size_empty]
    omega

theorem Contiguous.append {t : Timeline α} {xs ys : List (Nat × α)} (hx : Contiguous t.size xs)
    (hy : Contiguous (t.overlayAll xs).size ys) : Contiguous t.size (xs ++ ys) := by
  induction xs generalizing t with
  | nil => exact hy
  | cons x xs ih =>
    refine ⟨hx.1, ?_⟩
    rw [← size_overlay t x.1 x.2]
    refine ih ?_ hy
    rw [size_overlay]
    exact hx.2

/-- **The sample at a position is the sum of all that is written there**, in the order of the
writes. -/
theorem getElem?_overlayAll {t : Timeline α} {writes : List (Nat × α)}
    (h : Contiguous t.size writes) (i : Nat) :
    (t.overlayAll writes).samples[i]?
      = (writes.filter (·.1 = i)).foldl (fun old write => some (mix old write.2))
          t.samples[i]? := by
  induction writes generalizing t with
  | nil => rfl
  | cons write writes ih =>
    obtain ⟨index, value⟩ := write
    have others : Contiguous (t.overlay index value).size writes := by
      rw [size_overlay]
      exact h.2
    rw [overlayAll_cons, ih others, getElem?_overlay, List.filter_cons]
    by_cases here : index = i
    · simp [here]
    · by_cases before : i < index
      · have stands : i < t.samples.size := Nat.lt_of_lt_of_le before h.1
        simp [here, Ne.symm here, before, stands]
      · simp [here, Ne.symm here, before]

/-- Writes over other ones add to them, position by position. -/
theorem getElem?_overlayAll_append (xs : List (Nat × α)) {ys : List (Nat × α)}
    (hy : Contiguous 0 ys) {i : Nat} (once : ys.countP (·.1 = i) ≤ 1) :
    ((empty : Timeline α).overlayAll (xs ++ ys)).samples[i]?
      = Option.merge (· + ·) ((empty : Timeline α).overlayAll xs).samples[i]?
          ((empty : Timeline α).overlayAll ys).samples[i]? := by
  rw [overlayAll_append, getElem?_overlayAll (hy.mono (Nat.zero_le _)),
    getElem?_overlayAll (t := empty) hy]
  have absent : (empty : Timeline α).samples[i]? = none := rfl
  rw [List.countP_eq_length_filter] at once
  rw [absent]
  generalize ((empty : Timeline α).overlayAll xs).samples[i]? = old
  generalize ys.filter (·.1 = i) = here at once
  match here, once with
  | [], _ => cases old <;> rfl
  | [_], _ => cases old <;> rfl

end Timeline

namespace Performance

variable [Scalar α] {setup : Setup} {score : List Directive} {p : Performance α} {d : Directive}

/-- The directives that a run plays, each with the performance that plays it. -/
def played (setup : Setup) (score : List Directive) (p : Performance α) :
    List (Directive × Performance α) :=
  match _h : score[p.place.index]? with
  | none => []
  | some d =>
    if p.limitReached setup then [] else (d, p) :: played setup score (p.step setup d)
termination_by p.place.lanes (3 * score.length)
decreasing_by
  rw [place_step]
  exact Place.lanes_advance d p.place (List.getElem?_eq_some_iff.mp _h).1

theorem played_of_end (h : score[p.place.index]? = none) : p.played setup score = [] := by
  rw [played]; split <;> simp_all

theorem played_of_limitReached (h : p.limitReached setup = true) : p.played setup score = [] := by
  rw [played]; split <;> simp [h]

theorem played_of_step (hd : score[p.place.index]? = some d) (hl : p.limitReached setup = false) :
    p.played setup score = (d, p) :: (p.step setup d).played setup score := by
  rw [played]; split <;> simp_all

/-- The positions and values that a directive writes. -/
def writesOf (setup : Setup) (d : Directive) (p : Performance α) : List (Nat × α) :=
  Timeline.placed p.cursor (p.passage setup d).samples.toList

/-- The positions and values that a run writes, in order. -/
def writes (setup : Setup) (score : List Directive) (p : Performance α) : List (Nat × α) :=
  (p.played setup score).flatMap fun (d, q) => q.writesOf setup d

theorem writes_of_step (hd : score[p.place.index]? = some d) (hl : p.limitReached setup = false) :
    p.writes setup score = p.writesOf setup d ++ (p.step setup d).writes setup score := by
  rw [writes, played_of_step hd hl, List.flatMap_cons]
  rfl

/-- A directive changes the timeline by its writes. -/
theorem timeline_step (setup : Setup) (d : Directive) (p : Performance α) :
    (p.step setup d).timeline = p.timeline.overlayAll (p.writesOf setup d) := by
  rw [writesOf, Timeline.overlayAll_placed]
  exact timeline_play setup d p

/-- **A run changes the timeline by its writes**, in their order. -/
theorem timeline_run (setup : Setup) (score : List Directive) (p : Performance α) :
    (p.run setup score).timeline = p.timeline.overlayAll (p.writes setup score) := by
  fun_induction run setup score p with
  | case1 p hd => rw [writes, played_of_end hd]; rfl
  | case2 p d hd hl => rw [writes, played_of_limitReached hl]; rfl
  | case3 p d hd hl ih =>
    rw [ih, timeline_step, writes_of_step hd (Bool.eq_false_iff.mpr hl),
      Timeline.overlayAll_append]

end Performance

end Chiptune
