import Chiptune.Notation.Token

/-!
# Repeats

A `Place` is where a performance stands: the index of the next directive and the repeats that
are open there. `Place.advance` is the whole control flow of the notation. A repeat can be played
an enormous number of times, but every performance ends: `Place.lanes` lists counters that get
smaller in lexicographic order, and that order is well-founded (`Lanes.wellFounded_below`).
-/

namespace Chiptune

/-- An open repeat. -/
structure OpenRepeat where
  /-- The index of the directive that opened it. -/
  start : Nat
  /-- How often it is still to be played, once its end has been met. -/
  remaining : Option Nat
deriving DecidableEq

/-- The index of the next directive and the open repeats, innermost first. -/
structure Place where
  index : Nat
  repeats : List OpenRepeat
deriving DecidableEq

/-- How often a repeat with this count is played: once without a count or with zero. -/
def passes : Option Nat → Nat
  | some (n + 1) => n + 1
  | _ => 1

theorem passes_pos (count : Option Nat) : 0 < passes count := by
  unfold passes; split <;> omega

namespace Place

/-- The start of a piece. -/
def start : Place := ⟨0, []⟩

/-- The place after the end of a repeat that is closed by `count`. Without an open repeat it has
no meaning; after the last pass the piece goes on behind it. -/
def closeRepeat (count : Option Nat) (p : Place) : Place :=
  match p.repeats with
  | [] => ⟨p.index + 1, []⟩
  | innermost :: outer =>
    let remaining := innermost.remaining.getD (passes count) - 1
    if remaining = 0 then ⟨p.index + 1, outer⟩
    else ⟨innermost.start + 1, ⟨innermost.start, some remaining⟩ :: outer⟩

/-- The place after a directive. -/
def advance (d : Directive) (p : Place) : Place :=
  match d with
  | .repeatStart => ⟨p.index + 1, ⟨p.index, none⟩ :: p.repeats⟩
  | .repeatEnd count => p.closeRepeat count
  | _ => ⟨p.index + 1, p.repeats⟩

end Place

/-! ## Every performance ends -/

/-- Counters in lanes, of which the first `width` are compared. -/
structure Lanes (width : Nat) where
  count : Nat → Nat

namespace Lanes

/-- The first lane in which two rows differ is smaller on the left. -/
def Below {width : Nat} (f g : Lanes width) : Prop :=
  ∃ i < width, f.count i < g.count i ∧ ∀ j < i, f.count j = g.count j

theorem wellFounded_below : ∀ width, WellFounded (@Below width)
  | 0 => ⟨fun f => ⟨f, fun _ h => by obtain ⟨i, hi, _⟩ := h; omega⟩⟩
  | width + 1 => by
    have hlex := (Prod.lex Nat.lt_wfRel ⟨@Below width, wellFounded_below width⟩).wf
    refine Subrelation.wf (fun {f g} h => ?_)
      (InvImage.wf (fun f : Lanes (width + 1) => (f.count 0, (⟨fun i => f.count (i + 1)⟩ : Lanes width)))
        hlex)
    obtain ⟨i, hi, hlt, heq⟩ := h
    cases i with
    | zero => exact Prod.Lex.left _ _ hlt
    | succ i =>
      show Prod.Lex _ _ (f.count 0, _) (g.count 0, _)
      rw [heq 0 (by omega)]
      exact Prod.Lex.right _ ⟨i, by omega, hlt, fun j hj => heq (j + 1) (by omega)⟩

instance (width : Nat) : WellFoundedRelation (Lanes width) := ⟨Below, wellFounded_below width⟩

end Lanes

namespace Place

/-- How many repeats opened at `k` have not met their end yet. -/
def unmet (k : Nat) (repeats : List OpenRepeat) : Nat :=
  repeats.countP fun r => r.start = k ∧ r.remaining = none

/-- The passes still to come of the repeats opened at `k`, each repeat counting one more. -/
def toCome (k : Nat) : List OpenRepeat → Nat
  | [] => 0
  | r :: rs => (if r.start = k then (r.remaining.map (· + 1)).getD 0 else 0) + toCome k rs

/-- Three counters for each directive `k`: whether it is still ahead, and the passes to come of
the repeats that it has opened. Going on past a directive makes its first counter smaller,
jumping back to it one of the others. -/
def lanes (width : Nat) (p : Place) : Lanes width where
  count i :=
    if i % 3 = 0 then (if p.index ≤ i / 3 then 1 else 0)
    else if i % 3 = 1 then unmet (i / 3) p.repeats
    else toCome (i / 3) p.repeats

theorem unmet_cons (k : Nat) (r : OpenRepeat) (rs : List OpenRepeat) :
    unmet k (r :: rs) = unmet k rs + if r.start = k ∧ r.remaining = none then 1 else 0 := by
  simp [unmet, List.countP_cons]

theorem toCome_cons (k : Nat) (r : OpenRepeat) (rs : List OpenRepeat) :
    toCome k (r :: rs)
      = (if r.start = k then (r.remaining.map (· + 1)).getD 0 else 0) + toCome k rs := rfl

/-- Going past a directive, with no change to the repeats opened before it, brings the
performance nearer to its end. -/
theorem lanes_below_of_pass {n : Nat} {p q : Place} (hn : p.index < n) (hq : p.index < q.index)
    (hu : ∀ k < p.index, unmet k q.repeats = unmet k p.repeats)
    (ht : ∀ k < p.index, toCome k q.repeats = toCome k p.repeats) :
    Lanes.Below (q.lanes (3 * n)) (p.lanes (3 * n)) := by
  refine ⟨3 * p.index, by omega, ?_, fun j hj => ?_⟩
  · have h1 : ¬ q.index ≤ p.index := by omega
    simp [lanes, h1]
  · have hk : j / 3 < p.index := by omega
    have h1 : ¬ q.index ≤ j / 3 := by omega
    have h2 : ¬ p.index ≤ j / 3 := by omega
    simp only [lanes, h1, h2, if_false, hu _ hk, ht _ hk]

/-- So does anything that leaves a repeat opened before the directive with less to come, and
does not go back behind where it was opened. -/
theorem lanes_below_of_repeat {n : Nat} {p q : Place} {s : Nat} (hn : p.index < n)
    (hs : s < p.index) (hq : s < q.index)
    (hu : ∀ k < s, unmet k q.repeats = unmet k p.repeats)
    (ht : ∀ k < s, toCome k q.repeats = toCome k p.repeats)
    (h : unmet s q.repeats < unmet s p.repeats ∨
      (unmet s q.repeats = unmet s p.repeats ∧
        toCome s q.repeats < toCome s p.repeats)) :
    Lanes.Below (q.lanes (3 * n)) (p.lanes (3 * n)) := by
  have before : ∀ j < 3 * s + 1, (q.lanes (3 * n)).count j = (p.lanes (3 * n)).count j := by
    intro j hj
    have h1 : ¬ q.index ≤ j / 3 := by omega
    have h2 : ¬ p.index ≤ j / 3 := by omega
    by_cases hk : j / 3 < s
    · simp only [lanes, h1, h2, if_false, hu _ hk, ht _ hk]
    · have h0 : j % 3 = 0 := by omega
      simp only [lanes, h0, h1, h2, if_false, if_true]
  have d1 : (3 * s + 1) / 3 = s := by omega
  have d2 : (3 * s + 2) / 3 = s := by omega
  have m1 : (3 * s + 1) % 3 = 1 := by omega
  have m2 : (3 * s + 2) % 3 = 2 := by omega
  rcases h with h | ⟨he, h⟩
  · exact ⟨3 * s + 1, by omega, by simpa [lanes, d1, m1] using h, before⟩
  · refine ⟨3 * s + 2, by omega, by simpa [lanes, d2, m2] using h, fun j hj => ?_⟩
    by_cases hj' : j = 3 * s + 1
    · subst hj'
      simpa [lanes, d1, m1] using he
    · exact before j (by omega)

/-- **Every directive brings the performance nearer to its end.** -/
theorem lanes_advance {n : Nat} (d : Directive) (p : Place) (hn : p.index < n) :
    Lanes.Below ((p.advance d).lanes (3 * n)) (p.lanes (3 * n)) := by
  have plain : Lanes.Below ((⟨p.index + 1, p.repeats⟩ : Place).lanes (3 * n)) (p.lanes (3 * n)) :=
    lanes_below_of_pass hn (Nat.lt_succ_self _) (fun _ _ => rfl) (fun _ _ => rfl)
  cases d <;> try exact plain
  case repeatStart =>
    refine lanes_below_of_pass hn (Nat.lt_succ_self _) (fun k hk => ?_) (fun k hk => ?_)
    · have : ¬ p.index = k := by omega
      simp [advance, unmet_cons, this]
    · simp [advance, toCome_cons]
  case repeatEnd count =>
    show Lanes.Below ((p.closeRepeat count).lanes (3 * n)) _
    obtain ⟨index, repeats⟩ := p
    cases repeats with
    | nil => exact plain
    | cons r outer =>
      simp only [closeRepeat]
      split
      · rename_i h0
        by_cases hs : r.start < index
        · refine lanes_below_of_repeat (s := r.start) hn hs (by simp; omega) ?_ ?_ ?_
          · intro k hk
            have : ¬ r.start = k := by omega
            simp [unmet_cons, this]
          · intro k hk
            have : ¬ r.start = k := by omega
            simp [toCome_cons, this]
          · cases hr : r.remaining <;> simp [unmet_cons, toCome_cons, hr]
        · refine lanes_below_of_pass hn (by simp) ?_ ?_
          · intro k hk
            have : ¬ r.start = k := by simp at hk; omega
            simp [unmet_cons, this]
          · intro k hk
            have : ¬ r.start = k := by simp at hk; omega
            simp [toCome_cons, this]
      · rename_i h0
        by_cases hs : r.start < index
        · refine lanes_below_of_repeat (s := r.start) hn hs (by simp) ?_ ?_ ?_
          · intro k hk
            have : ¬ r.start = k := by omega
            simp [unmet_cons, this]
          · intro k hk
            have : ¬ r.start = k := by omega
            simp [toCome_cons, this]
          · cases hr : r.remaining with
            | none => simp [unmet_cons, hr]
            | some m =>
              rw [hr] at h0
              simp only [Option.getD_some] at h0
              simp [unmet_cons, toCome_cons, hr]
              omega
        · refine lanes_below_of_pass hn (by simp at *; omega) ?_ ?_
          · intro k hk
            have : ¬ r.start = k := by simp at hk; omega
            simp [unmet_cons, this]
          · intro k hk
            have : ¬ r.start = k := by simp at hk; omega
            simp [toCome_cons, this]

end Place

end Chiptune
