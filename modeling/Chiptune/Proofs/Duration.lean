import Chiptune.Proofs.WellFormed

/-!
# How long a length lasts

Samples are counted in doubles, through two quotients, a factor for the dot, a sum over the tied
parts, a product and a conversion, and every one of these rounds. None of them turns an order
around, also where they overflow or underflow.

* `NoteValue.Within`, `Length.Within`: a length is written within another one: each of its parts
  stands there in its place, with no smaller denominator and no dot less.
* `Length.samples_mono`: a length that is written within another one, at no slower tempo and no
  higher rate, has no more samples.
* `Length.tie`, `Length.dot`, `Length.divide`: ways to write a length within another one.
-/

namespace Chiptune

open Double

/-! ## Lengths within lengths -/

/-- On paper `v` lasts no longer than `w`. -/
structure NoteValue.Within (v w : NoteValue) : Prop where
  denominator : w.denominator ≤ v.denominator
  dotted : v.dotted = true → w.dotted = true

theorem NoteValue.Within.refl (v : NoteValue) : v.Within v := ⟨le_rfl, id⟩

theorem mem_modify {α : Type} {f : α → α} {i : Nat} {l : List α} {v : α} (h : v ∈ l.modify i f) :
    ∃ w ∈ l, w = v ∨ f w = v := by
  obtain ⟨n, at_n⟩ := List.mem_iff_getElem?.mp h
  rw [List.getElem?_modify] at at_n
  obtain ⟨w, hw, same⟩ := Option.map_eq_some_iff.mp at_n
  refine ⟨w, List.mem_of_getElem? hw, ?_⟩
  split at same
  · exact .inr same
  · exact .inl same

/-- What changes at one place is related where it is related by the change. -/
theorem forall₂_modify {α : Type} {R : α → α → Prop} {f : α → α} (refl : ∀ v, R v v)
    (change : ∀ v, R v (f v)) (i : Nat) (l : List α) : List.Forall₂ R l (l.modify i f) := by
  induction l generalizing i with
  | nil =>
    rw [List.modify_nil]
    exact .nil
  | cons v l ih =>
    cases i with
    | zero => exact .cons (change v) (List.forall₂_same.mpr fun w _ => refl w)
    | succ i => exact .cons (refl v) (ih i)

namespace Length

/-- The parts of `a` stand at the beginning of `b`, where each lasts no less on paper. -/
def Within (a b : Length) : Prop :=
  ∃ front back, b.parts = front ++ back ∧ List.Forall₂ NoteValue.Within a.parts front

/-- A length with the parts of another one tied on. -/
def tie (a b : Length) : Length where
  parts := a.parts ++ b.parts
  nonempty := List.append_ne_nil_of_left_ne_nil a.nonempty _
  positive v hv := (List.mem_append.mp hv).elim (a.positive v) (b.positive v)

/-- A length with a dot at its `i`-th part. -/
def dot (i : Nat) (l : Length) : Length where
  parts := l.parts.modify i fun v => { v with dotted := true }
  nonempty := by simpa using l.nonempty
  positive v hv := by
    obtain ⟨w, hw, rfl | rfl⟩ := mem_modify hv <;> exact l.positive w hw

/-- A length with a denominator that is larger by `k` at its `i`-th part. -/
def divide (i k : Nat) (l : Length) : Length where
  parts := l.parts.modify i fun v => { v with denominator := v.denominator + k }
  nonempty := by simpa using l.nonempty
  positive v hv := by
    obtain ⟨w, hw, rfl | rfl⟩ := mem_modify hv
    · exact l.positive w hw
    · exact Nat.add_pos_left (l.positive w hw) k

theorem Within.refl (l : Length) : l.Within l :=
  ⟨l.parts, [], (List.append_nil _).symm, List.forall₂_same.mpr fun v _ => .refl v⟩

theorem within_tie (a b : Length) : a.Within (a.tie b) :=
  ⟨a.parts, b.parts, rfl, List.forall₂_same.mpr fun v _ => .refl v⟩

theorem within_dot (i : Nat) (l : Length) : l.Within (l.dot i) :=
  ⟨_, [], (List.append_nil _).symm, forall₂_modify .refl (fun _ => ⟨le_rfl, fun _ => rfl⟩) i _⟩

theorem divide_within (i k : Nat) (l : Length) : (l.divide i k).Within l := by
  have longer : List.Forall₂ (flip NoteValue.Within) l.parts (l.divide i k).parts :=
    forall₂_modify .refl (fun v => ⟨Nat.le_add_right v.denominator k, id⟩) i l.parts
  exact ⟨l.parts, [], (List.append_nil _).symm, longer.flip⟩

theorem WellFormed.tie {a b : Length} (ha : a.WellFormed) (hb : b.WellFormed) :
    (a.tie b).WellFormed where
  parts := (a.tie b).nonempty
  denominators v hv := (List.mem_append.mp hv).elim (ha.denominators v) (hb.denominators v)

theorem WellFormed.dot {l : Length} (h : l.WellFormed) (i : Nat) : (l.dot i).WellFormed where
  parts := (l.dot i).nonempty
  denominators v hv := by
    obtain ⟨w, hw, rfl | rfl⟩ := mem_modify hv <;> exact h.denominators w hw

end Length

/-! ## Seconds -/

/-- A note value lasts no longer than one that it is within, at a tempo that is no slower. -/
theorem NoteValue.seconds_mono {v w : NoteValue} {tempo tempo' : Float} (within : v.Within w)
    (hv : 1 ≤ v.denominator ∧ v.denominator ≤ maxWhole) (positive : 1 ≤ w.denominator)
    (pos : 0 < tempo) (faster : tempo ≤ tempo') : v.seconds tempo' ≤ w.seconds tempo := by
  obtain ⟨some, finite⟩ := ofNat_pos (n := 240) (by norm_num) (by norm_num)
  obtain ⟨-, finite'⟩ := ofNat_pos_of_whole hv.1 hv.2
  have small : v.denominator < 2 ^ 53 := hv.2.trans_lt (by norm_num [maxWhole])
  have smaller := within.denominator.trans_lt small
  have pos' : 0 < (Scalar.ofNat w.denominator : Float) := (ofNat_pos positive smaller).1
  have beat : (240 : Float) / tempo' ≤ 240 / tempo :=
    div_mono (le_of_lt some) pos (le_self (isNaN_of_le (le_of_lt some)).2) faster (.inl finite)
  have beat_nonneg : 0 ≤ (240 : Float) / tempo' :=
    div_nonneg (le_of_lt some) (pos_of_le pos faster) (.inl finite)
  have divisor : (Scalar.ofNat w.denominator : Float) ≤ Scalar.ofNat v.denominator :=
    ofNat_mono positive within.denominator small
  have plain : 240 / tempo' / Scalar.ofNat v.denominator
      ≤ 240 / tempo / Scalar.ofNat w.denominator :=
    div_mono beat_nonneg pos' beat divisor (.inr finite')
  have nonneg : 0 ≤ (240 : Float) / tempo' / Scalar.ofNat v.denominator :=
    div_nonneg beat_nonneg (pos_of_le pos' divisor) (.inr finite')
  have half : (0 : Float) < 1.5 ∧ (1 : Float) ≤ 1.5 ∧ (1.5 : Float).isFinite := by decide +kernel
  unfold seconds
  split
  · rw [if_pos (within.dotted ‹_›)]
    exact mul_mono nonneg half.1 plain (le_self (isNaN_of_le half.2.1).2) half.2.2
  · split
    · exact le_trans_of_nonneg nonneg plain (le_mul (nonneg_of_le nonneg plain) half.2.1 half.2.2)
    · exact plain

namespace Length

/-- The seconds of `parts`, added to those before them. -/
abbrev addSeconds (tempo : Float) (total : Float) (parts : List NoteValue) : Float :=
  parts.foldl (fun total v => total + v.seconds tempo) total

variable {tempo tempo' : Float} {a b : Length} {parts front : List NoteValue} {total total' : Float}

theorem le_addSeconds (h : ∀ v ∈ parts, Amount (v.seconds tempo)) (ht : 0 ≤ total) :
    total ≤ addSeconds tempo total parts := by
  induction parts generalizing total with
  | nil => exact le_self (isNaN_of_le ht).2
  | cons v parts ih =>
    obtain ⟨first, others⟩ := List.forall_mem_cons.mp h
    exact le_trans_of_nonneg ht (le_add_right ht first.nonneg)
      (ih others (add_nonneg ht first.nonneg))

/-- Sums over parts that last no longer are no longer, whatever the order of two sums is rounded
to at each part. -/
theorem addSeconds_mono (within : List.Forall₂ NoteValue.Within parts front) (pos : 0 < tempo)
    (faster : tempo ≤ tempo')
    (hp : ∀ v ∈ parts, 1 ≤ v.denominator ∧ v.denominator ≤ maxWhole)
    (hf : ∀ v ∈ front, 1 ≤ v.denominator ∧ v.denominator ≤ maxWhole) (ht : 0 ≤ total)
    (le : total ≤ total') : addSeconds tempo' total parts ≤ addSeconds tempo total' front := by
  induction within generalizing total total' with
  | nil => exact le
  | @cons v w parts front first others ih =>
    obtain ⟨hv, hp⟩ := List.forall_mem_cons.mp hp
    obtain ⟨hw, hf⟩ := List.forall_mem_cons.mp hf
    have nonneg := (NoteValue.amount_seconds (pos_of_le pos faster) hv).nonneg
    exact ih hp hf (add_nonneg ht nonneg)
      (add_mono ht nonneg le (NoteValue.seconds_mono first hv hw.1 pos faster))

theorem seconds_mono (within : a.Within b) (ha : a.WellFormed) (hb : b.WellFormed)
    (pos : 0 < tempo) (faster : tempo ≤ tempo') : a.seconds tempo' ≤ b.seconds tempo := by
  obtain ⟨front, back, split, inside⟩ := within
  have parts := hb.denominators
  rw [split] at parts
  obtain ⟨hf, hl⟩ := List.forall_mem_append.mp parts
  have amount (v : NoteValue) (hv : v ∈ back) := NoteValue.amount_seconds pos (hl v hv)
  have zero : (0 : Float) ≤ 0 := ofNat_nonneg 0
  have start : a.seconds tempo' ≤ addSeconds tempo 0 front :=
    addSeconds_mono inside pos faster ha.denominators hf zero zero
  have nonneg : 0 ≤ a.seconds tempo' := Length.seconds_nonneg fun v hv =>
    NoteValue.amount_seconds (pos_of_le pos faster) (ha.denominators v hv)
  have whole : b.seconds tempo = addSeconds tempo (addSeconds tempo 0 front) back := by
    rw [seconds, split, List.foldl_append]
  rw [whole]
  exact le_trans_of_nonneg nonneg start (le_addSeconds amount (nonneg_of_le nonneg start))

/-! ## Samples -/

/-- **A length has no more samples than one that it is within**, at a tempo that is no slower and
a rate that is no higher. -/
theorem samples_mono {rate rate' : Nat} (within : a.Within b) (ha : a.WellFormed)
    (hb : b.WellFormed) (pos : 0 < tempo) (faster : tempo ≤ tempo') (low : 1 ≤ rate)
    (le : rate ≤ rate') (high : rate' ≤ maxWhole) :
    a.samples tempo' rate ≤ b.samples tempo rate' := by
  have computes := ha.computes (pos_of_le pos faster) low (le.trans high)
  obtain ⟨pos', -⟩ := ofNat_pos_of_whole low (le.trans high)
  obtain ⟨-, finite⟩ := ofNat_pos_of_whole (low.trans le) high
  have factor : (Scalar.ofNat rate : Float) ≤ Scalar.ofNat rate' :=
    ofNat_mono low le (high.trans_lt (by norm_num [maxWhole]))
  exact toCount_mono computes.samples.nonneg
    (mul_mono computes.seconds.nonneg pos' (seconds_mono within ha hb pos faster) factor finite)

/-- **Sample counts are monotone in every way.** A faster tempo never gives more samples and a
higher rate never gives fewer; to tie on further parts or to dot a part never gives fewer, and to
raise a denominator never gives more. -/
theorem samples_monotone {a b : Length} (ha : a.WellFormed) (hb : b.WellFormed)
    {tempo tempo' : Float} (pos : 0 < tempo) (faster : tempo ≤ tempo') {rate rate' : Nat}
    (low : 1 ≤ rate) (le : rate ≤ rate') (high : rate' ≤ maxWhole) :
    a.samples tempo' rate ≤ a.samples tempo rate ∧
      a.samples tempo rate ≤ a.samples tempo rate' ∧
      a.samples tempo rate ≤ (a.tie b).samples tempo rate ∧
      (∀ i, a.samples tempo rate ≤ (a.dot i).samples tempo rate) ∧
      ∀ i k, (a.divide i k).WellFormed →
        (a.divide i k).samples tempo rate ≤ a.samples tempo rate := by
  have same : tempo ≤ tempo := le_self (isNaN_of_le (le_of_lt pos)).2
  refine ⟨?faster, ?higher, ?tied, ?dotted, ?divided⟩
  case faster => exact samples_mono (.refl a) ha ha pos faster low le_rfl (le.trans high)
  case higher => exact samples_mono (.refl a) ha ha pos same low le high
  case tied =>
    exact samples_mono (within_tie a b) ha (ha.tie hb) pos same low le_rfl (le.trans high)
  case dotted =>
    exact fun i => samples_mono (within_dot i a) ha (ha.dot i) pos same low le_rfl (le.trans high)
  case divided =>
    exact fun i k h => samples_mono (divide_within i k a) h ha pos same low le_rfl (le.trans high)

/-- An eighth at the slowest tempo that a double can stand for, where its seconds are infinite,
and at an infinite tempo, where they are none. -/
theorem samples_monotone_overflow :
    eighth.samples (1 / 0 : Float) 44100 ≤ eighth.samples (5e-324 : Float) 44100 ∧
      eighth.samples (5e-324 : Float) 44100 ≤ eighth.samples (5e-324 : Float) maxWhole ∧
      eighth.samples (5e-324 : Float) 44100 ≤ (eighth.tie eighth).samples (5e-324 : Float) 44100 ∧
      eighth.samples (5e-324 : Float) 44100 ≤ (eighth.dot 0).samples (5e-324 : Float) 44100 ∧
      (eighth.divide 0 8).samples (5e-324 : Float) 44100
        ≤ eighth.samples (5e-324 : Float) 44100 := by
  have positive : (0 : Float) < 5e-324 := by decide +kernel
  have faster : (5e-324 : Float) ≤ 1 / 0 := by decide +kernel
  have low : 1 ≤ 44100 := by decide
  have higher : 44100 ≤ maxWhole := by decide
  obtain ⟨slower, lower, tied, dotted, divided⟩ :=
    samples_monotone wellFormed_eighth wellFormed_eighth positive faster low higher le_rfl
  exact ⟨slower, lower, tied, dotted 0, divided 0 8 ⟨by decide, by decide⟩⟩

end Length

end Chiptune
