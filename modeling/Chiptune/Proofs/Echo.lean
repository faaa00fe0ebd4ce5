import Mathlib.Data.List.Rotate
import Chiptune.Proofs.Signal

/-!
# What echoes repeat

An echo over a whole signal. Its line is seen as the list of the outputs that it holds.

* `Echo.memory`: what the line holds, oldest first, wherever in the ring that stands.
* `Echo.Follows`: what an echo is like after it has put out `ys`: its line holds the last of them.
  Every sample keeps this, while the line fills and once it is full (`Echo.Follows.apply`).
* `Echo.through_fresh`: the outputs are the feedback recurrence (`Echo.Recurs`), and the line holds no
  more than it needs. `Effect.through_echo`: so it is in a chain.
-/

namespace Chiptune

variable {α : Type}

namespace Echo

/-- What the line holds, from the position on around the ring. -/
def memory (e : Echo α) : List α := e.line.toList.rotate e.position

/-- To replace an entry of a ring and go on behind it is to forget the oldest entry and to append
the newest. -/
theorem rotate_set {l : List α} {p : Nat} (h : p < l.length) (y : α) :
    (l.set p y).rotate (p + 1) = (l.rotate p).tail ++ [y] := by
  have before : (l.take p).length = p := List.length_take_of_le (Nat.le_of_lt h)
  have written : l.set p y = (l.take p ++ [y]) ++ l.drop (p + 1) := by
    rw [List.set_eq_take_append_cons_drop, if_pos h, List.append_assoc, List.singleton_append]
  have behind : (l.take p ++ [y]).length = p + 1 := by rw [List.length_append, before]; rfl
  have rotated : (l.set p y).rotate (p + 1) = l.drop (p + 1) ++ (l.take p ++ [y]) := by
    rw [written, ← behind, List.rotate_append_length_eq]
  have old : l.rotate p = l[p] :: l.drop (p + 1) ++ l.take p := by
    rw [List.rotate_eq_drop_append_take (Nat.le_of_lt h), List.drop_eq_getElem_cons h]
  rw [rotated, old, List.cons_append, List.tail_cons, List.append_assoc]

variable {e : Echo α} {k : α} {delay : Nat} {ys : List α}

theorem memory_push (h : e.position = 0) (x : α) :
    memory { e with line := e.line.push x } = e.memory ++ [x] := by
  simp [memory, h]

theorem memory_advance (h : e.position < e.line.size) (full : e.line.size = e.delay) (y : α) :
    memory { e with
      line := e.line.setIfInBounds e.position y
      position := (e.position + 1) % e.delay } = e.memory.tail ++ [y] := by
  have length : (e.line.toList.set e.position y).length = e.delay := by
    rw [List.length_set, Array.length_toList, full]
  rw [memory, memory, Array.toList_setIfInBounds, ← length, List.rotate_mod]
  exact rotate_set h y

variable [Scalar α]

/-! ## One sample -/

theorem apply_of_noDelay (h : e.delay = 0) (x : α) : e.apply x = (x, e) := by
  obtain ⟨feedback, delay, line, position⟩ := e
  exact if_pos h

/-- While the line fills, samples join it. -/
theorem apply_of_filling (h : e.line.size < e.delay) (x : α) :
    e.apply x = (x, { e with line := e.line.push x }) := by
  have delayed : e.delay ≠ 0 := Nat.ne_zero_of_lt h
  simp [apply, delayed, h]

/-- Once it is full, the oldest output is repeated and replaced. -/
theorem apply_of_full (delayed : e.delay ≠ 0) (h : ¬ e.line.size < e.delay) (x : α) :
    e.apply x
      = (x + e.feedback * e.line.getD e.position 0,
          { e with
            line := e.line.setIfInBounds e.position (x + e.feedback * e.line.getD e.position 0)
            position := (e.position + 1) % e.delay }) := by
  simp [apply, delayed, h]

/-! ## A signal -/

/-- Sends a signal through an echo. -/
def through : Echo α → List α → List α × Echo α
  | e, [] => ([], e)
  | e, x :: xs =>
    let (y, e) := e.apply x
    let (ys, e) := through e xs
    (y :: ys, e)

theorem through_cons (e : Echo α) (x : α) (xs : List α) :
    e.through (x :: xs)
      = ((e.apply x).1 :: ((e.apply x).2.through xs).1, ((e.apply x).2.through xs).2) := rfl

/-- As many samples come out as go in. -/
theorem length_through (e : Echo α) (xs : List α) : (e.through xs).1.length = xs.length := by
  induction xs generalizing e with
  | nil => rfl
  | cons x xs ih => rw [through_cons, List.length_cons, ih, List.length_cons]

/-- What comes out first does not depend on what goes in later. -/
theorem through_take (e : Echo α) (xs : List α) (n : Nat) :
    (e.through (xs.take n)).1 = (e.through xs).1.take n := by
  induction xs generalizing e n with
  | nil => simp [through]
  | cons x xs ih =>
    cases n with
    | zero => rfl
    | succ n => rw [List.take_succ_cons, through_cons, through_cons, ih, List.take_succ_cons]

/-- The output at a position comes from the echo that the samples before it leave. -/
theorem getElem?_through (e : Echo α) (xs : List α) (n : Nat) :
    (e.through xs).1[n]? = xs[n]?.map fun x => ((e.through (xs.take n)).2.apply x).1 := by
  induction xs generalizing e n with
  | nil => rfl
  | cons x xs ih =>
    cases n with
    | zero => rfl
    | succ n =>
      rw [through_cons, List.getElem?_cons_succ, ih, List.getElem?_cons_succ, List.take_succ_cons,
        through_cons]

/-! ## The line -/

/-- An echo that was fresh and has put out `ys`. -/
structure Follows (k : α) (delay : Nat) (ys : List α) (e : Echo α) : Prop where
  feedback_eq : e.feedback = k
  delay_eq : e.delay = delay
  /-- The line is no longer than the delay, and than the signal so far. -/
  size_eq : e.line.size = min delay ys.length
  /-- While the line fills, the position does not move. -/
  filling : ys.length < delay → e.position = 0
  position_lt : 0 < delay → e.position < delay
  /-- The line holds the last outputs. -/
  memory_eq : e.memory = ys.drop (ys.length - delay)

theorem follows_fresh (feedback : α) (delay : Nat) :
    Follows (Scalar.least feedback 1) delay [] (fresh feedback delay) where
  feedback_eq := rfl
  delay_eq := rfl
  size_eq := (Nat.min_zero delay).symm
  filling _ := rfl
  position_lt := id
  memory_eq := by simp [memory, fresh]

namespace Follows

omit [Scalar α] in
/-- A position of a full line is one of its entries. -/
theorem position_lt_size (h : Follows k delay ys e) (pos : 0 < delay)
    (full : delay ≤ e.line.size) : e.position < e.line.size :=
  Nat.lt_of_lt_of_le (h.position_lt pos) full

/-- In a full line the position is that of the output one delay ago. -/
theorem getElem?_oldest (h : Follows k delay ys e) (pos : 0 < delay) (full : delay ≤ ys.length) :
    ys[ys.length - delay]? = some (e.line.getD e.position 0) := by
  have size : e.line.size = delay := by rw [h.size_eq, Nat.min_eq_left full]
  have inside : e.position < e.line.size := h.position_lt_size pos (Nat.le_of_eq size.symm)
  have inside' : e.position < e.line.toList.length := inside
  calc ys[ys.length - delay]? = e.memory.head? := by rw [h.memory_eq, List.head?_drop]
    _ = e.line[e.position]? := by
      rw [memory, List.head?_rotate inside', Array.getElem?_toList]
    _ = some (e.line.getD e.position 0) := by simp [inside]

/-- Until one delay has passed, samples come out as they went in. -/
theorem apply_of_lt (h : Follows k delay ys e) (early : delay = 0 ∨ ys.length < delay) (x : α) :
    (e.apply x).1 = x := by
  rcases Nat.eq_zero_or_pos delay with none | pos
  · rw [apply_of_noDelay (h.delay_eq.trans none)]
  · have size := h.size_eq
    rw [apply_of_filling (by rw [h.delay_eq]; omega)]

/-- From then on each output is the sample and a part of the output one delay ago. -/
theorem apply_of_le (h : Follows k delay ys e) (pos : 0 < delay) (late : delay ≤ ys.length)
    (x : α) : ∃ y, ys[ys.length - delay]? = some y ∧ (e.apply x).1 = x + k * y := by
  have size := h.size_eq
  have delayed := h.delay_eq
  refine ⟨_, h.getElem?_oldest pos late, ?_⟩
  rw [apply_of_full (by omega) (by omega), h.feedback_eq]

/-- **Every sample keeps what the line holds up to date.** -/
theorem apply (h : Follows k delay ys e) (x : α) :
    Follows k delay (ys ++ [(e.apply x).1]) (e.apply x).2 := by
  have size := h.size_eq
  have delayed := h.delay_eq
  have held := h.memory_eq
  have longer (y : α) : (ys ++ [y]).length = ys.length + 1 := List.length_append
  rcases Nat.eq_zero_or_pos delay with none | pos
  · rw [apply_of_noDelay (delayed.trans none)]
    exact { h with
      size_eq := by rw [size, none, Nat.zero_min, Nat.zero_min]
      filling := fun _ => by omega
      memory_eq := by
        rw [held, none, Nat.sub_zero, Nat.sub_zero, List.drop_length, List.drop_length] }
  by_cases filling : ys.length < delay
  · have start := h.filling filling
    have all : ys.length - delay = 0 ∧ ys.length + 1 - delay = 0 := by omega
    rw [apply_of_filling (by omega)]
    exact { h with
      size_eq := by rw [Array.size_push, longer]; omega
      filling := fun _ => start
      memory_eq := by
        rw [memory_push start, held, longer, all.1, all.2, List.drop_zero, List.drop_zero] }
  · have inside := h.position_lt_size pos (by omega)
    have late : ys.length + 1 - delay = ys.length - delay + 1 := by omega
    rw [apply_of_full (by omega) (by omega)]
    exact { h with
      size_eq := by rw [Array.size_setIfInBounds, longer]; omega
      filling := fun still => by rw [longer] at still; omega
      position_lt := fun pos => by rw [delayed]; exact Nat.mod_lt _ pos
      memory_eq := by
        rw [memory_advance inside (by omega), held, List.tail_drop, longer, late,
          List.drop_append_of_le_length (by omega)] }

/-- So does a whole signal. -/
theorem through (h : Follows k delay ys e) (xs : List α) :
    Follows k delay (ys ++ (e.through xs).1) (e.through xs).2 := by
  induction xs generalizing ys e with
  | nil => simpa [Echo.through] using h
  | cons x xs ih =>
    have rest := ih (h.apply x)
    rw [List.append_assoc, List.singleton_append] at rest
    exact rest

end Follows

/-- The feedback recurrence: until one delay has passed each output is the sample that went in, and
from then on that sample plus `k` times the output one delay earlier. -/
structure Recurs (k : α) (delay : Nat) (xs ys : List α) : Prop where
  length_eq : ys.length = xs.length
  early : ∀ n x, xs[n]? = some x → n < delay ∨ delay = 0 → ys[n]? = some x
  late : ∀ n x, xs[n]? = some x → 1 ≤ delay → delay ≤ n →
    ∃ y, ys[n - delay]? = some y ∧ ys[n]? = some (x + k * y)

/-- What an echo puts out follows from what it has put out before. -/
theorem recurs_of_follows {xs : List α} (length : ys.length = xs.length)
    (each : ∀ n x, xs[n]? = some x →
      ∃ e, Follows k delay (ys.take n) e ∧ ys[n]? = some (e.apply x).1) :
    Recurs k delay xs ys := by
  have count {n : Nat} {x : α} (hx : xs[n]? = some x) : (ys.take n).length = n := by
    obtain ⟨inside, -⟩ := List.getElem?_eq_some_iff.mp hx
    exact List.length_take_of_le (by omega)
  refine ⟨length, fun n x hx early => ?_, fun n x hx pos late => ?_⟩
  · obtain ⟨e, follows, put⟩ := each n x hx
    have count := count hx
    rw [put, follows.apply_of_lt (by omega)]
  · obtain ⟨e, follows, put⟩ := each n x hx
    have count := count hx
    obtain ⟨y, before, repeated⟩ := follows.apply_of_le pos (by omega) x
    rw [count, List.getElem?_take_of_lt (by omega)] at before
    exact ⟨y, before, by rw [put, repeated]⟩

/-- **An echo is its feedback recurrence**, with the feedback that it was given, but at most one.
After each sample its line holds the last outputs, no more than the delay and no more than there
were; where a sample is about to be repeated, the position is that of an entry. -/
theorem through_fresh (feedback : α) (delay : Nat) (xs : List α) :
    Recurs (Scalar.least feedback 1) delay xs ((fresh feedback delay).through xs).1 ∧
      ∀ n e, n ≤ xs.length → ((fresh feedback delay).through (xs.take n)).2 = e →
        e.line.size = min delay n ∧
          e.memory = (((fresh feedback delay).through xs).1.take n).drop (n - min delay n) ∧
          (1 ≤ delay → delay ≤ e.line.size → e.position < e.line.size) := by
  have length := length_through (fresh feedback delay) xs
  have follows (n : Nat) : Follows (Scalar.least feedback 1) delay
      (((fresh feedback delay).through xs).1.take n)
      ((fresh feedback delay).through (xs.take n)).2 := by
    have followed := (follows_fresh feedback delay).through (xs.take n)
    rwa [List.nil_append, through_take] at followed
  refine ⟨recurs_of_follows length fun n x hx => ⟨_, follows n, ?_⟩, fun n e hn he => ?_⟩
  · rw [getElem?_through, hx]
    rfl
  · have count : (((fresh feedback delay).through xs).1.take n).length = n :=
      List.length_take_of_le (by omega)
    have last : n - min delay n = n - delay := by omega
    have size := (follows n).size_eq
    have memory := (follows n).memory_eq
    rw [count] at size memory
    subst he
    exact ⟨size, by rw [memory, last], (follows n).position_lt_size⟩

/-- A feedback above one counts as one. By the fifth sample the position has gone around the ring of
two entries, and the echo of the echo comes out. -/
theorem through_fresh_loud :
    let xs : List Float := [1, 0, 0.5, 0, 0]
    let ys := ((fresh 3 2).through xs).1
    (xs[4]? = some 0 ∧ 1 ≤ 2 ∧ 2 ≤ 4 ∧ 5 ≤ xs.length) ∧
      (∃ y, ys[2]? = some y ∧ ys[4]? = some (0 + Scalar.least 3 1 * y)) ∧
      ys = [1, 0, 1.5, 0, 1.5] ∧
      ((fresh 3 2).through (xs.take 5)).2.memory = (ys.take 5).drop (5 - min 2 5) := by
  intro xs ys
  have inputs : xs[4]? = some 0 := rfl
  have long : 5 ≤ xs.length := Nat.le_refl 5
  obtain ⟨recurs, lines⟩ := through_fresh (3 : Float) 2 xs
  exact ⟨⟨inputs, by decide, by decide, long⟩, recurs.late 4 0 inputs (by decide) (by decide),
    by decide +kernel, (lines 5 _ long rfl).2.1⟩

end Echo

/-- As a stage of a chain an echo takes a signal in the same way. -/
theorem Effect.through_echo [Scalar α] (e : Echo α) (xs : List α) :
    (Effect.echo e).through xs = ((e.through xs).1, .echo (e.through xs).2) := by
  induction xs generalizing e with
  | nil => rfl
  | cons x xs ih => simp only [Effect.through, Effect.apply, ih, Echo.through]

end Chiptune
