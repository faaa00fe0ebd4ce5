import Chiptune.Scalar

/-!
# Checked operations

The operations of a machine that can fail, with `none` where they do: a difference below zero, a
sum that is too large, a remainder modulo zero, an access outside an array. The modules beside
this one render a source text with them, step by step and loop by loop. `some` then says that
none of the operations fails.
-/

namespace Chiptune.Checked

/-- `a - b`, if it is not below zero. -/
def sub (a b : Nat) : Option Nat := if b ≤ a then some (a - b) else none

/-- `a + b`, if it is a count. -/
def add (a b : Nat) : Option Nat := if a + b ≤ maxCount then some (a + b) else none

/-- `a + b`, if it is at least `-2 ^ 31` and below `2 ^ 31`. -/
def addSigned (a b : Int) : Option Int :=
  if -2147483648 ≤ a + b ∧ a + b < 2147483648 then some (a + b) else none

/-- `a` modulo `b`, if `b` is not zero. -/
def rem (a b : Nat) : Option Nat := if b = 0 then none else some (a % b)

/-- The array with `x` in place of the entry at `i`, if there is one. -/
def write {β : Type} (xs : Array β) (i : Nat) (x : β) : Option (Array β) :=
  if i < xs.size then some (xs.setIfInBounds i x) else none

theorem eq_of_sub {a b c : Nat} (h : sub a b = some c) : c = a - b := by
  unfold sub at h
  split at h <;> cases h
  rfl

/-- What is made of a sum is made of `a + b`. -/
theorem eq_of_add {β : Type} {a b : Nat} {f : Nat → β} {y : β}
    (h : (do return f (← add a b)) = some y) : y = f (a + b) := by
  unfold add at h
  split at h <;> cases h
  rfl

theorem sub_eq {a b : Nat} (h : b ≤ a) : sub a b = some (a - b) := if_pos h

theorem add_eq {a b : Nat} (h : a + b ≤ maxCount) : add a b = some (a + b) := if_pos h

theorem rem_eq {a b : Nat} (h : b ≠ 0) : rem a b = some (a % b) := if_neg h

theorem write_eq {β : Type} {xs : Array β} {i : Nat} (h : i < xs.size) (x : β) :
    write xs i x = some (xs.setIfInBounds i x) := if_pos h

end Chiptune.Checked
