import Chiptune.Scalar

/-!
# Echoes

An echo adds to each sample a part of what it gave out one delay before. The line that holds the
last outputs fills as samples come, so it never takes more room than they do; once full, it is
used as a ring.
-/

namespace Chiptune

/-- An echo and its delay line. -/
structure Echo (α : Type) where
  feedback : α
  /-- The delay in samples. -/
  delay : Nat
  line : Array α
  /-- Where the oldest output stands once the line is full. -/
  position : Nat

namespace Echo

variable {α : Type} [Scalar α]

/-- An echo with an empty line. The feedback is at most one. -/
def fresh (feedback : α) (delay : Nat) : Echo α :=
  { feedback := Scalar.least feedback 1, delay, line := #[], position := 0 }

/-- Runs one sample through an echo. Without a delay, and until the line is full, it comes out
as it went in. -/
def apply (e : Echo α) (x : α) : α × Echo α :=
  match e with
  | ⟨feedback, delay, line, position⟩ =>
    if delay = 0 then (x, ⟨feedback, delay, line, position⟩)
    else if line.size < delay then (x, ⟨feedback, delay, line.push x, position⟩)
    else
      let y := x + feedback * line.getD position 0
      (y, ⟨feedback, delay, line.setIfInBounds position y, (position + 1) % delay⟩)

end Echo

end Chiptune
