import Chiptune.Scalar

/-!
# Filters

Second-order low-pass and high-pass filters. The coefficients are fixed when a filter is made;
only the last two inputs and outputs change while it runs.
-/

namespace Chiptune

/-- Which side of the cutoff a filter lets through. -/
inductive Band where
  | lowPass | highPass
deriving DecidableEq

/-- The factors of a filter's inputs (`b0` of the newest) and of its past outputs. -/
structure Coefficients (α : Type) where
  b0 : α
  b1 : α
  b2 : α
  a1 : α
  a2 : α

/-- A filter and what it remembers: the last input and output, and those before them. -/
structure Filter (α : Type) where
  band : Band
  cutoff : α
  q : α
  coefficients : Coefficients α
  x1 : α
  x2 : α
  y1 : α
  y2 : α

variable {α : Type} [Scalar α]

/-- The coefficients for a cutoff at the angle `2 * pi * cutoff / rate`, all divided by that of
the newest output. -/
def Coefficients.of (band : Band) (cutoff q rate : α) : Coefficients α :=
  let omega := 2 * Scalar.pi * cutoff / rate
  let cosine := Scalar.cos omega
  let bandwidth := Scalar.sin omega / (2 * q)
  let a0 := 1 + bandwidth
  let a1 := -2 * cosine
  let a2 := 1 - bandwidth
  match band with
  | .lowPass =>
    let b1 := 1 - cosine
    ⟨b1 / 2 / a0, b1 / a0, b1 / 2 / a0, a1 / a0, a2 / a0⟩
  | .highPass =>
    let b1 := -(1 + cosine)
    ⟨-b1 / 2 / a0, b1 / a0, -b1 / 2 / a0, a1 / a0, a2 / a0⟩

namespace Filter

/-- A filter that has heard nothing yet. The cutoff is kept from 1 Hz to 0.49 of the rate. -/
def fresh (band : Band) (cutoff q : α) (rate : Nat) : Filter α :=
  let rate : α := Scalar.ofNat rate
  let cutoff := Scalar.greatest (Scalar.least cutoff (rate * 0.49)) 1
  { band, cutoff, q
    coefficients := .of band cutoff q rate
    x1 := 0, x2 := 0, y1 := 0, y2 := 0 }

/-- The next output. -/
def output (f : Filter α) (x : α) : α :=
  let c := f.coefficients
  c.b0 * x + c.b1 * f.x1 + c.b2 * f.x2 - c.a1 * f.y1 - c.a2 * f.y2

/-- Runs one sample through a filter. -/
def apply (f : Filter α) (x : α) : α × Filter α :=
  let y := f.output x
  (y, { f with x1 := x, x2 := f.x1, y1 := y, y2 := f.y1 })

end Filter

end Chiptune
