/-!
# Decimal numerals

The numbers of the notation are written in decimal without a sign. `Decimal` keeps such a numeral
exactly; what it becomes in the arithmetic of sound is for `Scalar` to say.
-/

namespace Chiptune

/-- An unsigned decimal numeral, worth `digits / 10 ^ places`. -/
structure Decimal where
  /-- All digits read as one whole number. -/
  digits : Nat
  /-- How many of the digits stand after the point. -/
  places : Nat
deriving DecidableEq

namespace Decimal

/-- The whole number that a run of digits writes, leading digit first. -/
def whole (ds : List Char) : Nat :=
  ds.foldl (fun n d => 10 * n + (d.toNat - '0'.toNat)) 0

/-- The numeral with these digits before and after its point. -/
def ofParts (before after : List Char) : Decimal := ⟨whole (before ++ after), after.length⟩

end Decimal

end Chiptune
