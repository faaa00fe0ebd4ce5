import Chiptune.Scalar

/-!
# 16-bit samples

Samples between `-1` and `1` become whole numbers from `-32767` to `32767`; louder ones are cut
off there, and what is not a number is silent. As bytes a sample is its two's complement, low
byte first.
-/

namespace Chiptune.Pcm

/-- The level of full volume. -/
def fullScale : Nat := 32767

/-- A sample as a 16-bit level, rounded down. -/
def level {α : Type} [Scalar α] (x : α) : Int16 :=
  Int16.ofInt (Scalar.floor (Scalar.clampUnit x * Scalar.ofNat fullScale))

/-- The two bytes of a level. -/
def levelBytes (level : Int16) : List UInt8 :=
  [level.toUInt16.toUInt8, (level.toUInt16 >>> 8).toUInt8]

/-- The bytes of levels, one after the other. -/
def bytes (levels : List Int16) : List UInt8 := levels.flatMap levelBytes

/-- Two bytes for each level. -/
@[simp] theorem length_bytes (levels : List Int16) : (bytes levels).length = 2 * levels.length := by
  induction levels with
  | nil => rfl
  | cons level levels ih =>
    simp only [bytes, List.flatMap_cons, List.length_append, List.length_cons] at ih ⊢
    simp only [ih, levelBytes, List.length_cons, List.length_nil]
    omega

/-- The levels that bytes hold; a single byte at the end is left out. -/
def levels : List UInt8 → List Int16
  | low :: high :: rest => ⟨low.toUInt16 ||| (high.toUInt16 <<< 8)⟩ :: levels rest
  | _ => []

/-- A word is its low byte and its high one, moved up. -/
theorem join_bytes (x : UInt16) :
    x.toUInt8.toUInt16 ||| ((x >>> 8).toUInt8.toUInt16 <<< 8) = x := by
  have bound := x.toNat_lt
  have low : x.toNat % 2 ^ 8 < 2 ^ 8 := Nat.mod_lt _ (by decide)
  have high : x.toNat / 2 ^ 8 < 2 ^ 8 := by omega
  have shifted : ((x >>> 8).toUInt8.toUInt16 <<< 8).toNat = (x.toNat / 2 ^ 8) <<< 8 := by
    simp only [UInt16.toNat_shiftLeft, UInt8.toNat_toUInt16, UInt16.toNat_toUInt8,
      UInt16.toNat_shiftRight, UInt16.reduceToNat, Nat.reduceMod, Nat.shiftRight_eq_div_pow,
      Nat.mod_eq_of_lt high, Nat.shiftLeft_eq]
    omega
  apply UInt16.toNat_inj.mp
  rw [UInt16.toNat_or, shifted, UInt8.toNat_toUInt16, UInt16.toNat_toUInt8, Nat.or_comm,
    ← Nat.shiftLeft_add_eq_or_of_lt low, Nat.shiftLeft_eq]
  omega

/-- The bytes of levels hold those levels. -/
@[simp] theorem levels_bytes (xs : List Int16) : levels (bytes xs) = xs := by
  induction xs with
  | nil => rfl
  | cons x xs ih =>
    have joined := join_bytes x.toUInt16
    simp only [bytes, List.flatMap_cons, levelBytes, List.cons_append, List.nil_append,
      levels] at ih ⊢
    rw [ih, joined]

end Chiptune.Pcm
