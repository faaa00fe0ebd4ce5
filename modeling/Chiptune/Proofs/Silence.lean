import Mathlib
import Chiptune.Scalar

/-!
# Adding silence

A sample stays as it is where silence is added to it, but for the sign of a zero (`add_silent`,
`silence_add`). Doubles are added as signs, mantissas and exponents, and the sum with a zero is
the other summand; what a double is unpacked to is packed to the same double. Silence that is
multiplied by a volume stays silent where the volume is finite, and nowhere else
(`silence_mul_iff`).
-/

namespace Chiptune

open Float.Model

/-- Two samples that are the same, but for the sign of a zero. -/
def SameSample (x y : Float) : Prop := x = y ∨ (x == 0) = true ∧ (y == 0) = true

theorem SameSample.refl (x : Float) : SameSample x x := .inl rfl

theorem SameSample.trans {x y z : Float} (h : SameSample x y) (h' : SameSample y z) :
    SameSample x z := by
  rcases h with rfl | ⟨left, right⟩
  · exact h'
  · rcases h' with rfl | ⟨-, last⟩
    · exact .inr ⟨left, right⟩
    · exact .inr ⟨left, last⟩

theorem SameSample.symm {x y : Float} (h : SameSample x y) : SameSample y x := by
  rcases h with same | ⟨left, right⟩
  · exact .inl same.symm
  · exact .inr ⟨right, left⟩

theorem pack_unpack (v : Float.Model) : pack v.unpack = v := by
  obtain ⟨bits, valid⟩ := v
  simp only [Float.Model.pack, Float.Model.unpack, UnpackedFloat.pack_unpack_of_valid valid]

theorem double_eq_of_unpack {x : Float} {v : UnpackedFloat} (h : x.toModel.unpack = v) :
    x = Float.ofModel (pack v) := by
  rw [← h, pack_unpack]

/-- A silent sample is a zero of either sign. -/
theorem sameSample_zero_iff {x : Float} :
    SameSample x 0 ↔ ∃ sign, x.toModel.unpack = .zero sign := by
  constructor
  · rintro (rfl | ⟨zero, -⟩)
    · exact ⟨.positive, rfl⟩
    · have equal : x.toModel.unpack.beq (.zero .positive) = true := zero
      cases unpacked : x.toModel.unpack with
      | zero sign => exact ⟨sign, rfl⟩
      | infinity sign => rw [unpacked] at equal; cases sign <;> cases equal
      | notANumber => rw [unpacked] at equal; cases equal
      | finite sign m e pos => rw [unpacked] at equal; cases sign <;> cases equal
  · rintro ⟨sign, zero⟩
    have equal : x.toModel.unpack.beq (.zero .positive) = true := by rw [zero]; rfl
    exact .inr ⟨equal, rfl⟩

/-- Silence of either sign that is added to a sample is not heard. -/
theorem add_silent {x z : Float} (h : SameSample z 0) : SameSample (x + z) x := by
  obtain ⟨silent, zero⟩ := sameSample_zero_iff.mp h
  have sum : x + z
      = Float.ofModel (pack (.add .binary64 x.toModel.unpack z.toModel.unpack)) := rfl
  cases unpacked : x.toModel.unpack with
  | zero sign =>
    rw [sum, unpacked, zero, double_eq_of_unpack unpacked]
    right
    cases sign <;> cases silent <;> exact ⟨rfl, rfl⟩
  | _ =>
    left
    rw [sum, unpacked, zero, double_eq_of_unpack unpacked]
    rfl

/-- **Silence that is added to a sample is not heard.** -/
theorem add_silence (x : Float) : SameSample (x + 0) x := add_silent (.refl 0)

theorem silence_add (x : Float) : SameSample (0 + x) x := by
  have sum : 0 + x
      = Float.ofModel (pack (.add .binary64 (.zero .positive) x.toModel.unpack)) := rfl
  cases unpacked : x.toModel.unpack with
  | zero sign =>
    rw [sum, unpacked, double_eq_of_unpack unpacked]
    right
    cases sign <;> exact ⟨rfl, rfl⟩
  | _ =>
    left
    rw [sum, unpacked, double_eq_of_unpack unpacked]
    rfl

/-- **Silence stays silent at a finite volume, and at no other.** -/
theorem silence_mul_iff (volume : Float) : SameSample (0 * volume) 0 ↔ volume.isFinite := by
  have product : (0 * volume).toModel.unpack = UnpackedFloat.unpack .binary64
      (UnpackedFloat.pack .binary64 (.mul .binary64 (.zero .positive) volume.toModel.unpack)) := rfl
  have finite : volume.isFinite = volume.toModel.unpack.isFinite := rfl
  rw [sameSample_zero_iff, product, finite]
  have silent (sign) : UnpackedFloat.unpack .binary64 (UnpackedFloat.pack .binary64 (.zero sign))
      = .zero sign := by cases sign <;> rfl
  have nothing : ¬ ∃ sign, UnpackedFloat.unpack .binary64
      (UnpackedFloat.pack .binary64 .notANumber) = .zero sign := by
    have packed : UnpackedFloat.unpack .binary64
      (UnpackedFloat.pack .binary64 .notANumber) = .notANumber := rfl
    simp [packed]
  cases volume.toModel.unpack with
  | zero sign => exact iff_of_true ⟨_, silent _⟩ rfl
  | finite sign m e pos => exact iff_of_true ⟨_, silent _⟩ rfl
  | infinity sign => exact iff_of_false nothing nofun
  | notANumber => exact iff_of_false nothing nofun

end Chiptune
