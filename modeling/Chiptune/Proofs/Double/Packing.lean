import Mathlib
import Chiptune.Proofs.Double.Nearest

/-!
# Packing doubles

Numbers are computed as sign, mantissa and exponent and kept in 64 bits.

* `ofFields`: what a sign, an exponent field and a mantissa field stand for. Unpacking reads it off
  the bits (`unpack_eq_ofFields`), packing writes the fields.
* `canonical_unpack`: what is unpacked is canonical.
* `unpack_pack_finite`, `unpack_pack_huge`: a canonical number is unpacked to itself, or to infinity
  where its exponent does not fit.
* `Unsigned`: zero, of either sign, and what is above it. It stays so when packed
  (`Unsigned.unpack_pack`).
-/

namespace Chiptune.Double

open Float.Model Float.Model.UnpackedFloat

/-! ## Fields -/

theorem toNat_append_one (m : BitVec 52) : (1#1 ++ m).toNat = 2 ^ 52 + m.toNat := by
  rw [BitVec.toNat_append, ← Nat.shiftLeft_add_eq_or_of_lt m.isLt]
  rfl

/-- What a sign, an exponent field and a mantissa field stand for. -/
def ofFields (s : Sign) (e : BitVec 11) (m : BitVec 52) : UnpackedFloat :=
  if e = -1#11 then if m = 0#52 then .infinity s else .notANumber
  else if e = 0#11 then signed s m.toNat (-1074)
  else signed s (2 ^ 52 + m.toNat) (e.toNat - 1075)

theorem signed_of_pos (s : Sign) {m : Nat} (e : Int) (pos : 0 < m) :
    signed s m e = .finite s m e pos := dif_neg pos.ne'

theorem finite_eq_signed {s : Sign} {m m' : Nat} {e e' : Int} {pos : 0 < m} (hm : m = m')
    (he : e = e') : .finite s m e pos = signed s m' e' := by
  subst hm he
  exact (signed_of_pos s e pos).symm

theorem unpack_eq_ofFields (b : BitVec Format.binary64.numBits) :
    UnpackedFloat.unpack .binary64 b
      = ofFields (.ofBitVec (unpackSign b)) (unpackExponent b) (unpackMantissa b) := by
  unfold UnpackedFloat.unpack ofFields
  dsimp only
  by_cases infinite : unpackExponent b = -1#11
  · rw [if_pos infinite, if_pos infinite]
  · rw [if_neg infinite, if_neg infinite]
    by_cases low : unpackExponent b = 0#11
    · rw [if_pos low, if_pos low]
      by_cases empty : unpackMantissa b = 0#52
      · rw [dif_pos empty, empty]
        rfl
      · rw [dif_neg empty]
        refine finite_eq_signed rfl ?_
        rw [low]
        rfl
    · rw [if_neg low, if_neg low]
      exact finite_eq_signed (toNat_append_one _) rfl

/-- Unpacking what was packed from fields gives what they stand for. -/
theorem unpack_packComponents (s : Sign) (e : BitVec 11) (m : BitVec 52) :
    UnpackedFloat.unpack .binary64 (packComponents .binary64 s e m) = ofFields s e m := by
  rw [unpack_eq_ofFields, unpackSign_packComponents, Sign.ofBitVec_toBitVec,
    unpackExponent_packComponents, unpackMantissa_packComponents]

theorem signed_eq_finite {s s' : Sign} {m m' : Nat} {e e' : Int} {pos : 0 < m'}
    (h : signed s m e = .finite s' m' e' pos) : s = s' ∧ m = m' ∧ e = e' := by
  rcases Nat.eq_zero_or_pos m with rfl | nonzero
  · cases h
  · rw [signed_of_pos s e nonzero] at h
    exact UnpackedFloat.finite.inj h

/-! ## Canonical numbers -/

theorem canonical_ofFields {s s' : Sign} {e : BitVec 11} {m : BitVec 52} {m' : Nat} {e' : Int}
    {pos : 0 < m'} (h : ofFields s e m = .finite s' m' e' pos) : Canonical m' e' ∧ e' ≤ 971 := by
  have bits := m.isLt
  unfold ofFields at h
  by_cases infinite : e = -1#11
  · rw [if_pos infinite] at h
    by_cases empty : m = 0#52
    · rw [if_pos empty] at h
      cases h
    · rw [if_neg empty] at h
      cases h
  · rw [if_neg infinite] at h
    have infinite : e.toNat ≠ 2047 := fun same => infinite (BitVec.eq_of_toNat_eq same)
    by_cases low : e = 0#11
    · rw [if_pos low] at h
      obtain ⟨-, rfl, rfl⟩ := signed_eq_finite h
      exact ⟨⟨by omega, by omega, .inr rfl⟩, by omega⟩
    · rw [if_neg low] at h
      have low : e.toNat ≠ 0 := fun same => low (BitVec.eq_of_toNat_eq same)
      obtain ⟨-, rfl, rfl⟩ := signed_eq_finite h
      exact ⟨⟨by omega, by omega, .inl (by omega)⟩, by omega⟩

/-- **What is unpacked is canonical.** -/
theorem canonical_unpack {b : BitVec Format.binary64.numBits} {s : Sign} {m : Nat} {e : Int}
    {pos : 0 < m} (h : UnpackedFloat.unpack .binary64 b = .finite s m e pos) :
    Canonical m e ∧ e ≤ 971 :=
  canonical_ofFields ((unpack_eq_ofFields b).symm.trans h)

/-! ## Packing -/

theorem pack_eq (s : Sign) {m : Nat} {e : Int} (pos : 0 < m) :
    UnpackedFloat.pack .binary64 (.finite s m e pos)
      = if 2 ^ 11 ≤ (e + 1023 + 52).toNat + 1 then packComponents .binary64 s (-1#11) 0#52
        else if m.log2 + 1 = 53 then
          packComponents .binary64 s (.ofNat 11 (e + 1023 + 52).toNat) (.ofNat 52 m)
        else packComponents .binary64 s 0#11 (.ofNat 52 m) := rfl

/-- **A canonical number is unpacked to itself** if its exponent fits. -/
theorem unpack_pack_finite (s : Sign) {m : Nat} {e : Int} (pos : 0 < m) (c : Canonical m e)
    (fits : e ≤ 971) :
    UnpackedFloat.unpack .binary64 (UnpackedFloat.pack .binary64 (.finite s m e pos))
      = .finite s m e pos := by
  have room : ¬ 2 ^ 11 ≤ (e + 1023 + 52).toNat + 1 := by omega
  have lt := c.mantissa_lt
  have lowest := c.le_exponent
  rw [pack_eq, if_neg room, ← signed_of_pos s e pos]
  rcases lt_or_ge m (2 ^ 52) with short | full
  · have bits : m.log2 < 52 := (Nat.log2_lt pos.ne').mpr short
    have low : e = -1074 := c.normal.resolve_left (not_le.mpr short)
    rw [if_neg (by omega), unpack_packComponents, low]
    show signed s (m % 2 ^ 52) (-1074) = _
    rw [Nat.mod_eq_of_lt short]
  · have bits : m.log2 = 52 := (Nat.log2_eq_iff pos.ne').mpr ⟨full, lt⟩
    have exponent : (BitVec.ofNat 11 (e + 1023 + 52).toNat).toNat = (e + 1075).toNat := by
      rw [BitVec.toNat_ofNat]
      omega
    have infinite : BitVec.ofNat 11 (e + 1023 + 52).toNat ≠ -1#11 := by
      intro same
      have same : (e + 1075).toNat = 2047 := exponent.symm.trans (congrArg BitVec.toNat same)
      omega
    have zero : BitVec.ofNat 11 (e + 1023 + 52).toNat ≠ 0#11 := by
      intro same
      have same : (e + 1075).toNat = 0 := exponent.symm.trans (congrArg BitVec.toNat same)
      omega
    rw [if_pos (by omega), unpack_packComponents, ofFields, if_neg infinite, if_neg zero, exponent,
      BitVec.toNat_ofNat]
    congr 1 <;> omega

/-- A number whose exponent does not fit is unpacked to infinity. -/
theorem unpack_pack_huge (s : Sign) {m : Nat} {e : Int} (pos : 0 < m) (huge : 971 < e) :
    UnpackedFloat.unpack .binary64 (UnpackedFloat.pack .binary64 (.finite s m e pos))
      = .infinity s := by
  rw [pack_eq, if_pos (by omega), unpack_packComponents]
  rfl

theorem unpack_pack_infinity (s : Sign) :
    UnpackedFloat.unpack .binary64 (UnpackedFloat.pack .binary64 (.infinity s)) = .infinity s := by
  cases s <;> rfl

/-! ## Signs -/

/-- Zero, of either sign, or above it. -/
inductive Unsigned : UnpackedFloat → Prop
  | zero (s : Sign) : Unsigned (.zero s)
  | finite (m : Nat) (e : Int) (pos : 0 < m) : Unsigned (.finite .positive m e pos)
  | infinity : Unsigned (.infinity .positive)

theorem Unsigned.signed (m : Nat) (e : Int) : Unsigned (Double.signed .positive m e) := by
  rcases Nat.eq_zero_or_pos m with rfl | pos
  · exact .zero .positive
  · rw [signed_of_pos _ e pos]
    exact .finite m e pos

theorem unsigned_ofFields {e : BitVec 11} (h : e ≠ -1#11) (m : BitVec 52) :
    Unsigned (ofFields .positive e m) := by
  rw [ofFields, if_neg h]
  split
  · exact .signed _ _
  · exact .signed _ _

/-- **What is not below zero stays so when it is packed.** -/
theorem Unsigned.unpack_pack {u : UnpackedFloat} (h : Unsigned u) :
    Unsigned (UnpackedFloat.unpack .binary64 (UnpackedFloat.pack .binary64 u)) := by
  cases h with
  | zero s => cases s <;> exact .zero _
  | infinity => exact .infinity
  | finite m e pos =>
    rw [pack_eq]
    split
    · exact .infinity
    · rename_i fits
      split
      · rw [unpack_packComponents]
        refine unsigned_ofFields (fun same => ?_) _
        have same : (e + 1023 + 52).toNat % 2 ^ 11 = 2047 := congrArg BitVec.toNat same
        omega
      · rw [unpack_packComponents]
        exact unsigned_ofFields (by decide) _

end Chiptune.Double
