import Formula.Decimal.Shortest
import Mathlib

/-! # The bits of a float

How the fields of a float's bits determine the unpacked number that arithmetic works on.
-/

namespace Formula.Binary64

open Float.Model Float.Model.UnpackedFloat

theorem toNat_unpackMantissa (b : BitVec Format.binary64.numBits) :
    (unpackMantissa b).toNat = b.toNat % 2 ^ 52 := by
  simp [unpackMantissa, BitVec.extractLsb]

theorem toNat_unpackExponent (b : BitVec Format.binary64.numBits) :
    (unpackExponent b).toNat = b.toNat / 2 ^ 52 % 2 ^ 11 := by
  simp [unpackExponent, BitVec.extractLsb, Nat.shiftRight_eq_div_pow]

theorem unpack_eq_zero {x : Float} (h : x.toBits.toNat % 2 ^ 63 = 0) :
    ∃ sign, x.toModel.unpack = .zero sign := by
  have hmantissa : @unpackMantissa Format.binary64 x.toModel.toBits.toBitVec = 0#_ := by
    apply BitVec.eq_of_toNat_eq
    rw [toNat_unpackMantissa]
    change x.toBits.toNat % 2 ^ 52 = 0
    omega
  have hexponent : @unpackExponent Format.binary64 x.toModel.toBits.toBitVec = 0#_ := by
    apply BitVec.eq_of_toNat_eq
    rw [toNat_unpackExponent]
    change x.toBits.toNat / 2 ^ 52 % 2 ^ 11 = 0
    omega
  rw [Float.Model.unpack, UnpackedFloat.unpack]
  simp only [hmantissa, hexponent]
  exact ⟨_, by simp; rfl⟩

theorem beq_zero {x : Float} (h : x.toBits.toNat % 2 ^ 63 = 0) : x == 0 := by
  obtain ⟨sign, hsign⟩ := unpack_eq_zero h
  have hzero : (0 : Float).toModel.unpack = .zero .positive := rfl
  change (x.toModel.unpack.compare (0 : Float).toModel.unpack == some .eq) = true
  rw [hsign, hzero]
  rfl

end Formula.Binary64
