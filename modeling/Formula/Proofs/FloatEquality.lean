import Formula.Proofs.FiniteFloat
import Formula.Term.Agreement

/-! # Floats that are equal as numbers

A float is determined by the unpacked number that arithmetic works on, and comparison finds two of
these equal if they are the same number or zeros of whatever sign. So two floats agree just when
they are the same float once every zero has lost its sign.
-/

namespace Formula.Binary64

open Float.Model Float.Model.UnpackedFloat

/-! ## Bits and fields -/

theorem toNat_unpackSign (b : BitVec Format.binary64.numBits) :
    (unpackSign b).toNat = b.toNat / 2 ^ 63 % 2 := by
  simp [unpackSign, BitVec.extractLsb, Nat.shiftRight_eq_div_pow]

theorem ofBitVec_injective (s t : BitVec 1) (h : Sign.ofBitVec s = Sign.ofBitVec t) : s = t := by
  have hs := s.eq_zero_or_eq_one
  have ht := t.eq_zero_or_eq_one
  obtain rfl | rfl := hs <;> obtain rfl | rfl := ht
  · rfl
  · cases h
  · cases h
  · rfl

theorem eq_of_fields_eq {b c : BitVec Format.binary64.numBits}
    (hsign : Sign.ofBitVec (unpackSign b) = Sign.ofBitVec (unpackSign c))
    (hexponent : (unpackExponent b).toNat = (unpackExponent c).toNat)
    (hmantissa : (unpackMantissa b).toNat = (unpackMantissa c).toNat) : b = c := by
  have hsign := congrArg BitVec.toNat (ofBitVec_injective _ _ hsign)
  rw [toNat_unpackSign, toNat_unpackSign] at hsign
  rw [toNat_unpackExponent, toNat_unpackExponent] at hexponent
  rw [toNat_unpackMantissa, toNat_unpackMantissa] at hmantissa
  have hb : b.toNat < 2 ^ 64 := b.isLt
  have hc : c.toNat < 2 ^ 64 := c.isLt
  apply BitVec.eq_of_toNat_eq
  omega

/-- Which number the exponent and the mantissa of a float stand for, apart from its sign. -/
inductive StandsFor (sign : Sign) : Nat → Nat → UnpackedFloat → Prop where
  | infinity : StandsFor sign 2047 0 (.infinity sign)
  | notANumber {m : Nat} (hm : m ≠ 0) : StandsFor sign 2047 m .notANumber
  | zero : StandsFor sign 0 0 (.zero sign)
  | subnormal {m : Nat} {i : Int} (hm : 0 < m) (hsmall : m < 2 ^ 52) (hi : i = -1074) :
    StandsFor sign 0 m (.finite sign m i hm)
  | normal {e m k : Nat} {i : Int} (hk : 0 < k) (he : 0 < e) (hm : k = 2 ^ 52 + m)
    (hi : i = e - 1075) : StandsFor sign e m (.finite sign k i hk)

theorem standsFor_unpack (b : BitVec Format.binary64.numBits) :
    StandsFor (Sign.ofBitVec (unpackSign b)) (unpackExponent b).toNat (unpackMantissa b).toNat
      (unpack Format.binary64 b) := by
  have hbias : (Format.binary64.exponentBias : Int) = 1023 := rfl
  have hsmall : (unpackMantissa b).toNat < 2 ^ 52 := (unpackMantissa b).isLt
  rw [UnpackedFloat.unpack]
  simp only
  split
  · rename_i he
    rw [he]
    split
    · rename_i hm
      rw [hm]
      exact .infinity
    · rename_i hm
      apply StandsFor.notANumber
      exact fun h => hm (BitVec.eq_of_toNat_eq h)
  · split
    · rename_i he
      rw [he]
      split
      · rename_i hm
        rw [hm]
        exact .zero
      · apply StandsFor.subnormal _ hsmall
        rw [hbias]
        rfl
    · rename_i he
      apply StandsFor.normal
      · apply Nat.pos_of_ne_zero
        exact fun h => he (BitVec.eq_of_toNat_eq h)
      · rw [BitVec.toNat_append, ← Nat.shiftLeft_add_eq_or_of_lt (unpackMantissa b).isLt,
          Nat.shiftLeft_eq]
        rfl
      · rw [hbias]
        omega

theorem StandsFor.fields_eq {s s' : Sign} {e e' m m' : Nat} {f : UnpackedFloat}
    (h : StandsFor s e m f) (h' : StandsFor s' e' m' f) (hf : f.isNaN = false) :
    s = s' ∧ e = e' ∧ m = m' := by
  cases h with
  | infinity =>
    cases h'
    exact ⟨rfl, rfl, rfl⟩
  | notANumber _ => cases hf
  | zero =>
    cases h'
    exact ⟨rfl, rfl, rfl⟩
  | subnormal _ hsmall hi =>
    cases h' with
    | subnormal _ _ _ => exact ⟨rfl, rfl, rfl⟩
    | normal _ _ hm _ => omega
  | normal _ he hm hi =>
    cases h' with
    | subnormal _ hsmall _ => omega
    | normal _ _ hm' hi' => exact ⟨rfl, by omega, by omega⟩

theorem eq_packedNaN_of_isNaN {b : BitVec Format.binary64.numBits} (hb : Format.binary64.Valid b)
    (h : (unpack Format.binary64 b).isNaN) : b = packedNaN Format.binary64 := by
  have hfields := standsFor_unpack b
  generalize unpack Format.binary64 b = f at h hfields
  generalize he : (unpackExponent b).toNat = e at hfields
  generalize hm : (unpackMantissa b).toNat = m at hfields
  cases hfields with
  | notANumber hne =>
    apply hb.eq_packedNaN
    · exact BitVec.eq_of_toNat_eq he
    · intro hzero
      rw [hzero] at hm
      exact hne hm.symm
  | infinity | zero | subnormal _ _ _ | normal _ _ _ _ => cases h

/-- Floats with the same unpacked number have the same bits, as only one float is no number. -/
theorem eq_of_unpack_eq {x y : Float} (h : x.toModel.unpack = y.toModel.unpack) : x = y := by
  obtain ⟨⟨b, hb⟩⟩ := x
  obtain ⟨⟨c, hc⟩⟩ := y
  change unpack Format.binary64 b.toBitVec = unpack Format.binary64 c.toBitVec at h
  have hfields := standsFor_unpack b.toBitVec
  have hfields' := standsFor_unpack c.toBitVec
  rw [← h] at hfields'
  have hbits : b.toBitVec = c.toBitVec := by
    cases hnan : (unpack Format.binary64 b.toBitVec).isNaN with
    | false =>
      obtain ⟨hsign, hexponent, hmantissa⟩ := hfields.fields_eq hfields' hnan
      exact eq_of_fields_eq hsign hexponent hmantissa
    | true =>
      rw [eq_packedNaN_of_isNaN hb hnan, eq_packedNaN_of_isNaN hc (h ▸ hnan)]
  cases UInt64.toBitVec_inj.mp hbits
  rfl

/-! ## Comparison -/

/-- The same number, where zeros lose their sign. -/
def unsigned : UnpackedFloat → UnpackedFloat
  | .zero _ => .zero .positive
  | f => f

theorem compare_finite_eq_iff {s t : Sign} {m n : Nat} {i j : Int} (hm : 0 < m) (hn : 0 < n) :
    (UnpackedFloat.finite s m i hm).compare (.finite t n j hn) = some .eq ↔
      s = t ∧ m = n ∧ i = j := by
  have hlex : (compare i j).then (compare m n) = .eq ↔ m = n ∧ i = j := by
    rw [Ordering.then_eq_eq, Int.compare_eq_eq, Nat.compare_eq_eq, and_comm]
  cases s <;> cases t <;> simp [UnpackedFloat.compare, hlex]

theorem compare_infinity_eq_iff (s : Sign) (g : UnpackedFloat) :
    (UnpackedFloat.infinity s).compare g = some .eq ↔ g = .infinity s := by
  cases s <;> cases g with
  | infinity t => cases t <;> simp [UnpackedFloat.compare, compare]
  | _ => simp [UnpackedFloat.compare]

theorem compare_zero_eq_iff (s : Sign) (g : UnpackedFloat) :
    (UnpackedFloat.zero s).compare g = some .eq ↔ ∃ t, g = .zero t := by
  cases g with
  | infinity t | finite t _ _ _ => cases t <;> simp [UnpackedFloat.compare]
  | _ => simp [UnpackedFloat.compare]

theorem compare_eq_iff (f g : UnpackedFloat) :
    (f.compare g == some .eq || f.isNaN && g.isNaN) ↔ unsigned f = unsigned g := by
  rw [Bool.or_eq_true, beq_iff_eq]
  cases f with
  | infinity s =>
    rw [compare_infinity_eq_iff]
    cases g <;> simp [unsigned, UnpackedFloat.isNaN, eq_comm]
  | notANumber => cases g <;> simp [UnpackedFloat.compare, unsigned, UnpackedFloat.isNaN]
  | zero s =>
    rw [compare_zero_eq_iff]
    cases g <;> simp [unsigned, UnpackedFloat.isNaN]
  | finite s m i hm =>
    cases g with
    | finite t n j hn => simp [unsigned, UnpackedFloat.isNaN, compare_finite_eq_iff]
    | infinity t => cases t <;> simp [UnpackedFloat.compare, unsigned, UnpackedFloat.isNaN]
    | notANumber => simp [UnpackedFloat.compare, unsigned, UnpackedFloat.isNaN]
    | zero t => cases s <;> simp [UnpackedFloat.compare, unsigned, UnpackedFloat.isNaN]

end Formula.Binary64

namespace Formula

open Binary64

/-- The one float for all floats that agree with it: a fixed one for those that are no numbers, and
zero without a sign. -/
def canonicalFloat (x : Float) : Float := if x.isNaN then 0 / 0 else if x = -0 then 0 else x

theorem unpack_canonicalFloat (x : Float) :
    (canonicalFloat x).toModel.unpack = unsigned x.toModel.unpack := by
  have hnegative : (-0 : Float).toModel.unpack = .zero .negative := rfl
  have hpositive : (0 : Float).toModel.unpack = .zero .positive := rfl
  unfold canonicalFloat
  split
  · rename_i hnan
    change x.toModel.unpack.isNaN = true at hnan
    generalize x.toModel.unpack = f at hnan
    cases f with
    | notANumber => rfl
    | _ => cases hnan
  · split
    · rename_i hzero
      rw [hzero, hnegative]
      exact hpositive
    · rename_i hzero
      cases hx : x.toModel.unpack with
      | zero s =>
        cases s with
        | positive => rfl
        | negative => exact absurd (eq_of_unpack_eq (hx.trans hnegative.symm)) hzero
      | _ => rfl

theorem numbersAgree_iff (x y : Float) :
    numbersAgree x y ↔ canonicalFloat x = canonicalFloat y := by
  have h := compare_eq_iff x.toModel.unpack y.toModel.unpack
  rw [← unpack_canonicalFloat, ← unpack_canonicalFloat] at h
  apply h.trans
  constructor
  · exact eq_of_unpack_eq
  · exact fun h => h ▸ rfl

end Formula
