import Formula.Evaluation.Builtin
import Formula.Proofs.FiniteFloat

/-! # How arithmetic ends in no number

The rules of float arithmetic for results that are not a number, read off the unpacked numbers that
it works on. Rounding makes no such result, so finite operands do not come to one, unless zero is
divided by zero. The integers of a term are finite floats, and zero only if they are zero.
-/

namespace Formula.Binary64

open Float.Model Float.Model.UnpackedFloat

variable {f g : UnpackedFloat} {a b : Int} {x y : Float}

/-! ## Rounding -/

theorem isNaN_unpack_pack (f : UnpackedFloat) :
    (unpack Format.binary64 (pack Format.binary64 f)).isNaN = f.isNaN := by
  cases f with
  | notANumber => decide
  | infinity sign => cases sign <;> decide
  | zero sign => exact isNaN_unpack_pack_zero sign
  | finite sign m e hm => exact isNaN_unpack_pack_finite sign m e hm

theorem isNaN_roundWithAccuracy (sign : Sign) (m : Nat) (e : Int) (acc : Accuracy) :
    (roundWithAccuracy Format.binary64 sign m e acc).isNaN = false := by
  rw [roundWithAccuracy]
  simp only
  split <;> rfl

theorem isNaN_normalize (m e : Int) (sign : Sign) :
    (UnpackedFloat.normalize Format.binary64 m e sign).isNaN = false := by
  rw [UnpackedFloat.normalize]
  split
  · exact isNaN_roundWithAccuracy _ _ _ _
  · rfl
  · exact isNaN_roundWithAccuracy _ _ _ _

/-! ## Finite operands -/

theorem isNaN_unpackedAdd (hf : ExponentAtMost a f) (hg : ExponentAtMost b g) :
    (UnpackedFloat.add Format.binary64 f g).isNaN = false := by
  cases hf with
  | zero sign₁ =>
    cases hg with
    | zero sign₂ =>
      rw [UnpackedFloat.add]
      split <;> rfl
    | finite sign₂ hm₂ he₂ => rfl
  | finite sign₁ hm₁ he₁ =>
    cases hg with
    | zero sign₂ => rfl
    | finite sign₂ hm₂ he₂ => exact isNaN_normalize _ _ _

theorem unpackedSub_eq_add_neg (spec : Format) (f g : UnpackedFloat) :
    UnpackedFloat.sub spec f g = UnpackedFloat.add spec f g.neg := by
  cases f with
  | finite sign₁ m₁ e₁ hm₁ =>
    cases g with
    | finite sign₂ m₂ e₂ hm₂ =>
      have hneg (k : Nat) : (-sign₂).apply k = -sign₂.apply k := by
        cases sign₂ with
        | negative => exact (Int.neg_neg _).symm
        | positive => rfl
      simp only [UnpackedFloat.neg, UnpackedFloat.sub, UnpackedFloat.add, hneg, Int.sub_eq_add_neg]
    | _ => rfl
  | _ => cases g <;> rfl

theorem isNaN_unpackedSub (hf : ExponentAtMost a f) (hg : ExponentAtMost b g) :
    (UnpackedFloat.sub Format.binary64 f g).isNaN = false := by
  rw [unpackedSub_eq_add_neg]
  exact isNaN_unpackedAdd hf hg.neg

theorem isNaN_unpackedDiv (hf : ExponentAtMost a f) (hg : ExponentAtMost b g)
    (hzero : ∀ sign, g ≠ .zero sign) :
    (UnpackedFloat.div Format.binary64 f g).isNaN = false := by
  cases hg with
  | zero sign₂ => exact absurd rfl (hzero sign₂)
  | finite sign₂ hm₂ he₂ =>
    cases hf with
    | zero sign₁ => rfl
    | finite sign₁ hm₁ he₁ => exact isNaN_roundWithAccuracy _ _ _ _

theorem isFinite_or (x : Float) : x.isFinite ∨ x.isNaN ∨ x.isInf := by
  change x.toModel.unpack.isFinite ∨ x.toModel.unpack.isNaN ∨ x.toModel.unpack.isInf
  cases x.toModel.unpack with
  | zero sign | finite sign m e hm => exact .inl rfl
  | notANumber => exact .inr (.inl rfl)
  | infinity sign => exact .inr (.inr rfl)

theorem isNaN_of_isFinite (h : x.isFinite) : x.isNaN = false := by
  change x.toModel.unpack.isNaN = false
  have hx := exponentAtMost_of_isFinite h
  generalize x.toModel.unpack = f at hx ⊢
  cases hx <;> rfl

theorem ne_zero_of_beq_zero (h : (y == 0) = false) (sign : Sign) : y.toModel.unpack ≠ .zero sign := by
  intro hy
  have hbeq : (y == 0) = true := by
    change (y.toModel.unpack.compare (0 : Float).toModel.unpack == some .eq) = true
    rw [hy]
    rfl
  rw [hbeq] at h
  cases h

theorem isNaN_neg (x : Float) : (-x).isNaN = x.isNaN := by
  change (unpack Format.binary64 (pack Format.binary64 x.toModel.unpack.neg)).isNaN =
    x.toModel.unpack.isNaN
  rw [isNaN_unpack_pack]
  cases x.toModel.unpack <;> rfl

theorem isNaN_add (hx : x.isFinite) (hy : y.isFinite) : (x + y).isNaN = false :=
  (isNaN_unpack_pack _).trans
    (isNaN_unpackedAdd (exponentAtMost_of_isFinite hx) (exponentAtMost_of_isFinite hy))

theorem isNaN_sub (hx : x.isFinite) (hy : y.isFinite) : (x - y).isNaN = false :=
  (isNaN_unpack_pack _).trans
    (isNaN_unpackedSub (exponentAtMost_of_isFinite hx) (exponentAtMost_of_isFinite hy))

theorem isNaN_mul (hx : x.isFinite) (hy : y.isFinite) : (x * y).isNaN = false :=
  isNaN_unpack_pack_mul (exponentAtMost_of_isFinite hx) (exponentAtMost_of_isFinite hy)

theorem isNaN_div (hx : x.isFinite) (hy : y.isFinite) (hzero : (y == 0) = false) :
    (x / y).isNaN = false :=
  (isNaN_unpack_pack _).trans
    (isNaN_unpackedDiv (exponentAtMost_of_isFinite hx) (exponentAtMost_of_isFinite hy)
      (ne_zero_of_beq_zero hzero))

theorem isNaN_of_isNaN_mul (h : (x * y).isNaN = false) : x.isNaN = false := by
  have hnan := (isNaN_unpack_pack _).symm.trans h
  change x.toModel.unpack.isNaN = false
  generalize x.toModel.unpack = f at hnan ⊢
  cases f with
  | notANumber => cases hnan
  | _ => rfl

/-! ## Integers -/

theorem targetExponent_eq (m : Nat) (e : Int) :
    Format.binary64.targetExponent (totalExponent m e) = target m e := by
  have hbits : (Format.binary64.mantissaBits : Int) = 53 := rfl
  have hmin : Format.binary64.minExponent = -1074 := rfl
  simp only [Format.targetExponent, totalExponent, hbits, hmin, target]
  omega

theorem atLeastOne_toFloat {n : UInt64} (h : n ≠ 0) : AtLeastOne n.toFloat.toModel.unpack := by
  change AtLeastOne (unpack Format.binary64
    (pack Format.binary64 (UnpackedFloat.normalize Format.binary64 n.toNat 0 .positive)))
  have hne : n.toNat ≠ 0 := fun hzero => h (UInt64.toNat_inj.mp hzero)
  have hlog : n.toNat.log2 < 64 := (Nat.log2_lt hne).mpr n.toNat_lt
  have hcompare : compare (n.toNat : Int) 0 = .gt := by
    rw [Int.compare_eq_gt]
    omega
  rw [UnpackedFloat.normalize, hcompare]
  simp only [Int.toNat_natCast, UnpackedFloat.round, decreaseExponent, Nat.shiftLeft_eq,
    targetExponent_eq, target]
  generalize hs : Int.toNat _ = s
  -- Rounding finds a mantissa that has all its bits already, and an exponent that is not too low.
  have hshift : (2 ^ s * n.toNat).log2 = n.toNat.log2 + s := log2_twoPow_mul hne
  rw [Nat.mul_comm]
  obtain ⟨m, e, hm, hround, hlog', hlow, hhigh⟩ :=
    roundWithAccuracy_normal .positive (m := 2 ^ s * n.toNat) (e := 0 - s) (by omega) (by omega)
  rw [hround]
  exact unpack_pack_normal .positive hlog' (by omega) (by omega)

theorem atLeastOne_neg (hx : AtLeastOne x.toModel.unpack) (hfinite : x.isFinite) :
    AtLeastOne (-x).toModel.unpack := by
  have hbound := exponentAtMost_of_isFinite hfinite
  change AtLeastOne (unpack Format.binary64 (pack Format.binary64 x.toModel.unpack.neg))
  generalize x.toModel.unpack = f at hx hbound ⊢
  cases hx with
  | finite sign hm hlog he =>
    cases hbound with
    | finite _ _ hmax => exact unpack_pack_normal _ hlog he hmax

theorem beq_zero_of_atLeastOne (h : AtLeastOne x.toModel.unpack) : (x == 0) = false := by
  have hzero : (0 : Float).toModel.unpack = .zero .positive := rfl
  change (x.toModel.unpack.compare (0 : Float).toModel.unpack == some .eq) = false
  rw [hzero]
  generalize x.toModel.unpack = f at h ⊢
  cases h with
  | finite sign hm hlog he => cases sign <;> rfl

end Formula.Binary64

namespace Formula

open Binary64

theorem isFinite_nearestFloat (n : Int64) : (nearestFloat n).isFinite := by
  have hmagnitude := isFinite_of_exponentAtMost (toFloat_atMost n.toInt.natAbs.toUInt64)
  rw [nearestFloat]
  split
  · exact isFinite_neg hmagnitude
  · exact hmagnitude

theorem toUInt64_natAbs_ne_zero {n : Int64} (h : n ≠ 0) : n.toInt.natAbs.toUInt64 ≠ 0 := by
  have hlow := n.le_toInt
  have hhigh := n.toInt_lt
  intro hzero
  have hnat : n.toInt.natAbs % 2 ^ 64 = 0 := congrArg UInt64.toNat hzero
  apply h
  apply Int64.toInt_inj.mp
  rw [Int64.toInt_zero]
  omega

theorem nearestFloat_beq_zero {n : Int64} (h : n ≠ 0) : (nearestFloat n == 0) = false := by
  have hmagnitude := atLeastOne_toFloat (toUInt64_natAbs_ne_zero h)
  apply beq_zero_of_atLeastOne
  rw [nearestFloat]
  split
  · exact atLeastOne_neg hmagnitude (isFinite_of_exponentAtMost (toFloat_atMost _))
  · exact hmagnitude

/-! ## Constants and factorials -/

namespace Builtin

theorem isNaN_of_constant?_eq_some {name : String} {x : Float} (h : constant? name = some x) :
    x.isNaN = false := by
  unfold constant? at h
  split at h <;> cases h <;> rfl

/-- A factorial is taken of a byte, so this is the greatest product there is. -/
theorem isNaN_product_byte : (product 255).isNaN = false := by decide +kernel

/-- A product that is a number has been one all along. -/
theorem isNaN_product_of_le {n k : Nat} (hle : n ≤ k) (h : (product k).isNaN = false) :
    (product n).isNaN = false := by
  induction hle with
  | refl => exact h
  | step hle ih => exact ih (isNaN_of_isNaN_mul h)

theorem isNaN_of_factorial?_eq_some {x y : Float} (h : factorial? x = some y) :
    y.isNaN = false := by
  unfold factorial? at h
  split at h
  · cases h
    exact isNaN_product_of_le (Nat.le_of_lt_succ x.toUInt8.toNat_lt) isNaN_product_byte
  · cases h

end Builtin

end Formula
