import Formula.Document.Number
import Formula.Proofs.Binary64
import Mathlib

/-! # Numbers of documents are finite

A float read from a number of a document is finite, although only one of the operations on the way
is checked for an overflow. The argument follows a bound on the exponent of the unpacked number
through rounding and division; the powers of ten that are divided by are at least one.
-/

namespace Formula.Binary64

open Float.Model Float.Model.UnpackedFloat

/-- Zero, or a number whose exponent is bounded. -/
inductive ExponentAtMost (bound : Int) : UnpackedFloat → Prop where
  | zero (sign : Sign) : ExponentAtMost bound (.zero sign)
  | finite (sign : Sign) {m : Nat} {e : Int} (hm : 0 < m) (he : e ≤ bound) :
    ExponentAtMost bound (.finite sign m e hm)

/-- A number from one on, with all its bits. -/
inductive AtLeastOne : UnpackedFloat → Prop where
  | finite (sign : Sign) {m : Nat} {e : Int} (hm : 0 < m) (hlog : m.log2 = 52) (he : -52 ≤ e) :
    AtLeastOne (.finite sign m e hm)

instance : DecidablePred AtLeastOne
  | .finite sign m e hm =>
    decidable_of_iff (m.log2 = 52 ∧ -52 ≤ e)
      ⟨fun h => .finite sign hm h.1 h.2, fun | .finite _ _ hlog he => ⟨hlog, he⟩⟩
  | .zero _ | .infinity _ | .notANumber => isFalse nofun

theorem isFinite_of_exponentAtMost {x : Float} {bound : Int}
    (h : ExponentAtMost bound x.toModel.unpack) : x.isFinite := by
  change x.toModel.unpack.isFinite = true
  generalize x.toModel.unpack = f at h ⊢
  cases h <;> rfl

/-! ## Packing -/

theorem unpack_packComponents (sign : Sign) (e : BitVec 11) (m : BitVec 52)
    (he : e.toNat < 2047) {bound : Int} (hmin : -1074 ≤ bound) (hmax : e.toNat - 1075 ≤ bound) :
    ExponentAtMost bound
      (unpack Format.binary64 (packComponents Format.binary64 sign e m)) := by
  have hinf : e ≠ -1#11 := by
    rintro rfl
    exact absurd he (by decide)
  have hbias : (Format.binary64.exponentBias : Int) = 1023 := rfl
  rw [UnpackedFloat.unpack]
  simp only [unpackMantissa_packComponents, unpackExponent_packComponents, hinf, if_false]
  split
  · rename_i hzero
    split
    · exact .zero _
    · rw [hzero, BitVec.toNat_zero] at hmax
      apply ExponentAtMost.finite
      rw [hzero, hbias, BitVec.toNat_zero]
      omega
  · apply ExponentAtMost.finite
    rw [hbias]
    omega

theorem unpack_pack {f : UnpackedFloat} {bound : Int} (h : ExponentAtMost bound f)
    (hmin : -1074 ≤ bound) (hmax : bound ≤ 971) :
    ExponentAtMost bound (unpack Format.binary64 (pack Format.binary64 f)) := by
  have hzero : ((0#11).toNat : Int) - 1075 ≤ bound := by
    rw [BitVec.toNat_zero]
    omega
  cases h with
  | zero sign => exact unpack_packComponents sign 0 0 (by decide) hmin hzero
  | finite sign hm he =>
    have hbias : (Format.binary64.exponentBias : Int) = 1023 := rfl
    have hwidth : (2 : Nat) ^ Format.binary64.exponentBits = 2048 := rfl
    simp only [UnpackedFloat.pack]
    split
    · rename_i hover
      rw [hbias, hwidth] at hover
      omega
    · split
      · refine unpack_packComponents sign _ _ ?_ hmin ?_ <;>
          simp only [BitVec.toNat_ofNat, hbias, hwidth] <;> omega
      · exact unpack_packComponents sign _ _ (by decide) hmin hzero

theorem log2_implicit (m : BitVec 52) : (1#1 ++ m).toNat.log2 = 52 := by
  have hval : (1#1 ++ m).toNat = 2 ^ 52 + m.toNat := by
    rw [BitVec.toNat_append, ← Nat.shiftLeft_add_eq_or_of_lt m.isLt, Nat.shiftLeft_eq]
    rfl
  have hlt := m.isLt
  rw [hval, Nat.log2_eq_iff (by omega)]
  omega

theorem unpack_pack_normal (sign : Sign) {m : Nat} {e : Int} {hm : 0 < m} (hlog : m.log2 = 52)
    (hmin : -52 ≤ e) (hmax : e ≤ 971) :
    AtLeastOne (unpack Format.binary64 (pack Format.binary64 (.finite sign m e hm))) := by
  have hbias : (Format.binary64.exponentBias : Int) = 1023 := rfl
  have hwidth : (2 : Nat) ^ Format.binary64.exponentBits = 2048 := rfl
  have hbits : m.log2 + 1 = Format.binary64.mantissaBits := by rw [hlog]; rfl
  generalize hbiased : (e + 1023 + 52).toNat = biased
  have hnat : (BitVec.ofNat 11 biased).toNat = biased := by
    rw [BitVec.toNat_ofNat, Nat.mod_eq_of_lt (by omega)]
  have hinf : BitVec.ofNat 11 biased ≠ -1#11 := by
    intro h
    have : (-1#11 : BitVec 11).toNat = 2047 := rfl
    rw [← h, hnat] at this
    omega
  have hzero : BitVec.ofNat 11 biased ≠ 0#11 := by
    intro h
    have : (0#11 : BitVec 11).toNat = 0 := rfl
    rw [← h, hnat] at this
    omega
  have hpack : pack Format.binary64 (.finite sign m e hm) =
      packComponents Format.binary64 sign (BitVec.ofNat 11 biased) (BitVec.ofNat 52 m) := by
    simp only [UnpackedFloat.pack, hbias, hwidth, Int.cast_ofNat_Int, hbiased]
    rw [if_neg (by omega), if_pos hbits]
  rw [hpack, UnpackedFloat.unpack]
  simp only [unpackMantissa_packComponents, unpackExponent_packComponents, hinf, hzero, if_false,
    hbias, hnat]
  exact .finite _ _ (log2_implicit _) (by omega)

theorem toModel_div (x y : Float) : (x / y).toModel.unpack =
    unpack Format.binary64 (pack Format.binary64
      (div Format.binary64 x.toModel.unpack y.toModel.unpack)) := rfl

theorem toModel_mul (x y : Float) : (x * y).toModel.unpack =
    unpack Format.binary64 (pack Format.binary64
      (mul Format.binary64 x.toModel.unpack y.toModel.unpack)) := rfl

theorem mantissa_lt_of_unpack {b : BitVec Format.binary64.numBits} {sign : Sign} {m : Nat}
    {e : Int} {hm : 0 < m} (h : unpack Format.binary64 b = .finite sign m e hm) :
    m < 2 ^ 53 := by
  rw [UnpackedFloat.unpack] at h
  simp only at h
  split at h
  · split at h <;> cases h
  · split at h
    · split at h
      · cases h
      · cases h
        have := (@unpackMantissa Format.binary64 b).isLt
        exact Nat.lt_trans this (by decide)
    · cases h
      exact (1#1 ++ @unpackMantissa Format.binary64 b).isLt

/-! ## Rounding -/

theorem mantissa_shiftRight (em : ExtendedMantissa) (n : Nat) :
    (em >>> n).mantissa = em.mantissa / 2 ^ n := by
  change (n.repeat ExtendedMantissa.shiftRightOne em).mantissa = _
  induction n with
  | zero => simp [Nat.repeat]
  | succ n ih =>
    rw [Nat.repeat, ExtendedMantissa.shiftRightOne, ih, Nat.div_div_eq_div_mul, Nat.pow_succ]

theorem roundedMantissa_bounds (em : ExtendedMantissa) :
    em.mantissa ≤ em.roundedMantissa ∧ em.roundedMantissa ≤ em.mantissa + 1 := by
  obtain ⟨m, r, s⟩ := em
  have := Nat.mod_lt m (by decide : 0 < 2)
  cases r <;> cases s <;>
    simp only [ExtendedMantissa.roundedMantissa, ExtendedMantissa.accuracy,
      Accuracy.roundToNearestEven] <;> omega

theorem mantissa_ofMantissaAndAccuracy (m : Nat) (acc : Accuracy) :
    (ExtendedMantissa.ofMantissaAndAccuracy m acc).mantissa = m := by
  cases acc with
  | exact => rfl
  | inexact o => cases o <;> rfl

/-- The exponent that a mantissa is brought to, in the format of floats. -/
def target (m : Nat) (e : Int) : Int := max (m.log2 + e - 52) (-1074)

theorem shiftToTargetExponent_snd (m : Nat) (e : Int) (acc : Accuracy) :
    (shiftToTargetExponent Format.binary64 m e acc).2 = max e (target m e) := by
  have hbits : (Format.binary64.mantissaBits : Int) = 53 := rfl
  have hmin : Format.binary64.minExponent = -1074 := rfl
  simp only [shiftToTargetExponent, shiftToExponent, Format.targetExponent, totalExponent, hbits,
    hmin, target]
  omega

theorem shiftToTargetExponent_fst (m : Nat) (e : Int) (acc : Accuracy) :
    (shiftToTargetExponent Format.binary64 m e acc).1.mantissa =
      m / 2 ^ (max e (target m e) - e).toNat := by
  have hsnd := shiftToTargetExponent_snd m e acc
  simp only [shiftToTargetExponent, shiftToExponent] at hsnd ⊢
  rw [mantissa_shiftRight, mantissa_ofMantissaAndAccuracy]
  congr 2
  omega

theorem log2_div_add_le {m n : Nat} (h : 0 < m / 2 ^ n) : (m / 2 ^ n).log2 + n ≤ m.log2 := by
  have hm : m ≠ 0 := by
    rintro rfl
    simp at h
  rw [Nat.le_log2 hm, Nat.pow_add]
  calc
    2 ^ (m / 2 ^ n).log2 * 2 ^ n ≤ m / 2 ^ n * 2 ^ n :=
      Nat.mul_le_mul_right _ (Nat.log2_self_le (Nat.pos_iff_ne_zero.mp h))
    _ ≤ m := Nat.div_mul_le_self m _

theorem log2_le_of_le_succ {q r : Nat} (hq : 0 < q) (h : r ≤ q + 1) : r.log2 ≤ q.log2 + 1 := by
  by_cases hr : r = 0
  · simp [hr]
  · have hlt : q < 2 ^ (q.log2 + 1) := Nat.lt_log2_self
    have hr2 : r < 2 ^ (q.log2 + 1 + 1) := by
      rw [Nat.pow_succ]
      omega
    have := (Nat.log2_lt hr).mpr hr2
    omega

theorem roundWithAccuracy_atMost (sign : Sign) (m : Nat) (e : Int) (acc : Accuracy) {bound : Int}
    (he : e ≤ bound) (hm : m.log2 + e - 51 ≤ bound) (hmin : -1074 ≤ bound) :
    ExponentAtMost bound (roundWithAccuracy Format.binary64 sign m e acc) := by
  rw [roundWithAccuracy]
  simp only
  generalize hfirst : shiftToTargetExponent Format.binary64 m e acc = first
  have hexp : first.2 = max e (target m e) := hfirst ▸ shiftToTargetExponent_snd m e acc
  have hmant : first.1.mantissa = m / 2 ^ (first.2 - e).toNat := by
    rw [hexp]
    exact hfirst ▸ shiftToTargetExponent_fst m e acc
  have hround := (roundedMantissa_bounds first.1).2
  split
  · exact .zero sign
  · apply ExponentAtMost.finite
    rw [shiftToTargetExponent_snd]
    have hlog : (first.1.roundedMantissa.log2 : Int) + first.2 ≤ m.log2 + e + 1 ∨
        first.1.roundedMantissa.log2 = 0 := by
      by_cases hq : 0 < m / 2 ^ (first.2 - e).toNat
      · have h1 := log2_div_add_le hq
        have h2 := log2_le_of_le_succ (hmant ▸ hq) hround
        rw [hmant] at h2
        omega
      · right
        have hr : first.1.roundedMantissa ≤ 1 := by omega
        obtain hr | hr := Nat.le_one_iff_eq_zero_or_eq_one.mp hr <;> rw [hr] <;> rfl
    simp only [target] at hexp ⊢
    omega

theorem bounds_div_twoPow {m : Nat} (hm : 52 ≤ m.log2) :
    2 ^ 52 ≤ m / 2 ^ (m.log2 - 52) ∧ m / 2 ^ (m.log2 - 52) < 2 ^ 53 := by
  have hm0 : m ≠ 0 := by
    rintro rfl
    simp at hm
  have hpos : 0 < 2 ^ (m.log2 - 52) := Nat.pow_pos (by decide)
  have hsplit : 2 ^ 52 * 2 ^ (m.log2 - 52) = 2 ^ m.log2 := by
    rw [← Nat.pow_add, Nat.add_sub_cancel' hm]
  have hnext : 2 ^ 53 * 2 ^ (m.log2 - 52) = 2 ^ (m.log2 + 1) := by
    rw [← Nat.pow_add]
    congr 1
    omega
  rw [Nat.le_div_iff_mul_le hpos, Nat.div_lt_iff_lt_mul hpos, hsplit, hnext]
  exact ⟨Nat.log2_self_le hm0, Nat.lt_log2_self⟩

theorem shiftToTargetExponent_rounded {r : Nat} {e : Int} (hlow : 2 ^ 52 ≤ r) (hhigh : r ≤ 2 ^ 53)
    (he : -1074 ≤ e) :
    (shiftToTargetExponent Format.binary64 r e .exact).1.mantissa.log2 = 52 ∧
      e ≤ (shiftToTargetExponent Format.binary64 r e .exact).2 ∧
      (shiftToTargetExponent Format.binary64 r e .exact).2 ≤ e + 1 := by
  have hr : r ≠ 0 := by omega
  rw [shiftToTargetExponent_fst, shiftToTargetExponent_snd]
  obtain hlt | hge := Nat.lt_or_ge r (2 ^ 53)
  · have hlog : r.log2 = 52 := (Nat.log2_eq_iff hr).mpr ⟨hlow, hlt⟩
    have hsame : max e (target r e) = e := by
      simp only [target, hlog]
      omega
    rw [hsame, Int.sub_self, Int.toNat_zero, Nat.pow_zero, Nat.div_one]
    exact ⟨hlog, by omega, by omega⟩
  · -- Rounding has carried into a new bit, which this shift takes away.
    have hcarry : r = 2 ^ 53 := by omega
    have hlog : r.log2 = 53 := by rw [hcarry]; exact Nat.log2_two_pow
    have hnext : max e (target r e) = e + 1 := by
      simp only [target, hlog]
      omega
    have hone : (e + 1 - e).toNat = 1 := by omega
    have hhalf : 2 ^ 53 / 2 ^ 1 = 2 ^ 52 := rfl
    rw [hnext, hone, hcarry, hhalf]
    exact ⟨Nat.log2_two_pow, by omega, by omega⟩

/-- A number with all its bits and no extreme exponent is rounded to another one. -/
theorem roundWithAccuracy_normal (sign : Sign) {m : Nat} {e : Int} (hm : 52 ≤ m.log2)
    (he : -1022 ≤ m.log2 + e) :
    ∃ m' e' h, roundWithAccuracy Format.binary64 sign m e .exact = .finite sign m' e' h ∧
      m'.log2 = 52 ∧ m.log2 + e - 52 ≤ e' ∧ e' ≤ m.log2 + e - 51 := by
  have htarget : max e (target m e) = m.log2 + e - 52 := by
    simp only [target]
    omega
  rw [roundWithAccuracy]
  simp only
  generalize hfirst : shiftToTargetExponent Format.binary64 m e .exact = first
  have hexp : first.2 = m.log2 + e - 52 := by
    rw [← hfirst, shiftToTargetExponent_snd, htarget]
  have hmant : first.1.mantissa = m / 2 ^ (m.log2 - 52) := by
    rw [← hfirst, shiftToTargetExponent_fst, htarget]
    congr 2
    omega
  have hfull : 2 ^ 52 ≤ first.1.mantissa ∧ first.1.mantissa < 2 ^ 53 := by
    rw [hmant]
    exact bounds_div_twoPow hm
  obtain ⟨hlow, hhigh⟩ := roundedMantissa_bounds first.1
  obtain ⟨hlog, hge, hle⟩ := shiftToTargetExponent_rounded (e := first.2)
    (Nat.le_trans hfull.1 hlow) (by omega) (by omega)
  generalize shiftToTargetExponent Format.binary64 first.1.roundedMantissa first.2 .exact = second
    at hlog hge hle ⊢
  have hpos : second.1.mantissa ≠ 0 := by
    intro hzero
    rw [hzero] at hlog
    cases hlog
  refine ⟨_, second.2, Nat.pos_iff_ne_zero.mpr hpos, ?_, hlog, by omega, by omega⟩
  simp only [hpos, dite_false]

/-! ## Powers of ten -/

theorem tenTo_of_le {k : Nat} (h : 22 < k) : (Document.tenTo k).toModel.unpack =
    unpack Format.binary64 (pack Format.binary64 (ofScientific Format.binary64 1 k)) := by
  have hfast : ¬((1 : Nat) < 2 ^ 53 ∧ k ≤ 22) := by omega
  rw [Document.tenTo, Float.ofScientific, dif_neg hfast]
  rfl

theorem log2_tenPow_lt {k : Nat} (hk : k ≤ 307) : (10 ^ k).log2 < 1020 := by
  rw [Nat.log2_lt (Nat.pos_iff_ne_zero.mp (Nat.pow_pos (by decide)))]
  calc
    10 ^ k ≤ 10 ^ 307 := Nat.pow_le_pow_right (by decide) hk
    _ < 2 ^ 1020 := by decide +kernel

theorem log2_twoPow_mul {k n : Nat} (hn : n ≠ 0) : (2 ^ k * n).log2 = n.log2 + k := by
  have hpos : 2 ^ k * n ≠ 0 := Nat.mul_ne_zero (Nat.pos_iff_ne_zero.mp (Nat.pow_pos (by decide))) hn
  rw [Nat.log2_eq_iff hpos, Nat.mul_comm, Nat.pow_add, Nat.add_right_comm, Nat.pow_add]
  exact ⟨Nat.mul_le_mul_right _ (Nat.log2_self_le hn),
    Nat.mul_lt_mul_of_pos_right Nat.lt_log2_self (Nat.pow_pos (by decide))⟩

theorem atLeastOne_tenTo_of_mem :
    ∀ k ∈ 308 :: List.range 23, AtLeastOne (Document.tenTo k).toModel.unpack := by
  decide +kernel

theorem atLeastOne_tenTo_of_lt {k : Nat} (hlow : 22 < k) (hhigh : k ≤ 307) :
    AtLeastOne (Document.tenTo k).toModel.unpack := by
  have hne : 10 ^ k ≠ 0 := Nat.pos_iff_ne_zero.mp (Nat.pow_pos (by decide))
  have hlog : (2 ^ 53 * 10 ^ k).log2 = (10 ^ k).log2 + 53 := log2_twoPow_mul hne
  have hlt := log2_tenPow_lt hhigh
  have hscientific : ofScientific Format.binary64 1 k =
      roundWithAccuracy Format.binary64 .positive (2 ^ 53 * 10 ^ k) (-53) .exact := by
    have hhuge : ¬(k : Int) > 2 ^ Format.binary64.exponentBits := by
      have : (2 : Int) ^ Format.binary64.exponentBits = 2048 := rfl
      omega
    have htiny : ¬(k : Int) < -((2 : Int) ^ Format.binary64.exponentBits + (1 : Nat).log2) := by
      have : (2 : Int) ^ Format.binary64.exponentBits = 2048 := rfl
      omega
    rw [UnpackedFloat.ofScientific, dif_neg Nat.one_ne_zero, if_neg hhuge, if_neg htiny,
      if_pos (Int.natCast_nonneg k)]
    rfl
  rw [tenTo_of_le hlow, hscientific]
  generalize 10 ^ k = n at hne hlog hlt ⊢
  obtain ⟨m, e, h, hround, hm, he, he'⟩ :=
    roundWithAccuracy_normal .positive (m := 2 ^ 53 * n) (e := -53) (by omega) (by omega)
  rw [hround]
  exact unpack_pack_normal .positive hm (by omega) (by omega)

theorem atLeastOne_tenTo {k : Nat} (hk : k ≤ 308) :
    AtLeastOne (Document.tenTo k).toModel.unpack := by
  by_cases hmem : k ∈ 308 :: List.range 23
  · exact atLeastOne_tenTo_of_mem k hmem
  · rw [List.mem_cons, List.mem_range] at hmem
    exact atLeastOne_tenTo_of_lt (by omega) (by omega)

/-! ## Division -/

theorem log2_mul_twoPow_div_le {m n k : Nat} (h : 0 < m * 2 ^ k / n) :
    (m * 2 ^ k / n).log2 + n.log2 ≤ m.log2 + k := by
  have hn : n ≠ 0 := by
    rintro rfl
    simp at h
  have hmk : m * 2 ^ k ≠ 0 := by
    intro hzero
    simp [hzero] at h
  have hm : m ≠ 0 := by
    rintro rfl
    simp at hmk
  have hle : 2 ^ ((m * 2 ^ k / n).log2 + n.log2) ≤ m * 2 ^ k := by
    rw [Nat.pow_add]
    calc
      2 ^ (m * 2 ^ k / n).log2 * 2 ^ n.log2 ≤ m * 2 ^ k / n * n :=
        Nat.mul_le_mul (Nat.log2_self_le (Nat.pos_iff_ne_zero.mp h)) (Nat.log2_self_le hn)
      _ ≤ m * 2 ^ k := Nat.div_mul_le_self _ n
  have hlt : m * 2 ^ k < 2 ^ (m.log2 + 1 + k) := by
    rw [Nat.pow_add]
    exact Nat.mul_lt_mul_of_pos_right Nat.lt_log2_self (Nat.pow_pos (by decide))
  have := (Nat.pow_lt_pow_iff_right (by decide : 1 < 2)).mp (Nat.lt_of_le_of_lt hle hlt)
  omega

theorem div_atMost {x y : Float} {bound : Int} (hx : ExponentAtMost bound x.toModel.unpack)
    (hy : AtLeastOne y.toModel.unpack) (hmin : -1074 ≤ bound) (hmax : bound ≤ 919) :
    ExponentAtMost (bound + 52) (x / y).toModel.unpack := by
  rw [toModel_div]
  have hwidth : ∀ sign m e hm, x.toModel.unpack = .finite sign m e hm → m.log2 < 53 :=
    fun _ _ _ hm h => (Nat.log2_lt (Nat.pos_iff_ne_zero.mp hm)).mpr (mantissa_lt_of_unpack h)
  generalize x.toModel.unpack = f at hx hwidth ⊢
  generalize y.toModel.unpack = g at hy ⊢
  refine unpack_pack ?_ (by omega) (by omega)
  cases hy with
  | @finite sign₂ m₂ e₂ hm₂ hlog₂ he₂ =>
    cases hx with
    | zero sign₁ => exact .zero _
    | @finite sign₁ m₁ e₁ hm₁ he₁ =>
      have hlog₁ := hwidth sign₁ m₁ e₁ hm₁ rfl
      simp only [UnpackedFloat.div, divCore]
      generalize htarget : min (e₁ - e₂) (Format.binary64.targetExponent
        (totalExponent m₁ e₁ - totalExponent m₂ e₂)) = t
      have ht : t ≤ e₁ - e₂ := by omega
      rw [Nat.shiftLeft_eq]
      refine roundWithAccuracy_atMost _ _ _ _ (by omega) ?_ (by omega)
      by_cases hq : 0 < m₁ * 2 ^ (e₁ - e₂ - t).toNat / m₂
      · have := log2_mul_twoPow_div_le hq
        omega
      · rw [Nat.eq_zero_of_not_pos hq, Nat.log2_zero]
        omega

/-! ## Finiteness -/

theorem exponentAtMost_of_isFinite {x : Float} (h : x.isFinite) :
    ExponentAtMost 971 x.toModel.unpack := by
  change x.toModel.unpack.isFinite = true at h
  have hbias : (Format.binary64.exponentBias : Int) = 1023 := rfl
  rw [Float.Model.unpack, UnpackedFloat.unpack] at h ⊢
  simp only at h ⊢
  generalize hexp : @unpackExponent Format.binary64 x.toModel.toBits.toBitVec = e at h ⊢
  split at h
  · split at h <;> cases h
  · rename_i hinf
    have hlt : e.toNat < 2047 := by
      have hle : e.toNat ≤ 2047 := Nat.le_of_lt_succ e.isLt
      exact Nat.lt_of_le_of_ne hle fun heq => hinf (BitVec.eq_of_toNat_eq heq)
    rw [if_neg hinf]
    split
    · rename_i hzero
      split
      · exact .zero _
      · apply ExponentAtMost.finite
        rw [hzero, hbias, BitVec.toNat_zero]
        decide
    · apply ExponentAtMost.finite
      rw [hbias]
      omega

theorem isNaN_unpack_pack_zero (sign : Sign) :
    (unpack Format.binary64 (pack Format.binary64 (.zero sign))).isNaN = false := by
  cases sign <;> decide

theorem isNaN_unpack_pack_finite (sign : Sign) (m : Nat) (e : Int) (hm : 0 < m) :
    (unpack Format.binary64 (pack Format.binary64 (.finite sign m e hm))).isNaN = false := by
  by_cases he : e ≤ 971
  · have h := unpack_pack (.finite sign hm (Int.le_max_left e (-1074))) (Int.le_max_right ..)
      (by omega)
    generalize unpack Format.binary64 (pack Format.binary64 (.finite sign m e hm)) = f at h ⊢
    cases h <;> rfl
  · have hbias : (Format.binary64.exponentBias : Int) = 1023 := rfl
    have hwidth : (2 : Nat) ^ Format.binary64.exponentBits = 2048 := rfl
    have hover : 2 ^ Format.binary64.exponentBits ≤
        (e + Format.binary64.exponentBias + (52 : Nat)).toNat + 1 := by
      rw [hbias, hwidth]
      omega
    rw [UnpackedFloat.pack]
    simp only [hover, if_true, packedInfinity]
    rw [UnpackedFloat.unpack]
    simp [UnpackedFloat.isNaN]

theorem isNaN_unpack_pack_mul {f g : UnpackedFloat} {a b : Int} (hf : ExponentAtMost a f)
    (hg : ExponentAtMost b g) : (unpack Format.binary64
      (pack Format.binary64 (mul Format.binary64 f g))).isNaN = false := by
  cases hf with
  | zero sign₁ =>
    cases hg with
    | zero sign₂ => exact isNaN_unpack_pack_zero _
    | finite sign₂ hm₂ he₂ => exact isNaN_unpack_pack_zero _
  | finite sign₁ hm₁ he₁ =>
    cases hg with
    | zero sign₂ => exact isNaN_unpack_pack_zero _
    | finite sign₂ hm₂ he₂ =>
      rw [UnpackedFloat.mul, roundWithAccuracy]
      simp only
      split
      · exact isNaN_unpack_pack_zero _
      · exact isNaN_unpack_pack_finite _ _ _ _

theorem ExponentAtMost.neg {a : Int} {f : UnpackedFloat} (hf : ExponentAtMost a f) :
    ExponentAtMost a f.neg := by
  cases hf with
  | zero sign => exact .zero _
  | finite sign hm he => exact .finite _ hm he

theorem isFinite_neg {x : Float} (h : x.isFinite) : (-x).isFinite := by
  have hx := exponentAtMost_of_isFinite h
  suffices h : ExponentAtMost 971 (-x).toModel.unpack from isFinite_of_exponentAtMost h
  change ExponentAtMost 971
    (unpack Format.binary64 (pack Format.binary64 x.toModel.unpack.neg))
  exact unpack_pack hx.neg (by decide) (by decide)

theorem isFinite_mul {x y : Float} (hx : x.isFinite) (hy : y.isFinite)
    (hinf : (x * y).isInf = false) : (x * y).isFinite := by
  have hnan : (x * y).toModel.unpack.isNaN = false := by
    rw [toModel_mul]
    exact isNaN_unpack_pack_mul (exponentAtMost_of_isFinite hx) (exponentAtMost_of_isFinite hy)
  change (x * y).toModel.unpack.isInf = false at hinf
  change (x * y).toModel.unpack.isFinite = true
  generalize (x * y).toModel.unpack = f at hnan hinf ⊢
  cases f with
  | infinity sign => cases hinf
  | notANumber => cases hnan
  | _ => rfl

theorem toFloat_atMost (n : UInt64) : ExponentAtMost 12 n.toFloat.toModel.unpack := by
  change ExponentAtMost 12 (unpack Format.binary64
    (pack Format.binary64 (UnpackedFloat.normalize Format.binary64 n.toNat 0 .positive)))
  refine unpack_pack ?_ (by decide) (by decide)
  have hlt : n.toNat < 2 ^ 64 := n.toNat_lt
  rw [UnpackedFloat.normalize]
  split
  · rename_i hneg
    rw [Int.compare_eq_lt] at hneg
    omega
  · exact .zero _
  · rename_i hpos
    rw [Int.compare_eq_gt] at hpos
    have hne : n.toNat ≠ 0 := by omega
    have hlog : n.toNat.log2 < 64 := (Nat.log2_lt hne).mpr hlt
    rw [Int.toNat_natCast, UnpackedFloat.round]
    simp only [decreaseExponent, Nat.shiftLeft_eq]
    generalize Int.toNat _ = s
    rw [Nat.mul_comm]
    refine roundWithAccuracy_atMost _ _ _ _ (by omega) ?_ (by decide)
    rw [log2_twoPow_mul hne]
    omega

end Formula.Binary64

namespace Formula.Document

open Binary64

theorem isFinite_divided (n : UInt64) (k : Nat) : (divided n.toFloat k).isFinite := by
  unfold divided
  split
  · rename_i hk
    exact isFinite_of_exponentAtMost
      (div_atMost (toFloat_atMost n) (atLeastOne_tenTo hk) (by decide) (by decide))
  · split
    · rename_i hk
      have hfirst := div_atMost (toFloat_atMost n) (atLeastOne_tenTo (Nat.le_refl 308)) (by decide)
        (by decide)
      exact isFinite_of_exponentAtMost
        (div_atMost hfirst (atLeastOne_tenTo (by omega)) (by decide) (by decide))
    · rfl

theorem isFinite_tenTo {k : Nat} (hk : k ≤ 308) : (tenTo k).isFinite := by
  have h := atLeastOne_tenTo hk
  change (tenTo k).toModel.unpack.isFinite = true
  generalize (tenTo k).toModel.unpack = f at h ⊢
  cases h
  rfl

theorem isFinite_of_scaled? {n : UInt64} {e : Int} {x : Float}
    (h : scaled? n.toFloat e = some x) : x.isFinite := by
  unfold scaled? at h
  split at h
  · cases h
    exact isFinite_divided n _
  · split at h
    · simp only at h
      split at h
      · cases h
      · rename_i hinf
        cases h
        exact isFinite_mul (isFinite_of_exponentAtMost (toFloat_atMost n))
          (isFinite_tenTo (by omega)) (Bool.not_eq_true _ ▸ hinf)
    · split at h
      · cases h
        rfl
      · cases h

/-- Whatever number a document spells, it is read as a finite float or not at all. -/
theorem isFinite_of_toFloat? {n : Decimal.Numeral} {x : Float} (h : toFloat? n = some x) :
    x.isFinite := by
  obtain ⟨y, hy, heq⟩ := Option.map_eq_some_iff.mp h
  have hfinite := isFinite_of_scaled? hy
  split at heq
  · rw [← heq]
    exact isFinite_neg hfinite
  · rw [← heq]
    exact hfinite

end Formula.Document
