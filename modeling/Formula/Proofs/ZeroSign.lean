import Formula.Proofs.FloatEquality
import Formula.Proofs.NotANumber

/-! # What the sign of a zero decides

Two numbers that agree are the same float, or they are zeros, so an operation respects agreement if
the sign of a zero makes no difference to its result but the sign of a zero. Sums, differences and
products do so, and quotients by what is not zero, and the elementary functions by the values that
they are documented to have at zeros. A power of a zero does so unless its exponent is a negative
odd integer: then it is infinite, with the sign of the zero.
-/

namespace Formula

open Binary64

variable {x x' y y' z : Float}

theorem numbersAgree_refl (x : Float) : numbersAgree x x := (numbersAgree_iff x x).mpr rfl

theorem numbersAgree_symm (h : numbersAgree x y) : numbersAgree y x :=
  (numbersAgree_iff y x).mpr ((numbersAgree_iff x y).mp h).symm

theorem numbersAgree_trans (hxy : numbersAgree x y) (hyz : numbersAgree y z) : numbersAgree x z :=
  (numbersAgree_iff x z).mpr (((numbersAgree_iff x y).mp hxy).trans ((numbersAgree_iff y z).mp hyz))

namespace Binary64

open Float.Model Float.Model.UnpackedFloat

variable {f g : UnpackedFloat}

theorem numbersAgree_iff_unsigned :
    numbersAgree x y ↔ unsigned x.toModel.unpack = unsigned y.toModel.unpack :=
  compare_eq_iff x.toModel.unpack y.toModel.unpack

theorem eq_or_zeros_of_unsigned_eq (h : unsigned f = unsigned g) :
    f = g ∨ ∃ s t, f = .zero s ∧ g = .zero t := by
  cases f with
  | zero s =>
    cases g with
    | zero t => exact .inr ⟨s, t, rfl, rfl⟩
    | _ => cases h
  | _ =>
    cases g with
    | zero t => cases h
    | _ => exact .inl h

theorem unpack_pack_zero (s : Sign) :
    unpack Format.binary64 (pack Format.binary64 (.zero s)) = .zero s := by
  cases s <;> rfl

/-- Results agree as soon as they do before they are packed. -/
theorem numbersAgree_of_unpack
    (hx : x.toModel.unpack = unpack Format.binary64 (pack Format.binary64 f))
    (hy : y.toModel.unpack = unpack Format.binary64 (pack Format.binary64 g))
    (h : unsigned f = unsigned g) : numbersAgree x y := by
  rw [numbersAgree_iff_unsigned, hx, hy]
  obtain rfl | ⟨s, t, rfl, rfl⟩ := eq_or_zeros_of_unsigned_eq h
  · rfl
  · rw [unpack_pack_zero, unpack_pack_zero]
    rfl

theorem eq_zero_of_unpack {s : Sign} (h : x.toModel.unpack = .zero s) : x = 0 ∨ x = -0 := by
  cases s with
  | positive => exact .inl (eq_of_unpack_eq h)
  | negative => exact .inr (eq_of_unpack_eq h)

theorem unsigned_zero_add (s : Sign) (g : UnpackedFloat) :
    unsigned (UnpackedFloat.add Format.binary64 (.zero s) g) = unsigned g := by
  cases g with
  | zero t => cases s <;> cases t <;> rfl
  | _ => rfl

theorem unsigned_add_zero (f : UnpackedFloat) (s : Sign) :
    unsigned (UnpackedFloat.add Format.binary64 f (.zero s)) = unsigned f := by
  cases f with
  | zero t => cases s <;> cases t <;> rfl
  | _ => rfl

theorem unsigned_zero_sub (s : Sign) (g : UnpackedFloat) :
    unsigned (UnpackedFloat.sub Format.binary64 (.zero s) g) = unsigned g.neg := by
  rw [unpackedSub_eq_add_neg]
  exact unsigned_zero_add s g.neg

theorem unsigned_sub_zero (f : UnpackedFloat) (s : Sign) :
    unsigned (UnpackedFloat.sub Format.binary64 f (.zero s)) = unsigned f := by
  rw [unpackedSub_eq_add_neg]
  exact unsigned_add_zero f (-s)

theorem unsigned_zero_mul (s t : Sign) (g : UnpackedFloat) :
    unsigned (UnpackedFloat.mul Format.binary64 (.zero s) g) =
      unsigned (UnpackedFloat.mul Format.binary64 (.zero t) g) := by
  cases g <;> rfl

theorem unsigned_mul_zero (f : UnpackedFloat) (s t : Sign) :
    unsigned (UnpackedFloat.mul Format.binary64 f (.zero s)) =
      unsigned (UnpackedFloat.mul Format.binary64 f (.zero t)) := by
  cases f <;> rfl

theorem unsigned_zero_div (s t : Sign) (g : UnpackedFloat) :
    unsigned (UnpackedFloat.div Format.binary64 (.zero s) g) =
      unsigned (UnpackedFloat.div Format.binary64 (.zero t) g) := by
  cases g <;> rfl

end Binary64

theorem eq_or_zeros_of_numbersAgree (h : numbersAgree x y) :
    x = y ∨ x = 0 ∧ y = -0 ∨ x = -0 ∧ y = 0 := by
  obtain heq | ⟨s, t, hx, hy⟩ := eq_or_zeros_of_unsigned_eq (numbersAgree_iff_unsigned.mp h)
  · exact .inl (eq_of_unpack_eq heq)
  · obtain rfl | rfl := eq_zero_of_unpack hx <;> obtain rfl | rfl := eq_zero_of_unpack hy
    · exact .inl rfl
    · exact .inr (.inl ⟨rfl, rfl⟩)
    · exact .inr (.inr ⟨rfl, rfl⟩)
    · exact .inl rfl

theorem numbersAgree_map {f : Float → Float} (hzero : numbersAgree (f 0) (f (-0)))
    (h : numbersAgree x y) : numbersAgree (f x) (f y) := by
  obtain rfl | ⟨rfl, rfl⟩ | ⟨rfl, rfl⟩ := eq_or_zeros_of_numbersAgree h
  · exact numbersAgree_refl (f x)
  · exact hzero
  · exact numbersAgree_symm hzero

theorem numbersAgree_map₂ {f : Float → Float → Float}
    (hleft : ∀ y, numbersAgree (f 0 y) (f (-0) y)) (hright : ∀ x, numbersAgree (f x 0) (f x (-0)))
    (hx : numbersAgree x x') (hy : numbersAgree y y') : numbersAgree (f x y) (f x' y') :=
  numbersAgree_trans (numbersAgree_map (f := (f · y)) (hleft y) hx)
    (numbersAgree_map (hright x') hy)

theorem isNaN_eq_of_numbersAgree (h : numbersAgree x y) : x.isNaN = y.isNaN := by
  obtain rfl | ⟨rfl, rfl⟩ | ⟨rfl, rfl⟩ := eq_or_zeros_of_numbersAgree h <;> rfl

/-! ## Arithmetic -/

theorem numbersAgree_neg (h : numbersAgree x y) : numbersAgree (-x) (-y) :=
  numbersAgree_map (f := (- ·)) (by rfl) h

theorem numbersAgree_sqrt (h : numbersAgree x y) : numbersAgree x.sqrt y.sqrt :=
  numbersAgree_map (by rfl) h

theorem numbersAgree_abs (h : numbersAgree x y) : numbersAgree x.abs y.abs :=
  numbersAgree_map (by rfl) h

theorem numbersAgree_add (hx : numbersAgree x x') (hy : numbersAgree y y') :
    numbersAgree (x + y) (x' + y') := by
  apply numbersAgree_map₂ _ _ hx hy
  · intro y
    exact numbersAgree_of_unpack rfl rfl ((unsigned_zero_add .positive _).trans
      (unsigned_zero_add .negative _).symm)
  · intro x
    exact numbersAgree_of_unpack rfl rfl ((unsigned_add_zero _ .positive).trans
      (unsigned_add_zero _ .negative).symm)

theorem numbersAgree_sub (hx : numbersAgree x x') (hy : numbersAgree y y') :
    numbersAgree (x - y) (x' - y') := by
  apply numbersAgree_map₂ _ _ hx hy
  · intro y
    exact numbersAgree_of_unpack rfl rfl ((unsigned_zero_sub .positive _).trans
      (unsigned_zero_sub .negative _).symm)
  · intro x
    exact numbersAgree_of_unpack rfl rfl ((unsigned_sub_zero _ .positive).trans
      (unsigned_sub_zero _ .negative).symm)

theorem numbersAgree_mul (hx : numbersAgree x x') (hy : numbersAgree y y') :
    numbersAgree (x * y) (x' * y') := by
  apply numbersAgree_map₂ _ _ hx hy
  · exact fun y => numbersAgree_of_unpack rfl rfl (unsigned_zero_mul .positive .negative _)
  · exact fun x => numbersAgree_of_unpack rfl rfl (unsigned_mul_zero _ .positive .negative)

theorem beq_zero_of_numbersAgree (h : numbersAgree x y) : (x == 0) = (y == 0) := by
  obtain rfl | ⟨rfl, rfl⟩ | ⟨rfl, rfl⟩ := eq_or_zeros_of_numbersAgree h <;> rfl

/-- A divisor has to be the same float: the sign of a zero would become that of the quotient. -/
theorem numbersAgree_div (hx : numbersAgree x x') (hy : numbersAgree y y') (hzero : ¬y == 0) :
    numbersAgree (x / y) (x' / y') := by
  obtain rfl | ⟨rfl, -⟩ | ⟨rfl, -⟩ := eq_or_zeros_of_numbersAgree hy
  · apply numbersAgree_map (f := (· / y)) _ hx
    exact numbersAgree_of_unpack rfl rfl (unsigned_zero_div .positive .negative _)
  · exact absurd rfl hzero
  · exact absurd rfl hzero

theorem Builtin.factorial?_eq_of_numbersAgree (h : numbersAgree x y) :
    factorial? x = factorial? y := by
  obtain rfl | ⟨rfl, rfl⟩ | ⟨rfl, rfl⟩ := eq_or_zeros_of_numbersAgree h
  · rfl
  · decide +kernel
  · decide +kernel

/-! ## Elementary functions -/

/-- The float is an odd integer. -/
def isOddInteger (y : Float) : Bool :=
  let n := y.toModel.unpack.toInt 0 0
  Float.ofInt n == y && n % 2 == 1

/-- The power of a zero without a sign. -/
def zeroPower (y : Float) : Float :=
  if y == 0 then 1 else if y < 0 then .inf else if 0 < y then 0 else .nan

theorem not_isOddInteger_of_beq_zero (h : y == 0) : ¬isOddInteger y := by
  have hagree : numbersAgree y 0 := by rw [numbersAgree, h, Bool.true_or]
  obtain rfl | ⟨rfl, -⟩ | ⟨rfl, -⟩ := eq_or_zeros_of_numbersAgree hagree <;> decide +kernel

/-- The two bases are zeros of opposite sign, and the exponent is a negative odd integer. -/
def SignDecides (x x' y : Float) : Prop :=
  x == 0 ∧ x' == 0 ∧ x ≠ x' ∧ y < 0 ∧ isOddInteger y

namespace Elementary

/-- The functions that a zero passes through with its sign. -/
def keepingZeros (lib : Elementary) : List (Float → Float) :=
  [lib.sin, lib.tan, lib.asin, lib.atan, lib.sinh, lib.tanh, lib.floor, lib.ceil]

/-- The functions that have the same value at both zeros, with this value. -/
def joiningZeros (lib : Elementary) : List ((Float → Float) × Float) :=
  [(lib.cos, 1), (lib.acos, lib.acos 0), (lib.cosh, 1), (lib.exp, 1), (lib.log, -.inf),
    (lib.log10, -.inf), (lib.log2, -.inf)]

/-- What the functions of a library are documented to be at zeros. -/
structure ZeroLaws (lib : Elementary) : Prop where
  keeping : ∀ f ∈ lib.keepingZeros, f 0 = 0 ∧ f (-0) = -0
  joining : ∀ p ∈ lib.joiningZeros, p.1 0 = p.2 ∧ p.1 (-0) = p.2
  pow_zero : ∀ x, lib.pow x 0 = 1 ∧ lib.pow x (-0) = 1
  zero_pow : ∀ y, lib.pow 0 y = zeroPower y
  negZero_pow : ∀ y, lib.pow (-0) y = if isOddInteger y then -zeroPower y else zeroPower y

theorem mem_of_function?_eq_some {lib : Elementary} {name : String} {f : Float → Float}
    (h : Builtin.function? lib name = some f) :
    f ∈ lib.keepingZeros ∨ (∃ x, (f, x) ∈ lib.joiningZeros) ∨ f = Float.sqrt ∨ f = Float.abs := by
  unfold Builtin.function? at h
  split at h <;> cases h <;> simp [keepingZeros, joiningZeros, exists_or]

namespace ZeroLaws

variable {lib : Elementary} (laws : lib.ZeroLaws)

include laws

theorem numbersAgree_function {name : String} {f : Float → Float}
    (hf : Builtin.function? lib name = some f) (h : numbersAgree x y) :
    numbersAgree (f x) (f y) := by
  obtain hf | ⟨value, hf⟩ | rfl | rfl := mem_of_function?_eq_some hf
  · apply numbersAgree_map _ h
    rw [(laws.keeping f hf).1, (laws.keeping f hf).2]
    rfl
  · apply numbersAgree_map _ h
    obtain ⟨hpositive, hnegative⟩ := laws.joining _ hf
    change f 0 = value at hpositive
    change f (-0) = value at hnegative
    rw [hpositive, hnegative]
    exact numbersAgree_refl value
  · exact numbersAgree_sqrt h
  · exact numbersAgree_abs h

theorem numbersAgree_zero_pow (hy : ¬(y < 0 ∧ isOddInteger y)) :
    numbersAgree (lib.pow 0 y) (lib.pow (-0) y) := by
  rw [laws.zero_pow, laws.negZero_pow]
  split
  · rename_i hodd
    have hnegative : ¬y < 0 := fun h => hy ⟨h, hodd⟩
    have hzero : ¬y == 0 := fun h => not_isOddInteger_of_beq_zero h hodd
    unfold zeroPower
    rw [if_neg hzero, if_neg hnegative]
    split <;> rfl
  · exact numbersAgree_refl _

theorem numbersAgree_pow (hx : numbersAgree x x') (hy : numbersAgree y y')
    (hsign : ¬(y = y' ∧ SignDecides x x' y)) :
    numbersAgree (lib.pow x y) (lib.pow x' y') := by
  obtain rfl | ⟨rfl, rfl⟩ | ⟨rfl, rfl⟩ := eq_or_zeros_of_numbersAgree hy
  · have hexponent (hzero : x == 0) (hzero' : x' == 0) (hne : x ≠ x') :
        ¬(y < 0 ∧ isOddInteger y) := fun h => hsign ⟨rfl, hzero, hzero', hne, h⟩
    obtain rfl | ⟨rfl, rfl⟩ | ⟨rfl, rfl⟩ := eq_or_zeros_of_numbersAgree hx
    · exact numbersAgree_refl _
    · exact laws.numbersAgree_zero_pow (hexponent rfl rfl (by decide))
    · exact numbersAgree_symm (laws.numbersAgree_zero_pow (hexponent rfl rfl (by decide)))
  · rw [(laws.pow_zero x).1, (laws.pow_zero x').2]
    rfl
  · rw [(laws.pow_zero x).2, (laws.pow_zero x').1]
    rfl

end ZeroLaws

/-! ## A library that keeps to the laws -/

/-- The function with its values at zeros replaced. -/
def atZeros (value : Float → Float) (f : Float → Float) (x : Float) : Float :=
  if x == 0 then value x else f x

/-- The library with the documented values at zeros. -/
def withZeros (lib : Elementary) : Elementary where
  sin := atZeros id lib.sin
  cos := atZeros (fun _ => 1) lib.cos
  tan := atZeros id lib.tan
  asin := atZeros id lib.asin
  acos := atZeros (fun _ => lib.acos 0) lib.acos
  atan := atZeros id lib.atan
  sinh := atZeros id lib.sinh
  cosh := atZeros (fun _ => 1) lib.cosh
  tanh := atZeros id lib.tanh
  exp := atZeros (fun _ => 1) lib.exp
  log := atZeros (fun _ => -.inf) lib.log
  log10 := atZeros (fun _ => -.inf) lib.log10
  log2 := atZeros (fun _ => -.inf) lib.log2
  floor := atZeros id lib.floor
  ceil := atZeros id lib.ceil
  pow x y :=
    if y == 0 then 1
    else if x == 0 then if x = -0 ∧ isOddInteger y then -zeroPower y else zeroPower y
    else lib.pow x y

theorem keepingZeros_withZeros (lib : Elementary) :
    lib.withZeros.keepingZeros = lib.keepingZeros.map (atZeros id) := rfl

theorem joiningZeros_withZeros (lib : Elementary) :
    lib.withZeros.joiningZeros =
      lib.joiningZeros.map fun p => (atZeros (fun _ => p.2) p.1, p.2) := rfl

theorem zeroLaws_withZeros (lib : Elementary) : lib.withZeros.ZeroLaws where
  keeping f hf := by
    rw [keepingZeros_withZeros] at hf
    obtain ⟨g, -, rfl⟩ := List.mem_map.mp hf
    exact ⟨rfl, rfl⟩
  joining p hp := by
    rw [joiningZeros_withZeros] at hp
    obtain ⟨q, -, rfl⟩ := List.mem_map.mp hp
    exact ⟨rfl, rfl⟩
  pow_zero x := ⟨rfl, rfl⟩
  zero_pow y := by
    have hpositive : ¬((0 : Float) = -0 ∧ isOddInteger y) := fun h => absurd h.1 (by decide)
    change (if y == 0 then 1 else if (0 : Float) = -0 ∧ isOddInteger y then -zeroPower y
      else zeroPower y) = zeroPower y
    rw [if_neg hpositive]
    split
    · rename_i hy
      rw [zeroPower, if_pos hy]
    · rfl
  negZero_pow y := by
    change (if y == 0 then 1 else if _ ∧ isOddInteger y then _ else _) = _
    split
    · rename_i hy
      rw [if_neg (not_isOddInteger_of_beq_zero hy), zeroPower, if_pos hy]
    · simp

end Elementary

end Formula
