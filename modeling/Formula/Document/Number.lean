import Formula.Decimal.Integer
import Formula.Decimal.Numeral

/-! # Numbers in documents

A number in a document is a numeral with no superfluous zero in front. It is an integer if it has
neither point nor power of ten; minus zero is none. As a float it is read quickly and not quite
exactly: as many of its digits as fit into a word of 64 bits are rounded to a float, and the power
of ten is multiplied in or divided out as a float too.
-/

namespace Formula.Document

open Decimal

/-- The digits after the point, if there is one. -/
def scanFraction : List Char → Option (List Char × List Char)
  | '.' :: rest =>
    if (leadingDigits rest).isEmpty then none else some (leadingDigits rest, afterDigits rest)
  | rest => some ([], rest)

/-- The power of ten, if there is one. -/
def scanExponent : List Char → Option (Option Int × List Char)
  | [] => some (none, [])
  | c :: rest =>
    if c = 'e' ∨ c = 'E' then
      let (negative, rest) := splitSign rest
      let digits := leadingDigits rest
      if digits.isEmpty then none
      else
        some (some (if negative then -natOfDigits digits else natOfDigits digits), afterDigits rest)
    else some (none, c :: rest)

/-- The digits before the point: a zero stands alone. -/
def scanWhole (cs : List Char) : Option (List Char × List Char) :=
  let digits := leadingDigits cs
  if digits.isEmpty || (digits.head? = some '0' && digits != ['0']) then none
  else some (digits, afterDigits cs)

def splitMinus : List Char → Bool × List Char
  | '-' :: rest => (true, rest)
  | rest => (false, rest)

def scanNumeral (cs : List Char) : Option (Numeral × List Char) :=
  let (negative, cs) := splitMinus cs
  match scanWhole cs with
  | none => none
  | some (whole, cs) =>
    match scanFraction cs with
    | none => none
    | some (fraction, cs) =>
      (scanExponent cs).map fun found =>
        ({ negative, whole, fraction, exponent := found.1 }, found.2)

def toInt64? (n : Numeral) : Option Int64 :=
  if n.fraction.isEmpty && n.exponent.isNone then
    let magnitude := natOfDigits n.whole
    if n.negative then
      if 0 < magnitude ∧ magnitude ≤ Nat.pow 2 63 then some (Int64.ofInt (-magnitude)) else none
    else if magnitude < Nat.pow 2 63 then some (Int64.ofNat magnitude)
    else none
  else none

/-- Appends digits to a number as long as it stays within 64 bits, and gives those left over. -/
def absorb (known : Nat) : List Char → Nat × List Char
  | [] => (known, [])
  | c :: rest =>
    let next := known * 10 + digitValue c
    if next < Nat.pow 2 64 then absorb next rest else (known, c :: rest)

/-- The digits of a numeral that count, and the power of ten they stand at. Digits left over before
the point count as zeros. -/
def significand (n : Numeral) : Nat × Int :=
  let (known, dropped) := absorb 0 n.whole
  let (known, ignored) := absorb known n.fraction
  (known, dropped.length - ((n.fraction.length : Int) - ignored.length) + n.exponent.getD 0)

/-- The float nearest to a power of ten. -/
def tenTo (k : Nat) : Float := Float.ofScientific 1 false k

/-- A number of 64 bits over a power of ten; it vanishes before two divisions by `tenTo 308` are
made. -/
def divided (x : Float) (k : Nat) : Float :=
  if k ≤ 308 then x / tenTo k
  else if k ≤ 616 then x / tenTo 308 / tenTo (k - 308)
  else 0

/-- A number of 64 bits times a power of ten, unless that is infinite. -/
def scaled? (x : Float) (e : Int) : Option Float :=
  if e < 0 then some (divided x e.natAbs)
  else if e ≤ 308 then
    let product := x * tenTo e.natAbs
    if product.isInf then none else some product
  else if x == 0 then some 0
  else none

def toFloat? (n : Numeral) : Option Float :=
  let (digits, e) := significand n
  (scaled? digits.toUInt64.toFloat e).map fun x => if n.negative then -x else x

theorem length_lt_of_scanWhole {cs digits rest : List Char}
    (h : scanWhole cs = some (digits, rest)) : rest.length < cs.length := by
  have hlen := length_leadingDigits_add_afterDigits cs
  simp only [scanWhole] at h
  split at h
  · simp at h
  · rename_i hne
    cases h
    have hne : leadingDigits cs ≠ [] := by simp_all
    have := List.length_pos_iff.mpr hne
    omega

theorem length_le_of_scanFraction {cs digits rest : List Char}
    (h : scanFraction cs = some (digits, rest)) : rest.length ≤ cs.length := by
  unfold scanFraction at h
  split at h
  · rename_i tail
    have hlen := length_leadingDigits_add_afterDigits tail
    split at h
    · simp at h
    · cases h
      simp only [List.length_cons]
      omega
  · cases h
    exact Nat.le_refl _

theorem length_le_of_scanExponent {cs rest : List Char} {e : Option Int}
    (h : scanExponent cs = some (e, rest)) : rest.length ≤ cs.length := by
  unfold scanExponent at h
  split at h
  · cases h
    exact Nat.le_refl _
  · rename_i c tail
    have hsign := length_splitSign_le tail
    have hlen := length_leadingDigits_add_afterDigits (splitSign tail).2
    split at h
    · simp only at h
      split at h
      · simp at h
      · cases h
        simp only [List.length_cons]
        omega
    · cases h
      exact Nat.le_refl _

theorem length_splitMinus_le (cs : List Char) : (splitMinus cs).2.length ≤ cs.length := by
  unfold splitMinus
  split <;> simp

theorem length_lt_of_scanNumeral {cs rest : List Char} {n : Numeral}
    (h : scanNumeral cs = some (n, rest)) : rest.length < cs.length := by
  unfold scanNumeral at h
  have hminus := length_splitMinus_le cs
  simp only at h
  split at h
  · simp at h
  · rename_i hwhole
    have := length_lt_of_scanWhole hwhole
    split at h
    · simp at h
    · rename_i hfraction
      have := length_le_of_scanFraction hfraction
      obtain ⟨found, hfound, heq⟩ := Option.map_eq_some_iff.mp h
      cases heq
      have := length_le_of_scanExponent hfound
      omega

end Formula.Document
