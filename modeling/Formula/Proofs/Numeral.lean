import Formula.Document.Number

/-! # Reading a written numeral

A numeral in good form is read off the front of a text as itself, provided that the text does not
go on with a character that could still belong to it. A numeral that stands for an integer of 64
bits is read as that integer.
-/

namespace Formula

/-! ## The front of a text -/

section Front

variable {p : Char → Bool} {front rest : List Char} (hfront : ∀ c ∈ front, p c)
  (hrest : ∀ c ∈ rest.head?, ¬p c)

include hfront hrest

theorem takeWhile_front : (front ++ rest).takeWhile p = front := by
  rw [List.takeWhile_append_of_pos hfront]
  cases rest with
  | nil => exact List.append_nil _
  | cons c rest =>
    have hc : ¬p c := hrest c rfl
    rw [List.takeWhile_cons_of_neg hc, List.append_nil]

theorem dropWhile_front : (front ++ rest).dropWhile p = rest := by
  have h := List.takeWhile_append_dropWhile (p := p) (l := front ++ rest)
  rw [takeWhile_front hfront hrest] at h
  exact List.append_cancel_left h

end Front

namespace Decimal

theorem leadingDigits_append {digits rest : List Char} (hdigits : ∀ c ∈ digits, c.isDigit)
    (hrest : ∀ c ∈ rest.head?, ¬c.isDigit) : leadingDigits (digits ++ rest) = digits :=
  takeWhile_front hdigits hrest

theorem afterDigits_append {digits rest : List Char} (hdigits : ∀ c ∈ digits, c.isDigit)
    (hrest : ∀ c ∈ rest.head?, ¬c.isDigit) : afterDigits (digits ++ rest) = rest :=
  dropWhile_front hdigits hrest

/-! ## Digits -/

theorem isDigit_of_mem_toDigits {n : Nat} {c : Char} (h : c ∈ Nat.toDigits 10 n) : c.isDigit :=
  Nat.isDigit_of_mem_toDigits (by decide) (by decide) h

theorem head?_toDigits_ne_zero {n : Nat} (hn : 0 < n) : (Nat.toDigits 10 n).head? ≠ some '0' := by
  induction n using Nat.strongRecOn with
  | ind n ih =>
    by_cases hsmall : n < 10
    · have hdigit : ∀ m : Fin 10, 0 < m.val → m.val.digitChar ≠ '0' := by decide
      rw [Nat.toDigits_of_lt_base hsmall, List.head?_cons]
      intro h
      exact hdigit ⟨n, hsmall⟩ hn (Option.some.inj h)
    · have hlt : n / 10 < n := Nat.div_lt_self hn (by decide)
      have hpos : 0 < n / 10 := Nat.div_pos (by omega) (by decide)
      have hne : Nat.toDigits 10 (n / 10) ≠ [] := Nat.toDigits_ne_nil
      obtain ⟨c, digits, hdigits⟩ := List.exists_cons_of_ne_nil hne
      have hc := ih (n / 10) hlt hpos
      rw [hdigits, List.head?_cons] at hc
      rwa [Nat.toDigits_of_base_le (by decide) (by omega), hdigits, List.cons_append, List.head?_cons]

theorem toDigits_of_head?_eq_zero {n : Nat} (h : (Nat.toDigits 10 n).head? = some '0') :
    Nat.toDigits 10 n = ['0'] := by
  obtain rfl | hn := Nat.eq_zero_or_pos n
  · exact Nat.toDigits_zero 10
  · exact absurd h (head?_toDigits_ne_zero hn)

theorem natOfDigits_toDigits (n : Nat) : natOfDigits (Nat.toDigits 10 n) = n :=
  Nat.ofDigitChars_ten_toDigits

theorem Numeral.wellFormed_ofInt (i : Int) : (ofInt i).WellFormed where
  whole_ne_nil := Nat.toDigits_ne_nil
  whole_digits _ hc := isDigit_of_mem_toDigits hc
  no_leading_zero h := toDigits_of_head?_eq_zero h
  fraction_digits _ hc := absurd hc List.not_mem_nil

end Decimal

namespace Document

open Decimal

/-- A character with which a number may go on. -/
def extendsNumeral (c : Char) : Bool := c.isDigit || c = '.' || c = 'e' || c = 'E'

/-- The text does not go on with a number that stands in front of it. -/
def EndsNumeral (rest : List Char) : Prop := ∀ c ∈ rest.head?, ¬extendsNumeral c

theorem EndsNumeral.nil : EndsNumeral [] := by
  intro c hc
  cases hc

theorem EndsNumeral.cons {c : Char} (h : extendsNumeral c = false) (rest : List Char) :
    EndsNumeral (c :: rest) := by
  rintro d hd
  cases hd
  simp [h]

theorem EndsNumeral.not_isDigit {rest : List Char} (h : EndsNumeral rest) :
    ∀ c ∈ rest.head?, ¬c.isDigit := by
  intro c hc hdigit
  exact h c hc (by simp [extendsNumeral, hdigit])

theorem scanExponent_append (e : Option Int) {rest : List Char} (h : EndsNumeral rest) :
    scanExponent (e.elim [] Numeral.exponentChars ++ rest) = some (e, rest) := by
  cases e with
  | none =>
    cases rest with
    | nil => rfl
    | cons c rest =>
      have hc := h c rfl
      have hne : ¬(c = 'e' ∨ c = 'E') := by
        rintro (rfl | rfl) <;> exact hc (by decide)
      rw [Option.elim_none, List.nil_append, scanExponent, if_neg hne]
  | some e =>
    have hdigits : leadingDigits (Nat.toDigits 10 e.natAbs ++ rest) = Nat.toDigits 10 e.natAbs :=
      leadingDigits_append (fun c hc => isDigit_of_mem_toDigits hc) h.not_isDigit
    have hafter : afterDigits (Nat.toDigits 10 e.natAbs ++ rest) = rest :=
      afterDigits_append (fun c hc => isDigit_of_mem_toDigits hc) h.not_isDigit
    have hne : (Nat.toDigits 10 e.natAbs).isEmpty = false := by simp
    rw [Option.elim_some, Numeral.exponentChars, List.cons_append, List.cons_append, scanExponent]
    by_cases hneg : e < 0
    · have hval : -(e.natAbs : Int) = e := by omega
      generalize e.natAbs = k at hval hdigits hafter hne ⊢
      simp [hneg, splitSign, hdigits, hafter, hne, natOfDigits_toDigits, hval]
    · have hval : (e.natAbs : Int) = e := by omega
      generalize e.natAbs = k at hval hdigits hafter hne ⊢
      simp [hneg, splitSign, hdigits, hafter, hne, natOfDigits_toDigits, hval]

theorem scanFraction_append {fraction rest : List Char} (hdigits : ∀ c ∈ fraction, c.isDigit)
    (hrest : ∀ c ∈ rest.head?, ¬c.isDigit ∧ c ≠ '.') :
    scanFraction ((if fraction.isEmpty then [] else '.' :: fraction) ++ rest) =
      some (fraction, rest) := by
  cases fraction with
  | nil =>
    have hpoint : ∀ tail, rest ≠ '.' :: tail := by
      rintro tail rfl
      exact (hrest '.' rfl).2 rfl
    simp only [List.isEmpty_nil, if_true, List.nil_append]
    rw [scanFraction]
    exact hpoint
  | cons c fraction =>
    have hnot : ∀ c ∈ rest.head?, ¬c.isDigit := fun c hc => (hrest c hc).1
    have hlead := leadingDigits_append hdigits hnot
    have hafter := afterDigits_append hdigits hnot
    simp only [List.isEmpty_cons, Bool.false_eq_true, if_false, List.cons_append] at hlead hafter ⊢
    rw [scanFraction, hlead, hafter, List.isEmpty_cons, if_neg Bool.false_ne_true]

theorem scanWhole_append {n : Numeral} (hn : n.WellFormed) {rest : List Char}
    (hrest : ∀ c ∈ rest.head?, ¬c.isDigit) :
    scanWhole (n.whole ++ rest) = some (n.whole, rest) := by
  have hempty : n.whole.isEmpty = false := by simpa using hn.whole_ne_nil
  have hzero : (n.whole.head? = some '0' && n.whole != ['0']) = false := by
    by_cases h : n.whole.head? = some '0'
    · simp [hn.no_leading_zero h]
    · simp [h]
  simp only [scanWhole, leadingDigits_append hn.whole_digits hrest,
    afterDigits_append hn.whole_digits hrest, hempty, hzero, Bool.false_or, Bool.false_eq_true,
    if_false]

theorem splitMinus_append {n : Numeral} (hn : n.WellFormed) (rest : List Char) :
    splitMinus ((if n.negative then ['-'] else []) ++ (n.whole ++ rest)) =
      (n.negative, n.whole ++ rest) := by
  cases hneg : n.negative with
  | true => rfl
  | false =>
    obtain ⟨c, whole, hwhole⟩ := List.exists_cons_of_ne_nil hn.whole_ne_nil
    have hc : c.isDigit := hn.whole_digits c (by rw [hwhole]; exact List.mem_cons_self)
    have hminus : c ≠ '-' := by
      rintro rfl
      exact absurd hc (by decide)
    simp only [Bool.false_eq_true, if_false, List.nil_append, hwhole, List.cons_append]
    rw [splitMinus]
    simp [hminus]

theorem scanNumeral_chars {n : Numeral} (hn : n.WellFormed) {rest : List Char}
    (h : EndsNumeral rest) : scanNumeral (n.chars ++ rest) = some (n, rest) := by
  have htail : ∀ c ∈ (n.exponent.elim [] Numeral.exponentChars ++ rest).head?,
      ¬c.isDigit ∧ c ≠ '.' := by
    cases n.exponent with
    | none =>
      intro c hc
      refine ⟨h.not_isDigit c hc, ?_⟩
      rintro rfl
      exact h '.' hc (by decide)
    | some e =>
      rintro c hc
      cases hc
      decide
  have hmiddle : ∀ c ∈ ((if n.fraction.isEmpty then [] else '.' :: n.fraction) ++
      (n.exponent.elim [] Numeral.exponentChars ++ rest)).head?, ¬c.isDigit := by
    intro c hc
    split at hc
    · exact (htail c hc).1
    · cases hc
      decide
  simp only [scanNumeral, Numeral.chars, List.append_assoc]
  rw [splitMinus_append hn]
  simp only [scanWhole_append hn hmiddle, scanFraction_append hn.fraction_digits htail,
    scanExponent_append n.exponent h, Option.map_some]

theorem toInt64?_ofInt (n : Int64) : toInt64? (Numeral.ofInt n.toInt) = some n := by
  have hmin := n.minValue_le_toInt
  have hmax := n.toInt_lt
  have hbound : Nat.pow 2 63 = 2 ^ 63 := rfl
  simp only [toInt64?, Numeral.ofInt, natOfDigits_toDigits, List.isEmpty_nil, Option.isNone_none,
    Bool.and_self, if_true]
  by_cases hneg : n.toInt < 0
  · have hrange : 0 < n.toInt.natAbs ∧ n.toInt.natAbs ≤ Nat.pow 2 63 := by
      have : Int64.minValue.toInt = -2 ^ 63 := rfl
      omega
    have hval : -(n.toInt.natAbs : Int) = n.toInt := by omega
    generalize n.toInt.natAbs = k at hrange hval ⊢
    rw [decide_eq_true hneg, if_pos rfl, if_pos hrange, hval, Int64.ofInt_toInt]
  · have hrange : n.toInt.natAbs < Nat.pow 2 63 := by omega
    have hval : (n.toInt.natAbs : Int) = n.toInt := by omega
    simp only [hneg, decide_false, Bool.false_eq_true, if_false, hrange, if_true]
    rw [← Int64.ofInt_eq_ofNat, hval, Int64.ofInt_toInt]

end Document

end Formula
