import Formula.Proofs.Numeral
import Formula.Term.Infix
import Formula.Token.Reader
import Mathlib.Algebra.Group.Int.Defs
import Mathlib.Algebra.Group.Nat.Defs

/-! # Integers in tokens

A token is read as an integer if and only if its text, without the blanks around it, is a numeral
with or without a sign that stands for a number of 64 bits. The digits are read from left to right
with a check at each of them; as more digits never bring a number nearer to zero, the check fails
somewhere if and only if the whole number is out of range.
-/

namespace Formula

namespace Decimal

/-- One or more decimal digits. -/
structure Digits (cs : List Char) : Prop where
  ne_nil : cs ≠ []
  isDigit : ∀ c ∈ cs, c.isDigit

/-- The numerals with an optional sign, and the integers that they stand for. -/
inductive Denotes : List Char → Int → Prop
  | unsigned {digits : List Char} : Digits digits → Denotes digits (natOfDigits digits)
  | plus {digits : List Char} : Digits digits → Denotes ('+' :: digits) (natOfDigits digits)
  | minus {digits : List Char} : Digits digits → Denotes ('-' :: digits) (-natOfDigits digits)

def signed (negative : Bool) (n : Nat) : Int := if negative then -n else n

/-- How far from zero an integer of 64 bits may be, one further on the negative side. -/
def farthest (negative : Bool) : Nat := if negative then 2 ^ 63 else 2 ^ 63 - 1

theorem signed_inRange_iff {negative : Bool} {n : Nat} :
    n ≤ farthest negative ↔ -2 ^ 63 ≤ signed negative n ∧ signed negative n ≤ 2 ^ 63 - 1 := by
  cases negative <;> simp only [farthest, signed, Bool.false_eq_true, if_false, if_true] <;> omega

theorem readDigits_cons (negative : Bool) (known : Nat) (c : Char) (rest : List Char) :
    readDigits negative (signed negative known) (c :: rest) =
      if c.isDigit then
        if farthest negative < 10 * known + (c.toNat - '0'.toNat) then
          .error (if negative then .tooSmall else .tooLarge)
        else readDigits negative (signed negative (10 * known + (c.toNat - '0'.toNat))) rest
      else .error .invalidDigit := by
  have hmin : Int64.minValue.toInt = -2 ^ 63 := rfl
  have hmax : Int64.maxValue.toInt = 2 ^ 63 - 1 := rfl
  rw [readDigits, digitValue, hmin, hmax]
  generalize c.toNat - '0'.toNat = digit
  cases negative with
  | true =>
    have hnext : signed true known * 10 - digit = signed true (10 * known + digit) := by
      simp only [signed, if_true]
      omega
    have hcheck : signed true (10 * known + digit) < -2 ^ 63 ↔
        farthest true < 10 * known + digit := by
      simp only [signed, farthest, if_true]
      omega
    simp only [if_true, hnext, hcheck]
  | false =>
    have hnext : signed false known * 10 + digit = signed false (10 * known + digit) := by
      simp only [signed, Bool.false_eq_true, if_false]
      omega
    have hcheck : 2 ^ 63 - 1 < signed false (10 * known + digit) ↔
        farthest false < 10 * known + digit := by
      simp only [signed, farthest, Bool.false_eq_true, if_false]
      omega
    simp only [Bool.false_eq_true, if_false, hnext, hcheck]

theorem le_ofDigitChars (digits : List Char) (known : Nat) :
    known ≤ Nat.ofDigitChars 10 digits known := by
  rw [Nat.ofDigitChars_eq_ofDigitChars_zero]
  exact Nat.le_add_right_of_le (Nat.le_mul_of_pos_left known (Nat.pow_pos (by decide)))

/-- Reading on succeeds if the digits lead to a number that is still in range. -/
theorem readDigits_eq_ok_iff {negative : Bool} {known : Nat} {digits : List Char} {i : Int}
    (h : known ≤ farthest negative) :
    readDigits negative (signed negative known) digits = .ok i ↔
      (∀ c ∈ digits, c.isDigit) ∧ Nat.ofDigitChars 10 digits known ≤ farthest negative ∧
        i = signed negative (Nat.ofDigitChars 10 digits known) := by
  induction digits generalizing known with
  | nil =>
    rw [readDigits, Nat.ofDigitChars_nil]
    constructor
    · rintro ⟨⟩
      exact ⟨fun c hc => absurd hc List.not_mem_nil, h, rfl⟩
    · rintro ⟨-, -, rfl⟩
      rfl
  | cons c rest ih =>
    rw [readDigits_cons, List.forall_mem_cons, Nat.ofDigitChars_cons]
    by_cases hc : c.isDigit
    · rw [if_pos hc]
      by_cases hfar : farthest negative < 10 * known + (c.toNat - '0'.toNat)
      · have hle := le_ofDigitChars rest (10 * known + (c.toNat - '0'.toNat))
        rw [if_pos hfar]
        simp only [reduceCtorEq, false_iff, not_and]
        intro _ hrange
        omega
      · rw [if_neg hfar, ih (by omega)]
        simp [hc]
    · rw [if_neg hc]
      simp [hc]

theorem readDigits_zero_eq_ok_iff {negative : Bool} {digits : List Char} {i : Int} :
    readDigits negative 0 digits = .ok i ↔
      (∀ c ∈ digits, c.isDigit) ∧ i = signed negative (natOfDigits digits) ∧
        -2 ^ 63 ≤ i ∧ i ≤ 2 ^ 63 - 1 := by
  have hzero : (0 : Int) = signed negative 0 := by cases negative <;> rfl
  rw [hzero, readDigits_eq_ok_iff (Nat.zero_le _), signed_inRange_iff, natOfDigits]
  constructor
  · rintro ⟨hdigits, hrange, rfl⟩
    exact ⟨hdigits, rfl, hrange⟩
  · rintro ⟨hdigits, rfl, hrange⟩
    exact ⟨hdigits, hrange, rfl⟩

theorem readSigned_eq_readDigits {cs : List Char} (h : Digits cs) :
    readSigned cs = readDigits false 0 cs := by
  obtain ⟨c, rest, rfl⟩ := List.exists_cons_of_ne_nil h.ne_nil
  have hc : c.isDigit := h.isDigit c List.mem_cons_self
  unfold readSigned
  split
  case h_1 => contradiction
  case h_6 => rfl
  all_goals
    cases ‹_›
    exact absurd hc (by decide)

theorem readSigned_plus {digits : List Char} (h : digits ≠ []) :
    readSigned ('+' :: digits) = readDigits false 0 digits := by
  cases digits with
  | nil => contradiction
  | cons c rest => rfl

theorem readSigned_minus {digits : List Char} (h : digits ≠ []) :
    readSigned ('-' :: digits) = readDigits true 0 digits := by
  cases digits with
  | nil => contradiction
  | cons c rest => rfl

theorem denotes_of_readSigned_eq_ok {cs : List Char} {i : Int} (h : readSigned cs = .ok i) :
    Denotes cs i ∧ -2 ^ 63 ≤ i ∧ i ≤ 2 ^ 63 - 1 := by
  unfold readSigned at h
  split at h
  case h_1 | h_2 | h_3 => cases h
  case h_4 digits hne =>
    obtain ⟨hdigits, rfl, hrange⟩ := readDigits_zero_eq_ok_iff.mp h
    exact ⟨.plus ⟨hne, hdigits⟩, hrange⟩
  case h_5 digits hne =>
    obtain ⟨hdigits, rfl, hrange⟩ := readDigits_zero_eq_ok_iff.mp h
    exact ⟨.minus ⟨hne, hdigits⟩, hrange⟩
  case h_6 hne _ _ _ _ =>
    obtain ⟨hdigits, rfl, hrange⟩ := readDigits_zero_eq_ok_iff.mp h
    exact ⟨.unsigned ⟨hne, hdigits⟩, hrange⟩

theorem Denotes.readSigned_eq_ok {cs : List Char} {i : Int} (h : Denotes cs i)
    (hmin : -2 ^ 63 ≤ i) (hmax : i ≤ 2 ^ 63 - 1) : readSigned cs = .ok i := by
  cases h with
  | unsigned hdigits =>
    rw [readSigned_eq_readDigits hdigits]
    exact readDigits_zero_eq_ok_iff.mpr ⟨hdigits.isDigit, rfl, hmin, hmax⟩
  | plus hdigits =>
    rw [readSigned_plus hdigits.ne_nil]
    exact readDigits_zero_eq_ok_iff.mpr ⟨hdigits.isDigit, rfl, hmin, hmax⟩
  | minus hdigits =>
    rw [readSigned_minus hdigits.ne_nil]
    exact readDigits_zero_eq_ok_iff.mpr ⟨hdigits.isDigit, rfl, hmin, hmax⟩

theorem readInteger_eq_ok_iff {cs : List Char} {n : Int64} :
    readInteger cs = .ok n ↔ Denotes cs n.toInt := by
  constructor
  · intro h
    cases hsigned : readSigned cs with
    | error cause =>
      rw [readInteger, hsigned] at h
      cases h
    | ok i =>
      rw [readInteger, hsigned] at h
      cases h
      obtain ⟨hdenotes, hmin, hmax⟩ := denotes_of_readSigned_eq_ok hsigned
      rwa [Int64.toInt_ofInt_of_le hmin (by omega)]
  · intro h
    have hmin : -2 ^ 63 ≤ n.toInt := n.minValue_le_toInt
    have hmax := n.toInt_lt
    rw [readInteger, h.readSigned_eq_ok hmin (by omega)]
    exact congrArg Except.ok n.ofInt_toInt

theorem digits_toDigits (n : Nat) : Digits (Nat.toDigits 10 n) where
  ne_nil := Nat.toDigits_ne_nil
  isDigit _ hc := isDigit_of_mem_toDigits hc

theorem denotes_integerChars (n : Int64) : Denotes (integerChars n) n.toInt := by
  have hdigits := digits_toDigits n.toInt.natAbs
  have hvalue := natOfDigits_toDigits n.toInt.natAbs
  rw [integerChars]
  split
  · have h := Denotes.minus hdigits
    rwa [hvalue, show -(n.toInt.natAbs : Int) = n.toInt by omega] at h
  · have h := Denotes.unsigned hdigits
    rwa [hvalue, show (n.toInt.natAbs : Int) = n.toInt by omega] at h

theorem not_isBlank_of_isDigit {c : Char} (h : c.isDigit) : ¬Text.isBlank c := by
  have hrange : 48 ≤ c.toNat ∧ c.toNat ≤ 57 := by
    simpa [Char.isDigit, Char.le_def, UInt32.le_iff_toNat_le] using h
  simp [Text.isBlank, Text.blankRanges]
  omega

theorem Denotes.not_isBlank {cs : List Char} {i : Int} (h : Denotes cs i) :
    ∀ c ∈ cs, ¬Text.isBlank c := by
  cases h with
  | unsigned hdigits =>
    intro c hc
    exact not_isBlank_of_isDigit (hdigits.isDigit c hc)
  | plus hdigits | minus hdigits =>
    intro c hc
    obtain rfl | hc := List.mem_cons.mp hc
    · decide
    · exact not_isBlank_of_isDigit (hdigits.isDigit c hc)

/-- Up to blanks around it, the text is a numeral of an integer of 64 bits. -/
def Spells (text : String) (i : Int) : Prop :=
  ∃ core, Text.Pads text.toList core ∧ Denotes core i ∧ -2 ^ 63 ≤ i ∧ i ≤ 2 ^ 63 - 1

theorem spells_toInt_iff {text : String} {n : Int64} :
    Spells text n.toInt ↔ readInteger (Text.trim text.toList) = .ok n := by
  rw [readInteger_eq_ok_iff]
  constructor
  · rintro ⟨core, hpads, hdenotes, -⟩
    rwa [hpads.trim_eq hdenotes.not_isBlank]
  · intro h
    have hmax := n.toInt_lt
    exact ⟨_, Text.pads_trim _, h, n.minValue_le_toInt, by omega⟩

theorem Spells.exists_toInt {text : String} {i : Int} (h : Spells text i) :
    ∃ n : Int64, n.toInt = i := by
  obtain ⟨core, -, -, hmin, hmax⟩ := h
  exact ⟨.ofInt i, Int64.toInt_ofInt_of_le hmin (by omega)⟩

end Decimal

namespace Token.Reader

open Decimal

section IntegerKind

variable {kind : Kind} (hkind : kind = .posInt ∨ kind = .integer) (reader : Reader) (text : String)

include hkind

theorem read_eq_readInteger : reader.read ⟨kind, text⟩ = readInteger ⟨kind, text⟩ := by
  obtain rfl | rfl := hkind <;> rfl

theorem read_of_spells {n : Int64} (h : Spells text n.toInt) :
    reader.read ⟨kind, text⟩ = .ok (.finished (.integer n)) := by
  rw [read_eq_readInteger hkind, readInteger, core, spells_toInt_iff.mp h]

theorem read_of_not_spells (h : ¬∃ i, Spells text i) :
    ∃ cause, reader.read ⟨kind, text⟩ = .error (.invalidNumber kind text cause) := by
  rw [read_eq_readInteger hkind, readInteger, core]
  cases hread : Decimal.readInteger (Text.trim text.toList) with
  | error cause => exact ⟨_, rfl⟩
  | ok n => exact absurd ⟨n.toInt, spells_toInt_iff.mpr hread⟩ h

/-- Whatever operators a reader knows, it makes a finished leaf of just those tokens whose text is
an integer of 64 bits; it refuses any other with the text as it stands, blanks included. The text
that an integer shows as is read as that integer. -/
theorem read_ok_iff_spells :
    ((∃ d, reader.read ⟨kind, text⟩ = .ok d) ↔ ∃ i, Spells text i) ∧
      (∀ i, Spells text i → ∃ d n, reader.read ⟨kind, text⟩ = .ok d ∧ d.isLeaf ∧ d.isComplete ∧
        d.finish = .ok (.integer n) ∧ n.toInt = i) ∧
      ((¬∃ i, Spells text i) →
        ∃ cause, reader.read ⟨kind, text⟩ = .error (.invalidNumber kind text cause)) ∧
      ∀ n, Text.Pads text.toList (Term.integer n).infixText.toList →
        reader.read ⟨kind, text⟩ = .ok (.finished (.integer n)) := by
  have hread : ∀ i, Spells text i → ∃ n : Int64, n.toInt = i ∧
      reader.read ⟨kind, text⟩ = .ok (.finished (.integer n)) := by
    intro i hi
    obtain ⟨n, rfl⟩ := hi.exists_toInt
    exact ⟨n, rfl, read_of_spells hkind reader text hi⟩
  refine ⟨⟨?_, ?_⟩, ?_, read_of_not_spells hkind reader text, ?_⟩
  · rintro ⟨d, hd⟩
    refine Classical.byContradiction fun hnot => ?_
    obtain ⟨cause, hcause⟩ := read_of_not_spells hkind reader text hnot
    rw [hcause] at hd
    cases hd
  · rintro ⟨i, hi⟩
    obtain ⟨n, -, hok⟩ := hread i hi
    exact ⟨_, hok⟩
  · intro i hi
    obtain ⟨n, hn, hok⟩ := hread i hi
    exact ⟨_, n, hok, rfl, rfl, rfl, hn⟩
  · intro n hpads
    apply read_of_spells hkind
    rw [spells_toInt_iff, readInteger_eq_ok_iff]
    rw [Term.infixText, String.toList_ofList, Term.infixChars] at hpads
    have hdenotes := denotes_integerChars n
    rwa [hpads.trim_eq hdenotes.not_isBlank]

end IntegerKind

/-- The least integer is read in spite of leading zeros; its magnitude is one too large for an
integer of its own. -/
theorem read_ok_iff_spells_least :
    let least := "\u3000-0009223372036854775808\n"
    let tooLarge := " +9223372036854775808"
    (∃ d n, restricted.read ⟨.posInt, least⟩ = .ok d ∧ d.isLeaf ∧ d.isComplete ∧
        d.finish = .ok (.integer n) ∧ n.toInt = -2 ^ 63) ∧
      ∃ cause, restricted.read ⟨.integer, tooLarge⟩ =
        .error (.invalidNumber .integer tooLarge cause) := by
  intro least tooLarge
  obtain ⟨-, hleast, -⟩ := read_ok_iff_spells (.inl rfl) restricted least
  obtain ⟨-, -, hrefused, -⟩ := read_ok_iff_spells (.inr rfl) restricted tooLarge
  constructor
  · have hpads : Text.Pads least.toList ('-' :: "0009223372036854775808".toList) :=
      ⟨['\u3000'], ['\n'], by decide, List.forall_mem_singleton.mpr (by decide),
        List.forall_mem_singleton.mpr (by decide)⟩
    have hdigits : Digits "0009223372036854775808".toList :=
      ⟨by decide, List.all_eq_true.mp (by decide)⟩
    have hvalue : natOfDigits "0009223372036854775808".toList = 2 ^ 63 := by decide
    have hdenotes := Denotes.minus hdigits
    rw [hvalue] at hdenotes
    exact hleast _ ⟨_, hpads, hdenotes, by decide, by decide⟩
  · apply hrefused
    rintro ⟨i, hi⟩
    obtain ⟨n, rfl⟩ := hi.exists_toInt
    have herror : Decimal.readInteger (Text.trim " +9223372036854775808".toList) =
        .error .tooLarge := by rfl
    cases herror.symm.trans (spells_toInt_iff.mp hi)

end Token.Reader

end Formula
