/-! # Numerals

A numeral is a written decimal number: a sign, the digits before and after the point, and a power of
ten. Its characters are determined by these parts.
-/

namespace Formula.Decimal

def natOfDigits (digits : List Char) : Nat := Nat.ofDigitChars 10 digits 0

def leadingDigits (cs : List Char) : List Char := cs.takeWhile Char.isDigit

def afterDigits (cs : List Char) : List Char := cs.dropWhile Char.isDigit

theorem leadingDigits_append_afterDigits (cs : List Char) :
    leadingDigits cs ++ afterDigits cs = cs :=
  List.takeWhile_append_dropWhile

theorem length_leadingDigits_add_afterDigits (cs : List Char) :
    (leadingDigits cs).length + (afterDigits cs).length = cs.length := by
  rw [← List.length_append, leadingDigits_append_afterDigits]

/-- The sign of a text, and what follows it. -/
def splitSign : List Char → Bool × List Char
  | '-' :: rest => (true, rest)
  | '+' :: rest => (false, rest)
  | rest => (false, rest)

theorem length_splitSign_le (cs : List Char) : (splitSign cs).2.length ≤ cs.length := by
  unfold splitSign
  split <;> simp

structure Numeral where
  negative : Bool
  whole : List Char
  fraction : List Char := []
  exponent : Option Int := none
  deriving DecidableEq, Repr

namespace Numeral

def exponentChars (e : Int) : List Char :=
  'e' :: (if e < 0 then '-' else '+') :: Nat.toDigits 10 e.natAbs

def chars (n : Numeral) : List Char :=
  (if n.negative then ['-'] else []) ++ n.whole ++
    (if n.fraction.isEmpty then [] else '.' :: n.fraction) ++
    n.exponent.elim [] exponentChars

/-- Digits on both sides, no zero in front of another digit, and nothing else. -/
structure WellFormed (n : Numeral) : Prop where
  whole_ne_nil : n.whole ≠ []
  whole_digits : ∀ c ∈ n.whole, c.isDigit
  no_leading_zero : n.whole.head? = some '0' → n.whole = ['0']
  fraction_digits : ∀ c ∈ n.fraction, c.isDigit

def ofInt (i : Int) : Numeral where
  negative := i < 0
  whole := Nat.toDigits 10 i.natAbs

end Numeral

end Formula.Decimal
