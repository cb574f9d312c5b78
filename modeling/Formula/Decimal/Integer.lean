/-! # Reading integers

An integer of 64 bits is written as an optional sign and one or more decimal digits. The digits are
read from left to right and the first problem met is the one reported, so a number that has outgrown
its word is too large even if something that is no digit follows.
-/

namespace Formula.Decimal

inductive IntegerError where
  | empty
  | invalidDigit
  | tooLarge
  | tooSmall
  deriving DecidableEq, Repr

def IntegerError.message : IntegerError → String
  | empty => "cannot parse integer from empty string"
  | invalidDigit => "invalid digit found in string"
  | tooLarge => "number too large to fit in target type"
  | tooSmall => "number too small to fit in target type"

def digitValue (c : Char) : Nat := c.toNat - '0'.toNat

/-- Reads on from a number that is already known, away from zero on the side of the sign. -/
def readDigits (negative : Bool) (known : Int) : List Char → Except IntegerError Int
  | [] => .ok known
  | c :: rest =>
    if c.isDigit then
      if negative then
        let next := known * 10 - digitValue c
        if next < Int64.minValue.toInt then .error .tooSmall else readDigits negative next rest
      else
        let next := known * 10 + digitValue c
        if Int64.maxValue.toInt < next then .error .tooLarge else readDigits negative next rest
    else .error .invalidDigit

def readSigned : List Char → Except IntegerError Int
  | [] => .error .empty
  | '+' :: [] | '-' :: [] => .error .invalidDigit
  | '+' :: digits => readDigits false 0 digits
  | '-' :: digits => readDigits true 0 digits
  | digits => readDigits false 0 digits

def readInteger (text : List Char) : Except IntegerError Int64 :=
  (readSigned text).map Int64.ofInt

def integerChars (n : Int64) : List Char :=
  let digits := Nat.toDigits 10 n.toInt.natAbs
  if n.toInt < 0 then '-' :: digits else digits

end Formula.Decimal
