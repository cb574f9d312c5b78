import Formula.Decimal.Numeral

/-! # Reading real numbers

A real number is written as an optional sign and then a word for infinity or for no number at all,
in any case of letters, or decimal digits with an optional point and an optional power of ten. It is
rounded once, to the nearest float.
-/

namespace Formula.Decimal

inductive RealError where
  | empty
  | invalid
  deriving DecidableEq, Repr

def RealError.message : RealError → String
  | empty => "cannot parse float from empty string"
  | invalid => "invalid float literal"

def notANumber : Float := 0.0 / 0.0

def infinity : Float := 1.0 / 0.0

/-- The power of ten at the end of a number; none is the zeroth. -/
def readExponent : List Char → Option Int
  | [] => some 0
  | c :: rest =>
    if c = 'e' ∨ c = 'E' then
      let (negative, digits) := splitSign rest
      if digits.isEmpty || !digits.all Char.isDigit then none
      else some (if negative then -natOfDigits digits else natOfDigits digits)
    else none

/-- The digits after the point, if there is one, and what follows them. -/
def splitFraction : List Char → List Char × List Char
  | '.' :: rest => (leadingDigits rest, afterDigits rest)
  | rest => ([], rest)

/-- The digits of a number without its sign, as one integer, and the power of ten they stand at. -/
def readMagnitude (text : List Char) : Option (Nat × Int) :=
  let whole := leadingDigits text
  let (fraction, rest) := splitFraction (afterDigits text)
  if whole.isEmpty && fraction.isEmpty then none
  else (readExponent rest).map fun e => (natOfDigits (whole ++ fraction), e - fraction.length)

def readWord (text : List Char) : Option Float :=
  let word := text.map Char.toLower
  if word = ['i', 'n', 'f'] ∨ word = ['i', 'n', 'f', 'i', 'n', 'i', 't', 'y'] then some infinity
  else if word = ['n', 'a', 'n'] then some notANumber
  else none

/-- The float nearest to an integer times a power of ten. -/
def nearest (digits : Nat) (e : Int) : Float := Float.ofScientific digits (e < 0) e.natAbs

def readReal (text : List Char) : Except RealError Float :=
  if text.isEmpty then .error .empty
  else
    let (negative, rest) := splitSign text
    let magnitude := ((readMagnitude rest).map fun m => nearest m.1 m.2).or (readWord rest)
    match magnitude with
    | some x => .ok (if negative then -x else x)
    | none => .error .invalid

end Formula.Decimal
