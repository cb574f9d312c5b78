import Formula.Decimal.Numeral
import Formula.Decimal.Shortest

/-! # Layout of floats

A layout turns the shortest digits of a float into a numeral. The digits `d` with the point in front
of the first of them, times `10 ^ point`, are written plainly or with a power of ten. What people
read is always plain; what is interchanged is plain from `0.00001` up to sixteen digits.
-/

namespace Formula.Decimal

structure Layout where
  tie : Tie
  -- A whole number written plainly has a zero behind the point.
  pointed : Bool
  -- The positions of the point, if not all, at which a number is written plainly.
  plain : Option (Int × Int)

def Layout.displayed : Layout where
  tie := .up
  pointed := false
  plain := none

def Layout.interchanged : Layout where
  tie := .even
  -- Never to be taken for an integer.
  pointed := true
  plain := some (-4, 16)

namespace Layout

def isPlain (L : Layout) (point : Int) : Bool :=
  L.plain.all fun range => range.1 ≤ point && point ≤ range.2

def wholeFraction (L : Layout) : List Char := if L.pointed then ['0'] else []

/-- The digits with the point at a position relative to the first of them. -/
def arrange (L : Layout) (negative : Bool) (digits : List Char) (point : Int) : Numeral :=
  if L.isPlain point then
    if point ≤ 0 then
      { negative, whole := ['0'], fraction := List.replicate (-point).toNat '0' ++ digits }
    else if digits.length ≤ point.toNat then
      { negative
        whole := digits ++ List.replicate (point.toNat - digits.length) '0'
        fraction := L.wholeFraction }
    else
      { negative, whole := digits.take point.toNat, fraction := digits.drop point.toNat }
  else
    { negative, whole := digits.take 1, fraction := digits.drop 1, exponent := some (point - 1) }

/-- The digits of a decimal without the zeros at its end, and the position of the point. -/
def significant (decimal : Nat × Int) : List Char × Int :=
  let digits := Nat.toDigits 10 decimal.1
  ((digits.reverse.dropWhile (· = '0')).reverse, digits.length + decimal.2)

def numeral (L : Layout) (x : Float) : Numeral :=
  let negative := Nat.pow 2 63 ≤ x.toBits.toNat
  if x == 0 then { negative, whole := ['0'], fraction := L.wholeFraction }
  else
    let (digits, point) := significant (shortest (.ofFloat x) L.tie)
    L.arrange negative digits point

end Layout

def displayChars (x : Float) : List Char :=
  if x.isNaN then ['N', 'a', 'N']
  else if x.isInf then if x < 0 then ['-', 'i', 'n', 'f'] else ['i', 'n', 'f']
  else (Layout.displayed.numeral x).chars

def displayText (x : Float) : String := String.ofList (displayChars x)

end Formula.Decimal
