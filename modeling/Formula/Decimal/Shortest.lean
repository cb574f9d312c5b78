/-! # Shortest digits

A finite positive float is `m * 2 ^ q`. The reals that round to it form an interval, which has its
ends if `m` is even. Of the decimals in the interval those with the fewest digits are of interest,
and of these the one nearest to the float; a `Tie` settles which of two equally near ones is taken.
A decimal is `d * 10 ^ k`.
-/

namespace Formula.Decimal

structure Binary where
  mantissa : Nat
  exponent : Int
  -- The lower neighbour of the first one of its power of two is only half as far away.
  narrow : Bool
  deriving DecidableEq, Repr

def Binary.ofFloat (x : Float) : Binary :=
  let bits : Nat := x.toBits.toNat
  let fraction : Nat := bits % Nat.pow 2 52
  let biased : Nat := bits / Nat.pow 2 52 % Nat.pow 2 11
  if biased = 0 then ⟨fraction, -1074, false⟩
  else ⟨Nat.pow 2 52 + fraction, (biased : Int) - 1075, fraction = 0 && 1 < biased⟩

inductive Tie where
  | up
  | even
  deriving DecidableEq, Repr

/-- A binary fraction, its distances from the ends of its interval and a power of ten, all as
multiples of one quantity that is small enough. -/
structure Scaled where
  value : Nat
  below : Nat
  above : Nat
  unit : Nat
  closed : Bool

def Binary.scale (b : Binary) (k : Int) : Scaled :=
  let factor := Nat.pow 2 b.exponent.toNat * Nat.pow 10 (-k).toNat
  { value := 4 * b.mantissa * factor
    below := (if b.narrow then 1 else 2) * factor
    above := 2 * factor
    unit := 4 * Nat.pow 2 (-b.exponent).toNat * Nat.pow 10 k.toNat
    closed := b.mantissa % 2 = 0 }

namespace Scaled

def holdsBelow (s : Scaled) (distance : Nat) : Bool :=
  distance < s.below || (s.closed && distance = s.below)

def holdsAbove (s : Scaled) (distance : Nat) : Bool :=
  distance < s.above || (s.closed && distance = s.above)

/-- The decimal of the grid in the interval that is nearest to the value, if there is one. -/
def nearest? (s : Scaled) (tie : Tie) : Option Nat :=
  -- The grid's two neighbours of the value suffice: any other is further away on its side.
  let lower := s.value / s.unit
  let down := s.value % s.unit
  let up := s.unit - down
  let upper := lower + 1
  match s.holdsBelow down, s.holdsAbove up with
  | true, true =>
    if down < up then some lower
    else if up < down then some upper
    else
      match tie with
      | .up => some upper
      | .even => some (if lower % 2 = 0 then lower else upper)
  | true, false => some lower
  | false, true => some upper
  | false, false => none

end Scaled

def Binary.reaches (b : Binary) (e : Int) : Bool :=
  Nat.pow 10 e.toNat * Nat.pow 2 (-b.exponent).toNat ≤
    b.mantissa * Nat.pow 2 b.exponent.toNat * Nat.pow 10 (-e).toNat

/-- The least `e` with the fraction below `10 ^ e`. -/
def Binary.magnitude (b : Binary) : Int :=
  -- The binary logarithm gives it up to two.
  let guess := (b.mantissa.log2 + b.exponent) * 30103 / 100000
  if b.reaches (guess + 1) then guess + 2
  else if b.reaches guess then guess + 1
  else guess

def searchFrom (b : Binary) (tie : Tie) (magnitude : Int) (count : Nat) : Nat → Nat × Int
  | 0 =>
    let s := b.scale (magnitude - count)
    (s.value / s.unit, magnitude - count)
  | more + 1 =>
    match (b.scale (magnitude - count)).nearest? tie with
    | some d => (d, magnitude - count)
    | none => searchFrom b tie magnitude (count + 1) more

def shortest (b : Binary) (tie : Tie) : Nat × Int :=
  -- Seventeen digits always suffice.
  searchFrom b tie b.magnitude 1 17

end Formula.Decimal
