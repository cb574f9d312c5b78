/-! # Known constants and functions

The functions that a processor's own instructions do not give are taken from a library of elementary
functions, a record, so that what holds of evaluation can be said for every such library. Square
root and absolute value are exact operations of the float format and need none.
-/

namespace Formula

structure Elementary where
  sin : Float → Float
  cos : Float → Float
  tan : Float → Float
  asin : Float → Float
  acos : Float → Float
  atan : Float → Float
  sinh : Float → Float
  cosh : Float → Float
  tanh : Float → Float
  exp : Float → Float
  log : Float → Float
  log10 : Float → Float
  log2 : Float → Float
  floor : Float → Float
  ceil : Float → Float
  pow : Float → Float → Float

def Elementary.native : Elementary where
  sin := Float.sin
  cos := Float.cos
  tan := Float.tan
  asin := Float.asin
  acos := Float.acos
  atan := Float.atan
  sinh := Float.sinh
  cosh := Float.cosh
  tanh := Float.tanh
  exp := Float.exp
  log := Float.log
  log10 := Float.log10
  log2 := Float.log2
  floor := Float.floor
  ceil := Float.ceil
  pow := Float.pow

namespace Builtin

def constant? : String → Option Float
  | "pi" | "π" => some 3.141592653589793
  | "e" => some 2.718281828459045
  | "tau" | "τ" => some 6.283185307179586
  | "phi" | "φ" => some 1.618033988749895
  | _ => none

def function? (lib : Elementary) : String → Option (Float → Float)
  | "sin" => some lib.sin
  | "cos" => some lib.cos
  | "tan" => some lib.tan
  | "asin" => some lib.asin
  | "acos" => some lib.acos
  | "atan" => some lib.atan
  | "sinh" => some lib.sinh
  | "cosh" => some lib.cosh
  | "tanh" => some lib.tanh
  | "exp" => some lib.exp
  | "ln" => some lib.log
  | "log" => some lib.log10
  | "log2" => some lib.log2
  | "sqrt" => some Float.sqrt
  | "abs" => some Float.abs
  | "floor" => some lib.floor
  | "ceil" => some lib.ceil
  | _ => none

/-- The greatest number whose factorial is below infinity. -/
def maxFactorial : Float := 170

/-- The product of the first numbers from one on, multiplied in this order. -/
def product : Nat → Float
  | 0 => 1
  | n + 1 => product n * Float.ofNat (n + 1)

/-- The factorial of a whole number from zero to `maxFactorial`. In this range a float is whole if
it is the float of the byte that it is cut off to. -/
def factorial? (x : Float) : Option Float :=
  if 0 ≤ x ∧ x ≤ maxFactorial ∧ x.toUInt8.toFloat == x then some (product x.toUInt8.toNat) else none

end Builtin

/-- The float nearest to an integer. -/
def nearestFloat (n : Int64) : Float :=
  let magnitude := n.toInt.natAbs.toUInt64.toFloat
  if n.toInt < 0 then -magnitude else magnitude

end Formula
