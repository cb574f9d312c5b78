import Formula.Operator

/-! # Tokens

The smallest units of a formula's text, as they come from whoever has cut the text up: what the unit
was taken for, and its characters.
-/

namespace Formula

namespace Token

inductive Kind where
  | posInt
  | integer
  | realNumber
  | identifier
  | constant
  | functionName
  | openParenthesis
  | closeParenthesis
  | comma
  | addition
  | subtraction
  | multiplication
  | division
  | exponentiation
  | factorial
  | squareRoot
  | equalsSign
  | unknown
  deriving DecidableEq, Repr

namespace Kind

def all : List Kind :=
  [posInt, integer, realNumber, identifier, constant, functionName, openParenthesis,
    closeParenthesis, comma, addition, subtraction, multiplication, division, exponentiation,
    factorial, squareRoot, equalsSign, unknown]

theorem mem_all (k : Kind) : k ∈ all := by
  cases k <;> decide

def operator? : Kind → Option Operator
  | addition => some .add
  | subtraction => some .sub
  | multiplication => some .mul
  | division => some .div
  | exponentiation => some .pow
  | factorial => some .factorial
  | squareRoot => some .sqrt
  | _ => none

theorem operator?_ne_neg (k : Kind) : k.operator? ≠ some .neg := by
  cases k <;> decide

def title : Kind → String
  | posInt => "positive integer"
  | integer => "integer"
  | realNumber => "real number"
  | identifier => "identifier"
  | constant => "constant"
  | functionName => "function name"
  | openParenthesis => "open parenthesis"
  | closeParenthesis => "close parenthesis"
  | comma => "comma"
  | addition => "addition operator"
  | subtraction => "subtraction operator"
  | multiplication => "multiplication operator"
  | division => "division operator"
  | exponentiation => "exponentiation operator"
  | factorial => "factorial operator"
  | squareRoot => "square root operator"
  | equalsSign => "equals sign"
  | unknown => "unknown token"

/-- The name of the kind in documents. -/
def name : Kind → String
  | posInt => "PosInt"
  | integer => "Integer"
  | realNumber => "RealNumber"
  | identifier => "Identifier"
  | constant => "Constant"
  | functionName => "FunctionName"
  | openParenthesis => "OpenParenthesis"
  | closeParenthesis => "CloseParenthesis"
  | comma => "Comma"
  | addition => "AdditionOperator"
  | subtraction => "SubtractionOperator"
  | multiplication => "MultiplicationOperator"
  | division => "DivisionOperator"
  | exponentiation => "ExponentiationOperator"
  | factorial => "FactorialOperator"
  | squareRoot => "SquareRootOperator"
  | equalsSign => "EqualsSign"
  | unknown => "Unknown"

end Kind

end Token

structure Token where
  kind : Token.Kind
  text : String
  deriving DecidableEq, Repr

def Token.display (t : Token) : String := t.kind.title ++ " `" ++ t.text ++ "`"

end Formula
