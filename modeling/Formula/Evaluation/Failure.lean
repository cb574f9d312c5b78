import Formula.Decimal.Layout
import Formula.Term

/-! # Failures of an evaluation

Why a term has no value, and what is said about it.
-/

namespace Formula

inductive Failure where
  | undefinedVariable (name : String)
  | unknownConstant (name : String)
  | unknownFunction (name : String)
  /-- The operator is not among those that the evaluator may apply. -/
  | unknownOperator (operator : Operator)
  | unsupportedKind (kind : Kind)
  | missingOperand (operator : Operator)
  | divisionByZero
  /-- The operation has no value at a number that is one. -/
  | outsideDomain (operation : String) (value : Float)
  | tooDeep (depth limit : Nat)
  | interrupted
  deriving DecidableEq

def Failure.message : Failure → String
  | undefinedVariable name => "Undefined variable: " ++ name
  | unknownConstant name => "Unknown constant: " ++ name
  | unknownFunction name => "Unknown function: " ++ name
  | unknownOperator op => "Unknown operator `" ++ op.symbol ++ "`"
  | unsupportedKind kind => "Visitor has no case for " ++ kind.name ++ " nodes"
  | missingOperand op => "Operator `" ++ op.symbol ++ "` is missing an operand"
  | divisionByZero => "Division by zero"
  | outsideDomain operation value =>
    "Domain error: " ++ operation ++ " is undefined for " ++ Decimal.displayText value
  | tooDeep depth limit =>
    "Expression too deep: depth " ++ depth.repr ++ " exceeds maximum " ++ limit.repr
  | interrupted => "Evaluation interrupted"

end Formula
