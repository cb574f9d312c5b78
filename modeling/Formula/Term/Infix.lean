import Formula.Decimal.Integer
import Formula.Decimal.Layout
import Formula.Term

/-! # Terms in infix form

How people read a term. Operators that stand between their operands have blanks around them, and a
slot that is unset shows as a question mark. Nothing is put in parentheses but what is in
parentheses in the term.
-/

namespace Formula

/-- How an operator shows in a term; unary minus shows as a minus sign. -/
def Operator.sign : Operator → List Char
  | .neg => ['-']
  | op => op.symbol.toList

namespace Term

/-- An expression of an operator, given how its operands show. -/
def arrange (op : Operator) (left right : List Char) : List Char :=
  match op.fixity with
  | .between => left ++ ' ' :: (op.sign ++ ' ' :: right)
  | .before => op.sign ++ right
  | .after => left ++ op.sign

def infixChars : Term → List Char
  | integer n => Decimal.integerChars n
  | number x => Decimal.displayChars x
  | rational n d => Decimal.integerChars n ++ '/' :: Decimal.integerChars d
  | var name => name.toList
  | const name => name.toList
  | function name a => name.toList ++ '(' :: (a.infixChars ++ [')'])
  | group a => '(' :: (a.infixChars ++ [')'])
  | expression op left right =>
    arrange op (match left with | some a => a.infixChars | none => ['?'])
      (match right with | some a => a.infixChars | none => ['?'])

def infixText (t : Term) : String := String.ofList t.infixChars

theorem infixChars_expression (op : Operator) (left right : Option Term) :
    (expression op left right).infixChars =
      arrange op (left.elim ['?'] infixChars) (right.elim ['?'] infixChars) := by
  cases left <;> cases right <;> rfl

end Term

end Formula
