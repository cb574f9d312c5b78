import Formula.Decimal.Integer
import Formula.Decimal.Real
import Formula.Draft
import Formula.Event
import Formula.OperatorSet
import Formula.Text.Blank

/-! # Reading tokens

A token that a term can begin with is read into a draft; of any other it is reported that there is
none. Which operators may occur is up to the reader; an operator it does not know is no more to it
than a comma. Numbers and operators are read without the blanks around them, names as they are.
-/

namespace Formula

inductive Decimal.Error where
  | integer (cause : Decimal.IntegerError)
  | real (cause : Decimal.RealError)
  deriving DecidableEq, Repr

def Decimal.Error.message : Decimal.Error → String
  | integer cause => cause.message
  | real cause => cause.message

namespace Token

inductive Rejection where
  /-- No term begins with a token of the kind. -/
  | noMatch (kind : Kind)
  | invalidNumber (kind : Kind) (text : String) (cause : Decimal.Error)
  | invalidOperator (kind : Kind) (text : String)
  deriving DecidableEq, Repr

namespace Rejection

def isNoMatch : Rejection → Bool
  | noMatch _ => true
  | _ => false

def message : Rejection → String
  | noMatch kind => "No node for token of kind " ++ kind.title
  | invalidNumber kind text cause =>
    "Invalid number literal `" ++ text ++ "` for " ++ kind.title ++ ": " ++ cause.message
  | invalidOperator kind text => "Invalid operator `" ++ text ++ "` for " ++ kind.title

end Rejection

structure Reader where
  operators : OperatorSet := .all
  deriving DecidableEq

namespace Reader

def full : Reader := {}

def restricted : Reader where
  operators := .arithmetic

def core (token : Token) : List Char := Text.trim token.text.toList

def readInteger (token : Token) : Except Rejection Draft :=
  match Decimal.readInteger (core token) with
  | .ok n => .ok (.finished (.integer n))
  | .error cause => .error (.invalidNumber token.kind token.text (.integer cause))

def readReal (token : Token) : Except Rejection Draft :=
  match Decimal.readReal (core token) with
  | .ok x => .ok (.finished (.number x))
  | .error cause => .error (.invalidNumber token.kind token.text (.real cause))

/-- The text of an operator's token has to be a spelling of that operator. -/
def readOperator (token : Token) (op : Operator) : Except Rejection Draft :=
  if Operator.ofText? (String.ofList (core token)) = some op then .ok (.ofOperator op)
  else .error (.invalidOperator token.kind token.text)

abbrev Reporting (α : Type) := ExceptT Rejection (StateM (List Event)) α

/-- Reports that no term begins with the token, and gives up. -/
def decline (token : Token) : Reporting Draft := do
  modify (· ++ [.unmatched token])
  throw (.noMatch token.kind)

/-- The draft that a term which begins with the token is built in. -/
def create (reader : Reader) (token : Token) : Reporting Draft :=
  match token.kind with
  | .posInt | .integer => liftM (readInteger token)
  | .realNumber => liftM (readReal token)
  | .identifier => return .finished (.var token.text)
  | .constant => return .finished (.const token.text)
  | .functionName => return .ofFunction token.text
  | .openParenthesis => return .ofGroup
  | kind =>
    match kind.operator? with
    | some op => if op ∈ reader.operators then liftM (readOperator token op) else decline token
    | none => decline token

def read (reader : Reader) (token : Token) : Except Rejection Draft :=
  ((reader.create token).run.run []).1

def events (reader : Reader) (token : Token) : List Event := ((reader.create token).run.run []).2

variable {reader : Reader} {token : Token} {op : Operator}

theorem create_of_operator? (h : token.kind.operator? = some op) :
    reader.create token =
      if op ∈ reader.operators then liftM (readOperator token op) else decline token := by
  obtain ⟨kind, text⟩ := token
  cases kind <;> cases h <;> rfl

theorem read_of_operator? (h : token.kind.operator? = some op) :
    reader.read token =
      if op ∈ reader.operators then readOperator token op else .error (.noMatch token.kind) := by
  rw [read, create_of_operator? h]
  split <;> rfl

end Reader

end Token

end Formula
