import Formula.Decimal.Layout
import Formula.Document.Decoding
import Formula.Document.Reader

/-! # Documents of terms

A term is written as an object whose tag is its kind. It is read back through drafts, so a document
cannot bring about an expression that lacks an operand or has one too many: operands are decoded in
the order in which they are written and then placed, the left one before the right.
-/

namespace Formula

def Operator.name : Operator → String
  | .add => "Add"
  | .sub => "Sub"
  | .mul => "Mul"
  | .div => "Div"
  | .pow => "Pow"
  | .factorial => "Factorial"
  | .sqrt => "Sqrt"
  | .neg => "Neg"

def Operator.ofName? (name : String) : Option Operator := Operator.all.find? (·.name == name)

def Kind.ofName? (name : String) : Option Kind := Kind.all.find? (·.name == name)

namespace Document

def ofOperator (op : Operator) : Document := ofText op.name

def toOperator? (room : Nat) (d : Document) : Option Operator :=
  (d.toTag? room).bind Operator.ofName?

def ofKind (k : Kind) : Document := ofText k.name

def toKind? (room : Nat) (d : Document) : Option Kind := (d.toTag? room).bind Kind.ofName?

def ofInteger (n : Int64) : Document := number (.ofInt n.toInt)

/-- A float that is not finite has no number and is written as null. -/
def ofReal (x : Float) : Document :=
  if x.isFinite then number (Decimal.Layout.interchanged.numeral x) else null

end Document

namespace Term

open Document

def toDocument : Term → Document
  | integer n => tagged "Integer" (ofInteger n)
  | number x => tagged "Number" (ofReal x)
  | rational n d =>
    tagged "Rational" (ofFields [("numerator", ofInteger n), ("denominator", ofInteger d)])
  | var name => tagged "Variable" (ofText name)
  | const name => tagged "Constant" (ofText name)
  | function name a =>
    tagged "Function" (ofFields [("name", ofText name), ("operand", a.toDocument)])
  | group a => tagged "SubExpression" a.toDocument
  | expression op left right =>
    tagged "Expression" (ofFields [("operator", ofOperator op),
      ("left", match left with | some a => a.toDocument | none => null),
      ("right", match right with | some a => a.toDocument | none => null)])

/-- What of a record has been decoded so far. -/
structure Parts where
  operator : Option Operator := none
  name : Option String := none
  numerator : Option Int64 := none
  denominator : Option Int64 := none
  operand : Option Term := none
  left : Option Term := none
  right : Option Term := none

def place (d : Draft) (slot : Slot) (t : Term) : Decoder Draft :=
  match d.place slot t with
  | (.ok _, d) => .ok d
  | (.error e, _) => .error (.draft e)

def placeOption (d : Draft) (slot : Slot) (t : Option Term) : Decoder Draft :=
  match t with
  | some t => place d slot t
  | none => .ok d

def finish (d : Draft) : Decoder Term :=
  match d.finish with
  | .ok t => .ok t
  | .error e => .error (.draft e)

/-- Decodes the contents of a slot that may be unset. -/
def optional (decode : Document → Decoder Term) : Document → Decoder (Option Term)
  | null => .ok none
  | d => (decode d).map some

/-- Decodes a field of a record of any kind, given how terms are decoded in it. -/
def decodeField (room : Nat) (decode : Document → Decoder Term) (parts : Parts) :
    String × Document → Decoder Parts
  | ("operator", d) => return { parts with operator := ← require (d.toOperator? room) }
  | ("name", d) => return { parts with name := ← require d.toText? }
  | ("numerator", d) => return { parts with numerator := ← require d.toInteger? }
  | ("denominator", d) => return { parts with denominator := ← require d.toInteger? }
  | ("operand", d) => return { parts with operand := ← decode d }
  | ("left", d) => return { parts with left := ← optional decode d }
  | ("right", d) => return { parts with right := ← optional decode d }
  | _ => .error .shape

def decodeRecord (names : List String) (room : Nat) (decode : Document → Decoder Term) :
    Document → Decoder Parts :=
  foldRecord names (decodeField room decode) {}

def decodeRational (parts : Parts) : Decoder Term :=
  return rational (← require parts.numerator) (← require parts.denominator)

def decodeGroup (inner : Term) : Decoder Term := do finish (← place .ofGroup .inner inner)

def decodeFunction (parts : Parts) : Decoder Term := do
  let name ← require parts.name
  let operand ← require parts.operand
  finish (← place (.ofFunction name) .operand operand)

def decodeExpression (parts : Parts) : Decoder Term := do
  let draft := Draft.ofOperator (← require parts.operator)
  let draft ← placeOption draft .left parts.left
  let draft ← placeOption draft .right parts.right
  finish draft

/-- Builds a node of its contents when its object is closed; nothing may follow them until then. -/
def closing (rest : List (Spelled × Document)) (contents : Decoder (Decoder Term)) :
    Decoder Term := do
  let node ← contents
  if rest.isEmpty then node else .error .shape

def decode : Nat → Document → Decoder Term
  | room + 1, .object ((some tag, d) :: rest) => closing rest <|
    match tag with
    | "Integer" => do return .ok (integer (← require d.toInteger?))
    | "Number" => do return .ok (number (← require d.toReal?))
    | "Variable" => do return .ok (var (← require d.toText?))
    | "Constant" => do return .ok (const (← require d.toText?))
    | "SubExpression" => do return decodeGroup (← decode room d)
    | "Rational" =>
      match room with
      | room + 1 => do
        return decodeRational (← decodeRecord ["numerator", "denominator"] room (decode room) d)
      | 0 => .error .shape
    | "Function" =>
      match room with
      | room + 1 => do
        return decodeFunction (← decodeRecord ["name", "operand"] room (decode room) d)
      | 0 => .error .shape
    | "Expression" =>
      match room with
      | room + 1 => do
        return decodeExpression (← decodeRecord ["operator", "left", "right"] room (decode room) d)
      | 0 => .error .shape
    | _ => .error .shape
  | _, _ => .error .shape

def ofDocument (d : Document) : Decoder Term := decode maxNesting d

/-- A term is decoded while its text is read, so a text that goes wrong behind a node that is refused
is refused for the node. -/
def ofJson (text : String) : Decoder Term := do
  let s := Document.readState text
  let t ← ofDocument s.document
  let _ ← require s.complete?
  return t

end Term

end Formula
