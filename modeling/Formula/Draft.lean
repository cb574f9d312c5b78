import Formula.Term

/-! # Drafts

A term under construction. Its kind is settled at the start; operands are placed into its slots in
any order, a later one in place of an earlier one, and the draft is finished once every slot it
needs is filled.
-/

namespace Formula

inductive Slot where
  | operand
  | inner
  | left
  | right
  deriving DecidableEq, Repr

def Slot.title : Slot → String
  | operand => "operand"
  | inner => "inner expression"
  | left => "left operand"
  | right => "right operand"

inductive Draft where
  | finished (term : Term)
  | function (name : String) (operand : Option Term)
  | group (inner : Option Term)
  | expression (operator : Operator) (left right : Option Term)

namespace Draft

inductive Error where
  | missingChild (kind : Kind) (slot : Slot)
  | unexpectedChild (kind : Kind) (slot : Slot)
  deriving DecidableEq, Repr

def Error.message : Error → String
  | missingChild kind slot => kind.name ++ " node is missing its " ++ slot.title
  | unexpectedChild kind slot => kind.name ++ " node has no " ++ slot.title ++ " slot"

def ofFunction (name : String) : Draft := function name none

def ofGroup : Draft := group none

def ofOperator (op : Operator) : Draft := expression op none none

def kind : Draft → Kind
  | finished t => t.kind
  | function _ _ => .function
  | group _ => .group
  | expression _ _ _ => .expression

def operatorSymbol : Draft → String
  | finished t => t.operatorSymbol
  | expression op _ _ => op.symbol
  | _ => ""

def isLeaf (d : Draft) : Bool := d.kind.isLeaf

def accepts : Draft → Slot → Bool
  | function _ _, .operand => true
  | group _, .inner => true
  | expression op _ _, .left => op.takesLeft
  | expression op _ _, .right => op.takesRight
  | _, _ => false

def content : Draft → Slot → Option Term
  | function _ a, .operand => a
  | group a, .inner => a
  | expression _ a _, .left => a
  | expression _ _ a, .right => a
  | _, _ => none

def fill : Draft → Slot → Term → Draft
  | function name _, .operand, t => function name (some t)
  | group _, .inner, t => group (some t)
  | expression op _ right, .left, t => expression op (some t) right
  | expression op left _, .right, t => expression op left (some t)
  | d, _, _ => d

/-- The answer to a placement, and the draft after it; a draft that refuses stays as it is. -/
def place (d : Draft) (slot : Slot) (t : Term) : Except Error Unit × Draft :=
  if d.accepts slot then (.ok (), d.fill slot t) else (.error (.unexpectedChild d.kind slot), d)

/-- The first slot that has to be filled and is not; left comes before right. -/
def missing? (d : Draft) : Option Slot :=
  [Slot.operand, .inner, .left, .right].find? fun slot => d.accepts slot && (d.content slot).isNone

def isComplete (d : Draft) : Bool := d.missing?.isNone

def finish : Draft → Except Error Term
  | finished t => .ok t
  | function _ none => .error (.missingChild .function .operand)
  | function name (some a) => .ok (.function name a)
  | group none => .error (.missingChild .group .inner)
  | group (some a) => .ok (.group a)
  | expression op left right =>
    if op.takesLeft && left.isNone then .error (.missingChild .expression .left)
    else if op.takesRight && right.isNone then .error (.missingChild .expression .right)
    else .ok (.expression op left right)

theorem place_of_accepts {d : Draft} {slot : Slot} (h : d.accepts slot) (t : Term) :
    d.place slot t = (.ok (), d.fill slot t) := if_pos h

theorem place_of_not_accepts {d : Draft} {slot : Slot} (h : ¬d.accepts slot) (t : Term) :
    d.place slot t = (.error (.unexpectedChild d.kind slot), d) := if_neg h

theorem content_fill {d : Draft} {slot : Slot} (h : d.accepts slot) (t : Term) (s : Slot) :
    (d.fill slot t).content s = if s = slot then some t else d.content s := by
  cases d <;> cases slot <;> simp [accepts] at h <;> cases s <;> rfl

theorem finish_eq_error_iff {d : Draft} {e : Error} :
    d.finish = .error e ↔ ∃ slot, d.missing? = some slot ∧ e = .missingChild d.kind slot := by
  cases d with
  | finished t => simp [finish, missing?, accepts]
  | function name a => cases a <;> simp [finish, missing?, accepts, content, kind, eq_comm]
  | group a => cases a <;> simp [finish, missing?, accepts, content, kind, eq_comm]
  | expression op left right =>
    cases left <;> cases right <;> cases hl : op.takesLeft <;> cases hr : op.takesRight <;>
      simp [finish, missing?, accepts, content, kind, hl, hr, eq_comm]

end Draft

end Formula
