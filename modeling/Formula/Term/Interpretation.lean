import Formula.Term

/-! # Interpretations

An interpretation says what a term means by one clause for each kind of node. A clause is given the
fields of the node and, for each operand, the operand together with its meaning, which it may call
for or leave alone. A kind without a clause of its own goes to `unsupported`.
-/

namespace Formula

universe u

/-- An operand and what it means; the meaning is worked out when it is called for. -/
structure Operand (α : Type u) where
  term : Term
  meaning : Unit → α

structure Interpretation (α : Type u) where
  unsupported : Kind → α
  integer : Int64 → α := fun _ => unsupported .integer
  number : Float → α := fun _ => unsupported .number
  rational : Int64 → Int64 → α := fun _ _ => unsupported .rational
  var : String → α := fun _ => unsupported .var
  const : String → α := fun _ => unsupported .const
  function : String → Operand α → α := fun _ _ => unsupported .function
  group : Operand α → α := fun _ => unsupported .group
  expression : Operator → Option (Operand α) → Option (Operand α) → α :=
    fun _ _ _ => unsupported .expression

namespace Term

variable {α : Type u}

def interpret (I : Interpretation α) : Term → α
  | integer value => I.integer value
  | number value => I.number value
  | rational numerator denominator => I.rational numerator denominator
  | var name => I.var name
  | const name => I.const name
  | function name a => I.function name ⟨a, fun _ => a.interpret I⟩
  | group a => I.group ⟨a, fun _ => a.interpret I⟩
  | expression op left right =>
    I.expression op
      (match left with | some a => some ⟨a, fun _ => a.interpret I⟩ | none => none)
      (match right with | some a => some ⟨a, fun _ => a.interpret I⟩ | none => none)

def asOperand (I : Interpretation α) (t : Term) : Operand α := ⟨t, fun _ => t.interpret I⟩

theorem interpret_expression (I : Interpretation α) (op : Operator) (left right : Option Term) :
    (expression op left right).interpret I =
      I.expression op (left.map (asOperand I)) (right.map (asOperand I)) := by
  cases left <;> cases right <;> rfl

@[simp] theorem asOperand_meaning (I : Interpretation α) (t : Term) (u : Unit) :
    (t.asOperand I).meaning u = t.interpret I := rfl

@[simp] theorem asOperand_term (I : Interpretation α) (t : Term) : (t.asOperand I).term = t := rfl

end Term

end Formula
