import Formula.Term.Interpretation

/-! # Transcripts

An entry is a node with its own fields, an expression's operands being noted as set or unset. A
transcript lists the entries of all nodes, a node before its operands and the left operand before
the right; `interpret_transcript` says that it does. An outline is a transcript that names only the
kind of a leaf.
-/

namespace Formula

inductive Entry where
  | integer (value : Int64)
  | number (value : Float)
  | rational (numerator denominator : Int64)
  | var (name : String)
  | const (name : String)
  | function (name : String)
  | group
  | expression (operator : Operator) (hasLeft hasRight : Bool)
  | unsupported (kind : Kind)
  deriving DecidableEq

namespace Interpretation

def kindOnly : Interpretation Kind where
  unsupported := id

def outline : Interpretation (List Entry) where
  unsupported kind := [.unsupported kind]
  function name a := .function name :: a.meaning ()
  group a := .group :: a.meaning ()
  expression op left right :=
    .expression op left.isSome right.isSome ::
      (left.elim [] (·.meaning ()) ++ right.elim [] (·.meaning ()))

def transcript : Interpretation (List Entry) :=
  { outline with
    integer := fun value => [.integer value]
    number := fun value => [.number value]
    rational := fun numerator denominator => [.rational numerator denominator]
    var := fun name => [.var name]
    const := fun name => [.const name] }

/-- The entry of a leaf; a node with operands is unsupported, and they are not looked at. -/
def leafEntry : Interpretation Entry where
  unsupported := .unsupported
  integer := .integer
  number := .number
  rational := .rational
  var := .var
  const := .const

end Interpretation

namespace Term

def entry : Term → Entry
  | integer value => .integer value
  | number value => .number value
  | rational numerator denominator => .rational numerator denominator
  | var name => .var name
  | const name => .const name
  | function name _ => .function name
  | group _ => .group
  | expression op left right => .expression op left.isSome right.isSome

theorem interpret_kindOnly (t : Term) : t.interpret .kindOnly = t.kind := by
  cases t with
  | expression op left right => rw [interpret_expression]; rfl
  | _ => rfl

theorem interpret_leafEntry (t : Term) :
    t.interpret .leafEntry = if t.isLeaf then t.entry else .unsupported t.kind := by
  cases t with
  | expression op left right => rw [interpret_expression]; rfl
  | _ => rfl

theorem interpret_transcript (t : Term) : t.interpret .transcript = t.subterms.map entry := by
  induction t with
  | integer _ | number _ | rational _ _ | var _ | const _ => rfl
  | function name a ih => exact congrArg (Entry.function name :: ·) ih
  | group a ih => exact congrArg (Entry.group :: ·) ih
  | expression op left right ihl ihr =>
    cases left <;> cases right <;>
      simp_all [interpret_expression, Interpretation.transcript, Interpretation.outline,
        subterms, entry]

end Term

end Formula
