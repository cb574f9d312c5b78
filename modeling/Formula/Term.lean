import Formula.Operator

/-! # Terms

The tree of a formula. An expression keeps a left and a right slot for its operands, either of
which may be unset, so a term may be half built; `WellFormed` singles out the terms in which every
expression fills exactly the slots its operator has. What holds of every node of a term is said
through `subterms`, the nodes in pre-order.
-/

namespace Formula

inductive Term where
  | integer (value : Int64)
  | number (value : Float)
  | rational (numerator denominator : Int64)
  | var (name : String)
  | const (name : String)
  | function (name : String) (operand : Term)
  | group (inner : Term)
  | expression (operator : Operator) (left right : Option Term)

/-- What a node is, its fields left aside. -/
inductive Kind where
  | integer
  | number
  | rational
  | var
  | const
  | function
  | group
  | expression
  deriving DecidableEq, Repr

namespace Kind

def all : List Kind := [integer, number, rational, var, const, function, group, expression]

theorem mem_all (k : Kind) : k ∈ all := by
  cases k <;> decide

def isLeaf : Kind → Bool
  | integer | number | rational | var | const => true
  | function | group | expression => false

def name : Kind → String
  | integer => "Integer"
  | number => "Number"
  | rational => "Rational"
  | var => "Variable"
  | const => "Constant"
  | function => "Function"
  | group => "SubExpression"
  | expression => "Expression"

end Kind

namespace Term

/-- A property of all terms follows from its passage from the operands to the node. -/
@[elab_as_elim, induction_eliminator]
def induction {motive : Term → Sort u}
    (integer : ∀ value, motive (integer value))
    (number : ∀ value, motive (number value))
    (rational : ∀ numerator denominator, motive (rational numerator denominator))
    (var : ∀ name, motive (var name))
    (const : ∀ name, motive (const name))
    (function : ∀ name operand, motive operand → motive (function name operand))
    (group : ∀ inner, motive inner → motive (group inner))
    (expression : ∀ operator left right, (∀ a, left = some a → motive a) →
      (∀ a, right = some a → motive a) → motive (expression operator left right)) :
    ∀ t, motive t
  | .integer value => integer value
  | .number value => number value
  | .rational numerator denominator => rational numerator denominator
  | .var name => var name
  | .const name => const name
  | .function name operand =>
    function name operand
      (induction integer number rational var const function group expression operand)
  | .group inner =>
    group inner (induction integer number rational var const function group expression inner)
  | .expression operator left right =>
    expression operator left right
      (fun _ h => match left, h with
        | some b, h => Option.some.inj h ▸
          induction integer number rational var const function group expression b)
      (fun _ h => match right, h with
        | some b, h => Option.some.inj h ▸
          induction integer number rational var const function group expression b)

def binary (left : Term) (op : Operator) (right : Term) : Term :=
  expression op (some left) (some right)

def before (op : Operator) (operand : Term) : Term := expression op none (some operand)

def after (operand : Term) (op : Operator) : Term := expression op (some operand) none

def kind : Term → Kind
  | integer _ => .integer
  | number _ => .number
  | rational _ _ => .rational
  | var _ => .var
  | const _ => .const
  | function _ _ => .function
  | group _ => .group
  | expression _ _ _ => .expression

def isLeaf (t : Term) : Bool := t.kind.isLeaf

def operator? : Term → Option Operator
  | expression op _ _ => some op
  | _ => none

/-- The symbol of an expression's operator; any other term has an empty one. -/
def operatorSymbol (t : Term) : String := t.operator?.elim "" Operator.symbol

/-- The operands that are set, left to right. -/
def children : Term → List Term
  | function _ operand => [operand]
  | group inner => [inner]
  | expression _ left right => left.toList ++ right.toList
  | _ => []

theorem children_eq_nil_of_isLeaf {t : Term} (h : t.isLeaf) : t.children = [] := by
  cases t <;> simp_all [isLeaf, kind, Kind.isLeaf, children]

/-- The nodes of a term in pre-order, each as the term that it is the root of. -/
def subterms : Term → List Term
  | t@(function _ operand) => t :: operand.subterms
  | t@(group inner) => t :: inner.subterms
  | t@(expression _ left right) =>
    t :: ((match left with | some a => a.subterms | none => []) ++
      (match right with | some a => a.subterms | none => []))
  | t => [t]

theorem subterms_eq (t : Term) : t.subterms = t :: t.children.flatMap subterms := by
  match t with
  | integer _ | number _ | rational _ _ | var _ | const _ => rfl
  | function _ _ | group _ => simp [subterms, children]
  | expression _ left right => cases left <;> cases right <;> simp [subterms, children]

theorem mem_subterms_self (t : Term) : t ∈ t.subterms := by
  rw [subterms_eq]
  exact List.mem_cons_self

theorem mem_subterms_iff {s t : Term} :
    s ∈ t.subterms ↔ s = t ∨ ∃ a ∈ t.children, s ∈ a.subterms := by
  rw [subterms_eq, List.mem_cons, List.mem_flatMap]

/-- The property holds of every node of the term, at every level. -/
def Everywhere (P : Term → Prop) (t : Term) : Prop := ∀ s ∈ t.subterms, P s

instance {P : Term → Prop} [DecidablePred P] : DecidablePred (Everywhere P) := fun t =>
  inferInstanceAs (Decidable (∀ s ∈ t.subterms, P s))

theorem everywhere_iff {P : Term → Prop} {t : Term} :
    t.Everywhere P ↔ P t ∧ ∀ a ∈ t.children, a.Everywhere P := by
  constructor
  · intro h
    constructor
    · exact h t t.mem_subterms_self
    · intro a ha s hs
      apply h
      exact mem_subterms_iff.mpr (.inr ⟨a, ha, hs⟩)
  · rintro ⟨ht, hchildren⟩ s hs
    obtain rfl | ⟨a, ha, hsa⟩ := mem_subterms_iff.mp hs
    · exact ht
    · exact hchildren a ha s hsa

/-- An expression fits when it fills exactly the slots that its operator has. -/
def Fits : Term → Prop
  | expression op left right => left.isSome = op.takesLeft ∧ right.isSome = op.takesRight
  | _ => True

instance : DecidablePred Fits := fun t => by
  cases t <;> unfold Fits <;> infer_instance

abbrev WellFormed (t : Term) : Prop := t.Everywhere Fits

end Term

end Formula
