import Formula.Proofs.Everywhere
import Formula.Proofs.Lexing
import Formula.Proofs.WrittenFloat
import Formula.Term.Document

/-! # Terms written in any order

A term may be half built, and each of its expressions may be written with the fields of its record
in an order of its own: an arrangement chooses the order at every place of the term. Nodes are
finished while a document is read in the order `completion`: operands before their node, and the
operands of an expression as they are written. `decode_written` says that reading stops at the first
node in this order that cannot be had, and otherwise yields the term.
-/

namespace Formula

inductive Field where
  | operator
  | left
  | right
  deriving DecidableEq, Repr

namespace Field

def all : List Field := [operator, left, right]

def name : Field → String
  | operator => "operator"
  | left => "left"
  | right => "right"

/-- What goes with the field, of three things given in their usual order. -/
def pick {α : Type} (op left right : α) : Field → α
  | operator => op
  | .left => left
  | .right => right

end Field

structure FieldOrder where
  fields : List Field
  perm : fields.Perm Field.all

def FieldOrder.usual : FieldOrder := ⟨Field.all, .refl _⟩

theorem FieldOrder.nodup_names (o : FieldOrder) : (o.fields.map Field.name).Nodup :=
  (o.perm.map Field.name).nodup_iff.mpr (by decide)

theorem FieldOrder.mem_fields (o : FieldOrder) (field : Field) : field ∈ o.fields := by
  rw [o.perm.mem_iff]
  cases field <;> decide

theorem FieldOrder.mem_flatMap_pick {α : Type} {o : FieldOrder} {left right : List α} {a : α} :
    a ∈ o.fields.flatMap (Field.pick [] left right) ↔ a ∈ left ∨ a ∈ right := by
  rw [List.mem_flatMap]
  constructor
  · rintro ⟨field, -, h⟩
    cases field with
    | operator => exact absurd h List.not_mem_nil
    | left => exact .inl h
    | right => exact .inr h
  · rintro (h | h)
    · exact ⟨.left, o.mem_fields _, h⟩
    · exact ⟨.right, o.mem_fields _, h⟩

/-- An order of fields for the expression at each place of a term; a place is given by the slots
that lead to it. -/
abbrev Arrangement := List Slot → FieldOrder

def Arrangement.below (o : Arrangement) (slot : Slot) : Arrangement := fun place => o (slot :: place)

def Arrangement.usual : Arrangement := fun _ => .usual

namespace Term

open Document

def written (o : Arrangement) : Term → Document
  | function name a =>
    tagged "Function" (ofFields [("name", ofText name), ("operand", a.written (o.below .operand))])
  | group a => tagged "SubExpression" (a.written (o.below .inner))
  | expression op left right =>
    let leftDocument := match left with | some a => a.written (o.below .left) | none => null
    let rightDocument := match right with | some a => a.written (o.below .right) | none => null
    tagged "Expression" (ofFields ((o []).fields.map fun field =>
      (field.name, field.pick (ofOperator op) leftDocument rightDocument)))
  | t => t.toDocument

/-- The nodes in the order in which they are finished when the written term is read. -/
def completion (o : Arrangement) : Term → List Term
  | function name a => a.completion (o.below .operand) ++ [function name a]
  | group a => a.completion (o.below .inner) ++ [group a]
  | expression op left right =>
    let leftNodes := match left with | some a => a.completion (o.below .left) | none => []
    let rightNodes := match right with | some a => a.completion (o.below .right) | none => []
    (o []).fields.flatMap (Field.pick [] leftNodes rightNodes) ++ [expression op left right]
  | t => [t]

theorem written_expression (o : Arrangement) (op : Operator) (left right : Option Term) :
    (expression op left right).written o =
      tagged "Expression" (ofFields ((o []).fields.map fun field => (field.name,
        field.pick (ofOperator op) (left.elim null (written (o.below .left)))
          (right.elim null (written (o.below .right)))))) := by
  cases left <;> cases right <;> rfl

theorem completion_expression (o : Arrangement) (op : Operator) (left right : Option Term) :
    (expression op left right).completion o =
      (o []).fields.flatMap (Field.pick [] (left.elim [] (completion (o.below .left)))
        (right.elim [] (completion (o.below .right)))) ++ [expression op left right] := by
  cases left <;> cases right <;> rfl

/-- Why an expression is no node that can be had: operands it must not have count before operands
it lacks. -/
def misfit? : Term → Option Draft.Error
  | expression op left right =>
    if op.fixity = .before ∧ left.isSome then some (.unexpectedChild .expression .left)
    else if op.fixity = .after ∧ right.isSome then some (.unexpectedChild .expression .right)
    else if op.fixity ≠ .before ∧ left.isNone then some (.missingChild .expression .left)
    else if op.fixity ≠ .after ∧ right.isNone then some (.missingChild .expression .right)
    else none
  | _ => none

/-- Why a written node is not read. -/
def flaw? : Term → Option Refusal
  | number x => if x.isFinite then none else some .shape
  | t => t.misfit?.map .draft

/-- The digits of a finite number are read as that number. -/
def ReadsBack : Term → Prop
  | number x => x.isFinite → toFloat? (Decimal.Layout.interchanged.numeral x) = some x
  | _ => True

/-- What is had once the given nodes are finished, one after the other. -/
def verdict {α : Type} (a : α) (nodes : List Term) : Decoder α :=
  match nodes.findSome? flaw? with
  | some cause => .error cause
  | none => .ok a

theorem verdict_nil {α : Type} (a : α) : verdict a [] = .ok a := rfl

theorem verdict_bind {α β : Type} {a : α} {b : β} {f : α → Decoder β} {front back : List Term}
    (h : f a = verdict b back) : (verdict a front >>= f) = verdict b (front ++ back) := by
  simp only [verdict, List.findSome?_append] at h ⊢
  cases front.findSome? flaw? with
  | some cause => rfl
  | none => exact h

theorem verdict_map {α β : Type} {a : α} {nodes : List Term} (f : α → β) :
    (verdict a nodes >>= fun a => .ok (f a)) = verdict (f a) nodes := by
  unfold verdict
  cases nodes.findSome? flaw? <;> rfl

theorem misfit?_eq_none_iff {t : Term} : t.misfit? = none ↔ t.Fits := by
  cases t with
  | expression op left right =>
    cases left <;> cases right <;> cases op <;> simp [misfit?, Fits, Operator.takesLeft,
      Operator.takesRight, Operator.fixity]
  | _ => simp [misfit?, Fits]

theorem flaw?_eq_none_iff {t : Term} : t.flaw? = none ↔ t.Fits ∧ t.Finite := by
  cases t with
  | number x => simp [flaw?, Fits, Finite]
  | expression op left right =>
    rw [flaw?, Option.map_eq_none_iff, misfit?_eq_none_iff]
    · simp [Finite]
    · simp
  | _ => simp [flaw?, misfit?, Fits, Finite]

theorem flaw?_of_finite {t : Term} (h : t.Finite) : t.flaw? = t.misfit?.map .draft := by
  cases t with
  | number x =>
    have hx : x.isFinite := h
    simp [flaw?, misfit?, hx]
  | _ => rfl

theorem written_usual (t : Term) : t.written .usual = t.toDocument := by
  have hbelow (slot : Slot) : Arrangement.usual.below slot = .usual := rfl
  induction t with
  | function name a ih => rw [written, hbelow, ih]; rfl
  | group a ih => rw [written, hbelow, ih]; rfl
  | expression op left right ihl ihr =>
    cases left <;> cases right <;> simp [written, toDocument, hbelow, Arrangement.usual,
      FieldOrder.usual, Field.all, Field.name, Field.pick] <;> simp_all
  | _ => rfl

theorem mem_completion_iff {o : Arrangement} {s t : Term} :
    s ∈ t.completion o ↔ s ∈ t.subterms := by
  induction t generalizing o with
  | function name a ih => simp [completion, subterms, ih, or_comm]
  | group a ih => simp [completion, subterms, ih, or_comm]
  | expression op left right ihl ihr =>
    rw [completion_expression, List.mem_append, FieldOrder.mem_flatMap_pick]
    cases left <;> cases right <;> simp_all [subterms, or_comm]
  | _ => rfl

end Term

end Formula
