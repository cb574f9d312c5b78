import Formula.Draft
import Formula.Proofs.Everywhere
import Formula.Term.Measure

/-! # The operands that count

A half-built expression may have a slot set on a side where its operator takes nothing. Such a term
is never looked at: the operands of a node are the terms that its evaluation may enter, in the order
in which it enters them. `visits` lists the nodes that can be reached through operands, and in a
well-formed term these are all of its nodes.
-/

namespace Formula.Term

/-- What stands in a slot of a node. -/
def operand? : Term → Slot → Option Term
  | function _ a, .operand => some a
  | group a, .inner => some a
  | expression _ left _, .left => left
  | expression _ _ right, .right => right
  | _, _ => none

def operands : Term → List Term
  | function _ a => [a]
  | group a => [a]
  | expression op left right =>
    match op.fixity with
    | .between => left.toList ++ right.toList
    | .before => right.toList
    | .after => left.toList
  | _ => []

theorem mem_children_of_mem_operands {t a : Term} (ha : a ∈ t.operands) : a ∈ t.children := by
  cases t with
  | expression op left right =>
    rw [operands] at ha
    rw [children, List.mem_append]
    split at ha
    · exact List.mem_append.mp ha
    · exact .inr ha
    · exact .inl ha
  | _ => exact ha

theorem operands_eq_children {t : Term} (ht : t.Fits) : t.operands = t.children := by
  cases t with
  | expression op left right =>
    obtain ⟨hleft, hright⟩ := ht
    rw [operands, children]
    cases hfixity : op.fixity with
    | between => rfl
    | before =>
      have hnone : left = none := by simpa [Operator.takesLeft, hfixity] using hleft
      rw [hnone]
      rfl
    | after =>
      have hnone : right = none := by simpa [Operator.takesRight, hfixity] using hright
      rw [hnone]
      exact (List.append_nil _).symm
  | _ => rfl

theorem mem_operands_left {op : Operator} {a : Term} {right : Option Term} (h : op.takesLeft) :
    a ∈ (expression op (some a) right).operands := by
  rw [operands]
  cases hfixity : op.fixity with
  | before => simp [Operator.takesLeft, hfixity] at h
  | _ => simp

theorem mem_operands_right {op : Operator} {a : Term} {left : Option Term} (h : op.takesRight) :
    a ∈ (expression op left (some a)).operands := by
  rw [operands]
  cases hfixity : op.fixity with
  | after => simp [Operator.takesRight, hfixity] at h
  | _ => simp

/-- The nodes with their levels, a node before its operands and an operand before the next one. -/
def visits (level : Nat) : Term → List (Nat × Term)
  | t@(function _ a) => (level, t) :: a.visits (level + 1)
  | t@(group a) => (level, t) :: a.visits (level + 1)
  | t@(expression op left right) =>
    let leftVisits := match left with | some a => a.visits (level + 1) | none => []
    let rightVisits := match right with | some a => a.visits (level + 1) | none => []
    (level, t) ::
      match op.fixity with
      | .between => leftVisits ++ rightVisits
      | .before => rightVisits
      | .after => leftVisits
  | t => [(level, t)]

theorem visits_eq (level : Nat) (t : Term) :
    t.visits level = (level, t) :: t.operands.flatMap (visits (level + 1)) := by
  cases t with
  | integer _ | number _ | rational _ _ | var _ | const _ => rfl
  | function _ _ | group _ => simp [visits, operands]
  | expression op left right =>
    cases hfixity : op.fixity <;> cases left <;> cases right <;>
      simp [visits, operands, hfixity]

theorem height_le_iff {t : Term} {levels : Nat} :
    t.height ≤ levels + 1 ↔ ∀ a ∈ t.children, a.height ≤ levels := by
  cases t with
  | integer _ | number _ | rational _ _ | var _ | const _ => simp [height, children]
  | function _ _ | group _ => simp [height, children]
  | expression op left right =>
    cases left <;> cases right <;>
      simp only [height, children, Nat.add_le_add_iff_right, Nat.max_le, Nat.zero_le,
        Option.toList_none, Option.toList_some, List.append_nil, List.nil_append, List.cons_append,
        List.forall_mem_cons, List.not_mem_nil, false_implies, implies_true, true_and, and_true]

theorem height_pos (t : Term) : 0 < t.height := by
  cases t with
  | expression _ left right => cases left <;> cases right <;> exact Nat.succ_pos _
  | _ => exact Nat.succ_pos _

theorem height_lt_of_mem_children {t a : Term} (ha : a ∈ t.children) : a.height < t.height := by
  obtain ⟨levels, hlevels⟩ := Nat.exists_eq_add_of_lt t.height_pos
  rw [Nat.zero_add] at hlevels
  rw [hlevels, Nat.lt_succ_iff]
  exact height_le_iff.mp (Nat.le_of_eq hlevels) a ha

end Formula.Term
