import Formula.Term.Measure

/-! # Complexity

The complexity of a term is the sum of the weights of its nodes in a word of 64 bits. Three
operators have no weight. The nodes are weighed in the order of `traversal`, so of several
expressions with such an operator the first one there is reported.
-/

namespace Formula

/-- The operator of an expression that cannot be weighed. -/
structure Unweighted where
  operator : Operator
  deriving DecidableEq, Repr

def Unweighted.message (e : Unweighted) : String := "Unknown operator `" ++ e.operator.symbol ++ "`"

def Operator.weight? : Operator → Option UInt64
  | .add | .sub | .mul => some 2
  | .div => some 4
  | .pow => some 8
  | .factorial | .sqrt | .neg => none

theorem Operator.weight?_eq_none_iff {op : Operator} :
    op.weight? = none ↔ op.fixity ≠ .between := by
  cases op <;> decide

namespace Term

/-- The weight of a node without its operands; parentheses weigh nothing. -/
def weight : Term → Except Unweighted UInt64
  | integer _ | var _ | const _ => .ok 1
  | number _ | rational _ _ => .ok 2
  | function _ _ => .ok 5
  | group _ => .ok 0
  | expression op _ _ =>
    match op.weight? with
    | some w => .ok w
    | none => .error ⟨op⟩

theorem weight_eq_error_iff {t : Term} {e : Unweighted} :
    t.weight = .error e ↔ t.operator? = some e.operator ∧ e.operator.weight? = none := by
  cases t with
  | expression op left right =>
    simp only [weight, operator?, Option.some.injEq]
    constructor
    · intro h
      split at h
      · simp at h
      · simp_all only [Except.error.injEq]
        subst h
        exact ⟨rfl, ‹_›⟩
    · rintro ⟨rfl, h⟩
      simp [h]
  | _ => simp [weight, operator?]

/-- Adds the weights of the listed nodes to a total, up to the first node that has none. -/
def weigh (total : UInt64) : List (Nat × Term) → Except Unweighted UInt64
  | [] => .ok total
  | (_, t) :: nodes =>
    match t.weight with
    | .ok w => weigh (total + w) nodes
    | .error e => .error e

theorem weigh_append (total : UInt64) (front back : List (Nat × Term)) :
    weigh total (front ++ back) =
      match weigh total front with
      | .ok sum => weigh sum back
      | .error e => .error e := by
  induction front generalizing total with
  | nil => rfl
  | cons entry front ih =>
    simp only [List.cons_append, weigh]
    cases entry.2.weight with
    | ok w => exact ih (total + w)
    | error e => rfl

def complexity (t : Term) : Except Unweighted UInt64 := weigh 0 t.traversal

theorem complexity_eq (t : Term) : t.complexity = weigh 0 (t.levels 1) := by
  rw [complexity, traversal_eq]

end Term

end Formula
