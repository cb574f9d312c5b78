import Formula.Term.Measure

/-! # Agreement of terms

Two terms agree when they have the same shape and equal fields at every node, where numbers are
compared as numbers: zeros agree whatever their sign, and a number that is not a number agrees with
itself. The comparison keeps its own agenda of pairs, so it does not depend on the depth of a term.
-/

namespace Formula

/-- Equal as numbers, or neither of them a number. -/
def numbersAgree (x y : Float) : Bool := x == y || (x.isNaN && y.isNaN)

namespace Term

/-- The operands of two slots that are still to be compared, if the slots are set alike. -/
def pairSlots : Option Term → Option Term → Option (List (Term × Term))
  | some a, some b => some [(a, b)]
  | none, none => some []
  | _, _ => none

/-- The pairs of operands that are still to be compared, if the nodes themselves agree. -/
def pairOperands : Term → Term → Option (List (Term × Term))
  | integer m, integer n => if m = n then some [] else none
  | number x, number y => if numbersAgree x y then some [] else none
  | rational m d, rational n e => if m = n ∧ d = e then some [] else none
  | var f, var g => if f = g then some [] else none
  | const f, const g => if f = g then some [] else none
  | function f a, function g b => if f = g then some [(a, b)] else none
  | group a, group b => some [(a, b)]
  | expression p l r, expression q l' r' =>
    if p = q then
      match pairSlots l l', pairSlots r r' with
      | some left, some right => some (left ++ right)
      | _, _ => none
    else none
  | _, _ => none

theorem map_fst_of_pairSlots {l r : Option Term} {pairs : List (Term × Term)}
    (h : pairSlots l r = some pairs) : pairs.map Prod.fst = l.toList := by
  cases l <;> cases r <;> simp only [pairSlots, Option.some.injEq, reduceCtorEq] at h <;>
    subst h <;> rfl

theorem map_fst_of_pairOperands {a b : Term} {pairs : List (Term × Term)}
    (h : pairOperands a b = some pairs) : pairs.map Prod.fst = a.children := by
  revert h
  fun_cases pairOperands a b with
  | case14 l r q l' r' left right hr hl =>
    intro h
    cases h
    simp [children, map_fst_of_pairSlots hl, map_fst_of_pairSlots hr]
  | _ => intro h; cases h <;> rfl

theorem totalSize_of_pairOperands {a b : Term} {pairs : List (Term × Term)}
    (h : pairOperands a b = some pairs) : totalSize (pairs.map Prod.fst) + 1 = a.size := by
  rw [size_eq, map_fst_of_pairOperands h]

/-- Takes a pair from the top of the agenda, and puts the pairs of its operands there, the right
one on top. -/
def agreeAll : List (Term × Term) → Bool
  | [] => true
  | (a, b) :: agenda =>
    match _h : pairOperands a b with
    | some pairs => agreeAll (pairs.reverse ++ agenda)
    | none => false
termination_by agenda => totalSize (agenda.map Prod.fst)
decreasing_by
  have := totalSize_of_pairOperands ‹_›
  simp only [List.map_append, List.map_reverse, List.map_cons, totalSize_append, totalSize_reverse,
    totalSize]
  omega

def agrees (a b : Term) : Bool := agreeAll [(a, b)]

end Term

end Formula
