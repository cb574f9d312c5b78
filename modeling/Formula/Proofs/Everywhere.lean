import Formula.Term

/-! # What holds at every node

A property of nodes is lifted to a term by asking for it at every subterm. It is passed from the
operands to the node and back by `everywhere_iff`, so that claims about whole terms go by induction
along the term.
-/

namespace Formula.Term

def Finite : Term → Prop
  | number x => x.isFinite
  | _ => True

variable {P : Term → Prop}

theorem Everywhere.self {t : Term} (h : t.Everywhere P) : P t := h t t.mem_subterms_self

theorem everywhere_of_children_eq_nil {t : Term} (ht : t.children = []) (h : P t) :
    t.Everywhere P := by
  rw [everywhere_iff, ht]
  exact ⟨h, fun a ha => absurd ha List.not_mem_nil⟩

theorem everywhere_function {name : String} {a : Term} :
    (function name a).Everywhere P ↔ P (function name a) ∧ a.Everywhere P := by
  rw [everywhere_iff]
  simp [children]

theorem everywhere_group {a : Term} :
    (group a).Everywhere P ↔ P (group a) ∧ a.Everywhere P := by
  rw [everywhere_iff]
  simp [children]

theorem everywhere_expression {op : Operator} {left right : Option Term} :
    (expression op left right).Everywhere P ↔ P (expression op left right) ∧
      (∀ a, left = some a → a.Everywhere P) ∧ ∀ a, right = some a → a.Everywhere P := by
  rw [everywhere_iff]
  simp [children, or_imp, forall_and]

theorem mem_children_left {op : Operator} {a : Term} {right : Option Term} :
    a ∈ (expression op (some a) right).children := by
  simp [children]

theorem mem_children_right {op : Operator} {a : Term} {left : Option Term} :
    a ∈ (expression op left (some a)).children := by
  simp [children]

theorem induction_children {motive : Term → Prop}
    (node : ∀ t, (∀ a ∈ t.children, motive a) → motive t) (t : Term) : motive t := by
  induction t with
  | integer _ | number _ | rational _ _ | var _ | const _ =>
    apply node
    intro a ha
    cases ha
  | function name a ih | group a ih =>
    apply node
    intro b hb
    rw [List.mem_singleton.mp hb]
    exact ih
  | expression op left right ihl ihr =>
    apply node
    intro b hb
    obtain hb | hb := List.mem_append.mp hb
    · exact ihl b (Option.mem_toList.mp hb)
    · exact ihr b (Option.mem_toList.mp hb)

end Formula.Term
