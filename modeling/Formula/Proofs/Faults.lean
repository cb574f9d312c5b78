import Formula.Proofs.Outcome

/-! # Faults

An evaluation that fails does so because of a node of the term. `Fault` says of which nodes a
failure may come; a node that fails has an operand that fails, or is at fault itself, and so
`failsByFault` finds a fault for every failure. That the operator of an expression has no operation
is not among the causes, nor is a kind of node without a meaning.
-/

namespace Formula

/-- The failures of a node that is not let in, whatever kind of node it is. -/
def Failure.ofDoor : Failure → Bool
  | tooDeep _ _ | interrupted => true
  | _ => false

inductive Fault (m : Machine) : Failure → Term → Prop where
  | undefinedVariable {name : String} (h : m.evaluator.valuation.get? name = none) :
    Fault m (.undefinedVariable name) (.var name)
  | unknownConstant {name : String} (h : Builtin.constant? name = none) :
    Fault m (.unknownConstant name) (.const name)
  | unknownFunction {name : String} {a : Term}
    (h : Builtin.function? m.evaluator.library name = none) :
    Fault m (.unknownFunction name) (.function name a)
  | unknownOperator {op : Operator} {left right : Option Term} (h : op ∉ m.evaluator.operators) :
    Fault m (.unknownOperator op) (.expression op left right)
  | missingLeft {op : Operator} {right : Option Term} (h : op.takesLeft) :
    Fault m (.missingOperand op) (.expression op none right)
  | missingRight {op : Operator} {left : Option Term} (h : op.takesRight) :
    Fault m (.missingOperand op) (.expression op left none)
  | zeroDenominator {n : Int64} : Fault m .divisionByZero (.rational n 0)
  | zeroDivisor {left right : Option Term} : Fault m .divisionByZero (.expression .div left right)
  | outsideFunction {name : String} {a : Term} {x : Float} :
    Fault m (.outsideDomain name x) (.function name a)
  | outsideOperator {op : Operator} {left right : Option Term} {x : Float} :
    Fault m (.outsideDomain op.symbol x) (.expression op left right)
  | tooDeep {depth : Nat} {t : Term} (h : m.evaluator.context.limit < depth) :
    Fault m (.tooDeep depth m.evaluator.context.limit) t
  | interrupted {t : Term} (h : m.isInterrupted) : Fault m .interrupted t

namespace Fault

variable {m : Machine} {e : Failure} {t : Term}

theorem of_deeper (h : Fault m.deeper e t) : Fault m e t := by
  cases h with
  | undefinedVariable h => exact .undefinedVariable h
  | unknownConstant h => exact .unknownConstant h
  | unknownFunction h => exact .unknownFunction h
  | unknownOperator h => exact .unknownOperator h
  | missingLeft h => exact .missingLeft h
  | missingRight h => exact .missingRight h
  | zeroDenominator => exact .zeroDenominator
  | zeroDivisor => exact .zeroDivisor
  | outsideFunction => exact .outsideFunction
  | outsideOperator => exact .outsideOperator
  | tooDeep h => exact .tooDeep h
  | interrupted h => exact .interrupted h

theorem not_fits_of_missingOperand {op : Operator} (h : Fault m (.missingOperand op) t) :
    ¬t.Fits := by
  cases h with
  | missingLeft h => simp [Term.Fits, h]
  | missingRight h => simp [Term.Fits, h]

end Fault

namespace Eval

variable {m : Machine} {e : Failure}

theorem fault_of_admission_eq_error (h : admission m = .error e) (t : Term) : Fault m e t := by
  unfold admission at h
  split at h
  · cases h
    exact .interrupted ‹_›
  · split at h
    · cases h
      exact .tooDeep (Nat.lt_succ_of_le ‹_›)
    · cases h

theorem ofDoor_of_admission_eq_error (h : admission m = .error e) : e.ofDoor := by
  unfold admission at h
  split at h
  · cases h
    rfl
  · split at h
    · cases h
      rfl
    · cases h

theorem result_require_eq_error {α : Type} {a : Option α} {cause : Failure}
    (h : m.result (require a cause) = .error e) : a = none ∧ cause = e := by
  cases a with
  | none =>
    cases h
    exact ⟨rfl, rfl⟩
  | some a => cases h

theorem result_require_eq_ok {α : Type} {a : Option α} {cause : Failure} {b : α}
    (h : m.result (require a cause) = .ok b) : a = some b := by
  cases a with
  | none => cases h
  | some a =>
    cases h
    rfl

theorem result_inDomain_eq_error {operation : String} {input value : Float}
    (h : m.result (inDomain operation input value) = .error e) :
    e = .outsideDomain operation input := by
  unfold inDomain at h
  split at h
  · cases h
    rfl
  · cases h

theorem result_applyUnary_eq_error {op : Operator} {x : Float} (hop : op.fixity ≠ .between)
    (h : m.result (applyUnary op x) = .error e) : e = .outsideDomain op.symbol x := by
  cases op with
  | neg => cases h
  | sqrt => exact result_inDomain_eq_error h
  | factorial => exact (result_require_eq_error h).2.symm
  | _ => exact absurd rfl hop

theorem result_applyBinary_eq_error {lib : Elementary} {op : Operator} {x y : Float}
    (hop : op.fixity = .between) (h : m.result (applyBinary lib op x y) = .error e) :
    op = .div ∧ e = .divisionByZero ∨ e = .outsideDomain op.symbol x := by
  cases op with
  | add | sub | mul => cases h
  | div =>
    change m.result (if y == 0 then _ else _) = _ at h
    split at h
    · cases h
      exact .inl ⟨rfl, rfl⟩
    · cases h
  | pow => exact .inr (result_inDomain_eq_error h)
  | factorial | sqrt | neg => cases hop

end Eval

namespace Term

open Eval

variable {m : Machine} {e : Failure}

/-- What an expression may fail for: its operator is not permitted, an operand that the operator
takes has no value, or the operator itself fails on the values. -/
theorem result_accept_expression_eq_error {op : Operator} {left right : Option Term}
    (h : m.result (expression op left right).accept = .error e) :
    op ∉ m.evaluator.operators ∧ e = .unknownOperator op ∨
      op.takesLeft ∧ slotResult m op left = .error e ∨
      op.takesRight ∧ slotResult m op right = .error e ∨
      (∃ x y, op.fixity = .between ∧ slotResult m op left = .ok x ∧ slotResult m op right = .ok y ∧
        m.result (applyBinary m.evaluator.library op x y) = .error e) ∨
      ∃ x, (op.fixity = .before ∧ slotResult m op right = .ok x ∨
        op.fixity = .after ∧ slotResult m op left = .ok x) ∧
        m.result (applyUnary op x) = .error e := by
  rw [result_accept_expression, Except.bind_eq_error_iff] at h
  obtain h | ⟨-, -, h⟩ := h
  · exact .inl (permission_eq_error_iff.mp h)
  split at h
  case h_1 hfixity =>
    rw [Except.bind_eq_error_iff] at h
    obtain h | ⟨x, hx, h⟩ := h
    · exact .inr (.inl ⟨op.takesLeft_iff.mpr (by simp [hfixity]), h⟩)
    rw [Except.bind_eq_error_iff] at h
    obtain h | ⟨y, hy, h⟩ := h
    · exact .inr (.inr (.inl ⟨op.takesRight_iff.mpr (by simp [hfixity]), h⟩))
    · exact .inr (.inr (.inr (.inl ⟨x, y, hfixity, hx, hy, h⟩)))
  case h_2 hfixity =>
    rw [Except.bind_eq_error_iff] at h
    obtain h | ⟨x, hx, h⟩ := h
    · exact .inr (.inr (.inl ⟨op.takesRight_iff.mpr (by simp [hfixity]), h⟩))
    · exact .inr (.inr (.inr (.inr ⟨x, .inl ⟨hfixity, hx⟩, h⟩)))
  case h_3 hfixity =>
    rw [Except.bind_eq_error_iff] at h
    obtain h | ⟨x, hx, h⟩ := h
    · exact .inr (.inl ⟨op.takesLeft_iff.mpr (by simp [hfixity]), h⟩)
    · exact .inr (.inr (.inr (.inr ⟨x, .inr ⟨hfixity, hx⟩, h⟩)))

theorem fault_of_slotResult_eq_error {op : Operator} {slot : Option Term} {t : Term}
    (hset : ∀ a, slot = some a → a ∈ t.operands)
    (hunset : slot = none → Fault m (.missingOperand op) t) (h : slotResult m op slot = .error e) :
    (∃ a ∈ t.operands, m.result a.eval = .error e) ∨ Fault m e t ∧ ¬e.ofDoor := by
  cases slot with
  | none =>
    cases h
    exact .inr ⟨hunset rfl, Bool.false_ne_true⟩
  | some a => exact .inl ⟨a, hset a rfl, h⟩

/-- A node that was let in fails as one of its operands does, or for a fault of its own. -/
theorem result_accept_eq_error {t : Term} (h : m.result t.accept = .error e) :
    (∃ a ∈ t.operands, m.result a.eval = .error e) ∨ Fault m e t ∧ ¬e.ofDoor := by
  cases t with
  | integer n | number x => cases h
  | rational n d =>
    rw [result_accept_rational] at h
    split at h
    · cases h
      subst d
      exact .inr ⟨.zeroDenominator, Bool.false_ne_true⟩
    · cases h
  | var name =>
    rw [result_accept_var] at h
    obtain ⟨hnone, rfl⟩ := result_require_eq_error h
    exact .inr ⟨.undefinedVariable hnone, Bool.false_ne_true⟩
  | const name =>
    obtain ⟨hnone, rfl⟩ := result_require_eq_error h
    exact .inr ⟨.unknownConstant hnone, Bool.false_ne_true⟩
  | function name a =>
    rw [result_accept_function, Except.bind_eq_error_iff] at h
    obtain h | ⟨f, -, h⟩ := h
    · obtain ⟨hnone, rfl⟩ := result_require_eq_error h
      exact .inr ⟨.unknownFunction hnone, Bool.false_ne_true⟩
    rw [Except.bind_eq_error_iff] at h
    obtain h | ⟨x, -, h⟩ := h
    · exact .inl ⟨a, List.mem_singleton_self a, h⟩
    · rw [result_inDomain_eq_error h]
      exact .inr ⟨.outsideFunction, Bool.false_ne_true⟩
  | group a => exact .inl ⟨a, List.mem_singleton_self a, h⟩
  | expression op left right =>
    obtain ⟨hop, rfl⟩ | ⟨htakes, h⟩ | ⟨htakes, h⟩ | ⟨x, y, hfixity, -, -, h⟩ | ⟨x, hslot, h⟩ :=
      result_accept_expression_eq_error h
    · exact .inr ⟨.unknownOperator hop, Bool.false_ne_true⟩
    · apply fault_of_slotResult_eq_error _ _ h
      · rintro a rfl
        exact mem_operands_left htakes
      · rintro rfl
        exact .missingLeft htakes
    · apply fault_of_slotResult_eq_error _ _ h
      · rintro a rfl
        exact mem_operands_right htakes
      · rintro rfl
        exact .missingRight htakes
    · obtain ⟨rfl, rfl⟩ | rfl := result_applyBinary_eq_error hfixity h
      · exact .inr ⟨.zeroDivisor, Bool.false_ne_true⟩
      · exact .inr ⟨.outsideOperator, Bool.false_ne_true⟩
    · have hunary : op.fixity ≠ .between := by
        obtain ⟨hfixity, -⟩ | ⟨hfixity, -⟩ := hslot <;> simp [hfixity]
      rw [result_applyUnary_eq_error hunary h]
      exact .inr ⟨.outsideOperator, Bool.false_ne_true⟩

def HasFault (m : Machine) (e : Failure) (t : Term) : Prop := ∃ s ∈ t.subterms, Fault m e s

theorem hasFault_of_fault {t : Term} (h : Fault m e t) : t.HasFault m e :=
  ⟨t, t.mem_subterms_self, h⟩

theorem HasFault.of_child {t a : Term} (h : a.HasFault m e) (ha : a ∈ t.children) :
    t.HasFault m e := by
  obtain ⟨s, hs, hfault⟩ := h
  exact ⟨s, mem_subterms_iff.mpr (.inr ⟨a, ha, hs⟩), hfault⟩

/-- Every failure of the term on any machine has a fault among its nodes. -/
def FailsByFault (t : Term) : Prop :=
  ∀ (m : Machine) (e : Failure), m.result t.accept = .error e → t.HasFault m e

theorem FailsByFault.eval {t : Term} (ht : t.FailsByFault) (h : m.result t.eval = .error e) :
    t.HasFault m e := by
  rw [result_eval, Except.bind_eq_error_iff] at h
  obtain hrefused | ⟨-, -, h⟩ := h
  · exact hasFault_of_fault (fault_of_admission_eq_error hrefused t)
  · obtain ⟨s, hs, hfault⟩ := ht _ _ h
    exact ⟨s, hs, hfault.of_deeper⟩

/-- Every failure has a fault: a failure is handed up from operand to node and never made up. -/
theorem failsByFault (t : Term) : t.FailsByFault := by
  induction t using induction_children with
  | node t ih =>
    intro m e h
    obtain ⟨a, ha, h⟩ | ⟨hfault, -⟩ := result_accept_eq_error h
    · have hchild := mem_children_of_mem_operands ha
      exact ((ih a hchild).eval h).of_child hchild
    · exact hasFault_of_fault hfault

/-- A failure that no node can be blamed for comes about in no way of evaluating the term. -/
theorem result_ne_error {t : Term} (h : ∀ s ∈ t.subterms, ¬Fault m e s) :
    ∀ x ∈ [t.eval, t.accept, t.evaluate], m.result x ≠ .error e := by
  have hnone : ¬t.HasFault m e := by
    rintro ⟨s, hs, hfault⟩
    exact h s hs hfault
  have heval : m.result t.eval ≠ .error e := fun herror => hnone (t.failsByFault.eval herror)
  have haccept : m.result t.accept ≠ .error e := fun herror => hnone (t.failsByFault m e herror)
  simp [heval, haccept, result_evaluate]

end Term

end Formula
