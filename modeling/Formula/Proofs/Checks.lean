import Formula.Proofs.Faults

/-! # Checks before an evaluation

Much of what decides an evaluation can be read off the term: whether its names are known, its
operators permitted and its denominators not zero, and how high it is. A failure is explained by a
node of the term, a well-formed term with a value passes all checks, and one that passes them can
only fail in the arithmetic.
-/

namespace Formula

open Eval

/-- The evaluator knows what the node names, and the node does not divide by zero itself. -/
def Term.Ready (evaluator : Evaluator) : Term → Prop
  | .var name => (evaluator.valuation.get? name).isSome
  | .const name => (Builtin.constant? name).isSome
  | .function name _ => (Builtin.function? evaluator.library name).isSome
  | .expression op _ _ => op ∈ evaluator.operators
  | .rational _ denominator => denominator ≠ 0
  | _ => True

/-- What there is in a term for which an evaluator that is not interrupted may fail so. -/
def Failure.Explained (evaluator : Evaluator) (t : Term) : Failure → Prop
  | undefinedVariable name => .var name ∈ t.subterms ∧ evaluator.valuation.get? name = none
  | unknownConstant name => .const name ∈ t.subterms ∧ Builtin.constant? name = none
  | unknownFunction name =>
    (∃ a, .function name a ∈ t.subterms) ∧ Builtin.function? evaluator.library name = none
  | unknownOperator op =>
    (∃ left right, .expression op left right ∈ t.subterms) ∧ op ∉ evaluator.operators
  | missingOperand op => ∃ left right, .expression op left right ∈ t.subterms ∧
    (op.takesLeft ∧ left = none ∨ op.takesRight ∧ right = none)
  | divisionByZero => (∃ numerator, .rational numerator 0 ∈ t.subterms) ∨
    ∃ left right, .expression .div left right ∈ t.subterms
  | outsideDomain operation _ => (∃ a, .function operation a ∈ t.subterms) ∨
    ∃ op left right, .expression op left right ∈ t.subterms ∧ operation = op.symbol
  | tooDeep _ limit => limit = evaluator.context.limit ∧ limit < t.height
  | unsupportedKind _ | interrupted => False

namespace Eval

variable {α : Type} {m : Machine}

theorem limit_le_of_admission_eq_tooDeep {depth limit : Nat}
    (h : admission m = .error (.tooDeep depth limit)) :
    limit = m.evaluator.context.limit ∧ m.evaluator.context.limit ≤ m.evaluator.depth := by
  unfold admission at h
  split at h
  · cases h
  · split at h
    · cases h
      exact ⟨rfl, ‹_›⟩
    · cases h

theorem isSome_of_result_require_eq_ok {x : Option α} {e : Failure} {a : α}
    (h : m.result (require x e) = .ok a) : x.isSome := by
  rw [result_require_eq_ok h]
  rfl

end Eval

namespace Term

variable {m : Machine} {t : Term} {x : Float}

theorem limit_lt_of_result_eval_eq_tooDeep {depth limit : Nat}
    (h : m.result t.eval = .error (.tooDeep depth limit)) :
    limit = m.evaluator.context.limit ∧
      m.evaluator.context.limit < m.evaluator.depth + t.height := by
  induction t using induction_children generalizing m with
  | node t ih =>
    rw [result_eval, Except.bind_eq_error_iff] at h
    obtain hrefused | ⟨-, -, h⟩ := h
    · obtain ⟨rfl, hlimit⟩ := limit_le_of_admission_eq_tooDeep hrefused
      have hheight := t.height_pos
      exact ⟨rfl, by omega⟩
    · obtain ⟨a, ha, h⟩ | ⟨-, hdoor⟩ := result_accept_eq_error h
      · have hchild := mem_children_of_mem_operands ha
        obtain ⟨rfl, hlimit⟩ := ih a hchild h
        have hheight := height_lt_of_mem_children hchild
        refine ⟨rfl, ?_⟩
        change m.evaluator.context.limit < m.evaluator.depth + 1 + a.height at hlimit
        omega
      · exact absurd rfl hdoor

theorem exists_of_slotResult_eq_ok {op : Operator} {slot : Option Term}
    (h : slotResult m op slot = .ok x) : ∀ a ∈ slot.toList, ∃ y, m.result a.eval = .ok y := by
  obtain ⟨b, rfl, hb⟩ := slotResult_eq_ok h
  intro a ha
  rw [List.mem_singleton.mp ha]
  exact ⟨x, hb⟩

/-- A node with a value is ready, and so far as it takes operands they have values too. -/
theorem result_accept_eq_ok (h : m.result t.accept = .ok x) :
    t.Ready m.evaluator ∧ ∀ a ∈ t.operands, ∃ y, m.result a.eval = .ok y := by
  cases t with
  | integer _ | number _ => exact ⟨trivial, fun a ha => nomatch ha⟩
  | rational n d =>
    rw [result_accept_rational] at h
    split at h
    · cases h
    · exact ⟨‹_›, fun a ha => nomatch ha⟩
  | var name =>
    rw [result_accept_var] at h
    exact ⟨isSome_of_result_require_eq_ok h, fun a ha => nomatch ha⟩
  | const name => exact ⟨isSome_of_result_require_eq_ok h, fun a ha => nomatch ha⟩
  | function name a =>
    rw [result_accept_function, Except.bind_eq_ok_iff] at h
    obtain ⟨f, hf, h⟩ := h
    obtain ⟨y, hy, -⟩ := Except.bind_eq_ok_iff.mp h
    refine ⟨isSome_of_result_require_eq_ok hf, ?_⟩
    intro b hb
    rw [List.mem_singleton.mp hb]
    exact ⟨y, hy⟩
  | group a =>
    refine ⟨trivial, ?_⟩
    intro b hb
    rw [List.mem_singleton.mp hb]
    exact ⟨x, h⟩
  | expression op left right =>
    rw [result_accept_expression] at h
    obtain ⟨_, hop, h⟩ := Except.bind_eq_ok_iff.mp h
    refine ⟨permission_eq_ok_iff.mp hop, ?_⟩
    rw [operands]
    cases hfixity : op.fixity with
    | between =>
      rw [hfixity] at h
      obtain ⟨y, hleft, h⟩ := Except.bind_eq_ok_iff.mp h
      obtain ⟨z, hright, -⟩ := Except.bind_eq_ok_iff.mp h
      intro a ha
      obtain ha | ha := List.mem_append.mp ha
      · exact exists_of_slotResult_eq_ok hleft a ha
      · exact exists_of_slotResult_eq_ok hright a ha
    | before =>
      rw [hfixity] at h
      obtain ⟨y, hright, -⟩ := Except.bind_eq_ok_iff.mp h
      exact exists_of_slotResult_eq_ok hright
    | after =>
      rw [hfixity] at h
      obtain ⟨y, hleft, -⟩ := Except.bind_eq_ok_iff.mp h
      exact exists_of_slotResult_eq_ok hleft

theorem ready_of_result_eval_eq_ok (ht : t.WellFormed) (h : m.result t.eval = .ok x) :
    t.Everywhere (Ready m.evaluator) ∧
      m.evaluator.depth + t.height ≤ m.evaluator.context.limit := by
  induction t using induction_children generalizing m x with
  | node t ih =>
    rw [result_eval] at h
    obtain ⟨_, hadmission, h⟩ := Except.bind_eq_ok_iff.mp h
    obtain ⟨hfits, hwellFormed⟩ := everywhere_iff.mp ht
    obtain ⟨hready, hoperands⟩ := result_accept_eq_ok h
    rw [operands_eq_children hfits] at hoperands
    have hchildren : ∀ a ∈ t.children, a.Everywhere (Ready m.evaluator) ∧
        m.evaluator.depth + 1 + a.height ≤ m.evaluator.context.limit := by
      intro a ha
      obtain ⟨y, hy⟩ := hoperands a ha
      exact ih a ha (hwellFormed a ha) hy
    constructor
    · rw [everywhere_iff]
      exact ⟨hready, fun a ha => (hchildren a ha).1⟩
    · have hdepth := depth_lt_of_admission_eq_ok hadmission
      obtain ⟨levels, hlevels⟩ := Nat.exists_eq_add_of_lt hdepth
      have hheight : t.height ≤ levels + 1 := by
        rw [height_le_iff]
        intro a ha
        have := (hchildren a ha).2
        omega
      omega

theorem explained_of_result_eval_eq_error {e : Failure} (hclear : ¬m.isInterrupted)
    (hdepth : m.evaluator.depth = 0) (h : m.result t.eval = .error e) :
    e.Explained m.evaluator t := by
  obtain ⟨s, hs, hfault⟩ := t.failsByFault.eval h
  cases hfault with
  | undefinedVariable hnone | unknownConstant hnone => exact ⟨hs, hnone⟩
  | unknownFunction hnone => exact ⟨⟨_, hs⟩, hnone⟩
  | unknownOperator hop => exact ⟨⟨_, _, hs⟩, hop⟩
  | missingLeft htakes => exact ⟨none, _, hs, .inl ⟨htakes, rfl⟩⟩
  | missingRight htakes => exact ⟨_, none, hs, .inr ⟨htakes, rfl⟩⟩
  | zeroDenominator => exact .inl ⟨_, hs⟩
  | zeroDivisor => exact .inr ⟨_, _, hs⟩
  | outsideFunction => exact .inl ⟨_, hs⟩
  | outsideOperator => exact .inr ⟨_, _, _, hs, rfl⟩
  | tooDeep _ =>
    obtain ⟨-, hlimit⟩ := limit_lt_of_result_eval_eq_tooDeep h
    rw [hdepth, Nat.zero_add] at hlimit
    exact ⟨rfl, hlimit⟩
  | interrupted hinterrupted => exact absurd hinterrupted hclear

/-- Only the arithmetic is left to fail when a well-formed term passes the checks. -/
theorem arithmetic_of_explained {evaluator : Evaluator} {e : Failure} (ht : t.WellFormed)
    (hready : t.Everywhere (Ready evaluator)) (hheight : t.height ≤ evaluator.context.limit)
    (h : e.Explained evaluator t) :
    e = .divisionByZero ∧ (∃ left right, .expression .div left right ∈ t.subterms) ∨
      ∃ operation x, e = .outsideDomain operation x := by
  cases e with
  | undefinedVariable name =>
    have := hready _ h.1
    simp [Ready, h.2] at this
  | unknownConstant name =>
    have := hready _ h.1
    simp [Ready, h.2] at this
  | unknownFunction name =>
    obtain ⟨⟨a, ha⟩, hnone⟩ := h
    have := hready _ ha
    simp [Ready, hnone] at this
  | unknownOperator op =>
    obtain ⟨⟨left, right, hmem⟩, hop⟩ := h
    exact absurd (hready _ hmem) hop
  | missingOperand op =>
    obtain ⟨left, right, hmem, ⟨htakes, rfl⟩ | ⟨htakes, rfl⟩⟩ := h
    · have hfits := (ht _ hmem).1
      rw [htakes] at hfits
      cases hfits
    · have hfits := (ht _ hmem).2
      rw [htakes] at hfits
      cases hfits
  | divisionByZero =>
    obtain ⟨numerator, hmem⟩ | hdiv := h
    · exact absurd rfl (hready _ hmem)
    · exact .inl ⟨rfl, hdiv⟩
  | outsideDomain operation x => exact .inr ⟨operation, x, rfl⟩
  | tooDeep depth limit =>
    obtain ⟨rfl, hlimit⟩ := h
    omega
  | unsupportedKind kind | interrupted => cases h

/-- Whatever the outcome, the term accounts for it: a failure has its reason in a node, a value of a
well-formed term shows that every node is ready and that the limit is not exceeded, and such a term
fails in nothing but arithmetic. -/
theorem result_eval_explained {lib : Elementary} {v : Valuation} {context : Context}
    {signals : Signals} {operators : OperatorSet} (hclear : ¬signals.isRaised context.signal)
    (t : Term) :
    let m := Machine.start lib v context signals operators
    (∀ e, m.result t.eval = .error e → e.Explained m.evaluator t) ∧
      (t.WellFormed → ∀ x, m.result t.eval = .ok x →
        t.Everywhere (Ready m.evaluator) ∧ t.depth ≤ context.limit) ∧
      (t.WellFormed → t.Everywhere (Ready m.evaluator) → t.depth ≤ context.limit →
        ∀ e, m.result t.eval = .error e →
          e = .divisionByZero ∧ (∃ left right, .expression .div left right ∈ t.subterms) ∨
            ∃ operation x, e = .outsideDomain operation x) := by
  intro m
  have hexplained : ∀ e, m.result t.eval = .error e → e.Explained m.evaluator t :=
    fun e he => explained_of_result_eval_eq_error hclear rfl he
  rw [depth_eq_height]
  refine ⟨hexplained, ?_, ?_⟩
  · intro ht x hx
    obtain ⟨hready, hlimit⟩ := ready_of_result_eval_eq_ok ht hx
    exact ⟨hready, Nat.zero_add t.height ▸ hlimit⟩
  · intro ht hready hheight e he
    exact arithmetic_of_explained ht hready hheight (hexplained e he)

/-- Two quotients pass the checks; one has a value, the other divides by zero. -/
theorem result_eval_explained_quotient :
    let m := Machine.start .native (.ofList [("x", 4)]) { limit := 3 } {} .arithmetic
    let t (y : Float) := binary (var "x") .div (group (number y))
    (m.result (t 2).eval = .ok 2 ∧ (t 2).Everywhere (Ready m.evaluator) ∧ (t 2).depth ≤ 3) ∧
      (m.result (t 0).eval = .error .divisionByZero ∧
        ∃ left right, .expression .div left right ∈ (t 0).subterms) := by
  intro m t
  have hclear : ¬({} : Signals).isRaised m.evaluator.context.signal := by decide
  have hwellFormed (y : Float) : (t y).WellFormed := by
    simp [t, Everywhere, binary, subterms, Fits, Operator.takesLeft, Operator.takesRight,
      Operator.fixity]
  have hvalue : m.result (t 2).eval = .ok 2 := by rfl
  have hnone : m.result (t 0).eval = .error .divisionByZero := by rfl
  have hready (y : Float) : (t y).Everywhere (Ready m.evaluator) := by
    simp only [t, Everywhere, binary, subterms, List.mem_append, List.mem_cons, List.not_mem_nil,
      or_false, forall_eq_or_imp, forall_eq]
    have hop : Operator.div ∈ m.evaluator.operators := by decide
    exact ⟨hop, rfl, trivial, trivial⟩
  have hdepth (y : Float) : (t y).depth ≤ 3 := by
    rw [depth_eq_height]
    exact Nat.le_refl 3
  refine ⟨⟨hvalue, (result_eval_explained hclear (t 2)).2.1 (hwellFormed 2) 2 hvalue⟩, hnone, ?_⟩
  obtain ⟨-, hdiv⟩ | ⟨operation, x, hdomain⟩ :=
    (result_eval_explained hclear (t 0)).2.2 (hwellFormed 0) (hready 0) (hdepth 0) _ hnone
  · exact hdiv
  · cases hdomain

end Term

end Formula
