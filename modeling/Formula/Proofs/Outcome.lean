import Formula.Proofs.Chain
import Formula.Proofs.Visits

/-! # Outcomes

Evaluation is quiet, so the operands of a term are evaluated on the machine that the term is
evaluated on, and the result of a term is put together from the results of its operands, as its
events are from theirs.
-/

namespace Formula

/-- How the end of an evaluation is reported. -/
def Event.ended : Except Failure Float → Event
  | .ok value => .finished value
  | .error failure => .failed failure

namespace Term

open Eval

theorem result_eval (t : Term) (m : Machine) :
    m.result t.eval = admission m >>= fun _ => m.deeper.result t.accept :=
  result_enter t.quiet_accept t m

theorem result_eval_of_admission_eq_ok {m : Machine} (h : admission m = .ok ()) (t : Term) :
    m.result t.eval = m.deeper.result t.accept := by
  rw [result_eval, h]
  rfl

theorem perform_evaluate_withLog (t : Term) (m : Machine) (log : Array Event) :
    (m.withLog log).perform t.evaluate =
      (m.result t.eval, m.withLog (log ++
        (#[.started t.kind t.nodeCount t.depth m.evaluator.valuation.size] ++ m.events t.eval ++
          #[.ended (m.result t.eval)]))) := by
  have hrecord (log : Array Event) (e : Event) :
      (m.withLog log).record e = m.withLog (log.push e) := rfl
  change evaluate t (m.withLog log) = _
  simp only [evaluate, hrecord, t.quiet_eval m]
  cases m.result t.eval <;> simp [Event.ended, Machine.withLog]

theorem quiet_evaluate (t : Term) : Quiet t.evaluate :=
  (quiet_of_perform t.perform_evaluate_withLog).1

theorem result_evaluate (t : Term) (m : Machine) : m.result t.evaluate = m.result t.eval :=
  (quiet_of_perform t.perform_evaluate_withLog).2.1 m

theorem events_evaluate (t : Term) (m : Machine) :
    m.events t.evaluate =
      #[.started t.kind t.nodeCount t.depth m.evaluator.valuation.size] ++ m.events t.eval ++
        #[.ended (m.result t.eval)] :=
  (quiet_of_perform t.perform_evaluate_withLog).2.2 m

theorem result_accept_rational (n d : Int64) (m : Machine) :
    m.result (rational n d).accept =
      if d = 0 then .error .divisionByZero else .ok (nearestFloat n / nearestFloat d) := by
  change m.result (if d = 0 then _ else _) = _
  split <;> rfl

theorem result_accept_var (name : String) (m : Machine) :
    m.result (var name).accept =
      m.result (require (m.evaluator.valuation.get? name) (.undefinedVariable name)) :=
  result_get_bind _ m

theorem result_accept_function (name : String) (a : Term) (m : Machine) :
    m.result (function name a).accept =
      m.result (require (Builtin.function? m.evaluator.library name) (.unknownFunction name)) >>=
        fun f => m.result a.eval >>= fun x => m.result (inDomain name x (f x)) := by
  have hcall (f : Float → Float) : Quiet (a.eval >>= fun x => inDomain name x (f x)) :=
    a.quiet_eval.bind fun x => (immediate_inDomain _ _ _).quiet
  have h := result_bind (immediate_require (Builtin.function? m.evaluator.library name)
    (.unknownFunction name)).quiet hcall m
  simp only [result_bind a.quiet_eval fun x => (immediate_inDomain _ _ _).quiet] at h
  exact (result_get_bind _ m).trans h

def slotResult (m : Machine) (op : Operator) (slot : Option Term) : Except Failure Float :=
  slot.elim (.error (.missingOperand op)) fun a => m.result a.eval

theorem result_slotValue (op : Operator) (slot : Option Term) (m : Machine) :
    m.result (slotValue op (slot.map (asOperand .numeric))) = slotResult m op slot := by
  cases slot <;> rfl

theorem result_accept_expression (op : Operator) (left right : Option Term) (m : Machine) :
    m.result (expression op left right).accept =
      permission m op >>= fun _ =>
        match op.fixity with
        | .between => slotResult m op left >>= fun x => slotResult m op right >>= fun y =>
          m.result (applyBinary m.evaluator.library op x y)
        | .before => slotResult m op right >>= fun x => m.result (applyUnary op x)
        | .after => slotResult m op left >>= fun x => m.result (applyUnary op x) := by
  have hslot (slot : Option Term) : Quiet (slotValue op (slot.map (asOperand .numeric))) :=
    (lists_slotValue op fun a _ => a.lists_accept).quiet
  rw [accept, interpret_expression]
  apply (result_get_bind _ m).trans
  simp only [OperatorSet.contains_iff, permission]
  by_cases hop : op ∈ m.evaluator.operators
  · rw [if_pos hop, if_pos hop, Except.ok_bind]
    cases op.fixity with
    | between =>
      rw [result_bind (hslot left) fun x => (hslot right).bind fun y =>
        (immediate_applyBinary _ _ _ _).quiet]
      simp only [result_slotValue,
        result_bind (hslot right) fun y => (immediate_applyBinary _ _ _ _).quiet]
    | before =>
      rw [result_bind (hslot right) fun x => (immediate_applyUnary _ _).quiet, result_slotValue]
    | after =>
      rw [result_bind (hslot left) fun x => (immediate_applyUnary _ _).quiet, result_slotValue]
  · rw [if_neg hop, if_neg hop]
    rfl

theorem slotResult_eq_ok {m : Machine} {op : Operator} {slot : Option Term} {x : Float}
    (h : slotResult m op slot = .ok x) : ∃ a, slot = some a ∧ m.result a.eval = .ok x := by
  cases slot with
  | none => cases h
  | some a => exact ⟨a, rfl, h⟩

/-- An expression with a value has the operands that its operator takes, and they have values. -/
theorem result_accept_expression_eq_ok {m : Machine} {op : Operator} {left right : Option Term}
    {x : Float} (h : m.result (expression op left right).accept = .ok x) :
    (∃ a b y z, left = some a ∧ right = some b ∧ a ∈ (expression op left right).operands ∧
      b ∈ (expression op left right).operands ∧ m.result a.eval = .ok y ∧
        m.result b.eval = .ok z ∧ m.result (applyBinary m.evaluator.library op y z) = .ok x) ∨
    ∃ a ∈ (expression op left right).operands, ∃ y, m.result a.eval = .ok y ∧
      m.result (applyUnary op y) = .ok x := by
  rw [result_accept_expression] at h
  obtain ⟨_, -, h⟩ := Except.bind_eq_ok_iff.mp h
  cases hfixity : op.fixity with
  | between =>
    rw [hfixity] at h
    obtain ⟨y, hleft, h⟩ := Except.bind_eq_ok_iff.mp h
    obtain ⟨z, hright, hvalue⟩ := Except.bind_eq_ok_iff.mp h
    obtain ⟨a, rfl, ha⟩ := slotResult_eq_ok hleft
    obtain ⟨b, rfl, hb⟩ := slotResult_eq_ok hright
    have htakesLeft := op.takesLeft_iff.mpr (by simp [hfixity])
    have htakesRight := op.takesRight_iff.mpr (by simp [hfixity])
    exact .inl ⟨a, b, y, z, rfl, rfl, mem_operands_left htakesLeft, mem_operands_right htakesRight,
      ha, hb, hvalue⟩
  | before =>
    rw [hfixity] at h
    obtain ⟨y, hright, hvalue⟩ := Except.bind_eq_ok_iff.mp h
    obtain ⟨a, rfl, ha⟩ := slotResult_eq_ok hright
    have htakes := op.takesRight_iff.mpr (by simp [hfixity])
    exact .inr ⟨a, mem_operands_right htakes, y, ha, hvalue⟩
  | after =>
    rw [hfixity] at h
    obtain ⟨y, hleft, hvalue⟩ := Except.bind_eq_ok_iff.mp h
    obtain ⟨a, rfl, ha⟩ := slotResult_eq_ok hleft
    have htakes := op.takesLeft_iff.mpr (by simp [hfixity])
    exact .inr ⟨a, mem_operands_left htakes, y, ha, hvalue⟩

theorem events_eval (t : Term) (m : Machine) :
    m.events t.eval =
      match admission m with
      | .ok _ => Eval.entry t m ++ m.deeper.events t.accept
      | .error _ => #[] :=
  events_enter t.quiet_accept t m

theorem events_accept_of_isLeaf {t : Term} (ht : t.isLeaf) (m : Machine) :
    m.events t.accept = #[] := by
  cases t with
  | integer _ | number _ => rfl
  | rational n d => exact (immediate_accept_rational n d).events_eq m
  | var name =>
    apply (events_get_bind (fun _ _ => rfl) m).trans
    exact (immediate_require _ _).events_eq m
  | const name => exact (immediate_require _ _).events_eq m
  | function _ _ | group _ | expression _ _ _ => cases ht

theorem events_accept_function (name : String) (a : Term) (m : Machine) :
    m.events (function name a).accept =
      match Builtin.function? m.evaluator.library name with
      | some _ => m.events a.eval
      | none => #[] := by
  apply (events_get_bind (fun _ _ => rfl) m).trans
  cases Builtin.function? m.evaluator.library name with
  | none => rfl
  | some f => exact events_bind_of_immediate a.quiet_eval (fun x => immediate_inDomain _ _ _) m

def slotEvents (m : Machine) (slot : Option Term) : Array Event :=
  slot.elim #[] fun a => m.events a.eval

theorem events_slotValue (op : Operator) (slot : Option Term) (m : Machine) :
    m.events (slotValue op (slot.map (asOperand .numeric))) = slotEvents m slot := by
  cases slot <;> rfl

theorem events_accept_expression (op : Operator) (left right : Option Term) (m : Machine) :
    m.events (expression op left right).accept =
      if op ∈ m.evaluator.operators then
        match op.fixity with
        | .between =>
          match slotResult m op left with
          | .ok _ => slotEvents m left ++ slotEvents m right
          | .error _ => slotEvents m left
        | .before => slotEvents m right
        | .after => slotEvents m left
      else #[] := by
  have hslot (slot : Option Term) : Quiet (slotValue op (slot.map (asOperand .numeric))) :=
    (lists_slotValue op fun a _ => a.lists_accept).quiet
  rw [accept, interpret_expression]
  apply (events_get_bind (fun _ _ => rfl) m).trans
  simp only [OperatorSet.contains_iff]
  split
  · cases op.fixity with
    | between =>
      rw [events_bind (hslot left) fun x => (hslot right).bind fun y =>
        (immediate_applyBinary _ _ _ _).quiet, result_slotValue]
      simp only [events_slotValue,
        events_bind_of_immediate (hslot right) fun y => immediate_applyBinary _ _ _ _]
      cases slotResult m op left <;> rfl
    | before =>
      rw [events_bind_of_immediate (hslot right) fun x => immediate_applyUnary _ _,
        events_slotValue]
    | after =>
      rw [events_bind_of_immediate (hslot left) fun x => immediate_applyUnary _ _,
        events_slotValue]
  · rfl

end Term

end Formula
