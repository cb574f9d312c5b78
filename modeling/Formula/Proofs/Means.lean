import Formula.Proofs.Simulation

/-! # More means

What an evaluation is given are its levels, its operators and the values of its variables. Given
more of them it ends as it did before, unless it failed for want of one.
-/

namespace Formula

open Eval

/-- The failures for want of something that an evaluation was not given. -/
def Failure.isWant : Failure → Bool
  | undefinedVariable _ | unknownOperator _ | tooDeep _ _ => true
  | _ => false

def Failure.unlessWant (e : Failure) : Option Failure := if e.isWant then none else some e

/-- The second machine has the means of the first one, at the same level and undisturbed. -/
structure Machine.Within (m m' : Machine) : Prop where
  library : m'.evaluator.library = m.evaluator.library
  values : ∀ name x, m.evaluator.valuation.get? name = some x →
    m'.evaluator.valuation.get? name = some x
  limit : m.evaluator.context.limit ≤ m'.evaluator.context.limit
  operators : m.evaluator.operators ⊆ m'.evaluator.operators
  depth : m'.evaluator.depth = m.evaluator.depth
  clear : ¬m.isInterrupted
  clear' : ¬m'.isInterrupted

namespace Machine.Within

variable {m m' : Machine}

theorem deeper (h : m.Within m') : m.deeper.Within m'.deeper where
  library := h.library
  values := h.values
  limit := h.limit
  operators := h.operators
  depth := congrArg (· + 1) h.depth
  clear := h.clear
  clear' := h.clear'

theorem admission (h : m.Within m') :
    Follows Failure.unlessWant (admission m) (Eval.admission m') := by
  unfold Eval.admission
  rw [if_neg h.clear, if_neg h.clear', h.depth]
  split
  · exact follows_of_eq_none rfl _
  · have hlimit := h.limit
    rw [if_neg (by omega)]
    exact follows_ok ()

theorem lookup (h : m.Within m') (name : String) :
    Follows Failure.unlessWant (lookup m name) (Eval.lookup m' name) := by
  unfold Eval.lookup
  cases hvalue : m.evaluator.valuation.get? name with
  | none => exact follows_of_eq_none rfl _
  | some x =>
    rw [h.values name x hvalue]
    exact follows_ok x

theorem permission (h : m.Within m') (op : Operator) :
    Follows Failure.unlessWant (Eval.permission m op) (Eval.permission m' op) := by
  unfold Eval.permission
  split
  · rename_i hop
    rw [if_pos (h.operators op hop)]
    exact follows_ok ()
  · exact follows_of_eq_none rfl _

theorem simulation : Simulation Failure.unlessWant Machine.Within where
  ofTerm e he := by
    cases e with
    | undefinedVariable _ | unknownOperator _ | tooDeep _ _ => cases he
    | _ => rfl
  library h := h.library
  admission h := h.admission
  deeper h := h.deeper
  lookup h := h.lookup
  permission h := h.permission

end Machine.Within

namespace Term

/-- With more levels, more operators and more variables defined, a value stays that value and a
failure stays that failure, if it was not for want of one of these. -/
theorem result_eval_eq_of_more_means {lib : Elementary} {v v' : Valuation}
    {context context' : Context} {signals signals' : Signals} {operators operators' : OperatorSet}
    (hvalues : ∀ name x, v.get? name = some x → v'.get? name = some x)
    (hlimit : context.limit ≤ context'.limit) (hoperators : operators ⊆ operators')
    (hclear : ¬signals.isRaised context.signal) (hclear' : ¬signals'.isRaised context'.signal)
    (t : Term)
    (hsettled : ∀ e, (Machine.start lib v context signals operators).result t.eval = .error e →
      ¬e.isWant) :
    (Machine.start lib v' context' signals' operators').result t.eval =
      (Machine.start lib v context signals operators).result t.eval := by
  have hwithin : (Machine.start lib v context signals operators).Within
      (.start lib v' context' signals' operators') :=
    { library := rfl, values := hvalues, limit := hlimit, operators := hoperators, depth := rfl,
      clear := hclear, clear' := hclear' }
  apply (Machine.Within.simulation.eval t hwithin).eq
  intro e he
  rw [Failure.unlessWant, if_neg (hsettled e he)]

/-- Division by a difference, which may be zero: one level, some operators and a variable are added.
-/
theorem result_eval_zero_difference :
    let t (y : Term) := binary (var "x") .div (binary (var "x") .sub y)
    let less := Machine.start .native (.ofList [("x", 6)]) { limit := 3 } {} .arithmetic
    let more := Machine.start .native (.ofList [("y", 1), ("x", 6)]) { limit := 4 } {} .all
    (less.result (t (var "x")).eval = .error .divisionByZero ∧
      more.result (t (var "x")).eval = .error .divisionByZero) ∧
    less.result (t (integer 4)).eval = .ok 3 ∧ more.result (t (integer 4)).eval = .ok 3 := by
  intro t less more
  have hzero : less.result (t (var "x")).eval = .error .divisionByZero := rfl
  have hvalue : less.result (t (integer 4)).eval = .ok 3 := rfl
  have hmore (y : Term) (hsettled : ∀ e, less.result (t y).eval = .error e → ¬e.isWant) :
      more.result (t y).eval = less.result (t y).eval := by
    refine result_eval_eq_of_more_means ?_ (by decide) (fun op _ => OperatorSet.mem_all op)
      (by decide) (by decide) (t y) hsettled
    intro name x h
    change List.lookup name [("x", 6)] = some x at h
    change List.lookup name [("y", 1), ("x", 6)] = some x
    by_cases hname : name = "x"
    · rw [hname] at h ⊢
      exact h
    · rw [List.lookup_cons, beq_false_of_ne hname] at h
      cases h
  refine ⟨⟨hzero, ?_⟩, hvalue, ?_⟩
  · rw [← hzero]
    apply hmore
    intro e he
    rw [← Except.error.inj (hzero.symm.trans he)]
    exact Bool.false_ne_true
  · rw [← hvalue]
    apply hmore
    intro e he
    cases hvalue.symm.trans he

end Term

end Formula
