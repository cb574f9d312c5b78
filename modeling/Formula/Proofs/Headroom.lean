import Formula.Proofs.Simulation

/-! # Levels to spare

A term evaluated nearer to the root has more levels left. It then ends as it did further down,
unless it went too deep there.
-/

namespace Formula

open Eval

def Failure.isTooDeep : Failure → Bool
  | tooDeep _ _ => true
  | _ => false

def Failure.unlessTooDeep (e : Failure) : Option Failure := if e.isTooDeep then none else some e

/-- The first machine is like the second one, on its level or further down. -/
structure Machine.Below (m m' : Machine) : Prop where
  library : m'.evaluator.library = m.evaluator.library
  valuation : m'.evaluator.valuation = m.evaluator.valuation
  context : m'.evaluator.context = m.evaluator.context
  operators : m'.evaluator.operators = m.evaluator.operators
  signals : m'.signals = m.signals
  depth : m'.evaluator.depth ≤ m.evaluator.depth

namespace Machine

theorem below_self (m : Machine) : m.Below m where
  library := rfl
  valuation := rfl
  context := rfl
  operators := rfl
  signals := rfl
  depth := Nat.le_refl _

theorem Below.lower {m m' : Machine} (h : m.Below m') : m.deeper.Below m' where
  library := h.library
  valuation := h.valuation
  context := h.context
  operators := h.operators
  signals := h.signals
  depth := Nat.le_succ_of_le h.depth

theorem below_deeper (m : Machine) : m.deeper.Below m := m.below_self.lower

namespace Below

variable {m m' : Machine}

theorem deeper (h : m.Below m') : m.deeper.Below m'.deeper where
  library := h.library
  valuation := h.valuation
  context := h.context
  operators := h.operators
  signals := h.signals
  depth := Nat.succ_le_succ h.depth

theorem isInterrupted_eq (h : m.Below m') : m'.isInterrupted = m.isInterrupted := by
  rw [isInterrupted, isInterrupted, h.signals, h.context]

theorem admission (h : m.Below m') :
    Follows Failure.unlessTooDeep (admission m) (Eval.admission m') := by
  unfold Eval.admission
  rw [h.isInterrupted_eq, h.context]
  split
  · exact follows_error rfl
  · split
    · exact follows_of_eq_none rfl _
    · have hdepth := h.depth
      rw [if_neg (by omega)]
      exact follows_ok ()

theorem lookup (h : m.Below m') (name : String) :
    Follows Failure.unlessTooDeep (lookup m name) (Eval.lookup m' name) := by
  unfold Eval.lookup
  rw [h.valuation]
  cases m.evaluator.valuation.get? name with
  | none => exact follows_error rfl
  | some x => exact follows_ok x

theorem permission (h : m.Below m') (op : Operator) :
    Follows Failure.unlessTooDeep (Eval.permission m op) (Eval.permission m' op) := by
  unfold Eval.permission
  rw [h.operators]
  split
  · exact follows_ok ()
  · exact follows_error rfl

theorem simulation : Simulation Failure.unlessTooDeep Machine.Below where
  ofTerm e he := by
    cases e with
    | tooDeep _ _ => cases he
    | _ => rfl
  library h := h.library
  admission h := h.admission
  deeper h := h.deeper
  lookup h := h.lookup
  permission h := h.permission

theorem result_eval_eq_ok (h : m.Below m') {t : Term} {x : Float} (hx : m.result t.eval = .ok x) :
    m'.result t.eval = .ok x := by
  have hfollows := simulation.eval t h
  rw [hx] at hfollows
  exact hfollows

end Below

end Machine

end Formula
