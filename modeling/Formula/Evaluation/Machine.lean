import Formula.Evaluation.Builtin
import Formula.Evaluation.Context
import Formula.Event
import Formula.OperatorSet
import Formula.Valuation

/-! # Evaluators

An evaluator knows the names, the library and the operators it may use, its context, and the depth
of the node that it is at. It works on a machine, which holds the signals and collects events
besides. A computation on a machine may fail; what it did to the machine until then stays done.
`perform` runs a computation, and the lemmas on it say what each way of composing computations does.
-/

namespace Formula

structure Evaluator where
  library : Elementary
  valuation : Valuation
  context : Context := {}
  operators : OperatorSet := .all
  depth : Nat := 0

structure Machine where
  evaluator : Evaluator
  signals : Signals := {}
  log : Array Event := #[]

abbrev Eval (α : Type) := ExceptT Failure (StateM Machine) α

namespace Machine

def isInterrupted (m : Machine) : Bool := m.signals.isRaised m.evaluator.context.signal

def record (m : Machine) (event : Event) : Machine := { m with log := m.log.push event }

def deeper (m : Machine) : Machine :=
  { m with evaluator := { m.evaluator with depth := m.evaluator.depth + 1 } }

def shallower (m : Machine) : Machine :=
  { m with evaluator := { m.evaluator with depth := m.evaluator.depth - 1 } }

variable {α β : Type}

/-- The result of a computation and the machine after it. -/
def perform (m : Machine) (x : Eval α) : Except Failure α × Machine := (ExceptT.run x).run m

@[simp] theorem shallower_deeper (m : Machine) : m.deeper.shallower = m := rfl

@[simp] theorem perform_pure (m : Machine) (a : α) : m.perform (pure a) = (.ok a, m) := rfl

@[simp] theorem perform_throw (m : Machine) (e : Failure) :
    m.perform (throw e : Eval α) = (.error e, m) := rfl

@[simp] theorem perform_get (m : Machine) : m.perform (get : Eval Machine) = (.ok m, m) := rfl

theorem perform_bind (m : Machine) (x : Eval α) (f : α → Eval β) :
    m.perform (x >>= f) =
      match m.perform x with
      | (.ok a, m) => m.perform (f a)
      | (.error e, m) => (.error e, m) := by
  change (match (ExceptT.run x).run m with | (r, m) => (ExceptT.bindCont f r).run m) = _
  cases h : (ExceptT.run x).run m with
  | mk result m =>
    simp only [perform, h]
    cases result <;> rfl

end Machine

end Formula
