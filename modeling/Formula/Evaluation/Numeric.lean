import Formula.Evaluation.Machine
import Formula.Term.Interpretation
import Formula.Term.Measure

/-! # Numeric evaluation

The value of a term as a float. A node is entered through `enter`, which looks at the signal and at
the limit, reports the node and counts the level; `numeric` says what each kind of node is worth,
entering its operands from left to right. `Term.eval` enters the root as well, while
`interpret numeric` begins behind that door.
-/

namespace Formula

namespace Eval

variable {α : Type}

/-- Lets a node be entered, unless the evaluation is interrupted or the node lies too deep. -/
def check (t : Term) : Eval Unit := fun m =>
  let evaluator := m.evaluator
  let limit := evaluator.context.limit
  if m.isInterrupted then (.error .interrupted, m)
  else if limit ≤ evaluator.depth then (.error (.tooDeep (evaluator.depth + 1) limit), m)
  else if evaluator.context.tracing then
    (.ok (), m.record (.entered evaluator.depth t.kind t.operatorSymbol))
  else (.ok (), m)

/-- Does something one level further down and comes back, whether it fails or not. -/
def oneLevelDown (x : Eval α) : Eval α := fun m =>
  let (result, m) := m.deeper.perform x
  (result, m.shallower)

def enter (t : Term) (x : Eval α) : Eval α := do
  check t
  oneLevelDown x

def require (x : Option α) (failure : Failure) : Eval α :=
  match x with
  | some a => pure a
  | none => throw failure

/-- A result that is not a number is a failure of the operation, if its input was a number. -/
def inDomain (operation : String) (input result : Float) : Eval Float :=
  if result.isNaN && !input.isNaN then throw (.outsideDomain operation input) else pure result

def applyUnary (op : Operator) (x : Float) : Eval Float :=
  match op with
  | .neg => pure (-x)
  | .sqrt => inDomain op.symbol x x.sqrt
  | .factorial => require (Builtin.factorial? x) (.outsideDomain op.symbol x)
  | _ => throw (.unknownOperator op)

/-- Whether a power is a failure is asked of the base alone. -/
def applyBinary (lib : Elementary) (op : Operator) (a b : Float) : Eval Float :=
  match op with
  | .add => pure (a + b)
  | .sub => pure (a - b)
  | .mul => pure (a * b)
  | .div => if b == 0 then throw .divisionByZero else pure (a / b)
  | .pow => inDomain op.symbol a (lib.pow a b)
  | _ => throw (.unknownOperator op)

def operandValue (a : Operand (Eval Float)) : Eval Float := enter a.term (a.meaning ())

def slotValue (op : Operator) : Option (Operand (Eval Float)) → Eval Float
  | some a => operandValue a
  | none => throw (.missingOperand op)

theorem perform_check (m : Machine) (t : Term) :
    m.perform (check t) =
      if m.isInterrupted then (.error .interrupted, m)
      else if m.evaluator.context.limit ≤ m.evaluator.depth then
        (.error (.tooDeep (m.evaluator.depth + 1) m.evaluator.context.limit), m)
      else if m.evaluator.context.tracing then
        (.ok (), m.record (.entered m.evaluator.depth t.kind t.operatorSymbol))
      else (.ok (), m) := rfl

theorem perform_oneLevelDown (m : Machine) (x : Eval α) :
    m.perform (oneLevelDown x) = ((m.deeper.perform x).1, (m.deeper.perform x).2.shallower) := rfl

@[simp] theorem require_some (a : α) (failure : Failure) : require (some a) failure = pure a := rfl

@[simp] theorem require_none (failure : Failure) :
    require (none : Option α) failure = throw failure := rfl

end Eval

open Eval in
def Interpretation.numeric : Interpretation (Eval Float) where
  unsupported kind := throw (.unsupportedKind kind)
  integer value := pure (nearestFloat value)
  number value := pure value
  rational numerator denominator :=
    if denominator = 0 then throw .divisionByZero
    else pure (nearestFloat numerator / nearestFloat denominator)
  var name := do
    let m ← get
    require (m.evaluator.valuation.get? name) (.undefinedVariable name)
  const name := require (Builtin.constant? name) (.unknownConstant name)
  function name a := do
    let m ← get
    let f ← require (Builtin.function? m.evaluator.library name) (.unknownFunction name)
    let x ← operandValue a
    inDomain name x (f x)
  group a := operandValue a
  expression op left right := do
    let m ← get
    if m.evaluator.operators.contains op then
      match op.fixity with
      | .between =>
        let a ← slotValue op left
        let b ← slotValue op right
        applyBinary m.evaluator.library op a b
      | .before => slotValue op right >>= applyUnary op
      | .after => slotValue op left >>= applyUnary op
    else throw (.unknownOperator op)

namespace Term

def accept (t : Term) : Eval Float := t.interpret .numeric

def eval (t : Term) : Eval Float := Eval.enter t t.accept

/-- Evaluation with a report of what is evaluated and of how it ended. -/
def evaluate (t : Term) : Eval Float := fun m =>
  let m := m.record (.started t.kind t.nodeCount t.depth m.evaluator.valuation.size)
  let (result, m) := m.perform t.eval
  match result with
  | .ok value => (.ok value, m.record (.finished value))
  | .error failure => (.error failure, m.record (.failed failure))

end Term

/-- A machine for one evaluator, at the root of a term and with nothing reported yet. -/
def Machine.start (lib : Elementary) (v : Valuation) (context : Context) (signals : Signals)
    (operators : OperatorSet) : Machine where
  evaluator := { library := lib, valuation := v, context, operators }
  signals

end Formula
