import Formula.Evaluation.Numeric

/-! # Sessions

A valuation and a context that are worked with over and over, and the signals of the contexts
around. What an evaluation leaves of its evaluator is what the session goes on with.
-/

namespace Formula

structure Session where
  valuation : Valuation
  context : Context
  signals : Signals

namespace Session

/-- Nothing defined, and a context with a signal of its own. -/
def start : Session :=
  let (signal, signals) := ({} : Signals).issue
  { valuation := ∅, context := { signal }, signals }

/-- How a term is handed to an evaluator: through the door, or past it. -/
inductive Entrance where
  | eval
  | accept
  deriving DecidableEq, Repr

def Entrance.action : Entrance → Term → Eval Float
  | eval => Term.eval
  | accept => Term.accept

inductive Step where
  | define (name : String) (value : Float)
  | remove (name : String)
  | get (name : String)
  | contains (name : String)
  | extend (entries : List (String × Float))
  | agrees (entries : List (String × Float))
  | limit (levels : Nat)
  | tracing (on : Bool)
  | interrupt
  /-- Interrupts a copy of the context. -/
  | interruptCopy
  /-- Interrupts a context made for the occasion. -/
  | interruptFresh
  | reset
  | evaluate (term : Term)
  /-- Hands terms to one evaluator, one after the other. -/
  | evaluateAll (uses : List (Entrance × Term))

inductive Reply where
  | nothing
  | value (value : Option Float)
  | answer (holds : Bool)
  | result (result : Except Failure Float)
  | results (results : List (Except Failure Float))

def machine (lib : Elementary) (s : Session) : Machine :=
  .start lib s.valuation s.context s.signals .all

def resume (m : Machine) : Session where
  valuation := m.evaluator.valuation
  context := m.evaluator.context
  signals := m.signals

def performAll (m : Machine) : List (Entrance × Term) → List (Except Failure Float) × Machine
  | [] => ([], m)
  | (entrance, t) :: uses =>
    let (result, m) := m.perform (entrance.action t)
    let (results, m) := performAll m uses
    (result :: results, m)

def step (lib : Elementary) (s : Session) : Step → Reply × Session
  | .define name value =>
    let (old, v) := s.valuation.define name value
    (.value old, { s with valuation := v })
  | .remove name =>
    let (old, v) := s.valuation.remove name
    (.value old, { s with valuation := v })
  | .get name => (.value (s.valuation.get? name), s)
  | .contains name => (.answer (s.valuation.contains name), s)
  | .extend entries => (.nothing, { s with valuation := s.valuation.extend entries })
  | .agrees entries => (.answer (s.valuation.agrees (.ofList entries)), s)
  | .limit levels => (.nothing, { s with context := { s.context with limit := levels } })
  | .tracing on => (.nothing, { s with context := { s.context with tracing := on } })
  | .interrupt => (.nothing, { s with signals := s.signals.raise s.context.signal })
  | .interruptCopy =>
    let copy := { s.context with limit := s.context.limit }
    (.nothing, { s with signals := s.signals.raise copy.signal })
  | .interruptFresh =>
    let (signal, signals) := s.signals.issue
    (.nothing, { s with signals := signals.raise signal })
  | .reset => (.nothing, { s with signals := s.signals.lower s.context.signal })
  | .evaluate t =>
    let (result, m) := (s.machine lib).perform t.evaluate
    (.result result, resume m)
  | .evaluateAll uses =>
    let (results, m) := performAll (s.machine lib) uses
    (.results results, resume m)

def isInterrupted (s : Session) : Bool := s.signals.isRaised s.context.signal

end Session

end Formula
