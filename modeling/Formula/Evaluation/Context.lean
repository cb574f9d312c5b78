/-! # Contexts

A context limits an evaluation and names the signal that interrupts it. A signal is raised and
lowered by its name, so all copies of a context are interrupted together, and a context with a
signal of its own is not concerned.
-/

namespace Formula

structure Signal where
  number : Nat
  deriving DecidableEq, Repr

/-- How many signals have been given out, and which of them are raised. -/
structure Signals where
  issued : Nat := 0
  raised : List Signal := []
  deriving DecidableEq, Repr

namespace Signals

/-- Gives out a signal that nobody has yet; it is not raised. -/
def issue (s : Signals) : Signal × Signals :=
  let signal := ⟨s.issued⟩
  (signal, ⟨s.issued + 1, s.raised.filter (· ≠ signal)⟩)

def isRaised (s : Signals) (signal : Signal) : Bool := s.raised.contains signal

def lower (s : Signals) (signal : Signal) : Signals :=
  { s with raised := s.raised.filter (· ≠ signal) }

def raise (s : Signals) (signal : Signal) : Signals :=
  { s with raised := signal :: s.raised.filter (· ≠ signal) }

@[simp] theorem isRaised_raise {s : Signals} {a b : Signal} :
    (s.raise a).isRaised b ↔ b = a ∨ s.isRaised b := by
  by_cases h : b = a <;> simp [raise, isRaised, h]

@[simp] theorem isRaised_lower {s : Signals} {a b : Signal} :
    (s.lower a).isRaised b ↔ b ≠ a ∧ s.isRaised b := by
  simp [lower, isRaised, and_comm]

theorem not_isRaised_issue (s : Signals) : ¬s.issue.2.isRaised s.issue.1 := by
  simp [issue, isRaised]

end Signals

structure Context where
  /-- How many levels of a term an evaluation may enter. -/
  limit : Nat := 1000
  /-- Whether every node that is entered is reported. -/
  tracing : Bool := false
  signal : Signal := ⟨0⟩
  deriving DecidableEq, Repr

end Formula
