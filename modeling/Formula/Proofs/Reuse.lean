import Formula.Evaluation.Session
import Formula.Proofs.Outcome

/-! # Evaluators that are used again

An evaluation adds events to its machine and changes nothing else, whether it comes to a value or
not. So a session is the same after an evaluation as before, and an evaluator that has been used any
number of times gives the results of a new one.
-/

namespace Formula

open Eval

namespace Session

theorem quiet_action (entrance : Entrance) (t : Term) : Quiet (entrance.action t) := by
  cases entrance with
  | eval => exact t.quiet_eval
  | accept => exact t.quiet_accept

theorem performAll_eq (m : Machine) (uses : List (Entrance × Term)) :
    ∃ log, performAll m uses =
      (uses.map fun use => m.result (use.1.action use.2), m.withLog log) := by
  -- The events of the first use stand before those of the others, which do not look at them.
  induction uses generalizing m with
  | nil => exact ⟨m.log, rfl⟩
  | cons use uses ih =>
    obtain ⟨entrance, t⟩ := use
    have hfirst := (quiet_action entrance t).perform_eq m
    obtain ⟨log, hothers⟩ := ih (m.perform (entrance.action t)).2
    refine ⟨log, ?_⟩
    simp only [performAll, hothers, List.map_cons]
    rw [hfirst]
    simp only [(quiet_action _ _).result_withLog]
    rfl

end Session

/-- An evaluator is used again and again, and signals are raised and lowered between its uses. -/
inductive Machine.Reused (start : Machine) : Machine → Prop
  | new : Reused start start
  | use {m : Machine} (entrance : Session.Entrance) (t : Term) :
    Reused start m → Reused start (m.perform (entrance.action t)).2
  | signal {m : Machine} (signals : Signals) : Reused start m → Reused start { m with signals }

namespace Machine.Reused

variable {start m : Machine}

theorem evaluator_eq (h : start.Reused m) : m.evaluator = start.evaluator := by
  induction h with
  | new => rfl
  | use entrance t _ ih =>
    rw [(Session.quiet_action entrance t).perform_eq]
    exact ih
  | signal signals _ ih => exact ih

theorem result_action (h : start.Reused m) (entrance : Session.Entrance) (t : Term) :
    m.result (entrance.action t) =
      { start with signals := m.signals }.result (entrance.action t) := by
  have hm : m = { start with signals := m.signals }.withLog m.log := by
    cases m
    cases h.evaluator_eq
    rfl
  rw [hm, (Session.quiet_action entrance t).result_withLog]
  rfl

end Machine.Reused

namespace Session

def Step.evaluates : Step → Bool
  | .evaluate _ | .evaluateAll _ => true
  | _ => false

/-- The replies to the steps, and the session after them. -/
def run (lib : Elementary) (s : Session) : List Step → List Reply × Session
  | [] => ([], s)
  | step :: steps =>
    let (reply, s) := s.step lib step
    let (replies, s) := run lib s steps
    (reply :: replies, s)

variable {lib : Elementary} {s : Session}

theorem run_cons (step : Step) (steps : List Step) :
    s.run lib (step :: steps) =
      ((s.step lib step).1 :: ((s.step lib step).2.run lib steps).1,
        ((s.step lib step).2.run lib steps).2) := rfl

theorem run_append (steps later : List Step) :
    s.run lib (steps ++ later) =
      ((s.run lib steps).1 ++ ((s.run lib steps).2.run lib later).1,
        ((s.run lib steps).2.run lib later).2) := by
  induction steps generalizing s with
  | nil => rfl
  | cons step steps ih => simp only [List.cons_append, run_cons, ih]

theorem step_evaluate (t : Term) :
    s.step lib (.evaluate t) = (.result ((s.machine lib).result t.eval), s) := by
  have h := t.quiet_evaluate.perform_eq (s.machine lib)
  simp only [step, h, Term.result_evaluate]
  rfl

theorem step_evaluateAll (uses : List (Entrance × Term)) :
    s.step lib (.evaluateAll uses) =
      (.results (uses.map fun use => (s.machine lib).result (use.1.action use.2)), s) := by
  obtain ⟨log, h⟩ := performAll_eq (s.machine lib) uses
  simp only [step, h]
  rfl

theorem step_of_evaluates {step : Step} (h : step.evaluates) : (s.step lib step).2 = s := by
  cases step with
  | evaluate t => rw [step_evaluate]
  | evaluateAll uses => rw [step_evaluateAll]
  | _ => cases h

theorem run_filter (steps : List Step) :
    (s.run lib (steps.filter fun step => !step.evaluates)).2 = (s.run lib steps).2 := by
  induction steps generalizing s with
  | nil => rfl
  | cons step steps ih =>
    by_cases h : step.evaluates
    · rw [List.filter_cons_of_neg (by simp [h]), ih, run_cons, step_of_evaluates h]
    · rw [List.filter_cons_of_pos (by simp [h]), run_cons, run_cons]
      exact ih

/-- In every sequence of steps an evaluation leaves the session as it finds it, so the later steps
go on from there and the steps that do not evaluate decide alone what a session comes to. Each
result is the one that a new evaluator gives, also for an evaluator that has been used before. -/
theorem run_evaluations (lib : Elementary) (start : Session) (steps : List Step) :
    let s := (start.run lib steps).2
    (∀ t later, start.run lib (steps ++ .evaluate t :: later) =
      ((start.run lib steps).1 ++ .result ((s.machine lib).result t.eval) :: (s.run lib later).1,
        (s.run lib later).2)) ∧
    (∀ uses later, start.run lib (steps ++ .evaluateAll uses :: later) =
      ((start.run lib steps).1 ++
          .results (uses.map fun use => (s.machine lib).result (use.1.action use.2)) ::
            (s.run lib later).1,
        (s.run lib later).2)) ∧
    s = (start.run lib (steps.filter fun step => !step.evaluates)).2 ∧
    ∀ operators m, (Machine.start lib s.valuation s.context s.signals operators).Reused m →
      ∀ (entrance : Entrance) (t : Term),
        (m.perform (entrance.action t)).2.evaluator = m.evaluator ∧
        (m.perform (entrance.action t)).2.signals = m.signals ∧
        m.result (entrance.action t) =
          (Machine.start lib s.valuation s.context m.signals operators).result
            (entrance.action t) := by
  intro s
  refine ⟨?_, ?_, (run_filter steps).symm, ?_⟩
  · intro t later
    rw [run_append, run_cons, step_evaluate]
  · intro uses later
    rw [run_append, run_cons, step_evaluateAll]
  · intro operators m hm entrance t
    refine ⟨?_, ?_, hm.result_action entrance t⟩
    · rw [(quiet_action entrance t).perform_eq]
      rfl
    · rw [(quiet_action entrance t).perform_eq]
      rfl

/-- Two levels down, an evaluation for which the limit is too low does not shorten the next one. -/
theorem run_evaluations_too_deep :
    let s := (Session.start.run .native [.define "x" 3, .limit 2]).2
    let new := Machine.start .native s.valuation s.context s.signals .arithmetic
    let used := (new.perform (Term.group (.group (.var "x"))).eval).2
    new.result (Term.group (.group (.var "x"))).eval = .error (.tooDeep 3 2) ∧
      used.result (Term.group (.var "x")).eval = .ok 3 := by
  intro s new used
  have hused : new.Reused used := .use .eval (.group (.group (.var "x"))) .new
  obtain ⟨-, -, -, hreused⟩ := run_evaluations .native .start [.define "x" 3, .limit 2]
  obtain ⟨-, -, hresult⟩ := hreused .arithmetic used hused .eval (.group (.var "x"))
  exact ⟨rfl, hresult.trans rfl⟩

end Session

end Formula
