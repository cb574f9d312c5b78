import Formula.Proofs.Simulation

/-! # Reports

The report of an evaluation begins with what is to be evaluated, goes on with the nodes entered if
that is asked for, and ends with the result, which does not depend on what is reported.
-/

namespace Formula

open Eval

def Machine.withTracing (m : Machine) (tracing : Bool) : Machine :=
  { m with evaluator := { m.evaluator with context := { m.evaluator.context with tracing } } }

namespace Term

theorem simulation_withTracing (tracing : Bool) :
    Simulation some fun m m' => m' = m.withTracing tracing where
  ofTerm e he := rfl
  library := by
    rintro m _ rfl
    rfl
  admission := by
    rintro m _ rfl
    exact follows_some _
  deeper := by
    rintro m _ rfl
    rfl
  lookup := by
    rintro m _ rfl name
    exact follows_some _
  permission := by
    rintro m _ rfl op
    exact follows_some _

theorem result_eval_withTracing (t : Term) (m : Machine) (tracing : Bool) :
    (m.withTracing tracing).result t.eval = m.result t.eval :=
  ((simulation_withTracing tracing).eval t rfl).eq fun _ _ => rfl

theorem events_eval_of_isInterrupted {m : Machine} (h : m.isInterrupted) (t : Term) :
    m.events t.eval = #[] := by
  rw [eval, events_enter t.quiet_accept, admission, if_pos h]

/-- An evaluation reports its beginning, the nodes that it enters if that is asked for, and its end.
The nodes entered are the first ones of the term, all of them lie within the limit, and none is left
out if there is a value. Reporting them does not change the result. -/
theorem log_evaluate (lib : Elementary) (v : Valuation) (context : Context) (signals : Signals)
    (operators : OperatorSet) (t : Term) :
    let m := Machine.start lib v context signals operators
    let result := (m.perform t.evaluate).1
    (∃ entered, entered <+: t.visits 0 ∧ (∀ visit ∈ entered, visit.1 < context.limit) ∧
      (∀ x, result = .ok x → entered = t.visits 0) ∧
      (m.perform t.evaluate).2.log =
        #[.started t.kind t.size t.height v.size] ++
          (if context.tracing ∧ ¬signals.isRaised context.signal then
            (entered.map Event.visit).toArray else #[]) ++
          #[.ended result]) ∧
    ∀ tracing,
      ((Machine.start lib v { context with tracing } signals operators).perform t.evaluate).1 =
        result := by
  intro m result
  have hresult : result = m.result t.eval := t.result_evaluate m
  obtain ⟨entered, hentered⟩ := t.lists_eval.enters m
  refine ⟨⟨entered, hentered.front, hentered.limit, ?_, ?_⟩, ?_⟩
  · intro x hx
    exact hentered.complete x (hresult ▸ hx)
  · have hlog : (m.perform t.evaluate).2.log = m.events t.evaluate := by
      rw [t.quiet_evaluate.perform_eq]
      exact Array.empty_append
    have hvisits : m.events t.eval =
        if context.tracing ∧ ¬signals.isRaised context.signal then
          (entered.map Event.visit).toArray else #[] := by
      by_cases hraised : m.isInterrupted
      · rw [events_eval_of_isInterrupted hraised, if_neg fun h => h.2 hraised]
      · rw [hentered.events]
        have hclear : ¬signals.isRaised context.signal := hraised
        simp only [and_iff_left hclear]
        rfl
    rw [hlog, events_evaluate, hvisits, nodeCount_eq_size, depth_eq_height, hresult]
    rfl
  · intro tracing
    rw [hresult]
    exact (result_evaluate t (m.withTracing tracing)).trans (t.result_eval_withTracing m tracing)

/-- A product is entered with all of its nodes; without its right operand it fails once its left
operand has been entered. -/
example :
    let m := Machine.start .native (.ofList [("x", 2)]) { tracing := true } {} .all
    let t (right : Option Term) := expression .mul (some (var "x")) right
    (m.perform (t (some (group (integer 3)))).evaluate).2.log =
        #[.started .expression 4 3 1, .entered 0 .expression "*", .entered 1 .var "",
          .entered 1 .group "", .entered 2 .integer "", .finished 6] ∧
      (m.perform (t none).evaluate).2.log =
        #[.started .expression 2 2 1, .entered 0 .expression "*", .entered 1 .var "",
          .failed (.missingOperand .mul)] := by decide +kernel

end Term

end Formula
