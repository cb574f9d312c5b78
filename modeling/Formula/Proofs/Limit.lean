import Formula.Proofs.Checks

/-! # The limit is exact

An evaluation counts the levels that it enters, while the height of a term is found by a walk with
an agenda. The two agree: what is no higher than the limit is never refused for its height, what is
higher has no value, and a refusal names the first level beyond the limit on whichever branch.
-/

namespace Formula

open Eval

theorem Eval.eq_of_admission_eq_tooDeep {m : Machine} {depth limit : Nat}
    (hdepth : m.evaluator.depth ≤ m.evaluator.context.limit)
    (h : admission m = .error (.tooDeep depth limit)) :
    depth = m.evaluator.context.limit + 1 ∧ limit = m.evaluator.context.limit := by
  unfold admission at h
  split at h
  · cases h
  · split at h
    · cases h
      exact ⟨congrArg (· + 1) (Nat.le_antisymm hdepth ‹_›), rfl⟩
    · cases h

namespace Term

variable {m : Machine} {t : Term}

/-- A level is counted only after it has been let in, so the count does not pass the limit. -/
theorem eq_of_result_eval_eq_tooDeep {depth limit : Nat}
    (hdepth : m.evaluator.depth ≤ m.evaluator.context.limit)
    (h : m.result t.eval = .error (.tooDeep depth limit)) :
    depth = m.evaluator.context.limit + 1 ∧ limit = m.evaluator.context.limit := by
  induction t using induction_children generalizing m with
  | node t ih =>
    rw [result_eval, Except.bind_eq_error_iff] at h
    obtain hrefused | ⟨_, hadmission, h⟩ := h
    · exact eq_of_admission_eq_tooDeep hdepth hrefused
    · have hdeeper : m.deeper.evaluator.depth ≤ m.deeper.evaluator.context.limit :=
        depth_lt_of_admission_eq_ok hadmission
      obtain ⟨a, ha, h⟩ | ⟨-, hdoor⟩ := result_accept_eq_error h
      · exact ih a (mem_children_of_mem_operands ha) (m := m.deeper) hdeeper h
      · exact absurd rfl hdoor

/-- A term that the limit admits is never too deep, a well-formed term beyond the limit never has a
value, and a failure for depth always names the same level: the one after the limit. -/
theorem result_eval_depth_limit (lib : Elementary) (v : Valuation) (context : Context)
    (signals : Signals) (operators : OperatorSet) (t : Term) :
    let m := Machine.start lib v context signals operators
    (t.depth ≤ context.limit → ∀ depth limit, m.result t.eval ≠ .error (.tooDeep depth limit)) ∧
      (t.WellFormed → context.limit < t.depth → ∀ x, m.result t.eval ≠ .ok x) ∧
      ∀ depth limit, m.result t.eval = .error (.tooDeep depth limit) →
        depth = context.limit + 1 ∧ limit = context.limit := by
  intro m
  rw [depth_eq_height]
  refine ⟨?_, ?_, ?_⟩
  · intro hheight depth limit h
    have hlimit : context.limit < 0 + t.height := (limit_lt_of_result_eval_eq_tooDeep h).2
    omega
  · intro ht hheight x h
    have hlimit : 0 + t.height ≤ context.limit := (ready_of_result_eval_eq_ok ht h).2
    omega
  · intro depth limit h
    exact eq_of_result_eval_eq_tooDeep (Nat.zero_le _) h

/-- Two groups around a variable: one level decides, and without any the root is already too deep. -/
theorem result_eval_depth_limit_groups :
    let m (limit : Nat) := Machine.start .native (.ofList [("x", 1)]) { limit } {} .all
    let t := group (group (var "x"))
    ((m 3).result t.eval = .ok 1 ∧
        ∀ depth limit, (m 3).result t.eval ≠ .error (.tooDeep depth limit)) ∧
      ((m 2).result t.eval = .error (.tooDeep 3 2) ∧ ∀ x, (m 2).result t.eval ≠ .ok x) ∧
      (m 0).result t.eval = .error (.tooDeep 1 0) := by
  intro m t
  have hdepth : t.depth = 3 := by
    rw [depth_eq_height]
    rfl
  have hwellFormed : t.WellFormed := by decide
  have hlimit (limit : Nat) := result_eval_depth_limit .native (.ofList [("x", 1)]) { limit } {}
    .all t
  exact ⟨⟨rfl, (hlimit 3).1 (Nat.le_of_eq hdepth)⟩,
    ⟨rfl, (hlimit 2).2.1 hwellFormed (hdepth ▸ Nat.le_refl 3)⟩, rfl⟩

end Term

end Formula
