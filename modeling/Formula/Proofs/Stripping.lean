import Formula.Proofs.Headroom
import Formula.Proofs.Weighing

/-! # Terms without parentheses

Parentheses weigh nothing, and of an evaluation they take levels only. Without them every node lies
on its level or nearer to the root, so a term evaluates as before unless it went too deep, and the
walk that weighs its nodes meets the others in the same order.
-/

namespace Formula

open Eval

namespace Term

/-- Puts the inner term in the place of every term in parentheses. -/
def strip : Term → Term
  | function name a => function name a.strip
  | group a => a.strip
  | expression op left right =>
    expression op (match left with | some a => some a.strip | none => none)
      (match right with | some a => some a.strip | none => none)
  | t => t

theorem eq_group_or_strip_eq (t : Term) : (∃ a, t = group a) ∨ t.strip = t.mapOperands strip := by
  cases t with
  | group a => exact .inl ⟨a, rfl⟩
  | expression op left right => cases left <;> cases right <;> exact .inr rfl
  | _ => exact .inr rfl

/-! ## Complexity -/

theorem weight_mapOperands (t : Term) (f : Term → Term) : (t.mapOperands f).weight = t.weight := by
  cases t <;> rfl

theorem weigh_levels_strip (t : Term) (total : UInt64) (level level' : Nat) :
    weigh total (t.strip.levels level) = weigh total (t.levels level') := by
  induction t using induction_children generalizing total level level' with
  | node t ih =>
    obtain ⟨a, rfl⟩ | hstrip := t.eq_group_or_strip_eq
    · rw [weigh_levels_group]
      exact ih a (List.mem_singleton_self a) total level (level' + 1)
    · rw [hstrip]
      exact weigh_levels_congr (t.weight_mapOperands strip) (t.children_mapOperands strip) ih
        total level level'

/-! ## Evaluation -/

theorem follows_eval_strip (t : Term) {m m' : Machine} (hm : m.Below m') :
    Follows Failure.unlessTooDeep (m.result t.eval) (m'.result t.strip.eval) := by
  -- Each pair of parentheses puts the second machine one level further up than the first.
  induction t using induction_children generalizing m m' with
  | node t ih =>
    obtain ⟨a, rfl⟩ | hstrip := t.eq_group_or_strip_eq
    · have hadmission := hm.admission
      rw [result_eval]
      cases hresult : admission m with
      | ok _ =>
        apply ih a (List.mem_singleton_self a)
        exact hm.lower
      | error e =>
        rw [hresult] at hadmission
        intro e' he'
        rw [result_eval, hadmission e' he']
        rfl
    · rw [hstrip]
      apply Machine.Below.simulation.eval_of_accept _ hm
      intro m m' hm
      apply Machine.Below.simulation.accept_mapOperands t hm
      intro a ha
      exact ih a ha hm

/-- Parentheses only group: without them a term has the same complexity, and the same value or
failure on every machine on which it did not go too deep. -/
theorem complexity_strip_result_eval_strip (t : Term) :
    t.strip.complexity = t.complexity ∧
      ∀ m : Machine, (∀ depth limit, m.result t.eval ≠ .error (.tooDeep depth limit)) →
        m.result t.strip.eval = m.result t.eval := by
  constructor
  · rw [complexity_eq, complexity_eq, weigh_levels_strip]
  · intro m hdepth
    apply (t.follows_eval_strip m.below_self).eq
    intro e he
    cases e with
    | tooDeep depth limit => exact absurd he (hdepth depth limit)
    | _ => rfl

/-- Three pairs of parentheses around and below a quotient, and as many levels as there are. -/
theorem complexity_strip_result_eval_strip_quotient :
    let t := group (binary (integer 6) .div (group (group (var "x"))))
    let m (x : Float) := Machine.start .native (.ofList [("x", x)]) { limit := 5 } {} .all
    t.strip = binary (integer 6) .div (var "x") ∧ t.complexity = .ok 6 ∧
      t.strip.complexity = .ok 6 ∧
      ((m 0).result t.eval = .error .divisionByZero ∧
        (m 0).result t.strip.eval = .error .divisionByZero) ∧
      (m 2).result t.eval = .ok 3 ∧ (m 2).result t.strip.eval = .ok 3 := by
  intro t m
  obtain ⟨hcomplexity, heval⟩ := complexity_strip_result_eval_strip t
  have hweight : t.complexity = .ok 6 := by
    rw [complexity_eq]
    rfl
  have hzero : (m 0).result t.eval = .error .divisionByZero := rfl
  have hvalue : (m 2).result t.eval = .ok 3 := rfl
  refine ⟨rfl, hweight, hcomplexity.trans hweight, ⟨hzero, ?_⟩, hvalue, ?_⟩
  · rw [← hzero]
    apply heval
    intro depth limit h
    cases hzero.symm.trans h
  · rw [← hvalue]
    apply heval
    intro depth limit h
    cases hvalue.symm.trans h

end Term

end Formula
