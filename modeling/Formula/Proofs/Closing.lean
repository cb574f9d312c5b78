import Formula.Proofs.LastValue
import Formula.Proofs.Simulation

/-! # Closed terms

A term is closed under a valuation by putting numbers in the place of the variables that have a
value. The closed term needs no valuation: without one it ends as the term does with it. So all that
a valuation contributes to an evaluation is the values of the variables that occur.
-/

namespace Formula

open Eval

def Machine.withValuation (m : Machine) (valuation : Valuation) : Machine :=
  { m with evaluator := { m.evaluator with valuation } }

namespace Term

/-- Puts its value in the place of each variable that has one. -/
def close (v : Valuation) : Term → Term
  | var name =>
    match v.get? name with
    | some x => number x
    | none => var name
  | function name a => function name (a.close v)
  | group a => group (a.close v)
  | expression op left right =>
    expression op (match left with | some a => some (a.close v) | none => none)
      (match right with | some a => some (a.close v) | none => none)
  | t => t

theorem close_expression (v : Valuation) (op : Operator) (left right : Option Term) :
    (expression op left right).close v =
      expression op (left.map (close v)) (right.map (close v)) := by
  cases left <;> cases right <;> rfl

theorem close_congr {v v' : Valuation} (t : Term)
    (h : ∀ name, var name ∈ t.subterms → v.get? name = v'.get? name) : t.close v = t.close v' := by
  induction t with
  | integer _ | number _ | rational _ _ | const _ => rfl
  | var name => rw [close, close, h name (mem_subterms_self _)]
  | function name a ih =>
    rw [close, close, ih fun n hn => h n (List.mem_cons_of_mem _ hn)]
  | group a ih =>
    rw [close, close, ih fun n hn => h n (List.mem_cons_of_mem _ hn)]
  | expression op left right ihl ihr =>
    have hleft : left.map (close v) = left.map (close v') := by
      apply Option.map_congr
      intro a ha
      apply ihl a ha
      intro n hn
      exact h n (mem_subterms_iff.mpr (.inr ⟨a, ha ▸ mem_children_left, hn⟩))
    have hright : right.map (close v) = right.map (close v') := by
      apply Option.map_congr
      intro a ha
      apply ihr a ha
      intro n hn
      exact h n (mem_subterms_iff.mpr (.inr ⟨a, ha ▸ mem_children_right, hn⟩))
    rw [close_expression, close_expression, hleft, hright]

section Closed

variable {v : Valuation} {m : Machine}

theorem result_eval_close_of_accept {t : Term}
    (ht : ∀ m : Machine, m.evaluator.valuation = v →
      (m.withValuation ∅).result (t.close v).accept = m.result t.accept)
    (hm : m.evaluator.valuation = v) :
    (m.withValuation ∅).result (t.close v).eval = m.result t.eval := by
  rw [result_eval, result_eval]
  exact congrArg (admission m >>= ·) (funext fun _ => ht m.deeper hm)

theorem slotResult_close (op : Operator) {slot : Option Term}
    (hslot : ∀ a, slot = some a → ∀ m : Machine, m.evaluator.valuation = v →
      (m.withValuation ∅).result (a.close v).accept = m.result a.accept)
    (hm : m.evaluator.valuation = v) :
    slotResult (m.withValuation ∅) op (slot.map (close v)) = slotResult m op slot := by
  cases slot with
  | none => rfl
  | some a => exact result_eval_close_of_accept (hslot a rfl) hm

theorem result_accept_close (t : Term) (hm : m.evaluator.valuation = v) :
    (m.withValuation ∅).result (t.close v).accept = m.result t.accept := by
  -- The machine is general, as operands are evaluated one level further down.
  induction t generalizing m with
  | integer _ | number _ => rfl
  | rational n d => exact (immediate_accept_rational n d).result_eq _ _
  | var name =>
    rw [result_accept_var_eq_lookup, lookup, hm, close]
    cases v.get? name with
    | none => exact result_accept_var_eq_lookup name _
    | some x => rfl
  | const name => exact (immediate_require _ _).result_eq _ _
  | function name a ih =>
    have hcall (x y : Float) := (immediate_inDomain name x y).result_eq (m.withValuation ∅) m
    have hlibrary : (m.withValuation ∅).evaluator.library = m.evaluator.library := rfl
    rw [close, result_accept_function, result_accept_function, hlibrary,
      (immediate_require _ _).result_eq (m.withValuation ∅) m,
      result_eval_close_of_accept (fun m hm => ih hm) hm]
    simp only [hcall]
  | group a ih => exact result_eval_close_of_accept (fun m hm => ih hm) hm
  | expression op left right ihl ihr =>
    have hbinary (x y : Float) :=
      (immediate_applyBinary m.evaluator.library op x y).result_eq (m.withValuation ∅) m
    have hunary (x : Float) := (immediate_applyUnary op x).result_eq (m.withValuation ∅) m
    have hlibrary : (m.withValuation ∅).evaluator.library = m.evaluator.library := rfl
    have hpermission : permission (m.withValuation ∅) op = permission m op := rfl
    rw [close_expression, result_accept_expression, result_accept_expression,
      slotResult_close op (fun a ha m hm => ihl a ha hm) hm,
      slotResult_close op (fun a ha m hm => ihr a ha hm) hm]
    simp only [hbinary, hunary, hlibrary, hpermission]

end Closed

/-- The closed term ends without a valuation as the term does with it. So only the values of the
variables that occur count, and valuations that were changed in different ways evaluate a term alike
if each of its variables was left with the same value. -/
theorem result_eval_close (lib : Elementary) (context : Context) (signals : Signals)
    (operators : OperatorSet) (t : Term) :
    let start (v : Valuation) := Machine.start lib v context signals operators
    (∀ v, (start ∅).result (t.close v).eval = (start v).result t.eval) ∧
      (∀ v v', (∀ name, var name ∈ t.subterms → v.get? name = v'.get? name) →
        (start v).result t.eval = (start v').result t.eval) ∧
      ∀ changes changes' : List Valuation.Change,
        (∀ name, var name ∈ t.subterms →
          Valuation.lastValue changes name = Valuation.lastValue changes' name) →
        (start (.ofChanges changes)).result t.eval =
          (start (.ofChanges changes')).result t.eval := by
  intro start
  have hclose (v : Valuation) : (start ∅).result (t.close v).eval = (start v).result t.eval :=
    result_eval_close_of_accept (m := start v) (fun m hm => result_accept_close t hm) rfl
  have hagree (v v' : Valuation)
      (h : ∀ name, var name ∈ t.subterms → v.get? name = v'.get? name) :
      (start v).result t.eval = (start v').result t.eval := by
    rw [← hclose v, ← hclose v', close_congr t h]
  refine ⟨hclose, hagree, ?_⟩
  intro changes changes' h
  apply hagree
  intro name hname
  rw [Valuation.get?_ofChanges, Valuation.get?_ofChanges, h name hname]

/-- Two variables are defined in either order, one of them again and another one for a while; a
third variable of the term has no value at first. -/
theorem result_eval_close_reordered :
    let start (v : Valuation) := Machine.start .native v { limit := 3 } {} .all
    let t := expression .sub (some (expression .sub (some (var "x")) (some (var "y"))))
      (some (var "z"))
    let changes : List Valuation.Change :=
      [.define "x" 1, .extend [("y", 2), ("z", 3)], .remove "z"]
    let changes' : List Valuation.Change :=
      [.define "y" 5, .define "w" 4, .extend [("y", 2), ("x", 1)]]
    let later : List Valuation.Change := [.define "z" 4]
    t.close (.ofChanges changes) = expression .sub
        (some (expression .sub (some (number 1)) (some (number 2)))) (some (var "z")) ∧
      (start ∅).result (t.close (.ofChanges changes)).eval = .error (.undefinedVariable "z") ∧
      (start (.ofChanges changes)).result t.eval = .error (.undefinedVariable "z") ∧
      (start (.ofChanges changes')).result t.eval = .error (.undefinedVariable "z") ∧
      (start ∅).result (t.close (.ofChanges (changes ++ later))).eval = .ok (-5) ∧
      (start (.ofChanges (changes ++ later))).result t.eval = .ok (-5) ∧
      (start (.ofChanges (changes' ++ later))).result t.eval = .ok (-5) := by
  intro start t changes changes' later
  obtain ⟨hclose, -, hchanges⟩ := result_eval_close .native { limit := 3 } {} .all t
  have hoccurs : ∀ name, var name ∈ t.subterms → name = "x" ∨ name = "y" ∨ name = "z" := by
    intro name hname
    simpa [t, subterms, children] using hname
  have hundefined :
      (start (.ofChanges changes)).result t.eval = .error (.undefinedVariable "z") := rfl
  have hvalue : (start (.ofChanges (changes ++ later))).result t.eval = .ok (-5) := rfl
  refine ⟨rfl, (hclose _).trans hundefined, hundefined, ?_, (hclose _).trans hvalue, hvalue, ?_⟩
  · refine (hchanges changes changes' ?_).symm.trans hundefined
    intro name hname
    obtain rfl | rfl | rfl := hoccurs name hname <;> rfl
  · refine (hchanges (changes ++ later) (changes' ++ later) ?_).symm.trans hvalue
    intro name hname
    obtain rfl | rfl | rfl := hoccurs name hname <;> rfl

end Term

end Formula
