import Formula.Proofs.Faults

/-! # Two evaluations side by side

The same term is evaluated on two machines. `carried` says what a failure on the first machine turns
into on the second, and is undefined where nothing is promised of the second. A simulation is a
relation between machines that is kept from one level to the next, and under which the door, the
variables and the operators answer alike; the results of every term then answer alike too
(`Simulation.eval`).
-/

namespace Formula

open Eval

/-- The failures that a node gives on every machine on which it gets so far. -/
def Failure.ofTerm : Failure → Bool
  | unknownConstant _ | unknownFunction _ | missingOperand _ | divisionByZero
  | outsideDomain _ _ => true
  | _ => false

section Follows

variable {α β : Type} {carried : Failure → Option Failure}

/-- The second result is the first one, with its failure carried over. -/
def Follows (carried : Failure → Option Failure) (r r' : Except Failure α) : Prop :=
  match r with
  | .ok a => r' = .ok a
  | .error e => ∀ e', carried e = some e' → r' = .error e'

theorem follows_ok (a : α) : Follows carried (.ok a) (.ok a) := rfl

theorem follows_error {e : Failure} (h : carried e = some e) :
    Follows carried (.error e : Except Failure α) (.error e) := by
  intro e' he'
  rw [Option.some.inj (h.symm.trans he')]

theorem follows_of_eq_none {e : Failure} (h : carried e = none) (r : Except Failure α) :
    Follows carried (.error e) r := by
  intro e' he'
  rw [h] at he'
  cases he'

theorem follows_some (r : Except Failure α) : Follows some r r := by
  cases r with
  | ok a => exact follows_ok a
  | error e => exact follows_error rfl

theorem Follows.bind {r r' : Except Failure α} {f f' : α → Except Failure β}
    (hr : Follows carried r r') (hf : ∀ a, Follows carried (f a) (f' a)) :
    Follows carried (r >>= f) (r' >>= f') := by
  cases r with
  | ok a =>
    cases hr
    exact hf a
  | error e =>
    intro e' he'
    rw [hr e' he']
    rfl

theorem Follows.eq {r r' : Except Failure α} (h : Follows carried r r')
    (hcarried : ∀ e, r = .error e → carried e = some e) : r' = r := by
  cases r with
  | ok a => exact h
  | error e => exact h e (hcarried e rfl)

end Follows

namespace Eval

def lookup (m : Machine) (name : String) : Except Failure Float :=
  match m.evaluator.valuation.get? name with
  | some x => .ok x
  | none => .error (.undefinedVariable name)

end Eval

theorem Term.result_accept_var_eq_lookup (name : String) (m : Machine) :
    m.result (var name).accept = lookup m name := by
  rw [result_accept_var, lookup]
  cases m.evaluator.valuation.get? name <;> rfl

namespace Term

/-- Puts other operands in the place of those that are set. -/
def mapOperands (f : Term → Term) : Term → Term
  | function name a => function name (f a)
  | group a => group (f a)
  | expression op left right => expression op (left.map f) (right.map f)
  | t => t

theorem children_mapOperands (t : Term) (f : Term → Term) :
    (t.mapOperands f).children = t.children.map f := by
  cases t with
  | expression op left right => cases left <;> cases right <;> rfl
  | _ => rfl

theorem mapOperands_id (t : Term) : t.mapOperands id = t := by
  cases t with
  | expression op left right => rw [mapOperands, Option.map_id, id, id]
  | _ => rfl

end Term

structure Simulation (carried : Failure → Option Failure) (R : Machine → Machine → Prop) :
    Prop where
  ofTerm : ∀ e, e.ofTerm → carried e = some e
  library : ∀ {m m'}, R m m' → m'.evaluator.library = m.evaluator.library
  admission : ∀ {m m'}, R m m' → Follows carried (admission m) (admission m')
  deeper : ∀ {m m'}, R m m' → R m.deeper m'.deeper
  lookup : ∀ {m m'}, R m m' → ∀ name, Follows carried (lookup m name) (lookup m' name)
  permission : ∀ {m m'}, R m m' → ∀ op, Follows carried (permission m op) (permission m' op)

namespace Simulation

variable {carried : Failure → Option Failure} {R : Machine → Machine → Prop} {m m' : Machine}
  (hR : Simulation carried R)

include hR

theorem immediate {α : Type} {x : Eval α} (hx : Immediate x)
    (hfailure : ∀ e, m.result x = .error e → e.ofTerm) :
    Follows carried (m.result x) (m'.result x) := by
  cases hx with
  | pure a => exact follows_ok a
  | throw e => exact follows_error (hR.ofTerm e (hfailure e rfl))

theorem require {α : Type} {cause : Failure} (hcause : cause.ofTerm) (a : Option α) :
    Follows carried (m.result (Eval.require a cause)) (m'.result (Eval.require a cause)) := by
  apply hR.immediate (immediate_require a cause)
  intro e he
  rw [← (result_require_eq_error he).2]
  exact hcause

theorem inDomain (operation : String) (input value : Float) :
    Follows carried (m.result (Eval.inDomain operation input value))
      (m'.result (Eval.inDomain operation input value)) := by
  apply hR.immediate (immediate_inDomain operation input value)
  intro e he
  rw [result_inDomain_eq_error he]
  rfl

theorem applyUnary {op : Operator} (hop : op.fixity ≠ .between) (x : Float) :
    Follows carried (m.result (Eval.applyUnary op x)) (m'.result (Eval.applyUnary op x)) := by
  apply hR.immediate (immediate_applyUnary op x)
  intro e he
  rw [result_applyUnary_eq_error hop he]
  rfl

theorem applyBinary {op : Operator} (hop : op.fixity = .between) (lib : Elementary) (x y : Float) :
    Follows carried (m.result (Eval.applyBinary lib op x y))
      (m'.result (Eval.applyBinary lib op x y)) := by
  apply hR.immediate (immediate_applyBinary lib op x y)
  intro e he
  obtain ⟨-, rfl⟩ | rfl := result_applyBinary_eq_error hop he <;> rfl

theorem eval_of_accept {s t : Term}
    (h : ∀ {m m'}, R m m' → Follows carried (m.result s.accept) (m'.result t.accept))
    (hm : R m m') : Follows carried (m.result s.eval) (m'.result t.eval) := by
  rw [Term.result_eval, Term.result_eval]
  exact (hR.admission hm).bind fun _ => h (hR.deeper hm)

theorem slotResult_map (op : Operator) {slot : Option Term} {f : Term → Term}
    (h : ∀ a, slot = some a → Follows carried (m.result a.eval) (m'.result (f a).eval)) :
    Follows carried (Term.slotResult m op slot) (Term.slotResult m' op (slot.map f)) := by
  cases slot with
  | none => exact follows_error (hR.ofTerm _ rfl)
  | some a => exact h a rfl

/-- A node answers alike as soon as its operands do, whatever stands in their place. -/
theorem accept_mapOperands (t : Term) {f : Term → Term} (hm : R m m')
    (h : ∀ a ∈ t.children, Follows carried (m.result a.eval) (m'.result (f a).eval)) :
    Follows carried (m.result t.accept) (m'.result (t.mapOperands f).accept) := by
  cases t with
  | integer n | number x => exact follows_ok _
  | rational n d =>
    change Follows carried _ (m'.result (Term.rational n d).accept)
    rw [Term.result_accept_rational, Term.result_accept_rational]
    split
    · exact follows_error (hR.ofTerm _ rfl)
    · exact follows_ok _
  | var name =>
    change Follows carried _ (m'.result (Term.var name).accept)
    rw [Term.result_accept_var_eq_lookup, Term.result_accept_var_eq_lookup]
    exact hR.lookup hm name
  | const name => exact hR.require rfl _
  | function name a =>
    rw [Term.mapOperands, Term.result_accept_function, Term.result_accept_function, hR.library hm]
    apply (hR.require rfl _).bind
    intro f
    apply (h a (List.mem_singleton_self a)).bind
    intro x
    exact hR.inDomain name x (f x)
  | group a => exact h a (List.mem_singleton_self a)
  | expression op left right =>
    rw [Term.mapOperands, Term.result_accept_expression, Term.result_accept_expression,
      hR.library hm]
    apply (hR.permission hm op).bind
    intro _
    have hleft : Follows carried (Term.slotResult m op left)
        (Term.slotResult m' op (left.map f)) := by
      apply hR.slotResult_map
      rintro a rfl
      exact h a Term.mem_children_left
    have hright : Follows carried (Term.slotResult m op right)
        (Term.slotResult m' op (right.map f)) := by
      apply hR.slotResult_map
      rintro a rfl
      exact h a Term.mem_children_right
    cases hfixity : op.fixity with
    | between => exact hleft.bind fun x => hright.bind fun y => hR.applyBinary hfixity _ x y
    | before => exact hright.bind fun x => hR.applyUnary (by simp [hfixity]) x
    | after => exact hleft.bind fun x => hR.applyUnary (by simp [hfixity]) x

theorem accept (t : Term) (hm : R m m') :
    Follows carried (m.result t.accept) (m'.result t.accept) := by
  induction t using Term.induction_children generalizing m m' with
  | node t ih =>
    have h := hR.accept_mapOperands (f := id) t hm fun a ha => hR.eval_of_accept (ih a ha) hm
    rwa [Term.mapOperands_id] at h

theorem eval (t : Term) (hm : R m m') : Follows carried (m.result t.eval) (m'.result t.eval) :=
  hR.eval_of_accept (hR.accept t) hm

theorem slotResult (op : Operator) (slot : Option Term) (hm : R m m') :
    Follows carried (Term.slotResult m op slot) (Term.slotResult m' op slot) := by
  cases slot with
  | none => exact follows_error (hR.ofTerm _ rfl)
  | some a => exact hR.eval a hm

end Simulation

end Formula
