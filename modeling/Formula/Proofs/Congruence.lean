import Formula.Proofs.Canonical
import Formula.Proofs.Outcome
import Formula.Proofs.ZeroSign

/-! # Terms that agree evaluate alike

Terms that agree differ in nothing but the signs of zeros and in what is not a number. Their values
agree again, or they fail alike, as long as no power of a zero brings the sign to light.
-/

namespace Formula

open Eval

/-- Values that agree or the same failure, where the number that lies outside a domain counts as a
value too. -/
inductive ResultsAgree : Except Failure Float → Except Failure Float → Prop where
  | ok {x y : Float} (h : numbersAgree x y) : ResultsAgree (.ok x) (.ok y)
  | outsideDomain (operation : String) {x y : Float} (h : numbersAgree x y) :
    ResultsAgree (.error (.outsideDomain operation x)) (.error (.outsideDomain operation y))
  | error (e : Failure) : ResultsAgree (.error e) (.error e)

namespace ResultsAgree

theorem refl (r : Except Failure Float) : ResultsAgree r r := by
  cases r with
  | ok x => exact .ok (numbersAgree_refl x)
  | error e => exact .error e

theorem bind {r r' : Except Failure Float} {f f' : Float → Except Failure Float}
    (hr : ResultsAgree r r')
    (hf : ∀ x x', r = .ok x → r' = .ok x' → numbersAgree x x' → ResultsAgree (f x) (f' x')) :
    ResultsAgree (r >>= f) (r' >>= f') := by
  cases hr with
  | ok h => exact hf _ _ rfl rfl h
  | outsideDomain operation h => exact .outsideDomain operation h
  | error e => exact .error e

end ResultsAgree

namespace Eval

variable {m : Machine} {x x' y y' : Float}

theorem resultsAgree_inDomain {operation : String} {result result' : Float}
    (hx : numbersAgree x x') (hresult : numbersAgree result result') :
    ResultsAgree (m.result (inDomain operation x result))
      (m.result (inDomain operation x' result')) := by
  unfold inDomain
  rw [isNaN_eq_of_numbersAgree hx, isNaN_eq_of_numbersAgree hresult]
  split
  · exact .outsideDomain operation hx
  · exact .ok hresult

theorem resultsAgree_applyUnary (op : Operator) (hx : numbersAgree x x') :
    ResultsAgree (m.result (applyUnary op x)) (m.result (applyUnary op x')) := by
  cases op with
  | neg => exact .ok (numbersAgree_neg hx)
  | sqrt => exact resultsAgree_inDomain hx (numbersAgree_sqrt hx)
  | factorial =>
    change ResultsAgree (m.result (require (Builtin.factorial? x) _))
      (m.result (require (Builtin.factorial? x') _))
    rw [Builtin.factorial?_eq_of_numbersAgree hx]
    cases Builtin.factorial? x' with
    | some value => exact .refl (.ok value)
    | none => exact .outsideDomain _ hx
  | _ => exact .error _

theorem resultsAgree_applyBinary {lib : Elementary} {op : Operator} (hx : numbersAgree x x')
    (hy : numbersAgree y y') (hpow : op = .pow → numbersAgree (lib.pow x y) (lib.pow x' y')) :
    ResultsAgree (m.result (applyBinary lib op x y)) (m.result (applyBinary lib op x' y')) := by
  cases op with
  | add => exact .ok (numbersAgree_add hx hy)
  | sub => exact .ok (numbersAgree_sub hx hy)
  | mul => exact .ok (numbersAgree_mul hx hy)
  | div =>
    change ResultsAgree (m.result (if y == 0 then _ else _)) (m.result (if y' == 0 then _ else _))
    rw [← beq_zero_of_numbersAgree hy]
    split
    · exact .error _
    · exact .ok (numbersAgree_div hx hy ‹_›)
  | pow => exact resultsAgree_inDomain hx (hpow rfl)
  | _ => exact .error _

end Eval

namespace Term

variable {m : Machine} {a b : Term}

theorem operand?_canonical (t : Term) (slot : Slot) :
    t.canonical.operand? slot = (t.operand? slot).map canonical := by
  cases t with
  | expression op left right =>
    rw [canonical_expression]
    cases slot <;> rfl
  | _ => cases slot <;> rfl

theorem canonical_eq_of_operand? {a' b' : Term} {slot : Slot} (h : a.canonical = b.canonical)
    (ha : a.operand? slot = some a') (hb : b.operand? slot = some b') :
    a'.canonical = b'.canonical := by
  have hslot := congrArg (operand? · slot) h
  simp only [operand?_canonical, ha, hb, Option.map_some, Option.some.injEq] at hslot
  exact hslot

/-- At the same place in both terms, one that is reached through operands that count, stands a
power that may be applied and turns the sign of a zero into that of an infinity: the bases come to
zeros of opposite sign there, and the exponents to a negative odd integer. -/
inductive SignShows : Machine → Term → Term → Prop where
  | power {m : Machine} {a a' b b' : Term} {x x' y : Float}
    (hpow : Operator.pow ∈ m.evaluator.operators) (ha : m.deeper.result a.eval = .ok x)
    (ha' : m.deeper.result a'.eval = .ok x') (hb : m.deeper.result b.eval = .ok y)
    (hb' : m.deeper.result b'.eval = .ok y) (h : SignDecides x x' y) :
    SignShows m (.expression .pow (some a) (some b)) (.expression .pow (some a') (some b'))
  | operand {m : Machine} {a b a' b' : Term} {slot : Slot} (hmem : a' ∈ a.operands)
    (ha : a.operand? slot = some a') (hb : b.operand? slot = some b')
    (h : SignShows m.deeper a' b') : SignShows m a b

theorem not_signShows_of_children_eq_nil (ha : a.children = []) : ¬SignShows m a b := by
  intro h
  cases h with
  | power _ _ _ _ _ _ => cases ha
  | operand hmem _ _ _ =>
    have hchild := mem_children_of_mem_operands hmem
    rw [ha] at hchild
    cases hchild

theorem resultsAgree_slotResult {op : Operator} {left right : Option Term}
    (h : left.map canonical = right.map canonical)
    (hslot : ∀ a b, left = some a → right = some b →
      ResultsAgree (m.result a.eval) (m.result b.eval)) :
    ResultsAgree (slotResult m op left) (slotResult m op right) := by
  cases left with
  | none =>
    cases right with
    | none => exact .error _
    | some b => cases h
  | some a =>
    cases right with
    | none => cases h
    | some b => exact hslot a b rfl rfl

theorem resultsAgree_accept_expression (laws : m.evaluator.library.ZeroLaws) {op : Operator}
    {left left' right right' : Option Term}
    (hleft : op.takesLeft → ResultsAgree (slotResult m op left) (slotResult m op left'))
    (hright : op.takesRight → ResultsAgree (slotResult m op right) (slotResult m op right'))
    (hpower : ∀ x x' y, op = .pow → op ∈ m.evaluator.operators → slotResult m op left = .ok x →
      slotResult m op left' = .ok x' → slotResult m op right = .ok y →
        slotResult m op right' = .ok y → ¬SignDecides x x' y) :
    ResultsAgree (m.result (expression op left right).accept)
      (m.result (expression op left' right').accept) := by
  rw [result_accept_expression, result_accept_expression]
  cases hpermission : permission m op with
  | error e => exact .error e
  | ok _ =>
    have hmem : op ∈ m.evaluator.operators := permission_eq_ok_iff.mp hpermission
    rw [Operator.takesLeft_iff] at hleft
    rw [Operator.takesRight_iff] at hright
    simp only [Except.ok_bind]
    cases hfixity : op.fixity with
    | between =>
      apply (hleft (by simp [hfixity])).bind
      intro x x' hx hx' hxx'
      apply (hright (by simp [hfixity])).bind
      intro y y' hy hy' hyy'
      apply resultsAgree_applyBinary hxx' hyy'
      intro hop
      apply laws.numbersAgree_pow hxx' hyy'
      rintro ⟨rfl, hsign⟩
      exact hpower x x' y hop hmem hx hx' hy hy' hsign
    | before =>
      exact (hright (by simp [hfixity])).bind fun x x' _ _ hx => resultsAgree_applyUnary op hx
    | after =>
      exact (hleft (by simp [hfixity])).bind fun x x' _ _ hx => resultsAgree_applyUnary op hx

/-- Nodes that agree come to results that agree as soon as their operands do. -/
theorem resultsAgree_accept (laws : m.evaluator.library.ZeroLaws) (h : a.canonical = b.canonical)
    (hoperands : ∀ slot a' b', a' ∈ a.operands → a.operand? slot = some a' →
      b.operand? slot = some b' →
        ResultsAgree (m.deeper.result a'.eval) (m.deeper.result b'.eval))
    (hsign : ¬SignShows m a b) :
    ResultsAgree (m.deeper.result a.accept) (m.deeper.result b.accept) := by
  have hkind : a.kind = b.kind := by rw [← kind_canonical a, h, kind_canonical]
  cases a with
  | number x =>
    cases b with
    | number y =>
      rw [canonical, canonical, number.injEq, ← numbersAgree_iff] at h
      exact .ok h
    | _ => cases hkind
  | function name a =>
    cases b with
    | function name' b =>
      obtain ⟨rfl, -⟩ := function.inj h
      rw [result_accept_function, result_accept_function]
      cases hf : Builtin.function? m.deeper.evaluator.library name with
      | none => exact .error _
      | some f =>
        apply (hoperands .operand a b List.mem_cons_self rfl rfl).bind
        intro x x' _ _ hx
        exact resultsAgree_inDomain hx (laws.numbersAgree_function hf hx)
    | _ => cases hkind
  | group a =>
    cases b with
    | group b => exact hoperands .inner a b List.mem_cons_self rfl rfl
    | _ => cases hkind
  | expression op left right =>
    cases b with
    | expression op' left' right' =>
      rw [canonical_expression, canonical_expression] at h
      obtain ⟨rfl, hleft, hright⟩ := expression.inj h
      apply resultsAgree_accept_expression (m := m.deeper) laws
      · intro htakes
        apply resultsAgree_slotResult hleft
        rintro a b rfl hb
        exact hoperands .left a b (mem_operands_left htakes) rfl hb
      · intro htakes
        apply resultsAgree_slotResult hright
        rintro a b rfl hb
        exact hoperands .right a b (mem_operands_right htakes) rfl hb
      · rintro x x' y rfl hmem hx hx' hy hy' hdecides
        obtain ⟨a, rfl, ha⟩ := slotResult_eq_ok hx
        obtain ⟨a', rfl, ha'⟩ := slotResult_eq_ok hx'
        obtain ⟨b, rfl, hb⟩ := slotResult_eq_ok hy
        obtain ⟨b', rfl, hb'⟩ := slotResult_eq_ok hy'
        exact hsign (.power hmem ha ha' hb hb' hdecides)
    | _ => cases hkind
  | _ =>
    cases b <;> cases hkind
    cases h
    exact .refl _

end Term

end Formula
