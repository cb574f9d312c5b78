import Formula.Proofs.Checks
import Formula.Proofs.Headroom
import Formula.Proofs.NotANumber

/-! # Where a value that is no number comes from

Functions, roots, powers, factorials and quotients of integers refuse to give a result that is not a
number unless they are given one. So such a value of a term was in the term or in the valuation from
the start, or was made by a sum, difference, product or quotient with an infinite operand. The
operand is infinite also when it is evaluated by itself, where it has more levels left.
-/

namespace Formula

open Eval

/-- What a node contributes to a value that is no number, apart from its operands being none. -/
inductive NaNSource (m : Machine) : Term → Prop where
  | number {x : Float} (hx : x.isNaN) : NaNSource m (.number x)
  | var {name : String} {x : Float} (hget : m.evaluator.valuation.get? name = some x)
    (hx : x.isNaN) : NaNSource m (.var name)
  | infinite {op : Operator} {left right : Option Term} {a : Term} {x : Float}
    (hop : op ∈ [.add, .sub, .mul, .div]) (ha : left = some a ∨ right = some a)
    (hresult : m.result a.eval = .ok x) (hx : x.isInf) : NaNSource m (.expression op left right)

theorem NaNSource.of_below {m m' : Machine} {t : Term} (h : NaNSource m t) (hm : m.Below m') :
    NaNSource m' t := by
  cases h with
  | number hx => exact .number hx
  | var hget hx =>
    rw [← hm.valuation] at hget
    exact .var hget hx
  | infinite hop ha hresult hx => exact .infinite hop ha (hm.result_eval_eq_ok hresult) hx

namespace Binary64

variable {a b x : Float}

theorem not_finite_of_isNaN (hfinite : a.isFinite → b.isFinite → x.isNaN = false) (hx : x.isNaN) :
    a.isNaN ∨ b.isNaN ∨ a.isInf ∨ b.isInf := by
  obtain ha | ha | ha := isFinite_or a
  · obtain hb | hb | hb := isFinite_or b
    · rw [hfinite ha hb] at hx
      cases hx
    · exact .inr (.inl hb)
    · exact .inr (.inr (.inr hb))
  · exact .inl ha
  · exact .inr (.inr (.inl ha))

end Binary64

namespace Eval

open Binary64

variable {m : Machine} {a b x : Float}

theorem isNaN_of_result_inDomain_eq_ok {operation : String}
    (h : m.result (inDomain operation a b) = .ok x) (hx : x.isNaN) : a.isNaN := by
  unfold inDomain at h
  split at h
  · cases h
  · rename_i hdomain
    cases h
    cases ha : a.isNaN with
    | true => rfl
    | false =>
      rw [hx, ha] at hdomain
      exact absurd rfl hdomain

theorem isNaN_of_result_applyUnary_eq_ok {op : Operator}
    (h : m.result (applyUnary op a) = .ok x) (hx : x.isNaN) : a.isNaN := by
  cases op with
  | neg =>
    cases h
    rwa [isNaN_neg] at hx
  | sqrt => exact isNaN_of_result_inDomain_eq_ok h hx
  | factorial =>
    change m.result (require (Builtin.factorial? a) _) = _ at h
    cases hfactorial : Builtin.factorial? a with
    | none =>
      rw [hfactorial] at h
      cases h
    | some y =>
      rw [hfactorial] at h
      cases h
      rw [Builtin.isNaN_of_factorial?_eq_some hfactorial] at hx
      cases hx
  | _ => cases h

theorem not_finite_of_result_applyBinary_eq_ok {lib : Elementary} {op : Operator}
    (h : m.result (applyBinary lib op a b) = .ok x) (hx : x.isNaN) :
    a.isNaN ∨ b.isNaN ∨ op ∈ [.add, .sub, .mul, .div] ∧ (a.isInf ∨ b.isInf) := by
  have hsource (hop : op ∈ [.add, .sub, .mul, .div])
      (hfinite : a.isFinite → b.isFinite → x.isNaN = false) :
      a.isNaN ∨ b.isNaN ∨ op ∈ [.add, .sub, .mul, .div] ∧ (a.isInf ∨ b.isInf) :=
    (not_finite_of_isNaN hfinite hx).imp_right (Or.imp_right fun hinf => ⟨hop, hinf⟩)
  cases op with
  | add =>
    cases h
    exact hsource (by decide) isNaN_add
  | sub =>
    cases h
    exact hsource (by decide) isNaN_sub
  | mul =>
    cases h
    exact hsource (by decide) isNaN_mul
  | div =>
    change m.result (if b == 0 then _ else _) = _ at h
    split at h
    · cases h
    · rename_i hzero
      cases h
      exact hsource (by decide) fun ha hb => isNaN_div ha hb (Bool.eq_false_of_not_eq_true hzero)
  | pow => exact .inl (isNaN_of_result_inDomain_eq_ok h hx)
  | factorial | sqrt | neg => cases h

end Eval

namespace Term

open Binary64

variable {m : Machine} {t : Term} {x : Float}

/-- A node whose value is no number is a source of it, or has an operand whose value is none. -/
theorem result_accept_isNaN (h : m.result t.accept = .ok x) (hx : x.isNaN) :
    NaNSource m t ∨ ∃ a ∈ t.operands, ∃ y, m.result a.eval = .ok y ∧ y.isNaN := by
  cases t with
  | integer n =>
    cases h
    rw [isNaN_of_isFinite (isFinite_nearestFloat n)] at hx
    cases hx
  | number y =>
    cases h
    exact .inl (.number hx)
  | rational n d =>
    rw [result_accept_rational] at h
    split at h
    · cases h
    · rename_i hd
      cases h
      rw [isNaN_div (isFinite_nearestFloat n) (isFinite_nearestFloat d)
        (nearestFloat_beq_zero hd)] at hx
      cases hx
  | var name =>
    rw [result_accept_var_eq_lookup, lookup] at h
    split at h
    · cases h
      exact .inl (.var ‹_› hx)
    · cases h
  | const name =>
    change m.result (require (Builtin.constant? name) _) = _ at h
    cases hconstant : Builtin.constant? name with
    | none =>
      rw [hconstant] at h
      cases h
    | some y =>
      rw [hconstant] at h
      cases h
      rw [Builtin.isNaN_of_constant?_eq_some hconstant] at hx
      cases hx
  | function name a =>
    rw [result_accept_function, Except.bind_eq_ok_iff] at h
    obtain ⟨f, -, h⟩ := h
    obtain ⟨y, hy, h⟩ := Except.bind_eq_ok_iff.mp h
    exact .inr ⟨a, List.mem_singleton_self a, y, hy, isNaN_of_result_inDomain_eq_ok h hx⟩
  | group a => exact .inr ⟨a, List.mem_singleton_self a, x, h, hx⟩
  | expression op left right =>
    obtain ⟨a, b, y, z, hleft, hright, hmemLeft, hmemRight, ha, hb, h⟩ | ⟨a, hmem, y, ha, h⟩ :=
      result_accept_expression_eq_ok h
    · obtain hy | hz | ⟨hop, hy | hz⟩ := not_finite_of_result_applyBinary_eq_ok h hx
      · exact .inr ⟨a, hmemLeft, y, ha, hy⟩
      · exact .inr ⟨b, hmemRight, z, hb, hz⟩
      · exact .inl (.infinite hop (.inl hleft) ha hy)
      · exact .inl (.infinite hop (.inr hright) hb hz)
    · exact .inr ⟨a, hmem, y, ha, isNaN_of_result_applyUnary_eq_ok h hx⟩

/-- The nodes that refuse to come to a value that is no number, unless an operand does. -/
def Guarded : Term → Prop
  | function _ _ | rational _ _ => True
  | expression op _ _ => op ∈ [.pow, .factorial, .sqrt, .neg]
  | _ => False

theorem not_source_of_guarded (ht : t.Guarded) : ¬NaNSource m t := by
  intro h
  cases h with
  | number hx | var hget hx => exact ht
  | infinite hop ha hresult hx =>
    change _ ∈ [_, _, _, _] at ht
    simp only [List.mem_cons, List.not_mem_nil, or_false] at hop ht
    obtain rfl | rfl | rfl | rfl := hop <;> simp at ht

theorem result_eval_isNaN (h : m.result t.eval = .ok x) (hx : x.isNaN) :
    NaNSource m t ∨ ∃ a ∈ t.operands, ∃ y, m.deeper.result a.eval = .ok y ∧ y.isNaN := by
  rw [result_eval] at h
  obtain ⟨-, -, h⟩ := Except.bind_eq_ok_iff.mp h
  exact (result_accept_isNaN h hx).imp_left fun hsource => hsource.of_below m.below_deeper

theorem exists_source_of_result_eval_isNaN (h : m.result t.eval = .ok x) (hx : x.isNaN) :
    ∃ s ∈ t.subterms, NaNSource m s := by
  -- A source below is one on a deeper machine; it stays a source with the levels of this one.
  induction t using induction_children generalizing m x with
  | node t ih =>
    obtain hsource | ⟨a, ha, y, hy, hnan⟩ := result_eval_isNaN h hx
    · exact ⟨t, t.mem_subterms_self, hsource⟩
    · have hchild := mem_children_of_mem_operands ha
      obtain ⟨s, hs, hsource⟩ := ih a hchild hy hnan
      exact ⟨s, mem_subterms_iff.mpr (.inr ⟨a, hchild, hs⟩), hsource.of_below m.below_deeper⟩

/-- A value that is no number comes from a number leaf or a variable that is none, or from a sum, a
difference, a product or a quotient one of whose operands is infinite by itself. The other nodes come
to such a value only if one of their operands does, and a quotient by zero comes to no value. -/
theorem sources_of_result_eval_isNaN (m : Machine) (t : Term) :
    (∀ x, m.result t.eval = .ok x → x.isNaN →
      (∃ y, number y ∈ t.subterms ∧ y.isNaN) ∨
      (∃ name y, var name ∈ t.subterms ∧ m.evaluator.valuation.get? name = some y ∧ y.isNaN) ∨
      ∃ op ∈ [.add, .sub, .mul, .div], ∃ left right a y, expression op left right ∈ t.subterms ∧
        (left = some a ∨ right = some a) ∧ m.result a.eval = .ok y ∧ y.isInf) ∧
    (t.Guarded → ∀ x, m.result t.eval = .ok x → x.isNaN →
      ∃ a ∈ t.operands, ∃ y, m.deeper.result a.eval = .ok y ∧ y.isNaN) ∧
    ∀ left b y, t = expression .div left (some b) → m.deeper.result b.eval = .ok y → y == 0 →
      ∀ x, m.result t.eval ≠ .ok x := by
  refine ⟨?_, ?_, ?_⟩
  · intro x h hx
    obtain ⟨s, hs, hsource⟩ := exists_source_of_result_eval_isNaN h hx
    cases hsource with
    | number hy => exact .inl ⟨_, hs, hy⟩
    | var hget hy => exact .inr (.inl ⟨_, _, hs, hget, hy⟩)
    | infinite hop ha hresult hy => exact .inr (.inr ⟨_, hop, _, _, _, _, hs, ha, hresult, hy⟩)
  · intro hguarded x h hx
    obtain hsource | hoperand := result_eval_isNaN h hx
    · exact absurd hsource (not_source_of_guarded hguarded)
    · exact hoperand
  · rintro left b y rfl hy hzero x h
    rw [result_eval] at h
    obtain ⟨_, -, h⟩ := Except.bind_eq_ok_iff.mp h
    obtain ⟨_, _, _, z, -, hright, -, -, -, hz, hvalue⟩ | ⟨_, _, _, _, hvalue⟩ :=
      result_accept_expression_eq_ok h
    · cases hright
      cases hy.symm.trans hz
      change m.deeper.result (if y == 0 then _ else _) = _ at hvalue
      rw [if_pos hzero] at hvalue
      cases hvalue
    · cases hvalue

/-- Infinity less infinity, under a root: the root hands the difference's value on. -/
theorem sources_of_result_eval_infinite_difference :
    let m := Machine.start .native (.ofList [("x", .inf)]) { limit := 3 } {} .all
    let difference := binary (number .inf) .sub (var "x")
    let t := before .sqrt difference
    m.result t.eval = .ok .nan ∧
      (∃ op ∈ [.add, .sub, .mul, .div], ∃ left right a y, expression op left right ∈ t.subterms ∧
        (left = some a ∨ right = some a) ∧ m.result a.eval = .ok y ∧ y.isInf) ∧
      ∃ a ∈ t.operands, ∃ y, m.deeper.result a.eval = .ok y ∧ y.isNaN := by
  intro m difference t
  have hvalue : m.result t.eval = .ok .nan := by decide +kernel
  obtain ⟨hsource, hguarded, -⟩ := sources_of_result_eval_isNaN m t
  have ht : t.Guarded := by simp [t, before, Guarded]
  refine ⟨hvalue, ?_, hguarded ht .nan hvalue rfl⟩
  obtain ⟨y, hy, hnan⟩ | ⟨name, y, hname, hget, hnan⟩ | hinfinite := hsource .nan hvalue rfl
  · have hinf : y = .inf := by simpa [t, difference, before, binary, subterms] using hy
    rw [hinf] at hnan
    cases hnan
  · have hx : name = "x" := by simpa [t, difference, before, binary, subterms] using hname
    rw [hx] at hget
    cases hget
    cases hnan
  · exact hinfinite

end Term

end Formula
