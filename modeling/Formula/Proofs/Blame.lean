import Formula.Proofs.Provenance

/-! # What an operation is blamed for

An operation may be blamed for a result that is not a number only if all its operands are numbers.
For functions and roots, which have one operand, their domain check asks just this. The check of a
power leaves the exponent out: what comes of an exponent that is not a number is blamed on the base.
Every domain failure of a term is that of one of its nodes, and says which operand it came from.
-/

namespace Formula

open Eval

/-- The verdict on an operation that takes all of its operands into account. -/
def domainVerdict (operation : String) (input : Float) (operands : List Float) (result : Float) :
    Except Failure Float :=
  if result.isNaN ∧ ∀ x ∈ operands, ¬x.isNaN then .error (.outsideDomain operation input)
  else .ok result

/-- The node is a cause of the failure: the value of the operand that the failure names is a number
at which the operation has none. A factorial has none at what is not a number either. -/
inductive Blamed (m : Machine) : Term → String → Float → Prop where
  | function {name : String} {a : Term} {f : Float → Float} {x : Float}
    (hf : Builtin.function? m.evaluator.library name = some f) (ha : m.result a.eval = .ok x)
    (hresult : (f x).isNaN) (hx : ¬x.isNaN) : Blamed m (.function name a) name x
  | root {left : Option Term} {a : Term} {x : Float} (ha : m.result a.eval = .ok x)
    (hresult : x.sqrt.isNaN) (hx : ¬x.isNaN) :
    Blamed m (.expression .sqrt left (some a)) Operator.sqrt.symbol x
  | power {a b : Term} {x y : Float} (ha : m.result a.eval = .ok x) (hb : m.result b.eval = .ok y)
    (hresult : (m.evaluator.library.pow x y).isNaN) (hx : ¬x.isNaN) :
    Blamed m (.expression .pow (some a) (some b)) Operator.pow.symbol x
  | factorial {right : Option Term} {a : Term} {x : Float} (ha : m.result a.eval = .ok x)
    (hnone : Builtin.factorial? x = none) :
    Blamed m (.expression .factorial (some a) right) Operator.factorial.symbol x

theorem Blamed.of_below {m m' : Machine} {t : Term} {operation : String} {x : Float}
    (h : Blamed m t operation x) (hm : m.Below m') : Blamed m' t operation x := by
  cases h with
  | function hf ha hresult hx =>
    rw [← hm.library] at hf
    exact .function hf (hm.result_eval_eq_ok ha) hresult hx
  | root ha hresult hx => exact .root (hm.result_eval_eq_ok ha) hresult hx
  | power ha hb hresult hx =>
    rw [← hm.library] at hresult
    exact .power (hm.result_eval_eq_ok ha) (hm.result_eval_eq_ok hb) hresult hx
  | factorial ha hnone => exact .factorial (hm.result_eval_eq_ok ha) hnone

namespace Eval

variable {m : Machine} {operation : String} {x y result : Float}

theorem result_inDomain (m : Machine) (operation : String) (x result : Float) :
    m.result (inDomain operation x result) = domainVerdict operation x [x] result := by
  unfold inDomain domainVerdict
  simp only [List.mem_singleton, forall_eq, Bool.and_eq_true, Bool.not_eq_true',
    Bool.not_eq_true]
  split <;> rfl

theorem domainVerdict_eq_error_iff {operands : List Float} {e : Failure} :
    domainVerdict operation x operands result = .error e ↔
      (result.isNaN ∧ ∀ z ∈ operands, ¬z.isNaN) ∧ e = .outsideDomain operation x := by
  unfold domainVerdict
  split <;> simp_all [eq_comm]

/-- One more operand only matters if it is the only one that is not a number. -/
theorem domainVerdict_pair (hpair : ¬(result.isNaN ∧ ¬x.isNaN ∧ y.isNaN)) :
    domainVerdict operation x [x, y] result = domainVerdict operation x [x] result := by
  have hiff : (result.isNaN ∧ ∀ z ∈ [x, y], ¬z.isNaN) ↔ result.isNaN ∧ ∀ z ∈ [x], ¬z.isNaN := by
    simp only [List.forall_mem_cons, List.not_mem_nil, false_implies, implies_true, and_true]
    tauto
  simp only [domainVerdict, hiff]

end Eval

namespace Term

variable {m : Machine} {t a b : Term} {x y : Float}

/-! ## The verdict on a node -/

theorem result_accept_function_of_ok {name : String} {f : Float → Float}
    (hf : Builtin.function? m.evaluator.library name = some f) (ha : m.result a.eval = .ok x) :
    m.result (function name a).accept = domainVerdict name x [x] (f x) := by
  rw [result_accept_function, hf, ha]
  exact result_inDomain m name x (f x)

theorem result_accept_sqrt {left : Option Term} (hop : .sqrt ∈ m.evaluator.operators)
    (ha : m.result a.eval = .ok x) :
    m.result (expression .sqrt left (some a)).accept =
      domainVerdict Operator.sqrt.symbol x [x] x.sqrt := by
  rw [result_accept_expression, permission, if_pos hop]
  change (m.result a.eval >>= fun x => m.result (applyUnary .sqrt x)) = _
  rw [ha]
  exact result_inDomain m _ x x.sqrt

theorem result_accept_pow (hop : .pow ∈ m.evaluator.operators) (ha : m.result a.eval = .ok x)
    (hb : m.result b.eval = .ok y) :
    m.result (binary a .pow b).accept =
      domainVerdict Operator.pow.symbol x [x] (m.evaluator.library.pow x y) := by
  rw [binary, result_accept_expression, permission, if_pos hop]
  change (m.result a.eval >>= fun x => m.result b.eval >>= fun y =>
    m.result (applyBinary m.evaluator.library .pow x y)) = _
  rw [ha, hb]
  exact result_inDomain m _ x _

/-! ## The cause of a failure -/

theorem result_applyUnary_eq_outsideDomain {op : Operator} {operation : String}
    (h : m.result (applyUnary op y) = .error (.outsideDomain operation x)) :
    (operation = op.symbol ∧ y = x) ∧
      (op = .sqrt ∧ x.sqrt.isNaN ∧ ¬x.isNaN ∨ op = .factorial ∧ Builtin.factorial? x = none) := by
  cases op with
  | sqrt =>
    have hverdict := (result_inDomain m _ y _).symm.trans h
    obtain ⟨⟨hresult, hx⟩, he⟩ := domainVerdict_eq_error_iff.mp hverdict
    cases he
    exact ⟨⟨rfl, rfl⟩, .inl ⟨rfl, hresult, hx x (List.mem_singleton_self x)⟩⟩
  | factorial =>
    obtain ⟨hnone, he⟩ := result_require_eq_error h
    cases he
    exact ⟨⟨rfl, rfl⟩, .inr ⟨rfl, hnone⟩⟩
  | _ => cases h

theorem result_applyBinary_eq_outsideDomain {lib : Elementary} {op : Operator} {z : Float}
    {operation : String}
    (h : m.result (applyBinary lib op z y) = .error (.outsideDomain operation x)) :
    (operation = op.symbol ∧ z = x) ∧ op = .pow ∧ (lib.pow x y).isNaN ∧ ¬x.isNaN := by
  cases op with
  | div =>
    change m.result (if y == 0 then _ else _) = _ at h
    split at h <;> cases h
  | pow =>
    have hverdict := (result_inDomain m _ z _).symm.trans h
    obtain ⟨⟨hresult, hx⟩, he⟩ := domainVerdict_eq_error_iff.mp hverdict
    cases he
    exact ⟨⟨rfl, rfl⟩, rfl, hresult, hx x (List.mem_singleton_self x)⟩
  | _ => cases h

theorem exists_operand_of_slotResult {op : Operator} {slot : Option Term} {e : Failure}
    (hset : ∀ a, slot = some a → a ∈ t.operands) (hfailure : e ≠ .missingOperand op)
    (h : slotResult m op slot = .error e) : ∃ a ∈ t.operands, m.result a.eval = .error e := by
  cases slot with
  | none =>
    cases h
    exact absurd rfl hfailure
  | some a => exact ⟨a, hset a rfl, h⟩

theorem blamed_of_result_accept_expression {op : Operator} {left right : Option Term}
    {operation : String}
    (h : m.result (expression op left right).accept = .error (.outsideDomain operation x)) :
    (∃ a ∈ (expression op left right).operands,
        m.result a.eval = .error (.outsideDomain operation x)) ∨
      Blamed m (expression op left right) operation x := by
  obtain ⟨-, h⟩ | ⟨htakes, h⟩ | ⟨htakes, h⟩ | ⟨z, y, -, hleft, hright, h⟩ | ⟨z, hslot, h⟩ :=
    result_accept_expression_eq_error h
  · cases h
  · refine .inl (exists_operand_of_slotResult ?_ ?_ h)
    · rintro a rfl
      exact mem_operands_left htakes
    · nofun
  · refine .inl (exists_operand_of_slotResult ?_ ?_ h)
    · rintro a rfl
      exact mem_operands_right htakes
    · nofun
  · obtain ⟨⟨rfl, rfl⟩, rfl, hresult, hx⟩ := result_applyBinary_eq_outsideDomain h
    obtain ⟨a, rfl, ha⟩ := slotResult_eq_ok hleft
    obtain ⟨b, rfl, hb⟩ := slotResult_eq_ok hright
    exact .inr (.power ha hb hresult hx)
  · obtain ⟨⟨rfl, rfl⟩, ⟨rfl, hresult, hx⟩ | ⟨rfl, hnone⟩⟩ := result_applyUnary_eq_outsideDomain h
    · obtain ⟨-, hslot⟩ | ⟨hfixity, -⟩ := hslot
      · obtain ⟨a, rfl, ha⟩ := slotResult_eq_ok hslot
        exact .inr (.root ha hresult hx)
      · cases hfixity
    · obtain ⟨hfixity, -⟩ | ⟨-, hslot⟩ := hslot
      · cases hfixity
      · obtain ⟨a, rfl, ha⟩ := slotResult_eq_ok hslot
        exact .inr (.factorial ha hnone)

/-- A node fails so because an operand does, or is to blame itself. -/
theorem blamed_of_result_accept {operation : String}
    (h : m.result t.accept = .error (.outsideDomain operation x)) :
    (∃ a ∈ t.operands, m.result a.eval = .error (.outsideDomain operation x)) ∨
      Blamed m t operation x := by
  cases t with
  | integer n | number z => cases h
  | rational n d =>
    rw [result_accept_rational] at h
    split at h <;> cases h
  | var name =>
    rw [result_accept_var] at h
    cases (result_require_eq_error h).2
  | const name => cases (result_require_eq_error h).2
  | function name a =>
    rw [result_accept_function, Except.bind_eq_error_iff] at h
    obtain h | ⟨f, hf, h⟩ := h
    · cases (result_require_eq_error h).2
    rw [Except.bind_eq_error_iff] at h
    obtain h | ⟨y, ha, h⟩ := h
    · exact .inl ⟨a, List.mem_singleton_self a, h⟩
    rw [result_inDomain] at h
    obtain ⟨⟨hresult, hx⟩, he⟩ := domainVerdict_eq_error_iff.mp h
    cases he
    exact .inr (.function (result_require_eq_ok hf) ha hresult (hx x (List.mem_singleton_self x)))
  | group a => exact .inl ⟨a, List.mem_singleton_self a, h⟩
  | expression op left right => exact blamed_of_result_accept_expression h

theorem exists_blamed_of_result_eval {operation : String}
    (h : m.result t.eval = .error (.outsideDomain operation x)) :
    ∃ s ∈ t.subterms, Blamed m s operation x := by
  -- An operand is evaluated with fewer levels left; what it is to blame for, it is here as well.
  induction t using induction_children generalizing m with
  | node t ih =>
    rw [result_eval, Except.bind_eq_error_iff] at h
    obtain hrefused | ⟨-, -, h⟩ := h
    · cases ofDoor_of_admission_eq_error hrefused
    obtain ⟨a, ha, h⟩ | hblamed := blamed_of_result_accept h
    · have hchild := mem_children_of_mem_operands ha
      obtain ⟨s, hs, hblamed⟩ := ih a hchild h
      exact ⟨s, mem_subterms_iff.mpr (.inr ⟨a, hchild, hs⟩), hblamed.of_below m.below_deeper⟩
    · exact ⟨t, t.mem_subterms_self, hblamed.of_below m.below_deeper⟩

/-! ## The law -/

theorem admission_of_result_deeper (ha : m.deeper.result a.eval = .ok x) :
    admission m = .ok () := by
  have habove := m.below_deeper.result_eval_eq_ok ha
  rw [result_eval, Except.bind_eq_ok_iff] at habove
  obtain ⟨⟨⟩, hadmission, -⟩ := habove
  exact hadmission

/-- Inside any term, functions and roots fail just when they make a result that is not a number out
of a number, and blame it. Powers blame a base that is a number if both operands are numbers and the
result is not, and also for an exponent that is not a number, unless the base is one. Nothing else
than such a node, or a factorial, comes to a domain failure. -/
theorem outsideDomain_blames (m : Machine)
    (hpow : ∀ x y, y.isNaN → ((m.evaluator.library.pow x y).isNaN ↔ ¬x == 1)) :
    (∀ name f a x, Builtin.function? m.evaluator.library name = some f →
      m.deeper.result a.eval = .ok x →
      m.result (function name a).eval = domainVerdict name x [x] (f x)) ∧
    (∀ left a x, .sqrt ∈ m.evaluator.operators → m.deeper.result a.eval = .ok x →
      m.result (expression .sqrt left (some a)).eval =
        domainVerdict Operator.sqrt.symbol x [x] x.sqrt) ∧
    (∀ a b x y, .pow ∈ m.evaluator.operators → m.deeper.result a.eval = .ok x →
      m.deeper.result b.eval = .ok y →
      m.result (binary a .pow b).eval =
        if y.isNaN ∧ ¬x.isNaN ∧ ¬x == 1 then .error (.outsideDomain Operator.pow.symbol x)
        else domainVerdict Operator.pow.symbol x [x, y] (m.evaluator.library.pow x y)) ∧
    ∀ (t : Term) operation x, m.result t.eval = .error (.outsideDomain operation x) →
      ∃ s ∈ t.subterms, Blamed m s operation x := by
  refine ⟨?_, ?_, ?_, ?_⟩
  · intro name f a x hf ha
    rw [result_eval_of_admission_eq_ok (admission_of_result_deeper ha)]
    exact result_accept_function_of_ok (m := m.deeper) hf ha
  · intro left a x hop ha
    rw [result_eval_of_admission_eq_ok (admission_of_result_deeper ha)]
    exact result_accept_sqrt (m := m.deeper) hop ha
  · intro a b x y hop ha hb
    rw [result_eval_of_admission_eq_ok (admission_of_result_deeper ha)]
    apply (result_accept_pow (m := m.deeper) hop ha hb).trans
    change domainVerdict _ x [x] (m.evaluator.library.pow x y) = _
    split
    · rename_i hexponent
      obtain ⟨hy, hx, hone⟩ := hexponent
      have hresult := (hpow x y hy).mpr hone
      exact domainVerdict_eq_error_iff.mpr ⟨⟨hresult, by simpa using hx⟩, rfl⟩
    · rename_i hexponent
      symm
      apply domainVerdict_pair
      rintro ⟨hresult, hx, hy⟩
      exact hexponent ⟨hy, hx, (hpow x y hy).mp hresult⟩
  · intro t operation x h
    exact exists_blamed_of_result_eval h

end Term

/-- The library with the powers that have no number for their exponent put right. -/
def Elementary.withNaNExponents (lib : Elementary) : Elementary :=
  { lib with pow := fun x y => if y.isNaN then if x == 1 then 1 else .nan else lib.pow x y }

theorem Elementary.isNaN_pow_withNaNExponents (lib : Elementary) {x y : Float} (hy : y.isNaN) :
    (lib.withNaNExponents.pow x y).isNaN ↔ ¬x == 1 := by
  change (if y.isNaN then if x == 1 then 1 else .nan else lib.pow x y : Float).isNaN ↔ _
  rw [if_pos hy]
  split
  · rename_i hone
    exact iff_of_false Bool.false_ne_true (not_not_intro hone)
  · rename_i hone
    exact iff_of_true rfl hone

namespace Term

/-- Two to a power that is not a number: two is blamed for what the exponent brings about. -/
theorem outsideDomain_blames_base :
    let lib := Elementary.native.withNaNExponents
    let m := Machine.start lib {} {} {} .all
    (∀ x y, y.isNaN → ((lib.pow x y).isNaN ↔ ¬x == 1)) ∧
      m.deeper.result (integer 2).eval = .ok 2 ∧ m.deeper.result (number .nan).eval = .ok .nan ∧
      m.result (binary (integer 2) .pow (number .nan)).eval = .error (.outsideDomain "^" 2) ∧
      domainVerdict "^" 2 [2, .nan] (lib.pow 2 .nan) = .ok .nan := by
  intro lib m
  refine ⟨fun x y hy => Elementary.native.isNaN_pow_withNaNExponents hy, ?_, ?_, ?_, ?_⟩
  · rfl
  · rfl
  · decide +kernel
  · decide +kernel

/-- A root and two powers of a variable that is not a number. -/
theorem outsideDomain_blames_root_and_powers :
    let m := Machine.start Elementary.native.withNaNExponents (.ofList [("x", .nan)]) {} {} .all
    let power (n : Int64) := binary (integer n) .pow (var "x")
    m.result (before .sqrt (integer (-4))).eval = .error (.outsideDomain "√" (-4)) ∧
      m.result (power 1).eval = .ok 1 ∧
      m.result (power 2).eval = .error (.outsideDomain "^" 2) ∧
      ∃ s ∈ (group (power 2)).subterms, Blamed m s "^" 2 := by
  intro m power
  obtain ⟨-, hroot, hpower, hcause⟩ := outsideDomain_blames m
    fun x y hy => Elementary.native.isNaN_pow_withNaNExponents hy
  refine ⟨?_, ?_, ?_, ?_⟩
  · exact (hroot none (integer (-4)) (-4) (by decide) rfl).trans (by decide +kernel)
  · exact (hpower (integer 1) (var "x") 1 .nan (by decide) rfl rfl).trans (by decide +kernel)
  · exact (hpower (integer 2) (var "x") 2 .nan (by decide) rfl rfl).trans (by decide +kernel)
  · exact hcause (group (power 2)) "^" 2 (by decide +kernel)

end Term

end Formula
