import Formula.Proofs.FloatEquality
import Formula.Proofs.Operands
import Formula.Proofs.Weighing

/-! # Canonical terms

Of all the terms that agree with a term, one is canonical: the one whose numbers are canonical.
Comparison decides whether two terms have the same canonical term, so it is an equivalence, an
operand may be replaced by one that agrees with it, and terms that agree are alike in all that is
told of a term apart from its values.
-/

namespace Formula.Term

def canonical : Term → Term
  | number x => number (canonicalFloat x)
  | function name a => function name a.canonical
  | group a => group a.canonical
  | expression op left right =>
    expression op (match left with | some a => some a.canonical | none => none)
      (match right with | some a => some a.canonical | none => none)
  | t => t

theorem canonical_expression (op : Operator) (left right : Option Term) :
    (expression op left right).canonical =
      expression op (left.map canonical) (right.map canonical) := by
  cases left <;> cases right <;> rfl

/-! ## The comparison -/

theorem map_canonical_eq_iff {l r : Option Term} :
    l.map canonical = r.map canonical ↔
      ∃ pairs, pairSlots l r = some pairs ∧ ∀ p ∈ pairs, p.1.canonical = p.2.canonical := by
  cases l <;> cases r <;> simp [pairSlots]

theorem pairOperands_of_kind_ne {a b : Term} (h : a.kind ≠ b.kind) : pairOperands a b = none := by
  fun_cases pairOperands a b <;> first | rfl | exact absurd rfl h

theorem kind_canonical (t : Term) : t.canonical.kind = t.kind := by
  cases t with
  | expression op left right =>
    rw [canonical_expression]
    rfl
  | _ => rfl

theorem canonical_eq_iff {a b : Term} :
    a.canonical = b.canonical ↔
      ∃ pairs, pairOperands a b = some pairs ∧ ∀ p ∈ pairs, p.1.canonical = p.2.canonical := by
  by_cases hkind : a.kind = b.kind
  · cases a with
    | expression op left right =>
      cases b with
      | expression op' left' right' =>
        simp only [canonical_expression, expression.injEq, map_canonical_eq_iff, pairOperands]
        by_cases h : op = op'
        · simp only [h, true_and, if_true]
          cases pairSlots left left' <;> cases pairSlots right right' <;>
            simp [or_imp, forall_and]
        · simp [h]
      | _ => cases hkind
    | number x =>
      cases b with
      | number y => simp [pairOperands, canonical, ← numbersAgree_iff]
      | _ => cases hkind
    | _ =>
      cases b <;> cases hkind
      simp [pairOperands, canonical]
  · rw [pairOperands_of_kind_ne hkind]
    constructor
    · intro h
      rw [← kind_canonical a, ← kind_canonical b, h] at hkind
      exact absurd rfl hkind
    · rintro ⟨pairs, h, -⟩
      cases h

theorem agreeAll_iff (agenda : List (Term × Term)) :
    agreeAll agenda ↔ ∀ p ∈ agenda, p.1.canonical = p.2.canonical := by
  fun_induction agreeAll agenda with
  | case1 => simp
  | case2 a b agenda pairs hpairs ih =>
    have hfirst : a.canonical = b.canonical ↔ ∀ p ∈ pairs, p.1.canonical = p.2.canonical := by
      rw [canonical_eq_iff, hpairs]
      simp
    simp only [ih, List.forall_mem_append, List.mem_reverse, List.forall_mem_cons, hfirst]
  | case3 a b agenda hpairs =>
    have hfirst : a.canonical ≠ b.canonical := by
      rw [Ne, canonical_eq_iff, hpairs]
      simp
    simp [hfirst]

theorem agrees_iff {a b : Term} : a.agrees b ↔ a.canonical = b.canonical := by
  rw [agrees, agreeAll_iff, List.forall_mem_singleton]

/-! ## What terms that agree have in common -/

theorem operator?_canonical (t : Term) : t.canonical.operator? = t.operator? := by
  cases t with
  | expression op left right =>
    rw [canonical_expression]
    rfl
  | _ => rfl

theorem children_canonical (t : Term) : t.canonical.children = t.children.map canonical := by
  cases t with
  | expression op left right => cases left <;> cases right <;> rfl
  | _ => rfl

theorem weight_canonical (t : Term) : t.canonical.weight = t.weight := by
  cases t with
  | expression op left right =>
    rw [canonical_expression]
    rfl
  | _ => rfl

theorem size_canonical (t : Term) : t.canonical.size = t.size := by
  induction t with
  | integer _ | number _ | rational _ _ | var _ | const _ => rfl
  | function name a ih | group a ih => simp [canonical, size, ih]
  | expression op left right ihl ihr =>
    cases left <;> cases right <;> simp_all [canonical, size]

theorem height_canonical (t : Term) : t.canonical.height = t.height := by
  induction t with
  | integer _ | number _ | rational _ _ | var _ | const _ => rfl
  | function name a ih | group a ih => simp [canonical, height, ih]
  | expression op left right ihl ihr =>
    cases left <;> cases right <;> simp_all [canonical, height]

theorem weigh_levels_canonical (t : Term) (total : UInt64) (level level' : Nat) :
    weigh total (t.canonical.levels level) = weigh total (t.levels level') := by
  induction t using induction_children generalizing total level level' with
  | node t ih => exact weigh_levels_congr (weight_canonical t) (children_canonical t) ih _ _ _

theorem complexity_canonical (t : Term) : t.canonical.complexity = t.complexity := by
  rw [complexity_eq, complexity_eq, weigh_levels_canonical]

/-! ## Replacing a term at a position -/

/-- Puts a term into a slot; one that the node does not have is left alone. -/
def setOperand : Term → Slot → Term → Term
  | function name _, .operand, b => function name b
  | group _, .inner, b => group b
  | expression op _ right, .left, b => expression op (some b) right
  | expression op left _, .right, b => expression op left (some b)
  | t, _, _ => t

/-- The term that is reached from the root through the given slots. -/
def at? (t : Term) : List Slot → Option Term
  | [] => some t
  | slot :: position =>
    match t.operand? slot with
    | some a => a.at? position
    | none => none

/-- Puts a term where `at?` finds one. -/
def replaceAt (t : Term) (new : Term) : List Slot → Term
  | [] => new
  | slot :: position =>
    match t.operand? slot with
    | some a => t.setOperand slot (a.replaceAt new position)
    | none => t

theorem canonical_setOperand {t a b : Term} {slot : Slot} (ha : t.operand? slot = some a)
    (h : a.canonical = b.canonical) : t.canonical = (t.setOperand slot b).canonical := by
  cases t <;> cases slot <;> cases ha <;>
    simp only [setOperand, canonical, canonical_expression, Option.map_some, h]

theorem canonical_replaceAt {t s new : Term} {position : List Slot} (hs : t.at? position = some s)
    (h : s.canonical = new.canonical) : t.canonical = (t.replaceAt new position).canonical := by
  induction position generalizing t with
  | nil =>
    cases hs
    exact h
  | cons slot position ih =>
    rw [at?] at hs
    rw [replaceAt]
    cases ha : t.operand? slot with
    | none => rfl
    | some a =>
      rw [ha] at hs
      exact canonical_setOperand ha (ih hs)

/-- Comparison decides whether two terms are the same once their numbers are canonical. -/
theorem agrees_iff_canonical_eq :
    (∀ a b : Term, a.agrees b ↔ a.canonical = b.canonical) ∧
      (∀ a : Term, a.agrees a) ∧
      (∀ a b : Term, a.agrees b → b.agrees a) ∧
      (∀ a b c : Term, a.agrees b → b.agrees c → a.agrees c) ∧
      (∀ (t s new : Term) (position : List Slot), t.at? position = some s → s.agrees new →
        t.agrees (t.replaceAt new position)) ∧
      ∀ a b : Term, a.agrees b → a.kind = b.kind ∧ a.operatorSymbol = b.operatorSymbol ∧
        a.nodeCount = b.nodeCount ∧ a.depth = b.depth ∧ a.complexity = b.complexity := by
  refine ⟨fun _ _ => agrees_iff, ?_, ?_, ?_, ?_, ?_⟩ <;> simp only [agrees_iff]
  · intro a
    trivial
  · intro a b h
    exact h.symm
  · intro a b c hab hbc
    exact hab.trans hbc
  · intro t s new position hs h
    exact canonical_replaceAt hs h
  · intro a b h
    refine ⟨?_, ?_, ?_, ?_, ?_⟩
    · rw [← kind_canonical a, h, kind_canonical]
    · rw [operatorSymbol, ← operator?_canonical a, h, operator?_canonical, operatorSymbol]
    · rw [nodeCount_eq_size, nodeCount_eq_size, ← size_canonical a, h, size_canonical]
    · rw [depth_eq_height, depth_eq_height, ← height_canonical a, h, height_canonical]
    · rw [← complexity_canonical a, h, complexity_canonical]

/-- A power of a quotient of zeros, where two zeros change their signs, and the power again with one
of them replaced. -/
theorem agrees_iff_canonical_eq_zeros :
    let power (x y : Float) := binary (binary (number x) .div (group (number y))) .pow
      (after (number (0 / 0)) .factorial)
    let a := power 0 (-0)
    let b := power (-0) 0
    let c := a.replaceAt (group (number 0)) [.left, .right]
    a.agrees b ∧ b.agrees a ∧ a.at? [.left, .right] = some (group (number (-0))) ∧
      a.agrees c ∧ b.agrees c ∧ a.complexity = .error ⟨.factorial⟩ ∧
      b.complexity = .error ⟨.factorial⟩ := by
  intro power a b c
  obtain ⟨hdecides, -, hsymm, htrans, hreplace, halike⟩ := agrees_iff_canonical_eq
  have hab : a.agrees b := (hdecides a b).mpr rfl
  have hzeros : (group (number (-0))).agrees (group (number 0)) := (hdecides _ _).mpr rfl
  have hac : a.agrees c := hreplace a _ _ _ rfl hzeros
  have hcomplexity : a.complexity = .error ⟨.factorial⟩ := by
    rw [complexity_eq]
    rfl
  obtain ⟨-, -, -, -, hsame⟩ := halike a b hab
  exact ⟨hab, hsymm a b hab, rfl, hac, htrans b a c (hsymm a b hab) hac, hcomplexity,
    hsame.symm.trans hcomplexity⟩

end Formula.Term
