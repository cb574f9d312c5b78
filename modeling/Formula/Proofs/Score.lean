import Formula.Proofs.Weighing
import Mathlib.Algebra.Group.Nat.Defs

/-! # Scores

Complexity as a fold along the term, in numbers that do not run over, beside the walk that adds
words of 64 bits. The walk comes to the score of a term whose operators all have a weight, and else
it stops at the first one without, in the order of the walk.
-/

namespace Formula

def Operator.isUnweighted : Operator → Bool
  | .factorial | .sqrt | .neg => true
  | _ => false

def Operator.score : Operator → Nat
  | .add | .sub | .mul => 2
  | .div => 4
  | .pow => 8
  | .factorial | .sqrt | .neg => 0

theorem Operator.weight?_eq (op : Operator) :
    op.weight? = if op.isUnweighted then none else some (.ofNat op.score) := by
  cases op <;> rfl

namespace Term

def score : Term → Nat
  | integer _ | var _ | const _ => 1
  | number _ | rational _ _ => 2
  | function _ a => 5 + a.score
  | group a => a.score
  | expression op left right =>
    op.score + (match left with | some a => a.score | none => 0) +
      (match right with | some a => a.score | none => 0)

/-- The operators without a weight that occur: that of the root, then those of the right operand,
then those of the left operand. -/
def unweighted : Term → List Operator
  | function _ a => a.unweighted
  | group a => a.unweighted
  | expression op left right =>
    (if op.isUnweighted then [op] else []) ++
      ((match right with | some a => a.unweighted | none => []) ++
        (match left with | some a => a.unweighted | none => []))
  | _ => []

theorem score_expression (op : Operator) (left right : Option Term) :
    (expression op left right).score = op.score + left.elim 0 score + right.elim 0 score := by
  cases left <;> cases right <;> rfl

theorem unweighted_expression (op : Operator) (left right : Option Term) :
    (expression op left right).unweighted =
      (if op.isUnweighted then [op] else []) ++
        (right.elim [] unweighted ++ left.elim [] unweighted) := by
  cases left <;> cases right <;> rfl

theorem levels_expression (level : Nat) (op : Operator) (left right : Option Term) :
    (expression op left right).levels level = (level, expression op left right) ::
      (right.elim [] (levels (level + 1)) ++ left.elim [] (levels (level + 1))) := by
  cases left <;> cases right <;> rfl

theorem unweighted_eq (t : Term) :
    t.unweighted = t.operator?.toList.filter Operator.isUnweighted ++
      t.children.reverse.flatMap unweighted := by
  cases t with
  | integer _ | number _ | rational _ _ | var _ | const _ => rfl
  | function _ a | group a => exact (List.append_nil _).symm
  | expression op left right =>
    rw [unweighted_expression]
    cases left <;> cases right <;> simp [operator?, children, List.filter_cons]

theorem mem_unweighted_iff {t : Term} {op : Operator} :
    op ∈ t.unweighted ↔ op.isUnweighted ∧ ∃ s ∈ t.subterms, s.operator? = some op := by
  induction t using induction_children with
  | node t ih =>
    rw [unweighted_eq, List.mem_append, List.mem_flatMap, List.mem_filter, Option.mem_toList]
    constructor
    · rintro (⟨hroot, hop⟩ | ⟨a, ha, h⟩)
      · exact ⟨hop, t, mem_subterms_self t, hroot⟩
      · have ha := List.mem_reverse.mp ha
        obtain ⟨hop, s, hs, hroot⟩ := (ih a ha).mp h
        exact ⟨hop, s, mem_subterms_iff.mpr (.inr ⟨a, ha, hs⟩), hroot⟩
    · rintro ⟨hop, s, hs, hroot⟩
      obtain rfl | ⟨a, ha, hs⟩ := mem_subterms_iff.mp hs
      · exact .inl ⟨hroot, hop⟩
      · exact .inr ⟨a, List.mem_reverse.mpr ha, (ih a ha).mpr ⟨hop, s, hs, hroot⟩⟩

theorem score_le (t : Term) : t.score ≤ 8 * t.size := by
  induction t with
  | integer _ | number _ | rational _ _ | var _ | const _ => simp [score, size]
  | function name a ih | group a ih =>
    simp only [score, size]
    omega
  | expression op left right ihl ihr =>
    have hop : op.score ≤ 8 := by cases op <;> decide
    cases left <;> cases right <;> simp_all [score, size] <;> omega

/-! ## The walk -/

/-- What the walk makes of nodes with the given score and the given operators without a weight. -/
def tally (total : UInt64) (score : Nat) : List Operator → Except Unweighted UInt64
  | [] => .ok (total + .ofNat score)
  | op :: _ => .error ⟨op⟩

theorem tally_append (total : UInt64) (m n : Nat) (front back : List Operator) :
    tally total (m + n) (front ++ back) = tally total m front >>= fun sum => tally sum n back := by
  cases front with
  | nil =>
    cases back with
    | nil => exact congrArg Except.ok (by rw [UInt64.ofNat_add, UInt64.add_assoc])
    | cons op back => rfl
  | cons op front => rfl

theorem weigh_root (total : UInt64) (level : Nat) (op : Operator) (left right : Option Term)
    (rest : List (Nat × Term)) :
    weigh total ((level, expression op left right) :: rest) =
      tally total op.score (if op.isUnweighted then [op] else []) >>= fun sum => weigh sum rest := by
  rw [weigh, weight, Operator.weight?_eq]
  cases op.isUnweighted <;> rfl

theorem weigh_slot {slot : Option Term} {level : Nat}
    (h : ∀ a, slot = some a → ∀ (total : UInt64) (level : Nat),
      weigh total (a.levels level) = tally total a.score a.unweighted) (total : UInt64) :
    weigh total (slot.elim [] (levels level)) =
      tally total (slot.elim 0 score) (slot.elim [] unweighted) := by
  cases slot with
  | none => exact congrArg Except.ok (UInt64.add_zero total).symm
  | some a => exact h a rfl total level

theorem weigh_levels (t : Term) (total : UInt64) (level : Nat) :
    weigh total (t.levels level) = tally total t.score t.unweighted := by
  induction t generalizing total level with
  | integer _ | number _ | rational _ _ | var _ | const _ => rfl
  | function name a ih =>
    exact (ih _ _).trans (tally_append total 5 a.score [] a.unweighted).symm
  | group a ih =>
    rw [weigh_levels_group, ih]
    rfl
  | expression op left right ihl ihr =>
    have hoperands (sum : UInt64) :
        weigh sum (right.elim [] (levels (level + 1)) ++ left.elim [] (levels (level + 1))) =
          tally sum (right.elim 0 score + left.elim 0 score)
            (right.elim [] unweighted ++ left.elim [] unweighted) := by
      rw [weigh_append, weigh_slot ihr, tally_append]
      cases tally sum (right.elim 0 score) (right.elim [] unweighted) with
      | ok next => exact weigh_slot ihl next
      | error e => rfl
    -- The score is added from left to right, while the walk comes to the right operand first.
    rw [levels_expression, weigh_root, score_expression, unweighted_expression, Nat.add_right_comm,
      Nat.add_assoc, tally_append]
    simp only [hoperands]

theorem toNat_le_of_weight_eq_ok {t : Term} {w : UInt64} (h : t.weight = .ok w) :
    w.toNat ≤ 8 := by
  cases t with
  | expression op left right =>
    rw [weight] at h
    cases op <;> cases h <;> decide
  | _ =>
    cases h
    decide

theorem toNat_le_of_weigh_eq_ok {nodes : List (Nat × Term)} {total sum : UInt64}
    (h : weigh total nodes = .ok sum) : sum.toNat ≤ total.toNat + 8 * nodes.length := by
  induction nodes generalizing total with
  | nil =>
    cases h
    exact Nat.le_refl _
  | cons entry nodes ih =>
    rw [weigh] at h
    cases hweight : entry.2.weight with
    | error e =>
      rw [hweight] at h
      cases h
    | ok w =>
      rw [hweight] at h
      have hw := toNat_le_of_weight_eq_ok hweight
      have hsum := ih h
      have hadd : (total + w).toNat ≤ total.toNat + w.toNat := by
        rw [UInt64.toNat_add]
        exact Nat.mod_le _ _
      rw [List.length_cons]
      omega

/-- With fewer than 2 ^ 61 nodes the complexity is the score, and no addition runs over, unless an
operator without a weight occurs: then it is the failure of the first one, the root coming before
its operands and the right operand before the left one. -/
theorem complexity_eq_score {t : Term} (hsize : t.nodeCount < 2 ^ 61) :
    (∀ op, op ∈ t.unweighted ↔ op ∈ [.factorial, .sqrt, .neg] ∧
        ∃ s ∈ t.subterms, s.operator? = some op) ∧
      (t.unweighted = [] → ∃ w, t.complexity = .ok w ∧ w.toNat = t.score) ∧
      (∀ op rest, t.unweighted = op :: rest → t.complexity = .error ⟨op⟩) ∧
      ∀ front level s back total w, t.traversal = front ++ (level, s) :: back →
        weigh 0 front = .ok total → s.weight = .ok w → total.toNat + w.toNat < 2 ^ 64 := by
  have hcomplexity : t.complexity = tally 0 t.score t.unweighted := by
    rw [complexity_eq, weigh_levels]
  refine ⟨?_, ?_, ?_, ?_⟩
  · intro op
    rw [mem_unweighted_iff]
    cases op <;> simp [Operator.isUnweighted]
  · intro h
    rw [hcomplexity, h]
    refine ⟨_, rfl, ?_⟩
    have hscore := t.score_le
    rw [nodeCount_eq_size] at hsize
    rw [UInt64.zero_add, UInt64.toNat_ofNat_of_lt']
    rw [UInt64.size]
    omega
  · intro op rest h
    rw [hcomplexity, h]
    rfl
  · intro front level s back total w htraversal htotal hw
    have htotal := toNat_le_of_weigh_eq_ok htotal
    have hw := toNat_le_of_weight_eq_ok hw
    have hlength := congrArg List.length htraversal
    rw [List.length_append, List.length_cons] at hlength
    rw [nodeCount] at hsize
    change total.toNat ≤ 0 + _ at htotal
    omega

/-- A sum of a factorial and a root, and half a power of a function in parentheses. -/
theorem complexity_eq_score_root :
    let t := binary (after (integer 4) .factorial) .add (before .sqrt (integer 4))
    let half := rational 1 2
    let call := function "sin" half
    let power := expression .pow (some (group call)) none
    let front := [(1, power), (2, group call), (3, call)]
    (t.nodeCount < 2 ^ 61 ∧ t.unweighted = [.sqrt, .factorial] ∧
        t.complexity = .error ⟨.sqrt⟩) ∧
      power.nodeCount < 2 ^ 61 ∧ power.unweighted = [] ∧
        (∃ w, power.complexity = .ok w ∧ w.toNat = 15) ∧
        power.traversal = front ++ [(4, half)] ∧ weigh 0 front = .ok 13 ∧
        half.weight = .ok 2 ∧ UInt64.toNat 13 + UInt64.toNat 2 < 2 ^ 64 := by
  intro t half call power front
  have ht : t.nodeCount < 2 ^ 61 := by
    rw [nodeCount_eq_size]
    decide
  have hpower : power.nodeCount < 2 ^ 61 := by
    rw [nodeCount_eq_size]
    decide
  have htraversal : power.traversal = front ++ [(4, half)] := by
    rw [traversal_eq]
    rfl
  obtain ⟨-, -, herror, -⟩ := complexity_eq_score ht
  obtain ⟨-, hok, -, hfits⟩ := complexity_eq_score hpower
  exact ⟨⟨ht, rfl, herror .sqrt _ rfl⟩, hpower, rfl, hok rfl, htraversal, rfl, rfl,
    hfits front 4 half [] 13 2 htraversal rfl rfl⟩

end Term

end Formula
