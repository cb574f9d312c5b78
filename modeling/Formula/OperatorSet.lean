import Formula.Operator

/-! # Sets of operators

A set is the list of its members in the order of `Operator.all`, so that two sets with the same
members are equal and listing a set needs no sorting.
-/

namespace Formula

structure OperatorSet where
  toList : List Operator
  ordered : Operator.all.filter (toList.contains ·) = toList := by decide
  deriving DecidableEq

namespace OperatorSet

instance : Membership Operator OperatorSet := ⟨fun s op => op ∈ s.toList⟩

instance (op : Operator) (s : OperatorSet) : Decidable (op ∈ s) :=
  inferInstanceAs (Decidable (op ∈ s.toList))

instance : HasSubset OperatorSet := ⟨fun s t => ∀ op, op ∈ s → op ∈ t⟩

theorem mem_toList {op : Operator} {s : OperatorSet} : op ∈ s.toList ↔ op ∈ s := Iff.rfl

theorem subset_iff {s t : OperatorSet} : s ⊆ t ↔ ∀ op, op ∈ s → op ∈ t := Iff.rfl

/-- The operators with a property. -/
def having (p : Operator → Bool) : OperatorSet where
  toList := Operator.all.filter p
  ordered := by
    refine List.filter_congr fun op _ => ?_
    simp [Operator.mem_all]

@[simp] theorem mem_having {p : Operator → Bool} {op : Operator} : op ∈ having p ↔ p op := by
  simp [← mem_toList, having, Operator.mem_all]

@[ext] theorem ext {s t : OperatorSet} (h : ∀ op, op ∈ s ↔ op ∈ t) : s = t := by
  have hlist : s.toList = t.toList := by
    rw [← s.ordered, ← t.ordered]
    refine List.filter_congr fun op _ => ?_
    simpa [mem_toList] using h op
  cases s
  cases t
  simpa using hlist

def empty : OperatorSet where
  toList := []

def all : OperatorSet where
  toList := Operator.all

def arithmetic : OperatorSet where
  toList := [.add, .sub, .mul, .div, .pow]

instance : EmptyCollection OperatorSet := ⟨empty⟩

def contains (s : OperatorSet) (op : Operator) : Bool := s.toList.contains op

def insert (s : OperatorSet) (op : Operator) : OperatorSet :=
  having fun o => o == op || s.contains o

def erase (s : OperatorSet) (op : Operator) : OperatorSet := having fun o => o != op && s.contains o

def ofList (ops : List Operator) : OperatorSet := ops.foldl insert ∅

def size (s : OperatorSet) : Nat := s.toList.length

def isEmpty (s : OperatorSet) : Bool := s.toList.isEmpty

@[simp] theorem contains_iff {s : OperatorSet} {op : Operator} : s.contains op ↔ op ∈ s := by
  simp [contains, ← mem_toList]

@[simp] theorem not_mem_empty (op : Operator) : op ∉ (∅ : OperatorSet) :=
  List.not_mem_nil

@[simp] theorem mem_all (op : Operator) : op ∈ all := Operator.mem_all op

theorem mem_arithmetic_iff {op : Operator} : op ∈ arithmetic ↔ op.fixity = .between := by
  cases op <;> decide

@[simp] theorem mem_insert {s : OperatorSet} {op o : Operator} :
    o ∈ s.insert op ↔ o = op ∨ o ∈ s := by
  simp [insert]

@[simp] theorem mem_erase {s : OperatorSet} {op o : Operator} :
    o ∈ s.erase op ↔ o ≠ op ∧ o ∈ s := by
  simp [erase]

theorem mem_foldl_insert {ops : List Operator} {s : OperatorSet} {op : Operator} :
    op ∈ ops.foldl insert s ↔ op ∈ ops ∨ op ∈ s := by
  induction ops generalizing s with
  | nil => simp
  | cons o rest ih =>
    rw [List.foldl_cons, ih, mem_insert, List.mem_cons]
    constructor
    · rintro (h | h | h)
      · exact .inl (.inr h)
      · exact .inl (.inl h)
      · exact .inr h
    · rintro ((h | h) | h)
      · exact .inr (.inl h)
      · exact .inl h
      · exact .inr (.inr h)

@[simp] theorem mem_ofList {ops : List Operator} {op : Operator} : op ∈ ofList ops ↔ op ∈ ops := by
  simp [ofList, mem_foldl_insert]

end OperatorSet

end Formula
