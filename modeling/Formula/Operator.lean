/-! # Operators

The eight operators of a formula, on which sides of the operator its operands stand, and the
spellings by which a text may name it. The first spelling of an operator is its symbol.
-/

namespace Formula

inductive Operator where
  | add
  | sub
  | mul
  | div
  | pow
  | factorial
  | sqrt
  | neg
  deriving DecidableEq, Repr

/-- Where an operator stands with respect to its operands. -/
inductive Fixity where
  | between
  | before
  | after
  deriving DecidableEq, Repr

namespace Operator

/-- Every operator, in the order in which sets of operators list their members. -/
def all : List Operator := [add, sub, mul, div, pow, factorial, sqrt, neg]

theorem mem_all (op : Operator) : op ∈ all := by
  cases op <;> decide

def fixity : Operator → Fixity
  | add | sub | mul | div | pow => .between
  | sqrt | neg => .before
  | factorial => .after

def takesLeft (op : Operator) : Bool := op.fixity != .before

def takesRight (op : Operator) : Bool := op.fixity != .after

theorem takesLeft_iff (op : Operator) : op.takesLeft ↔ op.fixity ≠ .before := by
  simp [takesLeft]

theorem takesRight_iff (op : Operator) : op.takesRight ↔ op.fixity ≠ .after := by
  simp [takesRight]

def symbol : Operator → String
  | add => "+"
  | sub => "-"
  | mul => "*"
  | div => "/"
  | pow => "^"
  | factorial => "!"
  | sqrt => "√"
  | neg => "neg"

/-- Unary minus has no sign of its own among the spellings: `-` always names subtraction. -/
def spellings : Operator → List String
  | sub => ["-", "−"]
  | mul => ["*", "×"]
  | div => ["/", "÷"]
  | sqrt => ["√", "sqrt"]
  | op => [op.symbol]

def ofText? (text : String) : Option Operator :=
  all.find? fun op => op.spellings.contains text

theorem symbol_mem_spellings (op : Operator) : op.symbol ∈ op.spellings := by
  cases op <;> simp [spellings, symbol]

theorem eq_of_mem_spellings {p q : Operator} {text : String} (hp : text ∈ p.spellings)
    (hq : text ∈ q.spellings) : p = q := by
  cases p <;> cases q <;> simp [spellings, symbol] at hp hq ⊢ <;>
    obtain rfl | rfl := hp <;> simp at hq

theorem ofText?_eq_some_iff {text : String} {op : Operator} :
    ofText? text = some op ↔ text ∈ op.spellings := by
  constructor
  · intro h
    simpa using List.find?_some h
  · intro h
    cases hq : ofText? text with
    | none =>
      have := List.find?_eq_none.mp hq op (mem_all op)
      simp [h] at this
    | some q =>
      have hq' : text ∈ q.spellings := by simpa using List.find?_some hq
      rw [eq_of_mem_spellings h hq']

theorem ofText?_symbol (op : Operator) : ofText? op.symbol = some op :=
  ofText?_eq_some_iff.mpr op.symbol_mem_spellings

/-- The text that no operator is spelled by. -/
structure UnknownSpelling where
  text : String
  deriving DecidableEq, Repr

def UnknownSpelling.message (e : UnknownSpelling) : String :=
  "`" ++ e.text ++ "` is not an operator symbol"

def read (text : String) : Except UnknownSpelling Operator :=
  match ofText? text with
  | some op => .ok op
  | none => .error ⟨text⟩

theorem read_eq_ok_iff {text : String} {op : Operator} :
    read text = .ok op ↔ text ∈ op.spellings := by
  rw [← ofText?_eq_some_iff, read]
  cases ofText? text <;> simp

end Operator

end Formula
