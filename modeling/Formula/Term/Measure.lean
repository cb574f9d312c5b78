import Formula.Term

/-! # Size and height of a term

Both are defined along the term. A term may be far deeper than a machine stack, so the numbers that
are reported come from a walk with an agenda of its own, `traversal`, which lists every node with
its level: the root first, then the right operand's nodes, then the left operand's.
`traversal_eq` says that this is what the walk does; `nodeCount_eq_size` and `depth_eq_height`
follow.
-/

namespace Formula.Term

def size : Term → Nat
  | function _ operand => operand.size + 1
  | group inner => inner.size + 1
  | expression _ left right =>
    (match left with | some a => a.size | none => 0) +
      (match right with | some a => a.size | none => 0) + 1
  | _ => 1

/-- The number of levels: an expression with both slots unset has one, as a leaf has. -/
def height : Term → Nat
  | function _ operand => operand.height + 1
  | group inner => inner.height + 1
  | expression _ left right =>
    max (match left with | some a => a.height | none => 0)
      (match right with | some a => a.height | none => 0) + 1
  | _ => 1

def totalSize : List Term → Nat
  | [] => 0
  | t :: terms => t.size + totalSize terms

@[simp] theorem totalSize_append (front back : List Term) :
    totalSize (front ++ back) = totalSize front + totalSize back := by
  induction front with
  | nil => simp [totalSize]
  | cons t front ih => simp [totalSize, ih, Nat.add_assoc]

@[simp] theorem totalSize_reverse (terms : List Term) :
    totalSize terms.reverse = totalSize terms := by
  induction terms with
  | nil => rfl
  | cons t terms ih => simp [totalSize, ih, Nat.add_comm]

theorem size_eq (t : Term) : t.size = totalSize t.children + 1 := by
  match t with
  | integer _ | number _ | rational _ _ | var _ | const _ => rfl
  | function _ _ | group _ => rfl
  | expression _ left right => cases left <;> cases right <;> simp [size, children, totalSize]

theorem length_subterms (t : Term) : t.subterms.length = t.size := by
  induction t with
  | integer _ | number _ | rational _ _ | var _ | const _ => rfl
  | function _ _ ih | group _ ih => simp [subterms, size, ih]
  | expression _ left right ihl ihr =>
    cases left <;> cases right <;> simp_all [subterms, size]

/-- The nodes with their levels, a node before its operands and a right operand before a left one.
-/
def levels (level : Nat) : Term → List (Nat × Term)
  | t@(function _ operand) => (level, t) :: operand.levels (level + 1)
  | t@(group inner) => (level, t) :: inner.levels (level + 1)
  | t@(expression _ left right) =>
    (level, t) :: ((match right with | some a => a.levels (level + 1) | none => []) ++
      (match left with | some a => a.levels (level + 1) | none => []))
  | t => [(level, t)]

theorem levels_eq (level : Nat) (t : Term) :
    t.levels level = (level, t) :: t.children.reverse.flatMap (levels (level + 1)) := by
  match t with
  | integer _ | number _ | rational _ _ | var _ | const _ => rfl
  | function _ _ | group _ => simp [levels, children]
  | expression _ left right => cases left <;> cases right <;> simp [levels, children]

/-- Takes a node from the top of the agenda, and puts its operands there, the right one on top. -/
def visitAgenda (seen : List (Nat × Term)) : List (Nat × Term) → List (Nat × Term)
  | [] => seen.reverse
  | (level, t) :: agenda =>
    visitAgenda ((level, t) :: seen) (t.children.reverse.map (level + 1, ·) ++ agenda)
termination_by agenda => totalSize (agenda.map Prod.snd)
decreasing_by
  simp only [List.map_append, List.map_reverse, List.map_map, Function.comp_def, List.map_id',
    List.map_cons, totalSize, totalSize_append, totalSize_reverse, size_eq t]
  omega

def traversal (t : Term) : List (Nat × Term) := visitAgenda [] [(1, t)]

theorem visitAgenda_eq (seen agenda : List (Nat × Term)) :
    visitAgenda seen agenda =
      seen.reverse ++ agenda.flatMap fun entry => entry.2.levels entry.1 := by
  fun_induction visitAgenda seen agenda with
  | case1 seen => simp
  | case2 seen level t agenda ih =>
    rw [ih, List.flatMap_append, List.flatMap_map]
    simp [levels_eq level t]

theorem traversal_eq (t : Term) : t.traversal = t.levels 1 := by
  simp [traversal, visitAgenda_eq]

def nodeCount (t : Term) : Nat := t.traversal.length

def depth (t : Term) : Nat := t.traversal.foldl (fun deepest entry => max deepest entry.1) 0

theorem length_levels (level : Nat) (t : Term) : (t.levels level).length = t.size := by
  induction t generalizing level with
  | integer _ | number _ | rational _ _ | var _ | const _ => rfl
  | function _ _ ih | group _ ih => simp [levels, size, ih]
  | expression _ left right ihl ihr =>
    cases left <;> cases right <;> simp_all [levels, size, Nat.add_comm]

theorem foldl_max_levels (level deepest : Nat) (t : Term) :
    (t.levels (level + 1)).foldl (fun deepest entry => max deepest entry.1) deepest =
      max deepest (level + t.height) := by
  induction t generalizing level deepest with
  | integer _ | number _ | rational _ _ | var _ | const _ => rfl
  | function _ _ ih | group _ ih =>
    simp only [levels, height, List.foldl_cons, ih]
    omega
  | expression _ left right ihl ihr =>
    cases left <;> cases right <;> simp_all [levels, height] <;> omega

theorem nodeCount_eq_size (t : Term) : t.nodeCount = t.size := by
  rw [nodeCount, traversal_eq, length_levels]

theorem depth_eq_height (t : Term) : t.depth = t.height := by
  rw [depth, traversal_eq, foldl_max_levels, Nat.zero_max, Nat.zero_add]

end Formula.Term
