import Formula.Proofs.Everywhere
import Formula.Term.Complexity

/-! # Weighing terms

The nodes that are weighed are the nodes of the term, whatever order they are weighed in. A term has
a complexity as soon as each of its nodes has a weight.
-/

namespace Formula.Term

theorem mem_subterms_of_mem_levels {t : Term} {level : Nat} {entry : Nat × Term}
    (h : entry ∈ t.levels level) : entry.2 ∈ t.subterms := by
  induction t using induction_children generalizing level with
  | node t ih =>
    rw [levels_eq, List.mem_cons, List.mem_flatMap] at h
    obtain rfl | ⟨a, ha, h⟩ := h
    · exact mem_subterms_self t
    · have ha := List.mem_reverse.mp ha
      exact mem_subterms_iff.mpr (.inr ⟨a, ha, ih a ha h⟩)

theorem exists_weigh_eq_ok {nodes : List (Nat × Term)} (total : UInt64)
    (h : ∀ entry ∈ nodes, ∃ w, entry.2.weight = .ok w) : ∃ w, weigh total nodes = .ok w := by
  induction nodes generalizing total with
  | nil => exact ⟨total, rfl⟩
  | cons entry nodes ih =>
    obtain ⟨w, hw⟩ := h entry List.mem_cons_self
    obtain ⟨sum, hsum⟩ := ih (total + w) fun e he => h e (List.mem_cons_of_mem entry he)
    exact ⟨sum, by rw [weigh, hw]; exact hsum⟩

theorem exists_weight_eq_ok {t : Term} (h : ∀ op, t.operator? = some op → op.fixity = .between) :
    ∃ w, t.weight = .ok w := by
  cases hweight : t.weight with
  | ok w => exact ⟨w, rfl⟩
  | error e =>
    obtain ⟨hop, hnone⟩ := weight_eq_error_iff.mp hweight
    exact absurd (h _ hop) (Operator.weight?_eq_none_iff.mp hnone)

theorem exists_complexity_eq_ok {t : Term}
    (h : t.Everywhere fun s => ∀ op, s.operator? = some op → op.fixity = .between) :
    ∃ w, t.complexity = .ok w := by
  rw [complexity_eq]
  exact exists_weigh_eq_ok 0 fun entry hentry =>
    exists_weight_eq_ok (h _ (mem_subterms_of_mem_levels hentry))

/-! ## Terms that weigh the same

The level of a node does not count, so a term is weighed as another one is if their roots are and
their operands are, one by one.
-/

theorem weigh_levels_group (a : Term) (total : UInt64) (level : Nat) :
    weigh total ((group a).levels level) = weigh total (a.levels (level + 1)) := by
  change weigh (total + 0) (a.levels (level + 1)) = _
  rw [UInt64.add_zero]

theorem weigh_flatMap_levels_congr {f : Term → Term} {terms : List Term}
    (hf : ∀ a ∈ terms, ∀ (total : UInt64) (level level' : Nat),
      weigh total ((f a).levels level) = weigh total (a.levels level'))
    (total : UInt64) (level level' : Nat) :
    weigh total ((terms.map f).flatMap (levels level)) =
      weigh total (terms.flatMap (levels level')) := by
  induction terms generalizing total with
  | nil => rfl
  | cons a terms ih =>
    have hfirst := hf a List.mem_cons_self total level level'
    have hrest := ih fun b hb => hf b (List.mem_cons_of_mem a hb)
    simp only [List.map_cons, List.flatMap_cons, weigh_append, hfirst, hrest]

theorem weigh_levels_congr {s t : Term} {f : Term → Term} (hweight : s.weight = t.weight)
    (hchildren : s.children = t.children.map f)
    (hf : ∀ a ∈ t.children, ∀ (total : UInt64) (level level' : Nat),
      weigh total ((f a).levels level) = weigh total (a.levels level'))
    (total : UInt64) (level level' : Nat) :
    weigh total (s.levels level) = weigh total (t.levels level') := by
  have hoperands (total : UInt64) := weigh_flatMap_levels_congr
    (fun a ha => hf a (List.mem_reverse.mp ha)) total (level + 1) (level' + 1)
  rw [levels_eq, levels_eq, hchildren, ← List.map_reverse]
  simp only [weigh, hweight, hoperands]

end Formula.Term
