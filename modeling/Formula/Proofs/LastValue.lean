import Formula.Valuation

/-! # The last value of a name

What a name is worth after a valuation has been changed any number of times is what the last change
that concerns the name left it with. The order in which names came to be defined has no part in it.
-/

namespace Formula

namespace Entries

theorem lookup_cons (n name : String) (x : Float) (rest : List (String × Float)) :
    ((name, x) :: rest).lookup n = if n = name then some x else rest.lookup n := by
  rw [List.lookup_cons]
  by_cases h : n = name
  · rw [if_pos h, h, beq_self_eq_true]
  · rw [if_neg h, beq_false_of_ne h]

theorem lookup_eq_none {n : String} {l : List (String × Float)} (h : n ∉ l.map Prod.fst) :
    l.lookup n = none := by
  rw [List.lookup_eq_none_iff]
  intro entry hentry
  have hne : n ≠ entry.1 := fun heq => h (heq ▸ List.mem_map_of_mem hentry)
  simpa using hne

theorem lookup_replace {name : String} {value old : Float} {l l' : List (String × Float)}
    (h : replace name value l = some (old, l')) (n : String) :
    l'.lookup n = if n = name then some value else l.lookup n := by
  induction l generalizing l' with
  | nil => cases h
  | cons entry rest ih =>
    obtain ⟨key, x⟩ := entry
    rw [replace] at h
    split at h
    · rename_i hkey
      cases h
      rw [lookup_cons, lookup_cons, hkey]
      split <;> rfl
    · rename_i hkey
      obtain ⟨⟨_, found⟩, hfound, heq⟩ := Option.map_eq_some_iff.mp h
      cases heq
      rw [lookup_cons, lookup_cons, ih hfound]
      grind

theorem lookup_extract {name : String} {old : Float} {l l' : List (String × Float)}
    (hnodup : (l.map Prod.fst).Nodup) (h : extract name l = some (old, l')) (n : String) :
    l'.lookup n = if n = name then none else l.lookup n := by
  induction l generalizing l' with
  | nil => cases h
  | cons entry rest ih =>
    obtain ⟨key, x⟩ := entry
    rw [List.map_cons, List.nodup_cons] at hnodup
    rw [extract] at h
    split at h
    · rename_i hkey
      cases h
      rw [lookup_cons, ← hkey]
      split
      · rename_i hn
        exact lookup_eq_none (hn ▸ hnodup.1)
      · rfl
    · rename_i hkey
      obtain ⟨⟨_, found⟩, hfound, heq⟩ := Option.map_eq_some_iff.mp h
      cases heq
      rw [lookup_cons, lookup_cons, ih hnodup.2 hfound]
      grind

end Entries

namespace Valuation

open Entries

theorem get?_define (v : Valuation) (name : String) (value : Float) (n : String) :
    (v.define name value).2.get? n = if n = name then some value else v.get? n := by
  unfold define get?
  split
  · rename_i h
    exact lookup_replace h n
  · rename_i h
    have hnone := lookup_eq_none (replace_eq_none_iff.mp h)
    change (v.toList ++ [(name, value)]).lookup n = _
    rw [List.lookup_append, lookup_cons]
    split
    · rename_i hn
      rw [hn, hnone]
      rfl
    · simp

theorem get?_remove (v : Valuation) (name n : String) :
    (v.remove name).2.get? n = if n = name then none else v.get? n := by
  unfold remove get?
  split
  · rename_i h
    exact lookup_extract v.nodup h n
  · rename_i h
    have hnone := lookup_eq_none (extract_eq_none_iff.mp h)
    split
    · rename_i hn
      rw [hn, hnone]
    · rfl

/-- Of several values for a name the last one counts. -/
theorem get?_extend (v : Valuation) (entries : List (String × Float)) (n : String) :
    (v.extend entries).get? n = (entries.reverse.lookup n).or (v.get? n) := by
  induction entries generalizing v with
  | nil => rfl
  | cons entry entries ih =>
    obtain ⟨name, value⟩ := entry
    change ((v.define name value).2.extend entries).get? n = _
    rw [ih, get?_define, List.reverse_cons, List.lookup_append, lookup_cons]
    split <;> simp

/-- How a valuation may be changed. -/
inductive Change where
  | define (name : String) (value : Float)
  | remove (name : String)
  | extend (entries : List (String × Float))

def change (v : Valuation) : Change → Valuation
  | .define name value => (v.define name value).2
  | .remove name => (v.remove name).2
  | .extend entries => v.extend entries

def ofChanges (changes : List Change) : Valuation := changes.foldl change ∅

/-- What a change makes of a name, unless it does not concern it: the name has a value or none. -/
def Change.outcome? (name : String) : Change → Option (Option Float)
  | define n value => if name = n then some (some value) else none
  | remove n => if name = n then some none else none
  | extend entries => (entries.reverse.lookup name).map some

/-- What the last change that concerns a name makes of it. -/
def lastValue (changes : List Change) (name : String) : Option Float :=
  (changes.reverse.findSome? (Change.outcome? name)).getD none

theorem get?_change (v : Valuation) (c : Change) (name : String) :
    (v.change c).get? name = (c.outcome? name).getD (v.get? name) := by
  cases c with
  | define n value =>
    rw [change, get?_define, Change.outcome?]
    split <;> rfl
  | remove n =>
    rw [change, get?_remove, Change.outcome?]
    split <;> rfl
  | extend entries =>
    rw [change, get?_extend, Change.outcome?]
    cases entries.reverse.lookup name <;> rfl

theorem get?_foldl_change (v : Valuation) (changes : List Change) (name : String) :
    (changes.foldl change v).get? name =
      (changes.reverse.findSome? (Change.outcome? name)).getD (v.get? name) := by
  induction changes generalizing v with
  | nil => rfl
  | cons c changes ih =>
    rw [List.foldl_cons, ih, get?_change, List.reverse_cons, List.findSome?_append]
    cases changes.reverse.findSome? (Change.outcome? name) with
    | some outcome => rfl
    | none => cases h : c.outcome? name <;> simp [h]

theorem get?_ofChanges (changes : List Change) (name : String) :
    (ofChanges changes).get? name = lastValue changes name :=
  get?_foldl_change ∅ changes name

end Valuation

end Formula
