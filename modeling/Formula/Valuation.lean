/-! # Valuations

A valuation gives numbers to names, each name once, and lists them in the order in which they came
to be defined. Redefining a name keeps its place and removing one keeps the order of the others.
Both report the value that the name had before.
-/

namespace Formula

namespace Entries

/-- Puts a new value where the name stands, and gives the value it had. -/
def replace (name : String) (value : Float) :
    List (String × Float) → Option (Float × List (String × Float))
  | [] => none
  | (n, x) :: rest =>
    if n = name then some (x, (n, value) :: rest)
    else (replace name value rest).map fun found => (found.1, (n, x) :: found.2)

/-- Takes the name out, and gives the value it had. -/
def extract (name : String) : List (String × Float) → Option (Float × List (String × Float))
  | [] => none
  | (n, x) :: rest =>
    if n = name then some (x, rest)
    else (extract name rest).map fun found => (found.1, (n, x) :: found.2)

theorem replace_eq_none_iff {name : String} {value : Float} {l : List (String × Float)} :
    replace name value l = none ↔ name ∉ l.map Prod.fst := by
  induction l with
  | nil => simp [replace]
  | cons entry rest ih =>
    rw [replace, List.map_cons, List.mem_cons]
    split
    · simp_all
    · rw [Option.map_eq_none_iff, ih]
      simp [Ne.symm ‹_›]

theorem extract_eq_none_iff {name : String} {l : List (String × Float)} :
    extract name l = none ↔ name ∉ l.map Prod.fst := by
  induction l with
  | nil => simp [extract]
  | cons entry rest ih =>
    rw [extract, List.map_cons, List.mem_cons]
    split
    · simp_all
    · rw [Option.map_eq_none_iff, ih]
      simp [Ne.symm ‹_›]

theorem map_fst_of_replace {name : String} {value old : Float} {l l' : List (String × Float)}
    (h : replace name value l = some (old, l')) : l'.map Prod.fst = l.map Prod.fst := by
  induction l generalizing l' with
  | nil => simp [replace] at h
  | cons entry rest ih =>
    rw [replace] at h
    split at h
    · simp only [Option.some.injEq, Prod.mk.injEq] at h
      simp [← h.2]
    · obtain ⟨found, hfound, heq⟩ := Option.map_eq_some_iff.mp h
      simp only [Prod.mk.injEq] at heq
      rw [← heq.2, List.map_cons, ih (heq.1 ▸ hfound), List.map_cons]

theorem map_fst_of_extract {name : String} {old : Float} {l l' : List (String × Float)}
    (h : extract name l = some (old, l')) : l'.map Prod.fst = (l.map Prod.fst).erase name := by
  induction l generalizing l' with
  | nil => simp [extract] at h
  | cons entry rest ih =>
    rw [extract] at h
    split at h
    · simp only [Option.some.injEq, Prod.mk.injEq] at h
      simp_all
    · obtain ⟨found, hfound, heq⟩ := Option.map_eq_some_iff.mp h
      simp only [Prod.mk.injEq] at heq
      rw [← heq.2, List.map_cons, ih (heq.1 ▸ hfound), List.map_cons, List.erase_cons_tail]
      simpa using ‹_›

end Entries

structure Valuation where
  toList : List (String × Float)
  nodup : (toList.map Prod.fst).Nodup := by decide

namespace Valuation

theorem ext {v w : Valuation} (h : v.toList = w.toList) : v = w := by
  cases v
  cases w
  cases h
  rfl

def empty : Valuation where
  toList := []

instance : EmptyCollection Valuation := ⟨empty⟩

def names (v : Valuation) : List String := v.toList.map Prod.fst

def get? (v : Valuation) (name : String) : Option Float := v.toList.lookup name

def contains (v : Valuation) (name : String) : Bool := (v.get? name).isSome

def size (v : Valuation) : Nat := v.toList.length

def isEmpty (v : Valuation) : Bool := v.toList.isEmpty

/-- Gives the name a value; a name that had none goes to the end. -/
def define (v : Valuation) (name : String) (value : Float) : Option Float × Valuation :=
  match h : Entries.replace name value v.toList with
  | some (old, entries) => (some old, ⟨entries, Entries.map_fst_of_replace h ▸ v.nodup⟩)
  | none =>
    (none, ⟨v.toList ++ [(name, value)], by
      rw [List.map_append, List.nodup_append]
      refine ⟨v.nodup, by simp, fun a ha b hb heq => ?_⟩
      simp only [List.map_cons, List.map_nil, List.mem_singleton] at hb
      exact Entries.replace_eq_none_iff.mp h (hb ▸ heq ▸ ha)⟩)

def remove (v : Valuation) (name : String) : Option Float × Valuation :=
  match h : Entries.extract name v.toList with
  | some (old, entries) => (some old, ⟨entries, Entries.map_fst_of_extract h ▸ v.nodup.erase name⟩)
  | none => (none, v)

def extend (v : Valuation) (entries : List (String × Float)) : Valuation :=
  entries.foldl (fun v entry => (v.define entry.1 entry.2).2) v

def ofList (entries : List (String × Float)) : Valuation := (∅ : Valuation).extend entries

/-- The same names with values that are equal as numbers, in whatever order they were defined. -/
def agrees (v w : Valuation) : Bool :=
  v.size == w.size && v.toList.all fun entry => (w.get? entry.1).any (entry.2 == ·)

@[simp] theorem toList_empty : (∅ : Valuation).toList = [] := rfl

theorem names_define (v : Valuation) (name : String) (value : Float) :
    (v.define name value).2.names = if name ∈ v.names then v.names else v.names ++ [name] := by
  unfold define names
  split
  · rename_i old entries h
    have hmem : name ∈ v.toList.map Prod.fst := by
      refine Decidable.byContradiction fun hnot => ?_
      simp [Entries.replace_eq_none_iff.mpr hnot] at h
    rw [if_pos hmem, Entries.map_fst_of_replace h]
  · rename_i h
    rw [if_neg (Entries.replace_eq_none_iff.mp h), List.map_append]
    rfl

theorem names_remove (v : Valuation) (name : String) :
    (v.remove name).2.names = v.names.erase name := by
  unfold remove names
  split
  · rename_i old entries h
    exact Entries.map_fst_of_extract h
  · rename_i h
    exact (List.erase_of_not_mem (Entries.extract_eq_none_iff.mp h)).symm

end Valuation

end Formula
