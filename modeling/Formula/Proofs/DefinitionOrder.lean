import Formula.Proofs.LastValue
import Mathlib.Data.List.Induction

/-! # The order of names

The history of a valuation, however its changes are put together, is a list of edits that concern
one name each. A name has a value if one of its definitions has not been followed by a removal, and
its place among the others is that of the edit with which it came to have one: it had none before,
and has had one ever since.
-/

namespace Formula

namespace Entries

theorem map_fst_replace (name : String) (value : Float) (l : List (String × Float)) :
    (replace name value l).map Prod.fst = l.lookup name := by
  induction l with
  | nil => rfl
  | cons entry rest ih =>
    rw [replace, lookup_cons, ← ih]
    by_cases hkey : name = entry.1
    · rw [if_pos hkey, if_pos hkey.symm, Option.map_some]
    · rw [if_neg hkey, if_neg (Ne.symm hkey), Option.map_map]
      rfl

theorem map_fst_extract (name : String) (l : List (String × Float)) :
    (extract name l).map Prod.fst = l.lookup name := by
  induction l with
  | nil => rfl
  | cons entry rest ih =>
    rw [extract, lookup_cons, ← ih]
    by_cases hkey : name = entry.1
    · rw [if_pos hkey, if_pos hkey.symm, Option.map_some]
    · rw [if_neg hkey, if_neg (Ne.symm hkey), Option.map_map]
      rfl

theorem mem_iff_lookup {l : List (String × Float)} (hnodup : (l.map Prod.fst).Nodup)
    {name : String} {value : Float} : (name, value) ∈ l ↔ l.lookup name = some value := by
  induction l with
  | nil => simp
  | cons entry rest ih =>
    obtain ⟨key, x⟩ := entry
    rw [List.map_cons, List.nodup_cons] at hnodup
    rw [lookup_cons, List.mem_cons, Prod.mk.injEq, ih hnodup.2]
    split
    · rename_i hkey
      subst hkey
      simp [lookup_eq_none hnodup.1, eq_comm]
    · rename_i hkey
      simp [hkey]

end Entries

namespace Valuation

open Entries

theorem define_fst (v : Valuation) (name : String) (value : Float) :
    (v.define name value).1 = v.get? name := by
  have hlookup := map_fst_replace name value v.toList
  unfold define get?
  split
  all_goals
    rename_i h
    rw [h] at hlookup
    exact hlookup

theorem remove_fst (v : Valuation) (name : String) : (v.remove name).1 = v.get? name := by
  have hlookup := map_fst_extract name v.toList
  unfold remove get?
  split
  all_goals
    rename_i h
    rw [h] at hlookup
    exact hlookup

theorem mem_toList_iff {v : Valuation} {name : String} {value : Float} :
    (name, value) ∈ v.toList ↔ v.get? name = some value :=
  mem_iff_lookup v.nodup

/-- A change that concerns one name. -/
inductive Edit where
  | define (name : String) (value : Float)
  | remove (name : String)

def Edit.name : Edit → String
  | define name _ => name
  | remove name => name

def edit (v : Valuation) : Edit → Valuation
  | .define name value => (v.define name value).2
  | .remove name => (v.remove name).2

def definitions (entries : List (String × Float)) : List Edit :=
  entries.map fun entry => .define entry.1 entry.2

def Change.edits : Change → List Edit
  | define name value => [.define name value]
  | remove name => [.remove name]
  | extend entries => definitions entries

/-- The edits of a valuation that is made of entries and then changed. -/
def history (entries : List (String × Float)) (changes : List Change) : List Edit :=
  definitions entries ++ changes.flatMap Change.edits

theorem extend_eq_foldl_edit (v : Valuation) (entries : List (String × Float)) :
    v.extend entries = (definitions entries).foldl edit v := by
  rw [definitions, List.foldl_map]
  rfl

theorem change_eq_foldl_edit (v : Valuation) (c : Change) : v.change c = c.edits.foldl edit v := by
  cases c with
  | define name value | remove name => rfl
  | extend entries => exact extend_eq_foldl_edit v entries

theorem foldl_change_eq (v : Valuation) (changes : List Change) :
    changes.foldl change v = (changes.flatMap Change.edits).foldl edit v := by
  induction changes generalizing v with
  | nil => rfl
  | cons c changes ih =>
    rw [List.foldl_cons, ih, List.flatMap_cons, List.foldl_append, change_eq_foldl_edit]

theorem foldl_change_ofList (entries : List (String × Float)) (changes : List Change) :
    changes.foldl change (ofList entries) = (history entries changes).foldl edit ∅ := by
  rw [foldl_change_eq, history, List.foldl_append, ofList, extend_eq_foldl_edit]

/-- The edits hold a definition of the name, with such edits before it and such edits after it. -/
def Holds (name : String) (value : Float) (before : List Edit → Prop) (after : Edit → Prop)
    (edits : List Edit) : Prop :=
  ∃ front back, edits = front ++ .define name value :: back ∧ before front ∧ ∀ e ∈ back, after e

/-- The value comes from the last edit that concerns the name. -/
def LastDefinition (name : String) (value : Float) : List Edit → Prop :=
  Holds name value (fun _ => True) fun e => e.name ≠ name

/-- The name has been defined and not been removed again. -/
def Defined (name : String) (edits : List Edit) : Prop :=
  ∃ value, Holds name value (fun _ => True) (· ≠ .remove name) edits

/-- With the edit at this place the name was defined, which it had not been, and it has not been
removed since. -/
def DefinedSince (name : String) (place : Nat) (edits : List Edit) : Prop :=
  ∃ value, Holds name value (fun front => ¬Defined name front ∧ front.length = place)
    (· ≠ .remove name) edits

section Step

variable {edits : List Edit} {e : Edit} {name : String}

theorem holds_append_iff {value : Float} {before : List Edit → Prop} {after : Edit → Prop} :
    Holds name value before after (edits ++ [e]) ↔
      (e = .define name value ∧ before edits) ∨
        (after e ∧ Holds name value before after edits) := by
  constructor
  · rintro ⟨front, back, h, hfront, hback⟩
    obtain rfl | ⟨between, last, rfl⟩ := List.eq_nil_or_concat back
    · obtain ⟨rfl, hlast⟩ := List.append_inj' h rfl
      exact .inl ⟨List.head_eq_of_cons_eq hlast, hfront⟩
    · rw [List.concat_eq_append, ← List.cons_append, ← List.append_assoc] at h
      obtain ⟨rfl, hlast⟩ := List.append_inj' h rfl
      cases hlast
      rw [List.concat_eq_append] at hback
      refine .inr ⟨hback e (by simp), front, between, rfl, hfront, ?_⟩
      intro a ha
      exact hback a (List.mem_append_left _ ha)
  · rintro (⟨rfl, hbefore⟩ | ⟨hafter, front, back, rfl, hfront, hback⟩)
    · exact ⟨edits, [], rfl, hbefore, fun a ha => absurd ha List.not_mem_nil⟩
    · refine ⟨front, back ++ [e], by simp, hfront, ?_⟩
      intro a ha
      obtain ha | ha := List.mem_append.mp ha
      · exact hback a ha
      · rwa [List.mem_singleton.mp ha]

theorem lastDefinition_append_iff {value : Float} :
    LastDefinition name value (edits ++ [e]) ↔
      e = .define name value ∨ (e.name ≠ name ∧ LastDefinition name value edits) := by
  simp only [LastDefinition, holds_append_iff, and_true]

theorem defined_append_iff :
    Defined name (edits ++ [e]) ↔
      (∃ value, e = .define name value) ∨ (e ≠ .remove name ∧ Defined name edits) := by
  simp only [Defined, holds_append_iff, and_true, exists_or, exists_and_left]

theorem definedSince_append_iff {place : Nat} :
    DefinedSince name place (edits ++ [e]) ↔
      ((∃ value, e = .define name value) ∧ ¬Defined name edits ∧ edits.length = place) ∨
        (e ≠ .remove name ∧ DefinedSince name place edits) := by
  simp only [DefinedSince, holds_append_iff, exists_or, exists_and_left, exists_and_right]

theorem not_holds_nil {value : Float} {before : List Edit → Prop} {after : Edit → Prop} :
    ¬Holds name value before after [] := by
  rintro ⟨front, back, h, -⟩
  simp at h

end Step

theorem exists_definedSince_iff {edits : List Edit} {name : String} :
    (∃ place, DefinedSince name place edits) ↔ Defined name edits := by
  induction edits using List.reverseRecOn with
  | nil => simp [Defined, DefinedSince, not_holds_nil]
  | append_singleton edits e ih =>
    simp only [definedSince_append_iff, defined_append_iff, exists_or, exists_and_left, ih]
    by_cases hdefined : Defined name edits <;> by_cases hdefine : ∃ value, e = .define name value
    · obtain ⟨value, rfl⟩ := hdefine
      simp [hdefined]
    all_goals simp [hdefined, hdefine]

theorem DefinedSince.lt_length {edits : List Edit} {name : String} {place : Nat}
    (h : DefinedSince name place edits) : place < edits.length := by
  obtain ⟨value, front, back, rfl, ⟨-, rfl⟩, -⟩ := h
  simp

/-- What the history says of a valuation: the values of its names, which of them it has, and in what
order. -/
structure Records (edits : List Edit) (v : Valuation) : Prop where
  value : ∀ name x, v.get? name = some x ↔ LastDefinition name x edits
  defined : ∀ name, name ∈ v.names ↔ Defined name edits
  order : v.names.Pairwise fun a b =>
    ∀ i j, DefinedSince a i edits → DefinedSince b j edits → i < j

theorem records_nil : Records [] ∅ where
  value name x := by simp [LastDefinition, not_holds_nil, get?]
  defined name := by simp [Defined, not_holds_nil, names]
  order := .nil

namespace Records

variable {edits : List Edit} {v : Valuation} (h : Records edits v)

include h

/-- The next edit does not define anew a name that has a value. -/
theorem definedSince_of_mem {name : String} {place : Nat} {e : Edit} (hmem : name ∈ v.names)
    (hsince : DefinedSince name place (edits ++ [e])) : DefinedSince name place edits := by
  obtain ⟨-, hnot, -⟩ | ⟨-, hsince⟩ := definedSince_append_iff.mp hsince
  · exact absurd ((h.defined name).mp hmem) hnot
  · exact hsince

theorem order_append {names : List String} (hsublist : names.Sublist v.names) (e : Edit) :
    names.Pairwise fun a b =>
      ∀ i j, DefinedSince a i (edits ++ [e]) → DefinedSince b j (edits ++ [e]) → i < j := by
  apply (h.order.sublist hsublist).imp_of_mem
  intro a b ha hb hlt i j hi hj
  have ha := hsublist.subset ha
  have hb := hsublist.subset hb
  exact hlt i j (h.definedSince_of_mem ha hi) (h.definedSince_of_mem hb hj)

theorem define (name : String) (value : Float) :
    Records (edits ++ [.define name value]) (v.define name value).2 where
  value n x := by
    rw [get?_define, lastDefinition_append_iff, Edit.name, ← h.value]
    split
    · rename_i hn
      simp [hn]
    · rename_i hn
      simp [Ne.symm hn]
  defined n := by
    rw [names_define, defined_append_iff, ← h.defined]
    split
    · rename_i hmem
      constructor
      · intro hn
        exact .inr ⟨nofun, hn⟩
      · rintro (⟨x, ⟨⟩⟩ | ⟨-, hn⟩)
        · exact hmem
        · exact hn
    · simp [or_comm, eq_comm]
  order := by
    rw [names_define]
    split
    · exact h.order_append (List.Sublist.refl _) _
    · rename_i hnew
      rw [List.pairwise_append]
      refine ⟨h.order_append (List.Sublist.refl _) _, List.pairwise_singleton _ _, ?_⟩
      intro a ha b hb i j hi hj
      obtain rfl := List.mem_singleton.mp hb
      have hlt := (h.definedSince_of_mem ha hi).lt_length
      obtain ⟨-, -, rfl⟩ | ⟨-, hsince⟩ := definedSince_append_iff.mp hj
      · exact hlt
      · have hdefined := exists_definedSince_iff.mp ⟨j, hsince⟩
        exact absurd ((h.defined _).mpr hdefined) hnew

theorem remove (name : String) : Records (edits ++ [.remove name]) (v.remove name).2 where
  value n x := by
    rw [get?_remove, lastDefinition_append_iff, Edit.name, ← h.value]
    split
    · rename_i hn
      simp [hn]
    · rename_i hn
      simp [Ne.symm hn]
  defined n := by
    have hnodup : v.names.Nodup := v.nodup
    rw [names_remove, hnodup.mem_erase_iff, defined_append_iff, h.defined]
    simp [eq_comm]
  order := by
    rw [names_remove]
    exact h.order_append List.erase_sublist _

end Records

theorem records_foldl_edit (edits : List Edit) : Records edits (edits.foldl edit ∅) := by
  induction edits using List.reverseRecOn with
  | nil => exact records_nil
  | append_singleton edits e ih =>
    rw [List.foldl_append]
    cases e with
    | define name value => exact ih.define name value
    | remove name => exact ih.remove name

/-- However a valuation came about, its names are distinct and stand in the order in which they came
to have the values they have; the value of a name is that of its last definition, unless a removal
has followed. The next change answers with the value that the name has before it; a new name goes to
the end, and all others stay where they are. -/
theorem names_in_order_of_definition (entries : List (String × Float)) (changes : List Change) :
    let v := changes.foldl change (ofList entries)
    let edits := history entries changes
    v.names.Nodup ∧ v.size = v.names.length ∧
      (∀ name x, (name, x) ∈ v.toList ↔ v.get? name = some x) ∧
      (∀ name x, v.get? name = some x ↔ LastDefinition name x edits) ∧
      (∀ name, name ∈ v.names ↔ ∃ place, DefinedSince name place edits) ∧
      (v.names.Pairwise fun a b =>
        ∀ i j, DefinedSince a i edits → DefinedSince b j edits → i < j) ∧
      (∀ name x, (v.define name x).1 = v.get? name ∧
        (v.define name x).2.names = if name ∈ v.names then v.names else v.names ++ [name]) ∧
      ∀ name, (v.remove name).1 = v.get? name ∧ (v.remove name).2.names = v.names.erase name ∧
        ∀ x, ((v.remove name).2.define name x).2.names = v.names.erase name ++ [name] := by
  intro v edits
  have hnodup : v.names.Nodup := v.nodup
  have hrecords : Records edits v := by
    have h := records_foldl_edit edits
    rwa [← foldl_change_ofList] at h
  refine ⟨hnodup, (List.length_map Prod.fst).symm, fun name x => mem_toList_iff, hrecords.value, ?_,
    hrecords.order, fun name x => ⟨v.define_fst name x, v.names_define name x⟩, ?_⟩
  · intro name
    rw [hrecords.defined, exists_definedSince_iff]
  · intro name
    refine ⟨v.remove_fst name, v.names_remove name, ?_⟩
    intro x
    have hgone : name ∉ v.names.erase name := by
      rw [hnodup.mem_erase_iff]
      exact fun hmem => hmem.1 rfl
    rw [names_define, names_remove, if_neg hgone]

example : ([.define "c" 4, .remove "a", .extend [("b", 5), ("a", 6)]].foldl change
    (ofList [("a", 1), ("b", 2), ("a", 3)])).toList = [("b", 5), ("c", 4), ("a", 6)] := rfl

end Valuation

end Formula
