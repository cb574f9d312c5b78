import Formula.Proofs.LastValue
import Formula.Proofs.RoundTrip
import Formula.Valuation.Document
import Mathlib.Data.List.Induction

/-! # Written valuations

Entries that are written one after the other are read as the valuation that they make: a name that
occurs again has the later value in the earlier place. A valuation is read as itself, its names in
the same order. Neither is read if one of the numbers is not finite, since such a number is written
as null.
-/

namespace Formula.Valuation

open Document

theorem ofList_append (entries : List (String × Float)) (entry : String × Float) :
    ofList (entries ++ [entry]) = ((ofList entries).define entry.1 entry.2).2 := by
  rw [ofList, extend, List.foldl_append]
  rfl

theorem eraseDups_concat (names : List String) (name : String) :
    (names ++ [name]).eraseDups =
      if name ∈ names then names.eraseDups else names.eraseDups ++ [name] := by
  rw [List.eraseDups_append]
  split <;> simp [List.removeAll, List.eraseDups_cons, *]

theorem names_ofList (entries : List (String × Float)) :
    (ofList entries).names = (entries.map Prod.fst).eraseDups := by
  induction entries using List.reverseRecOn with
  | nil => rfl
  | append_singleton entries entry ih =>
    rw [ofList_append, names_define, ih, List.map_append, List.map_singleton, eraseDups_concat]
    simp only [List.mem_eraseDups]

theorem get?_ofList (entries : List (String × Float)) (name : String) :
    (ofList entries).get? name = entries.reverse.lookup name := by
  rw [ofList, get?_extend]
  exact Option.or_none

theorem toList_define_of_not_mem {v : Valuation} {name : String} (h : name ∉ v.names)
    (value : Float) : (v.define name value).2.toList = v.toList ++ [(name, value)] := by
  have hnone : Entries.replace name value v.toList = none := Entries.replace_eq_none_iff.mpr h
  unfold define
  split
  · rename_i hsome
    cases hnone.symm.trans hsome
  · rfl

theorem toList_extend {v : Valuation} {entries : List (String × Float)}
    (hnodup : (v.names ++ entries.map Prod.fst).Nodup) :
    (v.extend entries).toList = v.toList ++ entries := by
  induction entries generalizing v with
  | nil => exact (List.append_nil _).symm
  | cons entry entries ih =>
    have hnew : entry.1 ∉ v.names := by
      intro hmem
      exact (List.nodup_append.mp hnodup).2.2 _ hmem _ List.mem_cons_self rfl
    change ((v.define entry.1 entry.2).2.extend entries).toList = _
    have hrest : ((v.define entry.1 entry.2).2.names ++ entries.map Prod.fst).Nodup := by
      rw [names_define, if_neg hnew, List.append_assoc]
      exact hnodup
    rw [ih hrest, toList_define_of_not_mem hnew, List.append_assoc, List.singleton_append]

/-- Every valuation can be made of the entries it lists. -/
theorem ofList_toList (v : Valuation) : ofList v.toList = v :=
  Valuation.ext (toList_extend v.nodup)

/-- An object with a field for each entry, in their order and with names that may occur again. -/
def written (entries : List (String × Float)) : Document :=
  ofFields (entries.map fun entry => (entry.1, ofReal entry.2))

/-- The digits of each finite number are read as that number. -/
def ReadBack (entries : List (String × Float)) : Prop :=
  ∀ entry ∈ entries, (Term.number entry.2).ReadsBack

instance : DecidablePred ReadBack := fun entries =>
  inferInstanceAs (Decidable (∀ entry ∈ entries, (Term.number entry.2).ReadsBack))

theorem toReal?_ofReal {x : Float} (hread : (Term.number x).ReadsBack) :
    (ofReal x).toReal? = if x.isFinite then some x else none := by
  rw [ofReal]
  split
  · exact hread ‹_›
  · rfl

theorem entries?_written {entries : List (String × Float)} (hread : ReadBack entries) :
    entries? (entries.map fun entry => (some entry.1, ofReal entry.2)) =
      if ∀ entry ∈ entries, entry.2.isFinite then some entries else none := by
  induction entries with
  | nil => rfl
  | cons entry entries ih =>
    obtain ⟨hentry, hentries⟩ := List.forall_mem_cons.mp hread
    rw [List.map_cons, entries?, toReal?_ofReal hentry, ih hentries]
    simp only [List.forall_mem_cons]
    by_cases hx : entry.2.isFinite
    · rw [if_pos hx, Option.bind_eq_bind, Option.bind_some]
      by_cases hall : ∀ entry ∈ entries, entry.2.isFinite
      · rw [if_pos hall, if_pos ⟨hx, hall⟩]
        rfl
      · rw [if_neg hall, if_neg (mt And.right hall)]
        rfl
    · rw [if_neg hx, if_neg (mt And.left hx)]
      rfl

theorem numbersWellFormed_written (entries : List (String × Float)) :
    (written entries).NumbersWellFormed := by
  apply NumbersWellFormed.ofFields
  intro field hfield
  obtain ⟨entry, -, rfl⟩ := List.mem_map.mp hfield
  exact Term.numbersWellFormed_ofReal entry.2

theorem ofJson?_written {entries : List (String × Float)} (hread : ReadBack entries) :
    ofJson? (written entries).toText =
      if ∀ entry ∈ entries, entry.2.isFinite then some (ofList entries) else none := by
  rw [ofJson?, read?_toText (numbersWellFormed_written entries), Option.bind_some, written,
    ofFields, ofDocument?, List.map_map]
  change (entries? (entries.map fun entry => (some entry.1, ofReal entry.2))).map ofList = _
  rw [entries?_written hread]
  split <;> rfl

theorem ofJson?_written_eq_some_iff {entries : List (String × Float)} (hread : ReadBack entries)
    {w : Valuation} :
    ofJson? (written entries).toText = some w ↔
      w = ofList entries ∧ ∀ entry ∈ entries, entry.2.isFinite := by
  rw [ofJson?_written hread]
  split
  · rename_i hfinite
    rw [Option.some.injEq, and_iff_left hfinite, eq_comm]
  · rename_i hnot
    exact iff_of_false nofun fun h => hnot h.2

/-- A valuation is read from written entries if and only if their numbers are finite, and then it
is the one they make, where a name stands in its first place with its last value. A valuation itself
is read again, as it was, if and only if its values are finite. -/
theorem ofJson?_toText_eq_some_iff :
    (∀ entries, ReadBack entries → ∀ w, ofJson? (written entries).toText = some w ↔
      w = ofList entries ∧ ∀ entry ∈ entries, entry.2.isFinite) ∧
    (∀ entries, (ofList entries).names = (entries.map Prod.fst).eraseDups ∧
      ∀ name, (ofList entries).get? name = entries.reverse.lookup name) ∧
    ∀ v : Valuation, ReadBack v.toList → ∀ w, ofJson? v.toDocument.toText = some w ↔
      w = v ∧ ∀ entry ∈ v.toList, entry.2.isFinite := by
  refine ⟨fun entries hread w => ofJson?_written_eq_some_iff hread, ?_, ?_⟩
  · intro entries
    exact ⟨names_ofList entries, get?_ofList entries⟩
  · intro v hread w
    change ofJson? (written v.toList).toText = some w ↔ _
    rw [ofJson?_written_eq_some_iff hread, ofList_toList]

/-- A name with a quote and a line break, written twice, is read with its later value. What holds an
infinite number is not read. -/
theorem ofJson?_toText_repeated :
    let entries := [("a\"\n", 1), ("b", 2), ("a\"\n", -0.5)]
    let unbounded := ofList [("b", 2), ("c", -1 / 0)]
    ofJson? (written entries).toText = some (ofList [("a\"\n", -0.5), ("b", 2)]) ∧
      ofJson? (ofList entries).toDocument.toText = some (ofList entries) ∧
      ∀ w, ofJson? unbounded.toDocument.toText ≠ some w := by
  intro entries unbounded
  obtain ⟨hentries, -, hvaluation⟩ := ofJson?_toText_eq_some_iff
  refine ⟨?_, ?_, ?_⟩
  · exact (hentries entries (by decide +kernel) _).mpr ⟨rfl, by decide +kernel⟩
  · exact (hvaluation (ofList entries) (by decide +kernel) _).mpr ⟨rfl, by decide +kernel⟩
  · intro w hw
    have h := (hvaluation unbounded (by decide +kernel) w).mp hw
    exact absurd h.2 (by decide +kernel)

end Formula.Valuation
