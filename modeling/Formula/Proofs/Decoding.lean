import Formula.Document.Decoding
import Formula.Proofs.Chain

/-! # Documents as decoders see them

How deep a written document is, and that the fields of a written record are found.
-/

namespace Formula.Document

@[simp] theorem require_some {α : Type} (a : α) : require (some a) = .ok a := rfl

@[simp] theorem require_none {α : Type} : require (none : Option α) = .error .shape := rfl

theorem require_eq_ok_iff {α : Type} {x : Option α} {a : α} : require x = .ok a ↔ x = some a := by
  cases x <;> simp

theorem nesting_tagged (tag : String) (d : Document) : (tagged tag d).nesting = d.nesting + 1 := by
  simp [tagged, nesting, fieldNesting]

theorem nesting_le_fieldNesting {fields : List (Spelled × Document)} {field : Spelled × Document}
    (h : field ∈ fields) : field.2.nesting ≤ fieldNesting fields := by
  induction fields with
  | nil => cases h
  | cons f fields ih =>
    rw [fieldNesting]
    obtain rfl | h := List.mem_cons.mp h
    · exact Nat.le_max_left _ _
    · exact Nat.le_trans (ih h) (Nat.le_max_right _ _)

theorem nesting_lt_ofFields {fields : List (String × Document)} {field : String × Document}
    (h : field ∈ fields) : field.2.nesting < (ofFields fields).nesting := by
  have hmem : (some field.1, field.2) ∈ fields.map fun f => ((some f.1, f.2) : Spelled × Document) :=
    List.mem_map_of_mem h
  exact Nat.lt_succ_of_le (nesting_le_fieldNesting hmem)

theorem exists_room_tagged {tag : String} {d : Document} {room : Nat}
    (h : (tagged tag d).nesting ≤ room) : ∃ rest, room = rest + 1 ∧ d.nesting ≤ rest := by
  rw [nesting_tagged] at h
  exact ⟨room - 1, by omega, by omega⟩

theorem exists_room_record {tag : String} {fields : List (String × Document)} {room : Nat}
    (h : (tagged tag (ofFields fields)).nesting ≤ room) :
    ∃ rest, room = rest + 2 ∧ ∀ field ∈ fields, field.2.nesting ≤ rest := by
  rw [nesting_tagged] at h
  have hpos : 0 < (ofFields fields).nesting := Nat.succ_pos _
  refine ⟨room - 2, by omega, ?_⟩
  intro field hfield
  have := nesting_lt_ofFields hfield
  omega

section Record

variable {α : Type} {names : List String} {f : α → String × Document → Decoder α}

theorem foldFields_map {fields : List (String × Document)} {seen : List String}
    (hnames : ∀ field ∈ fields, field.1 ∈ names) (hnodup : (fields.map Prod.fst).Nodup)
    (hseen : ∀ field ∈ fields, field.1 ∉ seen) (a : α) :
    foldFields names f seen a (fields.map fun field => (some field.1, field.2)) =
      fields.foldlM f a := by
  induction fields generalizing seen a with
  | nil => rfl
  | cons field fields ih =>
    rw [List.map_cons, List.nodup_cons] at hnodup
    have hname : field.1 ∈ names := hnames field List.mem_cons_self
    rw [List.map_cons, foldFields, if_neg (not_not_intro hname),
      if_neg (hseen field List.mem_cons_self), List.foldlM_cons]
    apply bind_congr
    intro a
    apply ih (fun other hother => hnames other (List.mem_cons_of_mem field hother)) hnodup.2
    intro other hother hmem
    obtain heq | hmem := List.mem_cons.mp hmem
    · exact hnodup.1 (heq ▸ List.mem_map_of_mem hother)
    · exact hseen other (List.mem_cons_of_mem field hother) hmem

/-- The fields of a written record are taken as they are written. -/
theorem foldRecord_ofFields {fields : List (String × Document)}
    (hnames : ∀ field ∈ fields, field.1 ∈ names) (hnodup : (fields.map Prod.fst).Nodup) (a : α) :
    (ofFields fields).foldRecord names f a = fields.foldlM f a := by
  rw [ofFields, foldRecord]
  exact foldFields_map hnames hnodup (fun _ _ => List.not_mem_nil) a

variable {P : α → Prop} (hstep : ∀ {a a' field}, P a → f a field = .ok a' → P a')

include hstep

theorem foldFields_invariant {seen : List String} {fields : List (Spelled × Document)} {a a' : α}
    (ha : P a) (h : foldFields names f seen a fields = .ok a') : P a' := by
  induction fields generalizing seen a with
  | nil =>
    cases h
    exact ha
  | cons field fields ih =>
    obtain ⟨key, d⟩ := field
    cases key with
    | none => cases h
    | some name =>
      rw [foldFields] at h
      split at h
      · exact ih ha h
      split at h
      · cases h
      obtain ⟨mid, hmid, h⟩ := Except.bind_eq_ok_iff.mp h
      exact ih (hstep ha hmid) h

theorem foldRecord_invariant {d : Document} {a a' : α} (ha : P a)
    (h : d.foldRecord names f a = .ok a') : P a' := by
  unfold foldRecord at h
  split at h
  · exact foldFields_invariant hstep ha h
  · obtain ⟨mid, hmid, h⟩ := Except.bind_eq_ok_iff.mp h
    split at h
    · cases h
      exact Except.foldlM_invariant hstep ha hmid
    · cases h
  · cases h

end Record

end Formula.Document
