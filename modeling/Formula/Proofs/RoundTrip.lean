import Formula.Proofs.Reading

/-! # Round trips

A written term is read as itself if it is well-formed and its numbers are finite, and in no other
case is a term read at all. If the numbers are finite, what is refused is the first expression that
does not fit, among the nodes in the order in which they are finished.

That the digits of a finite number are read as that number is an assumption: numbers are read in a
quick way that does not always give the nearest float.
-/

namespace Formula.Term

open Document

instance : DecidablePred Finite
  | number x => inferInstanceAs (Decidable (x.isFinite = true))
  | integer _ | rational _ _ | var _ | const _ | function _ _ | group _ | expression _ _ _ =>
    .isTrue trivial

instance : DecidablePred ReadsBack
  | number x => inferInstanceAs
    (Decidable (x.isFinite → toFloat? (Decimal.Layout.interchanged.numeral x) = some x))
  | integer _ | rational _ _ | var _ | const _ | function _ _ | group _ | expression _ _ _ =>
    .isTrue trivial

theorem forall_mem_completion_iff {o : Arrangement} {t : Term} :
    (∀ s ∈ t.completion o, s.Fits ∧ s.Finite) ↔ t.WellFormed ∧ t.Everywhere Finite := by
  simp only [mem_completion_iff, Everywhere]
  exact forall₂_and

/-- Whatever is read from a written term is the term itself. -/
theorem ofJson_toText_eq_ok_iff {t u : Term} (hnest : t.toDocument.nesting ≤ maxNesting)
    (hread : t.Everywhere ReadsBack) :
    ofJson t.toDocument.toText = .ok u ↔ u = t ∧ t.WellFormed ∧ t.Everywhere Finite := by
  rw [← written_usual] at hnest ⊢
  rw [ofJson_written hnest hread, verdict_eq_ok_iff, forall_mem_completion_iff]

/-- The quotient of minus zero and a half in parentheses, negated, is read again; half built, it is
not. -/
theorem ofJson_toText_quotient :
    let quotient := before .neg (group (binary (number (-0.0)) .div (rational 1 2)))
    let halfBuilt := before .neg (group (expression .div (some (number (-0.0))) none))
    ofJson quotient.toDocument.toText = .ok quotient ∧
      ∀ u, ofJson halfBuilt.toDocument.toText ≠ .ok u := by
  intro quotient halfBuilt
  constructor
  · exact (ofJson_toText_eq_ok_iff (by decide +kernel) (by decide +kernel)).mpr
      ⟨rfl, by decide +kernel, by decide +kernel⟩
  · intro u hu
    have h := (ofJson_toText_eq_ok_iff (by decide +kernel) (by decide +kernel)).mp hu
    exact absurd h.2.1 (by decide +kernel)

theorem verdict_eq_error_iff {α : Type} {a : α} {nodes : List Term} {cause : Refusal} :
    verdict a nodes = .error cause ↔
      ∃ front s back, nodes = front ++ s :: back ∧ s.flaw? = some cause ∧
        ∀ u ∈ front, u.flaw? = none := by
  rw [← List.findSome?_eq_some_iff, verdict]
  cases nodes.findSome? flaw? <;> simp

/-- A half-built term with finite numbers, its expressions written with their fields in any order,
is refused for the first node that does not fit. -/
theorem ofJson_written_iff {t : Term} {o : Arrangement} (hfinite : t.Everywhere Finite)
    (hread : t.Everywhere ReadsBack) (hnest : (t.written o).nesting ≤ maxNesting) :
    (∀ u, ofJson (t.written o).toText = .ok u ↔ u = t ∧ t.WellFormed) ∧
      ∀ cause, ofJson (t.written o).toText = .error cause ↔
        ∃ front s back e, t.completion o = front ++ s :: back ∧ (∀ a ∈ front, a.Fits) ∧
          s.misfit? = some e ∧ cause = .draft e := by
  rw [ofJson_written hnest hread]
  constructor
  · intro u
    rw [verdict_eq_ok_iff, forall_mem_completion_iff, and_iff_left hfinite]
  · intro cause
    have hflaw : ∀ s ∈ t.completion o, s.flaw? = s.misfit?.map .draft :=
      fun s hs => flaw?_of_finite (hfinite s (mem_completion_iff.mp hs))
    rw [verdict_eq_error_iff]
    constructor
    · rintro ⟨front, s, back, hsplit, hs, hfront⟩
      rw [hsplit] at hflaw
      rw [hflaw s (by simp)] at hs
      obtain ⟨e, he, rfl⟩ := Option.map_eq_some_iff.mp hs
      exact ⟨front, s, back, e, hsplit, fun a ha => (flaw?_eq_none_iff.mp (hfront a ha)).1, he, rfl⟩
    · rintro ⟨front, s, back, e, hsplit, hfront, he, rfl⟩
      rw [hsplit] at hflaw
      refine ⟨front, s, back, hsplit, by rw [hflaw s (by simp), he, Option.map_some], ?_⟩
      intro a ha
      rw [hflaw a (List.mem_append_left _ ha), misfit?_eq_none_iff.mpr (hfront a ha),
        Option.map_none]

/-- Of a sum with two bad operands the one that is written first is reported. -/
theorem ofJson_written_sum :
    let sum := binary (expression .mul none none) .add (expression .sqrt (some (integer 4)) none)
    let rightFirst : Arrangement := fun _ => ⟨[.right, .operator, .left], by decide⟩
    ofJson (sum.written .usual).toText = .error (.draft (.missingChild .expression .left)) ∧
      ofJson (sum.written rightFirst).toText =
        .error (.draft (.unexpectedChild .expression .left)) := by
  intro sum rightFirst
  constructor
  · exact ((ofJson_written_iff (by decide) (by decide) (by decide)).2 _).mpr
      ⟨[], expression .mul none none, _, _, rfl, by decide, rfl, rfl⟩
  · exact ((ofJson_written_iff (by decide) (by decide) (by decide)).2 _).mpr
      ⟨[integer 4], expression .sqrt (some (integer 4)) none, _, _, rfl, by decide, rfl, rfl⟩

/-- A text that begins with a term that is refused is refused for the same cause, whatever follows.
-/
theorem ofJson_append_of_eq_error {t : Term} {o : Arrangement} {cause : Refusal}
    (h : ofJson (t.written o).toText = .error cause) (rest : String) :
    ofJson ((t.written o).toText ++ rest) = .error cause := by
  have hform := numbersWellFormed_written o t
  have hobject : ∀ n, t.written o = .number n → EndsNumeral rest.toList := by
    intro n hn
    cases t with
    | expression op left right =>
      rw [written_expression] at hn
      cases hn
    | _ => cases hn
  rw [ofJson_of_read? (read?_toText hform)] at h
  rw [ofJson, document_readState_append hform hobject, h]
  rfl

/-- The parentheses are still open where this text goes wrong. -/
example : ofJson "\x7b\"SubExpression\": \x7b\"Expression\": [\"Sqrt\", null, null]\x7d, 1" =
    .error (.draft (.missingChild .expression .right)) := by cbv

end Formula.Term
