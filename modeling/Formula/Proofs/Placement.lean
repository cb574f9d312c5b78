import Formula.Assembly
import Formula.Proofs.Operands

/-! # Filling a draft

A draft is given any number of terms for its slots, in any order. What the draft is for never
changes, and with it the slots it has; a term for a slot it does not have is refused and leaves no
trace. In the end each slot holds the last term that was placed into it, and the draft can be
finished if and only if none of its slots has been left out.
-/

namespace Formula

/-- A term, and the slot it is meant for. -/
structure Placement where
  slot : Slot
  term : Term

/-- The term that was the last one for the slot. -/
def lastFor (slot : Slot) (ps : List Placement) : Option Term :=
  (ps.reverse.find? fun p => p.slot = slot).map Placement.term

theorem lastFor_cons (slot : Slot) (p : Placement) (ps : List Placement) :
    lastFor slot (p :: ps) =
      (lastFor slot ps).or (if p.slot = slot then some p.term else none) := by
  rw [lastFor, List.reverse_cons, List.find?_append, Option.map_or, lastFor]
  by_cases h : p.slot = slot <;> simp [h]

theorem lastFor_eq_none_iff {slot : Slot} {ps : List Placement} :
    lastFor slot ps = none ↔ ∀ p ∈ ps, p.slot ≠ slot := by
  simp [lastFor]

namespace Draft

/-- What a draft is for, its operands left aside. -/
inductive Form where
  | finished (term : Term)
  | function (name : String)
  | group
  | expression (operator : Operator)

namespace Form

/-- The draft of this form that a construction begins with. -/
def start : Form → Draft
  | finished t => .finished t
  | function name => ofFunction name
  | group => ofGroup
  | expression op => ofOperator op

/-- The slots that have to be filled, and no others may be; left comes before right. -/
def slots : Form → List Slot
  | finished _ => []
  | function _ => [.operand]
  | group => [.inner]
  | expression op =>
    match op.fixity with
    | .between => [.left, .right]
    | .before => [.right]
    | .after => [.left]

end Form

def form : Draft → Form
  | finished t => .finished t
  | function name _ => .function name
  | group _ => .group
  | expression op _ _ => .expression op

theorem form_start (f : Form) : f.start.form = f := by
  cases f <;> rfl

theorem content_start (f : Form) (slot : Slot) : f.start.content slot = none := by
  cases f <;> cases slot <;> rfl

theorem form_fill (d : Draft) (slot : Slot) (t : Term) : (d.fill slot t).form = d.form := by
  cases d <;> cases slot <;> rfl

theorem kind_eq_of_form_eq {d d' : Draft} (h : d.form = d'.form) : d.kind = d'.kind := by
  cases d <;> cases d' <;> cases h <;> rfl

theorem operatorSymbol_eq_of_form_eq {d d' : Draft} (h : d.form = d'.form) :
    d.operatorSymbol = d'.operatorSymbol := by
  cases d <;> cases d' <;> cases h <;> rfl

theorem accepts_iff (d : Draft) (slot : Slot) : d.accepts slot ↔ slot ∈ d.form.slots := by
  cases d with
  | expression op left right =>
    cases op <;> cases slot <;> simp [accepts, form, Form.slots, Operator.takesLeft,
      Operator.takesRight, Operator.fixity]
  | _ => cases slot <;> simp [accepts, form, Form.slots]

theorem missing?_eq (d : Draft) :
    d.missing? = d.form.slots.find? fun slot => (d.content slot).isNone := by
  cases d with
  | expression op left right =>
    cases op <;> cases left <;> cases right <;> rfl
  | function name a | group a => cases a <;> rfl
  | finished t => rfl

/-- The answers to placements one after the other, and the draft after them. -/
def attemptAll (d : Draft) : List Placement → List (Except Error Unit) × Draft
  | [] => ([], d)
  | p :: ps =>
    let (answer, d) := d.place p.slot p.term
    let (answers, d) := d.attemptAll ps
    (answer :: answers, d)

/-- The placements that are not refused. -/
def taken (d : Draft) : List Placement → List Placement
  | [] => []
  | p :: ps =>
    match d.place p.slot p.term with
    | (.ok _, d) => p :: d.taken ps
    | (.error _, d) => d.taken ps

theorem place_of_mem {d : Draft} {slot : Slot} (h : slot ∈ d.form.slots) (t : Term) :
    d.place slot t = (.ok (), d.fill slot t) :=
  place_of_accepts ((accepts_iff d slot).mpr h) t

theorem place_of_not_mem {d : Draft} {slot : Slot} (h : slot ∉ d.form.slots) (t : Term) :
    d.place slot t = (.error (.unexpectedChild d.kind slot), d) :=
  place_of_not_accepts (mt (accepts_iff d slot).mp h) t

theorem form_place (d : Draft) (slot : Slot) (t : Term) : (d.place slot t).2.form = d.form := by
  by_cases h : slot ∈ d.form.slots
  · rw [place_of_mem h, form_fill]
  · rw [place_of_not_mem h]

theorem form_attemptAll (d : Draft) (ps : List Placement) : (d.attemptAll ps).2.form = d.form := by
  induction ps generalizing d with
  | nil => rfl
  | cons p ps ih => exact (ih _).trans (form_place d p.slot p.term)

theorem attemptAll_answers (d : Draft) (ps : List Placement) :
    (d.attemptAll ps).1 = ps.map fun p =>
      if p.slot ∈ d.form.slots then .ok () else .error (.unexpectedChild d.kind p.slot) := by
  induction ps generalizing d with
  | nil => rfl
  | cons p ps ih =>
    have hform := form_place d p.slot p.term
    change (d.place p.slot p.term).1 :: ((d.place p.slot p.term).2.attemptAll ps).1 = _
    rw [ih, hform, kind_eq_of_form_eq hform, List.map_cons]
    by_cases h : p.slot ∈ d.form.slots
    · rw [place_of_mem h, if_pos h]
    · rw [place_of_not_mem h, if_neg h]

theorem content_attemptAll (d : Draft) (ps : List Placement) (slot : Slot) :
    (d.attemptAll ps).2.content slot = (lastFor slot (d.taken ps)).or (d.content slot) := by
  induction ps generalizing d with
  | nil => rfl
  | cons p ps ih =>
    change ((d.place p.slot p.term).2.attemptAll ps).2.content slot = _
    rw [ih, taken]
    by_cases h : p.slot ∈ d.form.slots
    · rw [place_of_mem h, content_fill ((accepts_iff d p.slot).mpr h), lastFor_cons,
        Option.or_assoc]
      congr 1
      by_cases hslot : p.slot = slot
      · simp [hslot]
      · simp [hslot, Ne.symm hslot]
    · rw [place_of_not_mem h]

/-- The term that a draft of this form becomes, given what its slots hold: of the kind, with the
operator and the name that the draft was begun for, and with just these operands. A term that was
finished from the start is that term. -/
structure Form.Fulfils (f : Form) (given : Slot → Option Term) (t : Term) : Prop where
  kind : t.kind = f.start.kind
  operatorSymbol : t.operatorSymbol = f.start.operatorSymbol
  name : ∀ name, f = .function name → ∃ a, t = .function name a
  term : ∀ u, f = .finished u → t = u
  content : (∀ u, f ≠ .finished u) → ∀ slot, t.operand? slot = given slot

theorem fulfils_of_finish_eq_ok {d : Draft} {t : Term} (h : d.finish = .ok t) :
    d.form.Fulfils d.content t := by
  cases d with
  | finished u =>
    cases h
    refine ⟨rfl, rfl, ?_, ?_, fun hleaf => absurd rfl (hleaf _)⟩
    · rintro _ ⟨⟩
    · rintro _ ⟨⟩
      rfl
  | function name a =>
    cases a with
    | none => cases h
    | some a =>
      cases h
      refine ⟨rfl, rfl, ?_, ?_, ?_⟩
      · rintro _ ⟨⟩
        exact ⟨a, rfl⟩
      · rintro _ ⟨⟩
      · intro _ slot
        cases slot <;> rfl
  | group a =>
    cases a with
    | none => cases h
    | some a =>
      cases h
      refine ⟨rfl, rfl, ?_, ?_, ?_⟩
      · rintro _ ⟨⟩
      · rintro _ ⟨⟩
      · intro _ slot
        cases slot <;> rfl
  | expression op left right =>
    rw [finish] at h
    split at h
    · cases h
    split at h
    · cases h
    cases h
    refine ⟨rfl, rfl, ?_, ?_, ?_⟩
    · rintro _ ⟨⟩
    · rintro _ ⟨⟩
    · intro _ slot
      cases slot <;> rfl

theorem isComplete_iff (d : Draft) :
    d.isComplete ↔ ∀ slot ∈ d.form.slots, d.content slot ≠ none := by
  rw [isComplete, missing?_eq, Option.isNone_iff_eq_none, List.find?_eq_none]
  simp

theorem exists_finish_eq_ok_iff (d : Draft) : (∃ t, d.finish = .ok t) ↔ d.isComplete := by
  rw [isComplete, Option.isNone_iff_eq_none]
  constructor
  · rintro ⟨t, ht⟩
    cases hmissing : d.missing? with
    | none => rfl
    | some slot =>
      rw [finish_eq_error_iff.mpr ⟨slot, hmissing, rfl⟩] at ht
      cases ht
  · intro hnone
    cases h : d.finish with
    | ok t => exact ⟨t, rfl⟩
    | error e =>
      obtain ⟨slot, hslot, -⟩ := finish_eq_error_iff.mp h
      rw [hnone] at hslot
      cases hslot

/-- The slots are asked for in their order, so the first one that is empty is reported. -/
theorem finish_eq_error_iff_first {d : Draft} {e : Error} :
    d.finish = .error e ↔ ∃ front slot back, d.form.slots = front ++ slot :: back ∧
      (∀ s ∈ front, d.content s ≠ none) ∧ d.content slot = none ∧
        e = .missingChild d.kind slot := by
  simp only [finish_eq_error_iff, missing?_eq, List.find?_eq_some_iff_append,
    Option.isNone_iff_eq_none, Bool.not_eq_true', Option.isNone_eq_false_iff,
    Option.isSome_iff_ne_none]
  constructor
  · rintro ⟨slot, ⟨hslot, front, back, hslots, hfront⟩, rfl⟩
    exact ⟨front, slot, back, hslots, hfront, hslot, rfl⟩
  · rintro ⟨front, slot, back, hslots, hfront, hslot, rfl⟩
    exact ⟨slot, ⟨hslot, front, back, hslots, hfront⟩, rfl⟩

/-- A draft that was begun for some form and then given terms in any order answers each of them by
whether it has the slot, and comes to the node whose slots hold the last terms that were taken for
them, unless one of its slots was never filled. -/
theorem finish_attemptAll (f : Form) (ps : List Placement) :
    let d := (f.start.attemptAll ps).2
    let given := f.start.taken ps
    ((f.start.attemptAll ps).1 = ps.map fun p =>
        if p.slot ∈ f.slots then .ok () else .error (.unexpectedChild f.start.kind p.slot)) ∧
      (∀ slot t, slot ∉ f.slots → (d.place slot t).2 = d) ∧
      d.kind = f.start.kind ∧ d.operatorSymbol = f.start.operatorSymbol ∧
      (d.isComplete ↔ ∀ slot ∈ f.slots, ∃ p ∈ given, p.slot = slot) ∧
      ((∃ t, d.finish = .ok t) ↔ d.isComplete) ∧
      (∀ t, d.finish = .ok t → f.Fulfils (lastFor · given) t) ∧
      ∀ e, d.finish = .error e ↔ ∃ front slot back, f.slots = front ++ slot :: back ∧
        (∀ s ∈ front, ∃ p ∈ given, p.slot = s) ∧ (∀ p ∈ given, p.slot ≠ slot) ∧
          e = .missingChild f.start.kind slot := by
  intro d given
  have hform : d.form = f := (form_attemptAll _ _).trans (form_start f)
  have hkind : d.kind = f.start.kind := kind_eq_of_form_eq (form_attemptAll _ _)
  have hcontent : d.content = (lastFor · given) := by
    funext slot
    rw [content_attemptAll, content_start, Option.or_none]
  have hfilled (slot : Slot) : lastFor slot given ≠ none ↔ ∃ p ∈ given, p.slot = slot := by
    simp [lastFor_eq_none_iff]
  refine ⟨?_, ?_, hkind, operatorSymbol_eq_of_form_eq (form_attemptAll _ _), ?_,
    exists_finish_eq_ok_iff d, ?_, ?_⟩
  · rw [attemptAll_answers, form_start]
  · intro slot t hslot
    rw [place_of_not_mem (hform ▸ hslot)]
  · simp only [isComplete_iff, hform, hcontent, hfilled]
  · intro t ht
    have h := fulfils_of_finish_eq_ok ht
    rwa [hform, hcontent] at h
  · intro e
    simp only [finish_eq_error_iff_first, hform, hcontent, hkind, hfilled, lastFor_eq_none_iff]

example :
    let quotient := ofOperator .div
    let ps : List Placement := [⟨.right, .integer 2⟩, ⟨.inner, .integer 7⟩, ⟨.left, .integer 3⟩,
      ⟨.right, .integer 4⟩]
    (quotient.attemptAll ps).1 =
        [.ok (), .error (.unexpectedChild .expression .inner), .ok (), .ok ()] ∧
      (quotient.attemptAll ps).2.finish = .ok (.binary (.integer 3) .div (.integer 4)) :=
  ⟨rfl, rfl⟩

end Draft

/-- The bench answers a placement into its top draft as the draft does, and keeps it in the same
way. -/
theorem Assembly.step_place (reader : Token.Reader) (d : Draft) (drafts : List Draft)
    (terms : List Term) (slot : Slot) (t : Term) :
    Assembly.step reader { drafts := d :: drafts, terms } (.place slot (some t)) =
      some (match (d.place slot t).1 with | .ok _ => .nothing | .error cause => .refused cause,
        { drafts := (d.place slot t).2 :: drafts, terms }) := by
  simp only [step, supply]
  obtain ⟨answer, d'⟩ := d.place slot t
  cases answer <;> rfl

end Formula
