import Formula.Proofs.Faults
import Formula.Proofs.Weighing
import Formula.Token.Reader

/-! # Construction of terms from tokens

A run of the construction begins with nothing at hand. It reads tokens into drafts, places terms that
it has into drafts, as often as it likes, and finishes drafts; an action that fails, or that asks
for what is not there, leaves everything as it is. Terms that come out of a run are well-formed and
have no operators but those of the reader, whatever the order of the actions.
-/

namespace Formula

structure Construction where
  drafts : List Draft := []
  terms : List Term := []

namespace Construction

/-- Drafts and terms are named by where they stand. -/
inductive Action where
  | read (token : Token)
  | place (draft : Nat) (slot : Slot) (term : Nat)
  | finish (draft : Nat)

/-- A finished draft stays, and so does a term that is placed. -/
def step (reader : Token.Reader) (c : Construction) : Action → Construction
  | .read token =>
    match reader.read token with
    | .ok d => { c with drafts := d :: c.drafts }
    | .error _ => c
  | .place i slot j =>
    match c.drafts[i]?, c.terms[j]? with
    | some d, some t => { c with drafts := c.drafts.set i (d.place slot t).2 }
    | _, _ => c
  | .finish i =>
    match c.drafts[i]? with
    | some d =>
      match d.finish with
      | .ok t => { c with terms := t :: c.terms }
      | .error _ => c
    | none => c

def run (reader : Token.Reader) (actions : List Action) : Construction :=
  actions.foldl (step reader) {}

end Construction

variable {S : OperatorSet}

/-- A node that can come from the tokens of the operators: it fits, and its operator is one of them
but not unary minus, which no token stands for. -/
structure Term.Read (S : OperatorSet) (t : Term) : Prop where
  fits : t.Fits
  operator : ∀ op, t.operator? = some op → op ∈ S ∧ op ≠ .neg

namespace Draft

/-- What is known of a draft under construction: its slots hold terms from the tokens of the
operators, and none is filled that the draft does not have. -/
def Proper (S : OperatorSet) : Draft → Prop
  | finished t => t.Everywhere (Term.Read S)
  | function _ a => ∀ t, a = some t → t.Everywhere (Term.Read S)
  | group a => ∀ t, a = some t → t.Everywhere (Term.Read S)
  | expression op left right => op ∈ S ∧ op ≠ .neg ∧
    (∀ t, left = some t → op.takesLeft ∧ t.Everywhere (Term.Read S)) ∧
    ∀ t, right = some t → op.takesRight ∧ t.Everywhere (Term.Read S)

theorem Proper.leaf {t : Term} (h : t.isLeaf) : (finished t).Proper S := by
  refine Term.everywhere_of_children_eq_nil (Term.children_eq_nil_of_isLeaf h) ?_
  cases t with
  | function _ _ | group _ | expression _ _ _ => cases h
  | _ => exact ⟨trivial, fun op hop => nomatch hop⟩

theorem Proper.fill {d : Draft} {slot : Slot} {t : Term} (hd : d.Proper S)
    (ht : t.Everywhere (Term.Read S)) (haccepts : d.accepts slot) : (d.fill slot t).Proper S := by
  cases d with
  | finished _ => cases slot <;> cases haccepts
  | function name a =>
    cases slot with
    | operand =>
      rintro _ ⟨⟩
      exact ht
    | _ => cases haccepts
  | group a =>
    cases slot with
    | inner =>
      rintro _ ⟨⟩
      exact ht
    | _ => cases haccepts
  | expression op left right =>
    obtain ⟨hmem, hneg, hleft, hright⟩ := hd
    cases slot with
    | left =>
      refine ⟨hmem, hneg, ?_, hright⟩
      rintro _ ⟨⟩
      exact ⟨haccepts, ht⟩
    | right =>
      refine ⟨hmem, hneg, hleft, ?_⟩
      rintro _ ⟨⟩
      exact ⟨haccepts, ht⟩
    | _ => cases haccepts

theorem Proper.place {d : Draft} {t : Term} (hd : d.Proper S) (slot : Slot)
    (ht : t.Everywhere (Term.Read S)) : (d.place slot t).2.Proper S := by
  by_cases haccepts : d.accepts slot
  · rw [place_of_accepts haccepts]
    exact hd.fill ht haccepts
  · rw [place_of_not_accepts haccepts]
    exact hd

theorem isSome_eq_of_filled {takes : Bool} {slot : Option Term}
    (hfilled : ∀ t, slot = some t → takes) (hlacking : ¬(takes && slot.isNone)) :
    slot.isSome = takes := by
  cases slot with
  | none => simpa using hlacking
  | some t => simp [hfilled t rfl]

theorem Proper.finish {d : Draft} {t : Term} (hd : d.Proper S) (h : d.finish = .ok t) :
    t.Everywhere (Term.Read S) := by
  cases d with
  | finished t =>
    cases h
    exact hd
  | function name a =>
    cases a with
    | none => cases h
    | some a =>
      cases h
      exact Term.everywhere_function.mpr ⟨⟨trivial, fun op hop => nomatch hop⟩, hd a rfl⟩
  | group a =>
    cases a with
    | none => cases h
    | some a =>
      cases h
      exact Term.everywhere_group.mpr ⟨⟨trivial, fun op hop => nomatch hop⟩, hd a rfl⟩
  | expression op left right =>
    obtain ⟨hmem, hneg, hleft, hright⟩ := hd
    rw [Draft.finish] at h
    split at h
    · cases h
    rename_i hlackingLeft
    split at h
    · cases h
    rename_i hlackingRight
    cases h
    refine Term.everywhere_expression.mpr
      ⟨⟨⟨?_, ?_⟩, ?_⟩, fun a ha => (hleft a ha).2, fun a ha => (hright a ha).2⟩
    · exact isSome_eq_of_filled (fun a ha => (hleft a ha).1) hlackingLeft
    · exact isSome_eq_of_filled (fun a ha => (hright a ha).1) hlackingRight
    · rintro _ ⟨⟩
      exact ⟨hmem, hneg⟩

end Draft

namespace Token.Reader

variable {token : Token} {d : Draft}

theorem proper_of_readInteger (h : readInteger token = .ok d) : d.Proper S := by
  unfold readInteger at h
  split at h
  · cases h
    exact .leaf rfl
  · cases h

theorem proper_of_readReal (h : readReal token = .ok d) : d.Proper S := by
  unfold readReal at h
  split at h
  · cases h
    exact .leaf rfl
  · cases h

theorem proper_of_readOperator {op : Operator} (hop : op ∈ S) (hneg : op ≠ .neg)
    (h : readOperator token op = .ok d) : d.Proper S := by
  unfold readOperator at h
  split at h
  · cases h
    exact ⟨hop, hneg, fun t ht => (nomatch ht), fun t ht => nomatch ht⟩
  · cases h

theorem proper_of_read {reader : Token.Reader} (h : reader.read token = .ok d) :
    d.Proper reader.operators := by
  cases hop : token.kind.operator? with
  | some op =>
    rw [read_of_operator? hop] at h
    split at h
    · refine proper_of_readOperator ‹_› ?_ h
      rintro rfl
      exact token.kind.operator?_ne_neg hop
    · cases h
  | none =>
    obtain ⟨kind, text⟩ := token
    cases kind with
    | posInt | integer => exact proper_of_readInteger h
    | realNumber => exact proper_of_readReal h
    | identifier | constant =>
      cases h
      exact .leaf rfl
    | functionName | openParenthesis =>
      cases h
      intro t ht
      cases ht
    | closeParenthesis | comma | equalsSign | unknown => cases h
    | _ => cases hop

end Token.Reader

namespace Construction

structure Sound (S : OperatorSet) (c : Construction) : Prop where
  drafts : ∀ d ∈ c.drafts, d.Proper S
  terms : ∀ t ∈ c.terms, t.Everywhere (Term.Read S)

theorem Sound.step {reader : Token.Reader} {c : Construction} (hc : c.Sound reader.operators)
    (action : Action) : (c.step reader action).Sound reader.operators := by
  cases action with
  | read token =>
    rw [Construction.step]
    split
    · refine ⟨?_, hc.terms⟩
      intro d hd
      obtain rfl | hd := List.mem_cons.mp hd
      · exact Token.Reader.proper_of_read ‹_›
      · exact hc.drafts d hd
    · exact hc
  | place i slot j =>
    rw [Construction.step]
    split
    · rename_i d t hd ht
      refine ⟨?_, hc.terms⟩
      intro d' hd'
      obtain hd' | rfl := List.mem_or_eq_of_mem_set hd'
      · exact hc.drafts d' hd'
      · exact (hc.drafts d (List.mem_of_getElem? hd)).place slot
          (hc.terms t (List.mem_of_getElem? ht))
    · exact hc
  | finish i =>
    rw [Construction.step]
    split
    · rename_i d hd
      split
      · rename_i t hfinish
        refine ⟨hc.drafts, ?_⟩
        intro t' ht'
        obtain rfl | ht' := List.mem_cons.mp ht'
        · exact (hc.drafts d (List.mem_of_getElem? hd)).finish hfinish
        · exact hc.terms t' ht'
      · exact hc
    · exact hc

theorem sound_run (reader : Token.Reader) (actions : List Action) :
    (run reader actions).Sound reader.operators := by
  -- The induction is on the actions still to come, from wherever the run has got to.
  have h : ∀ c : Construction, c.Sound reader.operators →
      (actions.foldl (Construction.step reader) c).Sound reader.operators := by
    induction actions with
    | nil =>
      intro c hc
      exact hc
    | cons action actions ih =>
      intro c hc
      exact ih _ (hc.step action)
  apply h
  constructor
  · intro d hd
    cases hd
  · intro t ht
    cases ht

/-- Terms that come out of a run fail neither for their form nor for their operators, as long as the
evaluator may apply what the reader reads; if that is arithmetic, they have a complexity. -/
theorem wellFormed_of_mem_run_terms {reader : Token.Reader} {actions : List Action} {t : Term}
    (ht : t ∈ (run reader actions).terms) :
    t.WellFormed ∧
      (∀ s ∈ t.subterms, ∀ op, s.operator? = some op → op ∈ reader.operators ∧ op ≠ .neg) ∧
      (∀ m : Machine, reader.operators ⊆ m.evaluator.operators →
        ∀ x ∈ [t.eval, t.accept, t.evaluate], ∀ op kind,
          m.result x ≠ .error (.missingOperand op) ∧ m.result x ≠ .error (.unknownOperator op) ∧
            m.result x ≠ .error (.unsupportedKind kind)) ∧
      (reader.operators ⊆ .arithmetic → ∃ w, t.complexity = .ok w) := by
  have hread := (sound_run reader actions).terms t ht
  refine ⟨fun s hs => (hread s hs).fits, fun s hs => (hread s hs).operator, ?_, ?_⟩
  · intro m hsubset x hx op kind
    refine ⟨Term.result_ne_error ?_ x hx, Term.result_ne_error ?_ x hx,
      Term.result_ne_error ?_ x hx⟩
    · intro s hs hfault
      exact hfault.not_fits_of_missingOperand (hread s hs).fits
    · intro s hs hfault
      cases hfault with
      | unknownOperator hop => exact hop (hsubset op ((hread _ hs).operator op rfl).1)
    · intro s hs hfault
      cases hfault
  · intro harithmetic
    apply Term.exists_complexity_eq_ok
    intro s hs op hop
    exact OperatorSet.mem_arithmetic_iff.mp (harithmetic op ((hread s hs).operator op hop).1)

/-- A product whose left operand is placed twice, and whose parentheses are asked for a right one. -/
theorem mem_run_terms_product :
    let token (kind : Token.Kind) (text : String) : Action := .read ⟨kind, text⟩
    let actions := [token .integer " 2 ", .finish 0, token .identifier "x", .finish 0,
      token .multiplication "×", .place 0 .left 0, .place 0 .left 1, .place 0 .right 0, .finish 0,
      token .openParenthesis "(", .place 0 .right 0, .finish 0, .place 0 .inner 0, .finish 0]
    let t := Term.group (.binary (.integer 2) .mul (.var "x"))
    t ∈ (run .restricted actions).terms ∧ ∃ w, t.complexity = .ok w := by
  intro token actions t
  have ht : t ∈ (run .restricted actions).terms := by
    have hterms : (run .restricted actions).terms =
        [t, .binary (.integer 2) .mul (.var "x"), .var "x", .integer 2] := by
      simp only [actions, token, t]
      rfl
    rw [hterms]
    exact List.mem_cons_self
  exact ⟨ht, (wellFormed_of_mem_run_terms ht).2.2.2 fun op hop => hop⟩

end Construction

end Formula
