import Formula.Token.Reader

/-! # Assembling terms

The bench of someone who builds terms from tokens: drafts that are being filled, and terms that are
finished and wait to be placed into one. Both are stacks.
-/

namespace Formula

structure Assembly where
  drafts : List Draft := []
  terms : List Term := []

namespace Assembly

inductive Step where
  | token (token : Token)
  | draft (draft : Draft)
  -- Places a term into the top draft, the top finished term if none is given.
  | place (slot : Slot) (term : Option Term)
  -- Shows what the top draft would become.
  | tryFinish
  | finish

inductive Reply where
  | nothing
  | rejected (cause : Token.Rejection)
  | refused (cause : Draft.Error)
  | built (term : Term)

/-- The term to be placed, and the finished terms that are left. -/
def supply (a : Assembly) : Option Term → Option (Term × List Term)
  | some t => some (t, a.terms)
  | none =>
    match a.terms with
    | t :: terms => some (t, terms)
    | [] => none

/-- One step, unless it asks for something that is not on the bench. A term that does not fit its
slot is lost. -/
def step (reader : Token.Reader) (a : Assembly) : Step → Option (Reply × Assembly)
  | .token token =>
    match reader.read token with
    | .ok d => some (.nothing, { a with drafts := d :: a.drafts })
    | .error cause => some (.rejected cause, a)
  | .draft d => some (.nothing, { a with drafts := d :: a.drafts })
  | .place slot given =>
    match a.drafts, a.supply given with
    | d :: drafts, some (t, terms) =>
      match d.place slot t with
      | (.ok _, d) => some (.nothing, { drafts := d :: drafts, terms })
      | (.error cause, d) => some (.refused cause, { drafts := d :: drafts, terms })
    | _, _ => none
  | .tryFinish =>
    match a.drafts with
    | d :: _ =>
      match d.finish with
      | .ok t => some (.built t, a)
      | .error cause => some (.refused cause, a)
    | [] => none
  | .finish =>
    match a.drafts with
    | d :: drafts =>
      match d.finish with
      | .ok t => some (.built t, { drafts, terms := t :: a.terms })
      | .error cause => some (.refused cause, { a with drafts })
    | [] => none

end Assembly

end Formula
