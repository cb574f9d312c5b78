import Formula.Document
import Formula.Draft

/-! # Decoding documents

A value is decoded from a document of the shape that its kind prescribes. An alternative is an
object with one field, its tag; one without contents may be its bare tag. A record is an object with
its fields in any order, among fields that do not matter, or an array of all its fields in their own
order. All of it is decoded as it is written, and what goes wrong first is reported. Decoding
descends at most `maxNesting` levels of arrays and objects; `room` counts the levels that are left.
-/

namespace Formula.Document

/-- Why a document is not decoded: it has another shape, or it describes a term that the rules for
drafts refuse. -/
inductive Refusal where
  | shape
  | draft (cause : Draft.Error)
  deriving DecidableEq, Repr

abbrev Decoder (α : Type) := Except Refusal α

def maxNesting : Nat := 127

def require {α : Type} (x : Option α) : Decoder α :=
  match x with
  | some a => .ok a
  | none => .error .shape

def toText? : Document → Option String
  | text (some s) => some s
  | _ => none

def toInteger? : Document → Option Int64
  | number n => toInt64? n
  | _ => none

def toReal? : Document → Option Float
  | number n => toFloat? n
  | _ => none

/-- The tag of an alternative without contents. -/
def toTag? (room : Nat) : Document → Option String
  | text (some s) => some s
  | object [(some tag, null)] => if room = 0 then none else some tag
  | _ => none

/-- Takes the fields of an object in the order in which they are written, those that a record does
not have left out. Every name has to be a text, and none that has been seen may come again. -/
def foldFields {α : Type} (names : List String) (f : α → String × Document → Decoder α) :
    List String → α → List (Spelled × Document) → Decoder α
  | _, a, [] => .ok a
  | _, _, (none, _) :: _ => .error .shape
  | seen, a, (some name, d) :: rest =>
    if name ∉ names then foldFields names f seen a rest
    else if name ∈ seen then .error .shape
    else do foldFields names f (name :: seen) (← f a (name, d)) rest

/-- Takes the fields of a record with the given names, one after the other. -/
def foldRecord {α : Type} (names : List String) (f : α → String × Document → Decoder α) (a : α) :
    Document → Decoder α
  | object fields => foldFields names f [] a fields
  | array items => do
    let a ← (names.zip items).foldlM f a
    if items.length = names.length then return a else .error .shape
  | _ => .error .shape

/-- The fields of a record, the last one first. -/
def recordFields? (names : List String) (d : Document) : Option (List (String × Document)) :=
  (d.foldRecord names (fun found field => .ok (field :: found)) []).toOption

end Formula.Document
