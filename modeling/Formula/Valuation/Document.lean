import Formula.Term.Document
import Formula.Valuation

/-! # Documents of valuations

A valuation is written as an object with a field for each name, in the order of the names. When it
is read, a name that occurs again has the later value in the earlier place.
-/

namespace Formula.Valuation

open Document

def toDocument (v : Valuation) : Document :=
  ofFields (v.toList.map fun entry => (entry.1, ofReal entry.2))

def entries? : List (Spelled × Document) → Option (List (String × Float))
  | [] => some []
  | (none, _) :: _ => none
  | (some name, d) :: rest => do
    let value ← d.toReal?
    return (name, value) :: (← entries? rest)

def ofDocument? : Document → Option Valuation
  | object fields => (entries? fields).map ofList
  | _ => none

def ofJson? (text : String) : Option Valuation := (Document.read? text).bind ofDocument?

end Formula.Valuation
