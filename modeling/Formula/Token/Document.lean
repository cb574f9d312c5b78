import Formula.Document.Decoding
import Formula.Document.Reader
import Formula.Token

/-! # Documents of tokens

A token is a record of its kind and its text; a kind is an alternative without contents.
-/

namespace Formula.Token

open Document

namespace Kind

def ofName? (name : String) : Option Kind := all.find? (·.name == name)

def toDocument (k : Kind) : Document := Document.ofText k.name

def ofDocument? (room : Nat) (d : Document) : Option Kind := (d.toTag? room).bind ofName?

def ofJson? (text : String) : Option Kind := (Document.read? text).bind (ofDocument? maxNesting)

end Kind

def toDocument (t : Token) : Document :=
  ofFields [("kind", t.kind.toDocument), ("value", ofText t.text)]

def ofDocument? : Nat → Document → Option Token
  | 0, _ => none
  | room + 1, d => do
    let fields ← d.recordFields? ["kind", "value"]
    let kind ← Kind.ofDocument? room (← fields.lookup "kind")
    let text ← (← fields.lookup "value").toText?
    return { kind, text }

def ofJson? (text : String) : Option Token := (Document.read? text).bind (ofDocument? maxNesting)

end Formula.Token
