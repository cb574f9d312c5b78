import Formula.Document.Number
import Formula.Document.Quoted

/-! # Documents

A document is a value of a data format: it keeps the order of fields, fields that occur twice, and
numbers as they are written. Its text is a sequence of lexemes with blanks between them; `chars_eq`
says which characters it has without blanks.
-/

namespace Formula

inductive Document where
  | null
  | bool (value : Bool)
  | number (value : Decimal.Numeral)
  | text (value : Document.Spelled)
  | array (items : List Document)
  | object (fields : List (Document.Spelled × Document))

namespace Document

inductive Lexeme where
  | openArray
  | closeArray
  | openObject
  | closeObject
  | colon
  | comma
  | null
  | bool (value : Bool)
  | number (value : Decimal.Numeral)
  | text (value : Spelled)
  deriving DecidableEq, Repr

def Lexeme.chars : Lexeme → List Char
  | openArray => ['[']
  | closeArray => [']']
  | openObject => ['{']
  | closeObject => ['}']
  | colon => [':']
  | comma => [',']
  | null => ['n', 'u', 'l', 'l']
  | bool true => ['t', 'r', 'u', 'e']
  | bool false => ['f', 'a', 'l', 's', 'e']
  | number n => n.chars
  | text s => s.chars

def separated (parts : List (List Lexeme)) : List Lexeme := List.intercalate [.comma] parts

mutual

def lexemes : Document → List Lexeme
  | null => [.null]
  | bool b => [.bool b]
  | number n => [.number n]
  | text s => [.text s]
  | array items => .openArray :: (separated (itemLexemes items) ++ [.closeArray])
  | object fields => .openObject :: (separated (fieldLexemes fields) ++ [.closeObject])

def itemLexemes : List Document → List (List Lexeme)
  | [] => []
  | d :: rest => d.lexemes :: itemLexemes rest

def fieldLexemes : List (Spelled × Document) → List (List Lexeme)
  | [] => []
  | (key, d) :: rest => (.text key :: .colon :: d.lexemes) :: fieldLexemes rest

end

mutual

/-- Puts the lexemes of a document in front of others, without going through them again. -/
def lexemesBefore (rest : List Lexeme) : Document → List Lexeme
  | null => .null :: rest
  | bool b => .bool b :: rest
  | number n => .number n :: rest
  | text s => .text s :: rest
  | array items => .openArray :: itemsBefore (.closeArray :: rest) items
  | object fields => .openObject :: fieldsBefore (.closeObject :: rest) fields

def itemsBefore (rest : List Lexeme) : List Document → List Lexeme
  | [] => rest
  | [d] => d.lexemesBefore rest
  | d :: next :: items => d.lexemesBefore (.comma :: itemsBefore rest (next :: items))

def fieldsBefore (rest : List Lexeme) : List (Spelled × Document) → List Lexeme
  | [] => rest
  | [(key, d)] => .text key :: .colon :: d.lexemesBefore rest
  | (key, d) :: next :: fields =>
    .text key :: .colon :: d.lexemesBefore (.comma :: fieldsBefore rest (next :: fields))

end

mutual

theorem lexemesBefore_eq (rest : List Lexeme) (d : Document) :
    d.lexemesBefore rest = d.lexemes ++ rest := by
  match d with
  | null | bool _ | number _ | text _ => rfl
  | array items => simp [lexemesBefore, lexemes, itemsBefore_eq]
  | object fields => simp [lexemesBefore, lexemes, fieldsBefore_eq]

theorem itemsBefore_eq (rest : List Lexeme) (items : List Document) :
    itemsBefore rest items = separated (itemLexemes items) ++ rest := by
  match items with
  | [] => simp [itemsBefore, itemLexemes, separated]
  | [d] => simp [itemsBefore, itemLexemes, separated, lexemesBefore_eq rest d]
  | d :: next :: items =>
    rw [itemsBefore, lexemesBefore_eq _ d, itemsBefore_eq rest (next :: items)]
    simp [itemLexemes, separated]

theorem fieldsBefore_eq (rest : List Lexeme) (fields : List (Spelled × Document)) :
    fieldsBefore rest fields = separated (fieldLexemes fields) ++ rest := by
  match fields with
  | [] => simp [fieldsBefore, fieldLexemes, separated]
  | [(key, d)] => simp [fieldsBefore, fieldLexemes, separated, lexemesBefore_eq rest d]
  | (key, d) :: next :: fields =>
    rw [fieldsBefore, lexemesBefore_eq _ d, fieldsBefore_eq rest (next :: fields)]
    simp [fieldLexemes, separated]

end

/-- The characters of a document without blanks. -/
def chars (d : Document) : List Char := (d.lexemesBefore []).flatMap Lexeme.chars

theorem chars_eq (d : Document) : d.chars = d.lexemes.flatMap Lexeme.chars := by
  rw [chars, lexemesBefore_eq, List.append_nil]

def toText (d : Document) : String := String.ofList d.chars

/-- A text for a document, from characters that can all be written. -/
def ofText (s : String) : Document := text (some s)

def tagged (tag : String) (d : Document) : Document := object [(some tag, d)]

/-- An object with fields whose names can all be written. -/
def ofFields (fields : List (String × Document)) : Document :=
  object (fields.map fun field => (some field.1, field.2))

mutual

/-- How many arrays and objects lie around the innermost value. -/
def nesting : Document → Nat
  | array items => itemNesting items + 1
  | object fields => fieldNesting fields + 1
  | _ => 0

def itemNesting : List Document → Nat
  | [] => 0
  | d :: rest => max d.nesting (itemNesting rest)

def fieldNesting : List (Spelled × Document) → Nat
  | [] => 0
  | (_, d) :: rest => max d.nesting (fieldNesting rest)

end

end Document

end Formula
