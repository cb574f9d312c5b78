import Formula.Document

/-! # Reading documents

The text is cut into lexemes, and the lexemes drive a pushdown of arrays and objects that are not
yet closed. `run_lexemes` says that the lexemes of a document lead to that document. Of a text that
goes wrong there is a document as well: it goes as far as the text does, and then has gaps that
nothing can be decoded from.
-/

namespace Formula.Document

def isSpace (c : Char) : Bool := c = ' ' || c = '\n' || c = '\t' || c = '\r'

def scanLexeme : List Char → Option (Lexeme × List Char)
  | '[' :: rest => some (.openArray, rest)
  | ']' :: rest => some (.closeArray, rest)
  | '{' :: rest => some (.openObject, rest)
  | '}' :: rest => some (.closeObject, rest)
  | ':' :: rest => some (.colon, rest)
  | ',' :: rest => some (.comma, rest)
  | '"' :: rest => (scanText rest).map fun found => (.text found.1, found.2)
  | 'n' :: 'u' :: 'l' :: 'l' :: rest => some (.null, rest)
  | 't' :: 'r' :: 'u' :: 'e' :: rest => some (.bool true, rest)
  | 'f' :: 'a' :: 'l' :: 's' :: 'e' :: rest => some (.bool false, rest)
  | cs => (scanNumeral cs).map fun found => (.number found.1, found.2)

theorem length_lt_of_scanLexeme {cs rest : List Char} {l : Lexeme}
    (h : scanLexeme cs = some (l, rest)) : rest.length < cs.length := by
  unfold scanLexeme at h
  split at h
  case h_7 =>
    obtain ⟨found, hfound, heq⟩ := Option.map_eq_some_iff.mp h
    cases heq
    have := length_lt_of_scanText hfound
    simp only [List.length_cons]
    omega
  case h_11 =>
    obtain ⟨found, hfound, heq⟩ := Option.map_eq_some_iff.mp h
    cases heq
    exact length_lt_of_scanNumeral hfound
  all_goals
    cases h
    simp only [List.length_cons]
    omega

/-- The lexemes of a text up to a place where there is none, and whether they are all of it. -/
def lex (cs : List Char) : List Lexeme × Bool :=
  match cs with
  | [] => ([], true)
  | c :: rest =>
    if isSpace c then lex rest
    else
      match _h : scanLexeme (c :: rest) with
      | some (l, rest) => (lex rest).map (l :: ·) id
      | none => ([], false)
termination_by cs.length
decreasing_by
  · simp
  · exact length_lt_of_scanLexeme ‹_›

/-- A container that is not closed, with what stands in it already, the last first. In an object a
field has been named whose value is to come. -/
inductive Frame where
  | items (done : List Document)
  | fields (done : List (Spelled × Document)) (key : Spelled)

inductive State where
  | value (stack : List Frame)
  -- Just behind the bracket that opens an array.
  | firstItem (stack : List Frame)
  -- Just behind the brace that opens an object.
  | firstKey (stack : List Frame)
  | key (done : List (Spelled × Document)) (stack : List Frame)
  | colon (done : List (Spelled × Document)) (key : Spelled) (stack : List Frame)
  | afterItem (done : List Document) (stack : List Frame)
  | afterField (done : List (Spelled × Document)) (stack : List Frame)
  | complete (document : Document)
  -- The text has gone wrong behind the document.
  | broken (document : Document)

/-- What stands for a value that is not to be had. -/
def gap : Document := .text none

/-- Closes the open containers around a value; each of them ends in a gap. -/
def enclose (d : Document) : List Frame → Document
  | [] => d
  | .items done :: stack => enclose (.array (done.reverse ++ [d, gap])) stack
  | .fields done key :: stack => enclose (.object (done.reverse ++ [(key, d), (none, gap)])) stack

/-- The document as far as the text goes. -/
def State.document : State → Document
  | .value stack => enclose gap stack
  | .firstItem stack => enclose (.array [gap]) stack
  | .afterItem done stack => enclose (.array (done.reverse ++ [gap])) stack
  | .firstKey stack => enclose (.object [(none, gap)]) stack
  | .key done stack | .colon done _ stack | .afterField done stack =>
    enclose (.object (done.reverse ++ [(none, gap)])) stack
  | .complete d | .broken d => d

def State.complete? : State → Option Document
  | .complete d => some d
  | _ => none

/-- Hands a finished value to the innermost open container. -/
def deliver (d : Document) : List Frame → State
  | [] => .complete d
  | .items done :: stack => .afterItem (d :: done) stack
  | .fields done key :: stack => .afterField ((key, d) :: done) stack

def beginValue (stack : List Frame) : Lexeme → State
  | .null => deliver .null stack
  | .bool b => deliver (.bool b) stack
  | .number n => deliver (.number n) stack
  | .text s => deliver (.text s) stack
  | .openArray => .firstItem stack
  | .openObject => .firstKey stack
  | _ => .broken (enclose gap stack)

def step : State → Lexeme → State
  | .value stack, l => beginValue stack l
  | .firstItem stack, .closeArray => deliver (.array []) stack
  | .firstItem stack, l => beginValue (.items [] :: stack) l
  | .firstKey stack, .closeObject => deliver (.object []) stack
  | .firstKey stack, .text s => .colon [] s stack
  | .key done stack, .text s => .colon done s stack
  | .colon done key stack, .colon => .value (.fields done key :: stack)
  | .afterItem done stack, .comma => .value (.items done :: stack)
  | .afterItem done stack, .closeArray => deliver (.array done.reverse) stack
  | .afterField done stack, .comma => .key done stack
  | .afterField done stack, .closeObject => deliver (.object done.reverse) stack
  | s, _ => .broken s.document

def run (s : State) (ls : List Lexeme) : State := ls.foldl step s

def readState (text : String) : State :=
  let (ls, whole) := lex text.toList
  let s := run (.value []) ls
  if whole then s else .broken s.document

def read? (text : String) : Option Document := (readState text).complete?

theorem State.document_of_complete? {s : State} {d : Document} (h : s.complete? = some d) :
    s.document = d := by
  cases s <;> cases h
  rfl

theorem run_append (s : State) (front back : List Lexeme) :
    run s (front ++ back) = run (run s front) back := List.foldl_append

theorem separated_cons (part : List Lexeme) (parts : List (List Lexeme)) :
    separated (part :: parts) = part ++ parts.flatMap (.comma :: ·) := by
  induction parts generalizing part with
  | nil => simp [separated]
  | cons next parts ih =>
    have := ih next
    simp_all [separated]

theorem run_firstItem (stack : List Frame) (d : Document) (rest : List Lexeme) :
    run (.firstItem stack) (d.lexemes ++ rest) =
      run (.value (.items [] :: stack)) (d.lexemes ++ rest) := by
  cases d <;> rfl

mutual

theorem run_lexemes (stack : List Frame) (d : Document) :
    run (.value stack) d.lexemes = deliver d stack := by
  match d with
  | null | bool _ | number _ | text _ => rfl
  | array [] | object [] => rfl
  | array (d :: items) =>
    have h : run (.firstItem stack)
        (d.lexemes ++ ((itemLexemes items).flatMap (.comma :: ·) ++ [.closeArray])) =
        deliver (array (d :: items)) stack := by
      rw [run_firstItem, run_append, run_lexemes (.items [] :: stack) d]
      exact run_afterItem [d] stack items
    simpa [lexemes, itemLexemes, separated_cons, run, step, beginValue] using h
  | object ((key, d) :: fields) =>
    have h : run (.value (.fields [] key :: stack))
        (d.lexemes ++ ((fieldLexemes fields).flatMap (.comma :: ·) ++ [.closeObject])) =
        deliver (object ((key, d) :: fields)) stack := by
      rw [run_append, run_lexemes (.fields [] key :: stack) d]
      exact run_afterField [(key, d)] stack fields
    simpa [lexemes, fieldLexemes, separated_cons, run, step, beginValue] using h

theorem run_afterItem (done : List Document) (stack : List Frame) (items : List Document) :
    run (.afterItem done stack) ((itemLexemes items).flatMap (.comma :: ·) ++ [.closeArray]) =
      deliver (array (done.reverse ++ items)) stack := by
  match items with
  | [] => simp [itemLexemes, run, step]
  | d :: items =>
    have h := run_afterItem (d :: done) stack items
    have hd := run_lexemes (.items done :: stack) d
    simp_all [itemLexemes, run, step, deliver]

theorem run_afterField (done : List (Spelled × Document)) (stack : List Frame)
    (fields : List (Spelled × Document)) :
    run (.afterField done stack) ((fieldLexemes fields).flatMap (.comma :: ·) ++ [.closeObject]) =
      deliver (object (done.reverse ++ fields)) stack := by
  match fields with
  | [] => simp [fieldLexemes, run, step]
  | (key, d) :: fields =>
    have h := run_afterField ((key, d) :: done) stack fields
    have hd := run_lexemes (.fields done key :: stack) d
    simp_all [fieldLexemes, run, step, deliver]

end

theorem read?_of_lex {text : String} {d : Document} (h : lex text.toList = (d.lexemes, true)) :
    read? text = some d := by
  rw [read?, readState, h]
  simp only [if_true, run_lexemes]
  rfl

end Formula.Document
