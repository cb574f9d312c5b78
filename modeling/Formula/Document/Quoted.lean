/-! # Quoted texts

A text in a document stands between quotes. Quotes, backslashes and control characters in it are
escaped; any character may be written as an escape, one outside the basic plane as a pair of
surrogates. `scanText_quoted` says that a quoted text is read back, whatever follows it.
-/

namespace Formula.Document

def hexDigit (n : Nat) : Char := Nat.digitChar n

def hexValue? (c : Char) : Option Nat :=
  if c.isDigit then some (c.toNat - '0'.toNat)
  else if 'a' ≤ c ∧ c ≤ 'f' then some (c.toNat - 'a'.toNat + 10)
  else if 'A' ≤ c ∧ c ≤ 'F' then some (c.toNat - 'A'.toNat + 10)
  else none

def escape (c : Char) : List Char :=
  match c with
  | '"' => ['\\', '"']
  | '\\' => ['\\', '\\']
  | '\x08' => ['\\', 'b']
  | '\x0c' => ['\\', 'f']
  | '\n' => ['\\', 'n']
  | '\r' => ['\\', 'r']
  | '\t' => ['\\', 't']
  | c =>
    if c < ' ' then ['\\', 'u', '0', '0', hexDigit (c.toNat / 16), hexDigit (c.toNat % 16)]
    else [c]

def unescape? : Char → Option Char
  | '"' => some '"'
  | '\\' => some '\\'
  | '/' => some '/'
  | 'b' => some '\x08'
  | 'f' => some '\x0c'
  | 'n' => some '\n'
  | 'r' => some '\r'
  | 't' => some '\t'
  | _ => none

/-- A character as it stands, or sixteen bits given by their number. -/
inductive Piece where
  | char (c : Char)
  | bits (code : Nat)
  deriving DecidableEq, Repr

/-- The pieces up to the closing quote, and what follows it. -/
def scanPieces : List Char → Option (List Piece × List Char)
  | [] => none
  | '"' :: rest => some ([], rest)
  | '\\' :: 'u' :: a :: b :: c :: d :: rest =>
    match hexValue? a, hexValue? b, hexValue? c, hexValue? d with
    | some a, some b, some c, some d =>
      (scanPieces rest).map fun found =>
        (.bits (((a * 16 + b) * 16 + c) * 16 + d) :: found.1, found.2)
    | _, _, _, _ => none
  | '\\' :: e :: rest =>
    match unescape? e with
    | some c => (scanPieces rest).map fun found => (.char c :: found.1, found.2)
    | none => none
  | c :: rest =>
    if c < ' ' ∨ c = '\\' then none
    else (scanPieces rest).map fun found => (.char c :: found.1, found.2)

def isLeading (code : Nat) : Bool := 0xD800 ≤ code && code ≤ 0xDBFF

def isTrailing (code : Nat) : Bool := 0xDC00 ≤ code && code ≤ 0xDFFF

/-- The characters that the pieces make, unless a surrogate among them has lost its other half. -/
def assemble : List Piece → Option (List Char)
  | [] => some []
  | .char c :: rest => (assemble rest).map (c :: ·)
  | .bits high :: .bits low :: rest =>
    if isLeading high then
      if isTrailing low then
        (assemble rest).map (Char.ofNat ((high - 0xD800) * 1024 + (low - 0xDC00) + 0x10000) :: ·)
      else none
    else if isTrailing high then none
    else (assemble (.bits low :: rest)).map (Char.ofNat high :: ·)
  | .bits code :: rest =>
    if isLeading code || isTrailing code then none
    else (assemble rest).map (Char.ofNat code :: ·)

/-- A text in a document; there is none where the escapes name half a character. -/
abbrev Spelled := Option String

def quoted (cs : List Char) : List Char := '"' :: (cs.flatMap escape ++ ['"'])

/-- What is written for a text: half a character is written as one half. -/
def Spelled.chars : Spelled → List Char
  | some s => quoted s.toList
  | none => ['"', '\\', 'u', 'd', '8', '0', '0', '"']

/-- Reads a text behind its opening quote. -/
def scanText (cs : List Char) : Option (Spelled × List Char) :=
  (scanPieces cs).map fun found => ((assemble found.1).map String.ofList, found.2)

theorem length_lt_of_map {α β : Type} {x : Option (α × List Char)} {f : α → β} {b : β}
    {cs rest : List Char} (ih : ∀ {a rest}, x = some (a, rest) → rest.length < cs.length)
    (h : (x.map fun found => (f found.1, found.2)) = some (b, rest)) : rest.length < cs.length := by
  obtain ⟨found, hfound, heq⟩ := Option.map_eq_some_iff.mp h
  cases heq
  exact ih hfound

theorem length_lt_of_scanPieces {cs rest : List Char} {ps : List Piece}
    (h : scanPieces cs = some (ps, rest)) : rest.length < cs.length := by
  fun_induction scanPieces cs generalizing ps rest with
  | case1 => simp at h
  | case2 => simp_all
  | case3 a b c d tail a' b' c' d' hd hc hb ha ih =>
    have := length_lt_of_map ih h
    simp only [List.length_cons]
    omega
  | case4 => simp at h
  | case5 e tail hne c hc ih =>
    have := length_lt_of_map ih h
    simp only [List.length_cons]
    omega
  | case6 => simp at h
  | case7 => simp at h
  | case8 c tail hquote hhex hescape hplain ih =>
    have := length_lt_of_map ih h
    simp only [List.length_cons]
    omega

theorem length_lt_of_scanText {cs rest : List Char} {s : Spelled}
    (h : scanText cs = some (s, rest)) : rest.length < cs.length := by
  obtain ⟨found, hfound, heq⟩ := Option.map_eq_some_iff.mp h
  cases heq
  exact length_lt_of_scanPieces hfound

theorem hexValue?_hexDigit {n : Nat} (h : n < 16) : hexValue? (hexDigit n) = some n :=
  (by decide : ∀ i : Fin 16, hexValue? (hexDigit i) = some i.val) ⟨n, h⟩

/-- The piece as which an escaped character comes back. -/
def pieceOf (c : Char) : Piece :=
  if c < ' ' ∧ c ∉ ['\x08', '\x0c', '\n', '\r', '\t'] then .bits c.toNat else .char c

theorem scanPieces_cons {c : Char} (hquote : c ≠ '"') (hslash : c ≠ '\\') (h : ¬c < ' ')
    (tail : List Char) :
    scanPieces (c :: tail) =
      (scanPieces tail).map fun found => (.char c :: found.1, found.2) := by
  rw [scanPieces]
  · simp [h, hslash]
  all_goals simp_all

theorem scanPieces_escape (c : Char) (tail : List Char) :
    scanPieces (escape c ++ tail) =
      (scanPieces tail).map fun found => (pieceOf c :: found.1, found.2) := by
  unfold escape
  split
  case h_8 hquote hslash hb hf hn hr ht =>
    have hmem : c ∉ ['\x08', '\x0c', '\n', '\r', '\t'] := by simp_all
    split
    · rename_i hlt
      have hnat : c.toNat < 32 := hlt
      have hhigh : hexValue? (hexDigit (c.toNat / 16)) = some (c.toNat / 16) :=
        hexValue?_hexDigit (by omega)
      have hlow : hexValue? (hexDigit (c.toNat % 16)) = some (c.toNat % 16) :=
        hexValue?_hexDigit (by omega)
      have hzero : hexValue? '0' = some 0 := rfl
      have hcode : ((0 * 16 + 0) * 16 + c.toNat / 16) * 16 + c.toNat % 16 = c.toNat := by omega
      simp only [List.cons_append, List.nil_append, scanPieces, hzero, hhigh, hlow, hcode, pieceOf,
        hlt, hmem, not_false_eq_true, and_self, if_true]
    · rename_i hge
      rw [List.cons_append, List.nil_append, scanPieces_cons hquote hslash hge, pieceOf,
        if_neg fun h => hge h.1]
  all_goals simp [scanPieces, unescape?, pieceOf]

theorem scanPieces_flatMap_escape (cs tail : List Char) :
    scanPieces (cs.flatMap escape ++ tail) =
      (scanPieces tail).map fun found => (cs.map pieceOf ++ found.1, found.2) := by
  induction cs with
  | nil => simp
  | cons c cs ih =>
    rw [List.flatMap_cons, List.append_assoc, scanPieces_escape, ih, Option.map_map]
    rfl

theorem assemble_pieceOf (c : Char) (ps : List Piece) :
    assemble (pieceOf c :: ps) = (assemble ps).map (c :: ·) := by
  unfold pieceOf
  split
  · rename_i h
    have hnat : c.toNat < 32 := h.1
    have hleading : isLeading c.toNat = false := by simp [isLeading]; omega
    have htrailing : isTrailing c.toNat = false := by simp [isTrailing]; omega
    match ps with
    | .bits low :: rest => simp [assemble, hleading, htrailing]
    | .char _ :: rest => simp [assemble, hleading, htrailing]
    | [] => simp [assemble, hleading, htrailing]
  · rfl

theorem assemble_map_pieceOf (cs : List Char) : assemble (cs.map pieceOf) = some cs := by
  induction cs with
  | nil => rfl
  | cons c cs ih => rw [List.map_cons, assemble_pieceOf, ih]; rfl

theorem scanText_quoted (s : String) (rest : List Char) :
    scanText (s.toList.flatMap escape ++ '"' :: rest) = some (some s, rest) := by
  simp [scanText, scanPieces_flatMap_escape, scanPieces, assemble_map_pieceOf]

end Formula.Document
