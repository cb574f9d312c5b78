import Formula.Proofs.IntegerToken
import Formula.Proofs.Operands
import Mathlib

/-! # Reading infix text back

The infix text of a term can be read back if the term leaves nothing to convention: no expression
is a direct operand of another one, names are words and numerals show without a sign. The text does
not tell a constant from a variable, and apart from that it determines the term. An atom, which is a
term that is no expression, is read up to a character that cannot belong to it, and a term up to the
end or a closing parenthesis.
-/

namespace Formula

/-- One or more letters. -/
def IsWord (name : String) : Prop := name.toList ≠ [] ∧ ∀ c ∈ name.toList, c.isAlpha

instance : DecidablePred IsWord := fun name =>
  have : Decidable (∀ c ∈ name.toList, c.isAlpha) := List.decidableBAll _ _
  inferInstanceAs (Decidable (name.toList ≠ [] ∧ ∀ c ∈ name.toList, c.isAlpha))

namespace Term

/-- The node leaves nothing to convention. -/
def Explicit : Term → Prop
  | integer n => 0 ≤ n.toInt
  | number _ => False
  | rational n _ => 0 ≤ n.toInt
  | var name | const name | function name _ => IsWord name
  | group _ => True
  | t@(expression _ _ _) => t.Fits ∧ ∀ a ∈ t.children, a.kind ≠ .expression

instance : DecidablePred Explicit
  | integer n | rational n _ => inferInstanceAs (Decidable (0 ≤ n.toInt))
  | number _ => isFalse not_false
  | var name | const name | function name _ => inferInstanceAs (Decidable (IsWord name))
  | group _ => isTrue trivial
  | expression op left right =>
    inferInstanceAs (Decidable ((expression op left right).Fits ∧
      ∀ a ∈ (expression op left right).children, a.kind ≠ .expression))

/-- The term as far as its text tells, which shows constants as it shows variables. -/
def asVariables : Term → Term
  | const name => var name
  | function name a => function name a.asVariables
  | group a => group a.asVariables
  | expression op left right =>
    expression op (match left with | some a => some a.asVariables | none => none)
      (match right with | some a => some a.asVariables | none => none)
  | t => t

@[simp] theorem asVariables_expression (op : Operator) (left right : Option Term) :
    (expression op left right).asVariables =
      expression op (left.map asVariables) (right.map asVariables) := by
  cases left <;> cases right <;> rfl

end Term

namespace Infix

/-- What has been read, and what is left of the text. -/
abbrev Reading (α : Type) := Option (α × List Char)

def readNumeral (cs : List Char) : Reading Int64 :=
  match Decimal.readInteger (cs.takeWhile fun c => c.isDigit || c = '-') with
  | .ok n => some (n, cs.dropWhile fun c => c.isDigit || c = '-')
  | .error _ => none

def readNumber (cs : List Char) : Reading Term :=
  match readNumeral cs with
  | some (n, '/' :: rest) => (readNumeral rest).map fun (d, rest) => (.rational n d, rest)
  | some (n, rest) => some (.integer n, rest)
  | none => none

/-- What the inner reader reads up to a closing parenthesis. -/
def readEnclosed (readInner : List Char → Reading Term) (cs : List Char) : Reading Term :=
  match readInner cs with
  | some (t, ')' :: rest) => some (t, rest)
  | _ => none

def readName (readInner : List Char → Reading Term) (cs : List Char) : Reading Term :=
  let name := String.ofList (cs.takeWhile Char.isAlpha)
  match cs.dropWhile Char.isAlpha with
  | '(' :: rest => (readEnclosed readInner rest).map fun (a, rest) => (.function name a, rest)
  | rest => some (.var name, rest)

def readAtom (readInner : List Char → Reading Term) : List Char → Reading Term
  | [] => none
  | c :: cs =>
    if c = '(' then (readEnclosed readInner cs).map fun (a, rest) => (.group a, rest)
    else if c.isAlpha then readName readInner (c :: cs)
    else readNumber (c :: cs)

def between? (c : Char) : Option Operator :=
  Operator.all.find? fun op => op.fixity = .between && op.sign = [c]

/-- Reads on after the first operand, if there is an operator. -/
def readOn (readAtom : List Char → Reading Term) (a : Term) : List Char → Reading Term
  | '!' :: rest => some (.after a .factorial, rest)
  | ' ' :: c :: ' ' :: rest =>
    match between? c, readAtom rest with
    | some op, some (b, rest) => some (.binary a op b, rest)
    | _, _ => none
  | rest => some (a, rest)

def readTerm (readAtom : List Char → Reading Term) : List Char → Reading Term
  | '-' :: cs => (readAtom cs).map fun (a, rest) => (.before .neg a, rest)
  | '√' :: cs => (readAtom cs).map fun (a, rest) => (.before .sqrt a, rest)
  | cs => (readAtom cs).bind fun (a, rest) => readOn readAtom a rest

/-- Reads terms of at most so many levels. -/
def read : Nat → List Char → Reading Term
  | 0 => fun _ => none
  | levels + 1 => readTerm (readAtom (read levels))

/-! ## Numerals and names -/

/-- What may follow an atom. -/
def EndsAtom (rest : List Char) : Prop := ∀ c ∈ rest.head?, c = ' ' ∨ c = '!' ∨ c = ')'

/-- What may follow a term. -/
def EndsTerm (rest : List Char) : Prop := ∀ c ∈ rest.head?, c = ')'

theorem EndsAtom.cons {c : Char} (h : c = ' ' ∨ c = '!' ∨ c = ')') (rest : List Char) :
    EndsAtom (c :: rest) := by
  intro d hd
  cases hd
  exact h

theorem EndsTerm.close (rest : List Char) : EndsTerm (')' :: rest) := by
  intro d hd
  cases hd
  rfl

theorem EndsTerm.endsAtom {rest : List Char} (h : EndsTerm rest) : EndsAtom rest :=
  fun c hc => .inr (.inr (h c hc))

theorem readNumeral_append (n : Int64) {rest : List Char}
    (hrest : ∀ c ∈ rest.head?, ¬(c.isDigit || c = '-')) :
    readNumeral (Decimal.integerChars n ++ rest) = some (n, rest) := by
  have hchars : ∀ c ∈ Decimal.integerChars n, c.isDigit || c = '-' := by
    intro c hc
    rw [Decimal.integerChars] at hc
    split at hc
    · obtain rfl | hc := List.mem_cons.mp hc
      · rfl
      · simp [Decimal.isDigit_of_mem_toDigits hc]
    · simp [Decimal.isDigit_of_mem_toDigits hc]
  have hread := Decimal.readInteger_eq_ok_iff.mpr (Decimal.denotes_integerChars n)
  rw [readNumeral, takeWhile_front hchars hrest, dropWhile_front hchars hrest, hread]

theorem EndsAtom.not_numeral {rest : List Char} (h : EndsAtom rest) :
    ∀ c ∈ rest.head?, ¬(c.isDigit || c = '-') := by
  intro c hc
  obtain rfl | rfl | rfl := h c hc <;> decide

theorem readNumber_integer (n : Int64) {rest : List Char} (hrest : EndsAtom rest) :
    readNumber (Decimal.integerChars n ++ rest) = some (.integer n, rest) := by
  rw [readNumber, readNumeral_append n hrest.not_numeral]
  split
  · rename_i h
    cases h
    have hslash := hrest '/' rfl
    simp at hslash
  · rename_i h
    cases h
    rfl
  · rename_i h
    cases h

theorem readNumber_rational (n d : Int64) {rest : List Char} (hrest : EndsAtom rest) :
    readNumber (Decimal.integerChars n ++ '/' :: Decimal.integerChars d ++ rest) =
      some (.rational n d, rest) := by
  have hslash : ∀ c ∈ ('/' :: (Decimal.integerChars d ++ rest)).head?, ¬(c.isDigit || c = '-') := by
    intro c hc
    cases hc
    decide
  rw [List.append_assoc, List.cons_append, readNumber, readNumeral_append n hslash]
  simp only [readNumeral_append d hrest.not_numeral, Option.map_some]

theorem readName_var (readInner : List Char → Reading Term) {name : String} (hname : IsWord name)
    {rest : List Char} (hrest : EndsAtom rest) :
    readName readInner (name.toList ++ rest) = some (.var name, rest) := by
  have hletter : ∀ c ∈ rest.head?, ¬c.isAlpha := by
    intro c hc
    obtain rfl | rfl | rfl := hrest c hc <;> decide
  rw [readName, takeWhile_front hname.2 hletter, dropWhile_front hname.2 hletter,
    String.ofList_toList]
  split
  · have hopen := hrest '(' rfl
    simp at hopen
  · rfl

theorem readName_function {readInner : List Char → Reading Term} {name : String}
    (hname : IsWord name) {cs : List Char} :
    readName readInner (name.toList ++ '(' :: cs) =
      (readEnclosed readInner cs).map fun (a, rest) => (.function name a, rest) := by
  have hletter : ∀ c ∈ ('(' :: cs).head?, ¬c.isAlpha := by
    intro c hc
    cases hc
    decide
  rw [readName, takeWhile_front hname.2 hletter, dropWhile_front hname.2 hletter,
    String.ofList_toList]
  rfl

/-! ## Atoms -/

/-- The reader takes the text of the term off every text that goes on in an allowed way. -/
def ReadsBack (reader : List Char → Reading Term) (ends : List Char → Prop) (t : Term) : Prop :=
  ∀ rest, ends rest → reader (t.infixChars ++ rest) = some (t.asVariables, rest)

theorem ReadsBack.readEnclosed {readInner : List Char → Reading Term} {a : Term}
    (h : ReadsBack readInner EndsTerm a) (rest : List Char) :
    readEnclosed readInner (a.infixChars ++ [')'] ++ rest) = some (a.asVariables, rest) := by
  rw [List.append_assoc, Infix.readEnclosed, List.singleton_append, h _ (.close rest)]
  rfl

theorem exists_integerChars_eq_cons {n : Int64} (hn : 0 ≤ n.toInt) :
    ∃ c digits, Decimal.integerChars n = c :: digits ∧ c.isDigit := by
  obtain ⟨c, digits, hdigits⟩ :=
    List.exists_cons_of_ne_nil (Decimal.digits_toDigits n.toInt.natAbs).ne_nil
  refine ⟨c, digits, ?_, ?_⟩
  · rw [Decimal.integerChars, if_neg (by omega), hdigits]
  · apply (Decimal.digits_toDigits n.toInt.natAbs).isDigit
    rw [hdigits]
    exact List.mem_cons_self

theorem exists_word_eq_cons {name : String} (hname : IsWord name) :
    ∃ c letters, name.toList = c :: letters ∧ c.isAlpha := by
  obtain ⟨c, letters, hletters⟩ := List.exists_cons_of_ne_nil hname.1
  refine ⟨c, letters, hletters, hname.2 c ?_⟩
  rw [hletters]
  exact List.mem_cons_self

section Atoms

variable {readInner : List Char → Reading Term}

theorem readAtom_numeral {n : Int64} (hn : 0 ≤ n.toInt) (cs : List Char) :
    readAtom readInner (Decimal.integerChars n ++ cs) =
      readNumber (Decimal.integerChars n ++ cs) := by
  obtain ⟨c, digits, hdigits, hc⟩ := exists_integerChars_eq_cons hn
  have hletter : ¬c.isAlpha := by
    have hrange : 48 ≤ c.toNat ∧ c.toNat ≤ 57 := by
      simpa [Char.isDigit, Char.le_def, UInt32.le_iff_toNat_le] using hc
    simp [Char.isAlpha, Char.isUpper, Char.isLower, UInt32.le_iff_toNat_le]
    omega
  have hopen : c ≠ '(' := by
    rintro rfl
    cases hc
  rw [hdigits, List.cons_append, readAtom, if_neg hopen, if_neg hletter]

theorem readAtom_name {name : String} (hname : IsWord name) (cs : List Char) :
    readAtom readInner (name.toList ++ cs) = readName readInner (name.toList ++ cs) := by
  obtain ⟨c, letters, hletters, hc⟩ := exists_word_eq_cons hname
  have hopen : c ≠ '(' := by
    rintro rfl
    cases hc
  rw [hletters, List.cons_append, readAtom, if_neg hopen, if_pos hc]

/-- An atom is read back by a reader that reads back what it encloses. -/
theorem readsBack_readAtom {t : Term} (ht : t.Explicit) (hkind : t.kind ≠ .expression)
    (hinner : ∀ a ∈ t.children, ReadsBack readInner EndsTerm a) :
    ReadsBack (readAtom readInner) EndsAtom t := by
  intro rest hrest
  cases t with
  | integer n =>
    rw [Term.infixChars, readAtom_numeral ht]
    exact readNumber_integer n hrest
  | number x => exact ht.elim
  | rational n d =>
    rw [Term.infixChars, List.append_assoc, readAtom_numeral ht, ← List.append_assoc]
    exact readNumber_rational n d hrest
  | var name | const name =>
    rw [Term.infixChars, readAtom_name ht]
    exact readName_var readInner ht hrest
  | function name a =>
    have ha := (hinner a (List.mem_singleton_self a)).readEnclosed rest
    rw [Term.infixChars, List.append_assoc, readAtom_name ht, List.cons_append,
      readName_function ht, ha]
    rfl
  | group a =>
    have ha := (hinner a (List.mem_singleton_self a)).readEnclosed rest
    rw [Term.infixChars, List.cons_append, readAtom, if_pos rfl, ha]
    rfl
  | expression op left right => exact absurd rfl hkind

end Atoms

/-! ## Terms -/

theorem between?_eq_some {op : Operator} (h : op.fixity = .between) :
    ∃ c, op.sign = [c] ∧ between? c = some op := by
  cases op with
  | add | sub | mul | div | pow => exact ⟨_, rfl, rfl⟩
  | factorial | sqrt | neg => cases h

/-- An atom begins with none of the signs that stand before their operand. -/
theorem exists_atom_eq_cons {t : Term} (ht : t.Explicit) (hkind : t.kind ≠ .expression) :
    ∃ c cs, t.infixChars = c :: cs ∧ (c.isDigit ∨ c.isAlpha ∨ c = '(') := by
  cases t with
  | integer n =>
    obtain ⟨c, digits, hdigits, hc⟩ := exists_integerChars_eq_cons ht
    exact ⟨c, digits, hdigits, .inl hc⟩
  | number x => exact ht.elim
  | rational n d =>
    obtain ⟨c, digits, hdigits, hc⟩ := exists_integerChars_eq_cons ht
    rw [Term.infixChars, hdigits]
    exact ⟨c, _, rfl, .inl hc⟩
  | var name | const name =>
    obtain ⟨c, letters, hletters, hc⟩ := exists_word_eq_cons ht
    exact ⟨c, letters, hletters, .inr (.inl hc)⟩
  | function name a =>
    obtain ⟨c, letters, hletters, hc⟩ := exists_word_eq_cons ht
    rw [Term.infixChars, hletters]
    exact ⟨c, _, rfl, .inr (.inl hc)⟩
  | group a => exact ⟨'(', _, rfl, .inr (.inr rfl)⟩
  | expression op left right => exact absurd rfl hkind

section Terms

variable {atom : List Char → Reading Term}

theorem readTerm_atom {t : Term} (ht : t.Explicit) (hkind : t.kind ≠ .expression)
    (hatom : ReadsBack atom EndsAtom t) {rest : List Char} (hrest : EndsAtom rest) :
    readTerm atom (t.infixChars ++ rest) = readOn atom t.asVariables rest := by
  obtain ⟨c, cs, hchars, hc⟩ := exists_atom_eq_cons ht hkind
  have hread := hatom rest hrest
  rw [hchars, List.cons_append] at hread ⊢
  unfold readTerm
  split
  · rename_i h
    cases (List.cons.inj h).1
    exact absurd hc (by decide)
  · rename_i h
    cases (List.cons.inj h).1
    exact absurd hc (by decide)
  · rw [hread]
    rfl

theorem readOn_of_endsTerm (a : Term) {rest : List Char} (hrest : EndsTerm rest) :
    readOn atom a rest = some (a, rest) := by
  unfold readOn
  split
  · have := hrest '!' rfl
    simp at this
  · have := hrest ' ' rfl
    simp at this
  · rfl

theorem readTerm_before {op : Operator} (hop : op.fixity = .before) {a : Term}
    (ha : ReadsBack atom EndsAtom a) {rest : List Char} (hrest : EndsAtom rest) :
    readTerm atom (op.sign ++ a.infixChars ++ rest) = some (.before op a.asVariables, rest) := by
  have hread := ha rest hrest
  cases op with
  | neg =>
    change (atom (a.infixChars ++ rest)).map _ = _
    rw [hread]
    rfl
  | sqrt =>
    change (atom (a.infixChars ++ rest)).map _ = _
    rw [hread]
    rfl
  | _ => cases hop

theorem readTerm_after {op : Operator} (hop : op.fixity = .after) {a : Term} (ha : a.Explicit)
    (hkind : a.kind ≠ .expression) (hatom : ReadsBack atom EndsAtom a) (rest : List Char) :
    readTerm atom (a.infixChars ++ op.sign ++ rest) = some (.after a.asVariables op, rest) := by
  cases op with
  | factorial =>
    rw [List.append_assoc]
    exact readTerm_atom ha hkind hatom (.cons (.inr (.inl rfl)) rest)
  | _ => cases hop

theorem readTerm_between {op : Operator} (hop : op.fixity = .between) {a b : Term} (ha : a.Explicit)
    (hkind : a.kind ≠ .expression) (hatom : ReadsBack atom EndsAtom a)
    (hb : ReadsBack atom EndsAtom b) {rest : List Char} (hrest : EndsAtom rest) :
    readTerm atom (a.infixChars ++ ' ' :: (op.sign ++ ' ' :: b.infixChars) ++ rest) =
      some (.binary a.asVariables op b.asVariables, rest) := by
  obtain ⟨c, hsign, hc⟩ := between?_eq_some hop
  have htext : a.infixChars ++ ' ' :: (op.sign ++ ' ' :: b.infixChars) ++ rest =
      a.infixChars ++ ' ' :: c :: ' ' :: (b.infixChars ++ rest) := by
    simp [hsign]
  rw [htext, readTerm_atom ha hkind hatom (.cons (.inl rfl) _), readOn]
  simp only [hc, hb rest hrest]

/-- A term is read back by a reader of atoms that reads back its operands or, if it is an atom
itself, the term. -/
theorem readsBack_readTerm {t : Term} (ht : t.Everywhere Term.Explicit)
    (hatom : ∀ a, a.Everywhere Term.Explicit → a.kind ≠ .expression → a.height ≤ t.height →
      ReadsBack atom EndsAtom a) :
    ReadsBack (readTerm atom) EndsTerm t := by
  intro rest hrest
  by_cases hkind : t.kind = .expression
  · cases t with
    | expression op left right =>
      obtain ⟨⟨hleft, hright⟩, hatoms⟩ := ht.self
      have hexplicit := (Term.everywhere_iff.mp ht).2
      have hoperand : ∀ a ∈ (Term.expression op left right).children,
          ReadsBack atom EndsAtom a := by
        intro a ha
        apply hatom a (hexplicit a ha) (hatoms a ha)
        exact Nat.le_of_lt (Term.height_lt_of_mem_children ha)
      rw [Term.infixChars_expression, Term.asVariables_expression, Term.arrange]
      cases hfixity : op.fixity with
      | between =>
        obtain ⟨a, rfl⟩ : ∃ a, left = some a := by
          rw [← Option.isSome_iff_exists, hleft, Operator.takesLeft, hfixity]
          rfl
        obtain ⟨b, rfl⟩ : ∃ b, right = some b := by
          rw [← Option.isSome_iff_exists, hright, Operator.takesRight, hfixity]
          rfl
        have ha : a ∈ (Term.expression op (some a) (some b)).children := Term.mem_children_left
        have hb : b ∈ (Term.expression op (some a) (some b)).children := Term.mem_children_right
        exact readTerm_between hfixity (hexplicit a ha).self (hatoms a ha) (hoperand a ha)
          (hoperand b hb) hrest.endsAtom
      | before =>
        obtain rfl : left = none := by simpa [Operator.takesLeft, hfixity] using hleft
        obtain ⟨a, rfl⟩ : ∃ a, right = some a := by
          rw [← Option.isSome_iff_exists, hright, Operator.takesRight, hfixity]
          rfl
        exact readTerm_before hfixity (hoperand a Term.mem_children_right) hrest.endsAtom
      | after =>
        obtain rfl : right = none := by simpa [Operator.takesRight, hfixity] using hright
        obtain ⟨a, rfl⟩ : ∃ a, left = some a := by
          rw [← Option.isSome_iff_exists, hleft, Operator.takesLeft, hfixity]
          rfl
        have ha : a ∈ (Term.expression op (some a) none).children := Term.mem_children_left
        exact readTerm_after hfixity (hexplicit a ha).self (hatoms a ha) (hoperand a ha) rest
    | _ => cases hkind
  · rw [readTerm_atom ht.self hkind (hatom t ht hkind (Nat.le_refl _)) hrest.endsAtom]
    exact readOn_of_endsTerm _ hrest

end Terms

theorem readsBack_read {t : Term} (ht : t.Everywhere Term.Explicit) {levels : Nat}
    (hlevels : t.height ≤ levels) : ReadsBack (read levels) EndsTerm t := by
  induction levels generalizing t with
  | zero =>
    have := t.height_pos
    omega
  | succ levels ih =>
    apply readsBack_readTerm ht
    intro a ha hkind hheight
    apply readsBack_readAtom ha.self hkind
    intro b hb
    have hlower := Term.height_lt_of_mem_children hb
    exact ih ((Term.everywhere_iff.mp ha).2 b hb) (by omega)

end Infix

namespace Term

/-- Explicit terms that show alike are the same as far as the text tells. -/
theorem asVariables_eq_of_infixText_eq {a b : Term} (ha : a.Everywhere Explicit)
    (hb : b.Everywhere Explicit) (h : a.infixText = b.infixText) :
    a.asVariables = b.asVariables := by
  have hchars : a.infixChars = b.infixChars := by
    rw [← String.toList_ofList (l := a.infixChars), ← String.toList_ofList (l := b.infixChars)]
    exact congrArg String.toList h
  have hend : Infix.EndsTerm [] := fun c hc => by cases hc
  have hreadA := Infix.readsBack_read ha (Nat.le_max_left a.height b.height) [] hend
  have hreadB := Infix.readsBack_read hb (Nat.le_max_right a.height b.height) [] hend
  rw [hchars, hreadB] at hreadA
  exact (Prod.mk.inj (Option.some.inj hreadA)).1.symm

/-- No name is a variable's in one of the terms and a constant's in the other. -/
def NamesApart (a b : Term) : Prop :=
  ∀ name, (var name ∈ a.subterms → const name ∉ b.subterms) ∧
    (const name ∈ a.subterms → var name ∉ b.subterms)

theorem NamesApart.of_children {a b c d : Term} (h : NamesApart a b) (hc : c ∈ a.children)
    (hd : d ∈ b.children) : NamesApart c d := by
  have hup {s t u : Term} (ht : t ∈ u.children) (hs : s ∈ t.subterms) : s ∈ u.subterms :=
    mem_subterms_iff.mpr (.inr ⟨t, ht, hs⟩)
  intro name
  exact ⟨fun hvar hconst => (h name).1 (hup hc hvar) (hup hd hconst),
    fun hconst hvar => (h name).2 (hup hc hconst) (hup hd hvar)⟩

theorem eq_of_map_asVariables_eq {left right : Option Term}
    (h : left.map asVariables = right.map asVariables)
    (hinj : ∀ a b, left = some a → right = some b → a.asVariables = b.asVariables → a = b) :
    left = right := by
  cases left with
  | none =>
    cases right with
    | none => rfl
    | some b => cases h
  | some a =>
    cases right with
    | none => cases h
    | some b => rw [hinj a b rfl rfl (Option.some.inj h)]

theorem eq_of_asVariables_eq {a b : Term} (hnames : NamesApart a b)
    (h : a.asVariables = b.asVariables) : a = b := by
  induction a generalizing b with
  | integer _ | number _ | rational _ _ =>
    cases b <;> simp [asVariables] at h ⊢
    exact h
  | var name =>
    cases b with
    | var _ => exact h
    | const _ =>
      cases h
      exact absurd (mem_subterms_self _) ((hnames name).1 (mem_subterms_self _))
    | _ => simp [asVariables] at h
  | const name =>
    cases b with
    | const _ =>
      cases h
      rfl
    | var _ =>
      cases h
      exact absurd (mem_subterms_self _) ((hnames name).2 (mem_subterms_self _))
    | _ => simp [asVariables] at h
  | function name a ih =>
    cases b with
    | function other b =>
      simp only [asVariables, function.injEq] at h
      obtain ⟨rfl, h⟩ := h
      rw [ih (hnames.of_children (List.mem_singleton_self a) (List.mem_singleton_self b)) h]
    | _ => simp [asVariables] at h
  | group a ih =>
    cases b with
    | group b =>
      simp only [asVariables, group.injEq] at h
      rw [ih (hnames.of_children (List.mem_singleton_self a) (List.mem_singleton_self b)) h]
    | _ => simp [asVariables] at h
  | expression op left right ihl ihr =>
    cases b with
    | expression other left' right' =>
      rw [asVariables_expression, asVariables_expression] at h
      obtain ⟨rfl, hleft, hright⟩ := expression.inj h
      have hl : left = left' := by
        apply eq_of_map_asVariables_eq hleft
        rintro a b rfl rfl
        exact ihl a rfl (hnames.of_children mem_children_left mem_children_left)
      have hr : right = right' := by
        apply eq_of_map_asVariables_eq hright
        rintro a b rfl rfl
        exact ihr a rfl (hnames.of_children mem_children_right mem_children_right)
      rw [hl, hr]
    | _ => simp [asVariables] at h

/-- Explicit terms that do not share names between variables and constants show alike only if they
are the same. -/
theorem infixText_eq_iff {a b : Term} (ha : a.Everywhere Explicit) (hb : b.Everywhere Explicit)
    (hnames : NamesApart a b) : a.infixText = b.infixText ↔ a = b := by
  constructor
  · intro h
    exact eq_of_asVariables_eq hnames (asVariables_eq_of_infixText_eq ha hb h)
  · intro h
    rw [h]

/-- A function of a root does not show as the product of a variable with the root in parentheses. -/
theorem infixText_ne_product :
    let root := before .sqrt (rational 1 (-2))
    let call := function "f" root
    let product := binary (var "f") .mul (group root)
    call.Everywhere Explicit ∧ product.Everywhere Explicit ∧ NamesApart call product ∧
      call.infixText ≠ product.infixText := by
  intro root call product
  have hcall : call.Everywhere Explicit := by decide
  have hproduct : product.Everywhere Explicit := by decide
  have hnames : NamesApart call product := by
    intro name
    simp [call, product, root, binary, before, subterms]
  refine ⟨hcall, hproduct, hnames, ?_⟩
  rw [Ne, infixText_eq_iff hcall hproduct hnames]
  simp [call, product, binary]

end Term

end Formula
