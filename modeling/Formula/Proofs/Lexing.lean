import Formula.Document.Reader
import Formula.Proofs.Numeral

/-! # Reading a written document

The characters of a document are cut into its lexemes again, and so the document is read back from
its text. Lexemes are written without blanks between them; this is safe because a reader that has
just met a number accepts nothing next that could belong to it.
-/

namespace Formula.Document

theorem scanNumeral_eq_none {c : Char} (hminus : c ≠ '-') (hdigit : ¬c.isDigit)
    (rest : List Char) : scanNumeral (c :: rest) = none := by
  have hlead : Decimal.leadingDigits (c :: rest) = [] := List.takeWhile_cons_of_neg hdigit
  have hsplit : splitMinus (c :: rest) = (false, c :: rest) := by
    rw [splitMinus]
    rintro tail h
    exact hminus (List.cons.inj h).1
  simp [scanNumeral, hsplit, scanWhole, hlead]

theorem scanLexeme_of_scanNumeral {cs rest : List Char} {n : Decimal.Numeral}
    (h : scanNumeral cs = some (n, rest)) : scanLexeme cs = some (.number n, rest) := by
  unfold scanLexeme
  split
  case h_11 => simp [h]
  all_goals
    rw [scanNumeral_eq_none (by decide) (by decide)] at h
    cases h

theorem not_isSpace_of_scanLexeme {c : Char} {tail rest : List Char} {l : Lexeme}
    (h : scanLexeme (c :: tail) = some (l, rest)) : ¬isSpace c := by
  intro hspace
  have hc : c = ' ' ∨ c = '\n' ∨ c = '\t' ∨ c = '\r' := by
    simpa [isSpace, or_assoc] using hspace
  have hnone : scanNumeral (c :: tail) = none := by
    apply scanNumeral_eq_none <;> obtain rfl | rfl | rfl | rfl := hc <;> decide
  obtain rfl | rfl | rfl | rfl := hc <;> simp [scanLexeme, hnone] at h

theorem lex_of_scanLexeme {cs rest : List Char} {l : Lexeme}
    (h : scanLexeme cs = some (l, rest)) : lex cs = (lex rest).map (l :: ·) id := by
  cases cs with
  | nil => simp [scanLexeme, scanNumeral, splitMinus, scanWhole, Decimal.leadingDigits] at h
  | cons c tail =>
    rw [lex, if_neg (not_isSpace_of_scanLexeme h)]
    split
    · rename_i l' rest' h'
      rw [h] at h'
      cases h'
      rfl
    · rename_i h'
      rw [h] at h'
      cases h'

theorem scanLexeme_text (s : Spelled) (rest : List Char) :
    scanLexeme (s.chars ++ rest) = some (.text s, rest) := by
  cases s with
  | none => rfl
  | some s =>
    rw [Spelled.chars, quoted, List.cons_append, List.append_assoc, scanLexeme]
    simp [scanText_quoted]

theorem scanLexeme_chars {l : Lexeme} (hform : ∀ n, l = .number n → n.WellFormed)
    {rest : List Char} (hrest : ∀ n, l = .number n → EndsNumeral rest) :
    scanLexeme (l.chars ++ rest) = some (l, rest) := by
  cases l with
  | number n =>
    exact scanLexeme_of_scanNumeral (scanNumeral_chars (hform n rfl) (hrest n rfl))
  | text s => exact scanLexeme_text s rest
  | bool b => cases b <;> rfl
  | _ => rfl

def State.isBroken : State → Bool
  | .broken _ => true
  | _ => false

theorem run_broken (d : Document) (ls : List Lexeme) : run (.broken d) ls = .broken d := by
  induction ls with
  | nil => rfl
  | cons l ls ih => exact ih

theorem isBroken_run {s : State} (h : s.isBroken) (ls : List Lexeme) : (run s ls).isBroken := by
  cases s with
  | broken d => rw [run_broken, State.isBroken]
  | _ => cases h

theorem step_number {s : State} {n : Decimal.Numeral} (h : ¬(step s (.number n)).isBroken) :
    ∃ d stack, step s (.number n) = deliver d stack := by
  cases s with
  | value stack => exact ⟨_, stack, rfl⟩
  | firstItem stack => exact ⟨_, .items [] :: stack, rfl⟩
  | _ => exact absurd rfl h

theorem step_deliver {d : Document} {stack : List Frame} {l : Lexeme}
    (h : ¬(step (deliver d stack) l).isBroken) :
    l = .comma ∨ l = .closeArray ∨ l = .closeObject := by
  match stack with
  | [] => exact absurd rfl h
  | .items done :: stack | .fields done key :: stack =>
    cases l <;> simp [deliver, step, State.isBroken] at h ⊢

/-- Lexemes that the reader accepts are cut apart again, whatever follows them, if it does not go on
with a number. -/
theorem lex_flatMap_chars {s : State} {ls : List Lexeme} {rest : List Char}
    (hrun : ¬(run s ls).isBroken) (hform : ∀ n, .number n ∈ ls → n.WellFormed)
    (hrest : ∀ n, ls.getLast? = some (.number n) → EndsNumeral rest) :
    lex (ls.flatMap Lexeme.chars ++ rest) = (lex rest).map (ls ++ ·) id := by
  induction ls generalizing s with
  | nil => rfl
  | cons l ls ih =>
    have hstep : ¬(step s l).isBroken := fun h => hrun (isBroken_run h ls)
    have hends : ∀ n, l = .number n → EndsNumeral (ls.flatMap Lexeme.chars ++ rest) := by
      rintro n rfl
      obtain ⟨d, stack, heq⟩ := step_number hstep
      cases ls with
      | nil => exact hrest n rfl
      | cons next ls =>
        have hnext : ¬(step (deliver d stack) next).isBroken :=
          fun h => hrun (isBroken_run (s := step (step s (.number n)) next) (heq ▸ h) ls)
        obtain rfl | rfl | rfl := step_deliver hnext <;> exact EndsNumeral.cons (by decide) _
    have hscan := scanLexeme_chars (fun n hn => hform n (hn ▸ List.mem_cons_self)) hends
    have htail := ih hrun (fun n hn => hform n (List.mem_cons_of_mem l hn)) (by
      intro n hn
      apply hrest n
      rw [List.getLast?_cons, hn, Option.getD_some])
    rw [List.flatMap_cons, List.append_assoc, lex_of_scanLexeme hscan, htail]
    rfl

/-- Every number of the document can be told from what is written behind it. -/
def NumbersWellFormed (d : Document) : Prop := ∀ n, .number n ∈ d.lexemes → n.WellFormed

theorem lex_chars_append {d : Document} {rest : List Char} (hd : d.NumbersWellFormed)
    (hrest : ∀ n, d = .number n → EndsNumeral rest) :
    lex (d.chars ++ rest) = (lex rest).map (d.lexemes ++ ·) id := by
  rw [chars_eq]
  apply lex_flatMap_chars (s := .value []) _ hd
  · intro n hn
    cases d with
    | number m => exact hrest m rfl
    | null | bool _ | text _ => cases hn
    | array _ | object _ => simp [lexemes, List.getLast?_cons] at hn
  · rw [run_lexemes]
    exact Bool.false_ne_true

theorem read?_toText {d : Document} (hd : d.NumbersWellFormed) : read? d.toText = some d := by
  apply read?_of_lex
  have h := lex_chars_append hd fun n _ => EndsNumeral.nil
  rw [List.append_nil, lex] at h
  rw [toText, String.toList_ofList, h, Prod.map, List.append_nil, id]

/-- Behind a document that is complete a text can only go wrong. -/
theorem document_readState_append {d : Document} (hd : d.NumbersWellFormed) {rest : String}
    (hrest : ∀ n, d = .number n → EndsNumeral rest.toList) :
    (readState (d.toText ++ rest)).document = d := by
  have hrun (ls : List Lexeme) : (run (.value []) (d.lexemes ++ ls)).document = d := by
    rw [run_append, run_lexemes]
    cases ls with
    | nil => rfl
    | cons l ls =>
      change (run (.broken d) ls).document = d
      rw [run_broken, State.document]
  rw [readState, String.toList_append, toText, String.toList_ofList, lex_chars_append hd hrest]
  simp only [Prod.map, id]
  split
  · exact hrun _
  · exact hrun _

theorem mem_separated {l : Lexeme} {parts : List (List Lexeme)} (h : l ∈ separated parts) :
    l = .comma ∨ ∃ part ∈ parts, l ∈ part := by
  cases parts with
  | nil => simp [separated] at h
  | cons part parts =>
    rw [separated_cons, List.mem_append, List.mem_flatMap] at h
    obtain h | ⟨other, hother, h⟩ := h
    · exact .inr ⟨part, List.mem_cons_self, h⟩
    · obtain h | h := List.mem_cons.mp h
      · exact .inl h
      · exact .inr ⟨other, List.mem_cons_of_mem part hother, h⟩

theorem fieldLexemes_eq (fields : List (Spelled × Document)) :
    fieldLexemes fields = fields.map fun field => .text field.1 :: .colon :: field.2.lexemes := by
  induction fields with
  | nil => rfl
  | cons field fields ih => rw [fieldLexemes, ih, List.map_cons]

theorem NumbersWellFormed.object {fields : List (Spelled × Document)}
    (h : ∀ field ∈ fields, field.2.NumbersWellFormed) : (object fields).NumbersWellFormed := by
  intro n hn
  have hsep : .number n ∈ separated (fieldLexemes fields) := by
    simpa [lexemes] using hn
  obtain hn | ⟨part, hpart, hn⟩ := mem_separated hsep
  · cases hn
  · rw [fieldLexemes_eq, List.mem_map] at hpart
    obtain ⟨field, hfield, rfl⟩ := hpart
    exact h field hfield n (by simpa using hn)

theorem NumbersWellFormed.ofFields {fields : List (String × Document)}
    (h : ∀ field ∈ fields, field.2.NumbersWellFormed) : (ofFields fields).NumbersWellFormed := by
  apply NumbersWellFormed.object
  intro field hfield
  obtain ⟨f, hf, rfl⟩ := List.mem_map.mp hfield
  exact h f hf

theorem NumbersWellFormed.tagged {tag : String} {d : Document} (h : d.NumbersWellFormed) :
    (tagged tag d).NumbersWellFormed := by
  apply NumbersWellFormed.object
  intro field hfield
  rw [List.mem_singleton.mp hfield]
  exact h

theorem numbersWellFormed_number {n : Decimal.Numeral} (h : n.WellFormed) :
    (number n).NumbersWellFormed := by
  intro m hm
  cases List.mem_singleton.mp hm
  exact h

theorem numbersWellFormed_text (s : Spelled) : (text s).NumbersWellFormed := by
  intro n hn
  cases List.mem_singleton.mp hn

theorem numbersWellFormed_null : null.NumbersWellFormed := by
  intro n hn
  cases List.mem_singleton.mp hn

end Formula.Document
