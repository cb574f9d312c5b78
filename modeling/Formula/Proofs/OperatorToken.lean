import Formula.Text.Blank
import Formula.Token.Reader

/-! # Tokens of operators and of names

Whether a term can begin with a token is settled by its kind and by the operators that the reader
knows, before the text is looked at. The text of an operator's token has to spell that operator, up
to blanks around it, while names are taken as they stand. So readers differ on a token only if its
kind names an operator that one of them knows and the other does not.
-/

namespace Formula

namespace Operator

/-- Up to blanks around it, the text is one that the operator is read from. -/
def Spells (op : Operator) (text : String) : Prop :=
  ∃ spelling, read spelling = .ok op ∧ Text.Pads text.toList spelling.toList

theorem not_isBlank_of_mem_spellings {op : Operator} {spelling : String}
    (h : spelling ∈ op.spellings) : ∀ c ∈ spelling.toList, ¬Text.isBlank c := by
  have hall : ∀ op ∈ all, ∀ s ∈ op.spellings, s.toList.all (!Text.isBlank ·) := by decide
  have hspelling := hall op op.mem_all spelling h
  simpa using hspelling

theorem spells_iff {op : Operator} {text : String} :
    op.Spells text ↔ ofText? (String.ofList (Text.trim text.toList)) = some op := by
  constructor
  · rintro ⟨spelling, hread, hpads⟩
    have hmem := read_eq_ok_iff.mp hread
    rw [hpads.trim_eq (not_isBlank_of_mem_spellings hmem), String.ofList_toList]
    exact ofText?_eq_some_iff.mpr hmem
  · intro h
    refine ⟨String.ofList (Text.trim text.toList), ?_, ?_⟩
    · exact read_eq_ok_iff.mpr (ofText?_eq_some_iff.mp h)
    · rw [String.toList_ofList]
      exact Text.pads_trim _

end Operator

namespace Token.Reader

/-- The reader knows no term that begins with a token of the kind. -/
def Declines (reader : Reader) (kind : Kind) : Prop :=
  kind ∈ [.closeParenthesis, .comma, .equalsSign, .unknown] ∨
    ∃ op, kind.operator? = some op ∧ op ∉ reader.operators

variable {reader other : Reader} {token : Token} {op : Operator}

theorem declines_iff_of_operator? (h : token.kind.operator? = some op) :
    reader.Declines token.kind ↔ op ∉ reader.operators := by
  have hlisted : token.kind ∉ [.closeParenthesis, .comma, .equalsSign, .unknown] := by
    generalize token.kind = kind at h ⊢
    cases kind <;> cases h <;> decide
  constructor
  · rintro (hmem | ⟨q, hq, hnot⟩)
    · exact absurd hmem hlisted
    · cases h.symm.trans hq
      exact hnot
  · intro hnot
    exact .inr ⟨op, h, hnot⟩

theorem read_operator_of_spells (h : token.kind.operator? = some op) (hop : op ∈ reader.operators)
    (hspells : op.Spells token.text) : reader.read token = .ok (.expression op none none) := by
  rw [read_of_operator? h, if_pos hop, readOperator, core, if_pos (Operator.spells_iff.mp hspells)]
  rfl

theorem read_operator_of_not_spells (h : token.kind.operator? = some op)
    (hop : op ∈ reader.operators) (hspells : ¬op.Spells token.text) :
    reader.read token = .error (.invalidOperator token.kind token.text) := by
  rw [Operator.spells_iff] at hspells
  rw [read_of_operator? h, if_pos hop, readOperator, core, if_neg hspells]

/-- Of a kind that names no operator, every reader makes the same. -/
theorem create_eq_of_operator?_eq_none (h : token.kind.operator? = none) :
    reader.create token = other.create token := by
  obtain ⟨kind, text⟩ := token
  cases kind <;> first | rfl | cases h

theorem create_of_declines (h : reader.Declines token.kind) :
    reader.create token = decline token := by
  obtain hkind | ⟨op, hop, hnot⟩ := h
  · obtain ⟨kind, text⟩ := token
    simp only [List.mem_cons, List.not_mem_nil, or_false] at hkind
    obtain rfl | rfl | rfl | rfl := hkind <;> rfl
  · rw [create_of_operator? hop, if_neg hnot]

/-- A kind that is not declined is read without a report, and what is wrong with the token, if
anything, is its text. -/
theorem exists_create_of_not_declines (h : ¬reader.Declines token.kind) :
    ∃ x : Except Rejection Draft, reader.create token = liftM x ∧
      ∀ kind, x ≠ .error (.noMatch kind) := by
  cases hop : token.kind.operator? with
  | some op =>
    have hmem : op ∈ reader.operators := by
      rwa [declines_iff_of_operator? hop, Decidable.not_not] at h
    refine ⟨readOperator token op, by rw [create_of_operator? hop, if_pos hmem], ?_⟩
    intro kind
    rw [readOperator]
    split <;> nofun
  | none =>
    obtain ⟨kind, text⟩ := token
    cases kind with
    | posInt | integer =>
      refine ⟨_, rfl, ?_⟩
      intro kind
      rw [readInteger]
      split <;> nofun
    | realNumber =>
      refine ⟨_, rfl, ?_⟩
      intro kind
      rw [readReal]
      split <;> nofun
    | identifier | constant | functionName | openParenthesis =>
      exact ⟨.ok _, rfl, nofun⟩
    | closeParenthesis | comma | equalsSign | unknown =>
      exact absurd (.inl (by simp)) h
    | _ => cases hop

theorem read_eq_noMatch_iff {kind : Kind} :
    reader.read token = .error (.noMatch kind) ↔
      kind = token.kind ∧ reader.Declines token.kind := by
  by_cases h : reader.Declines token.kind
  · have hread : reader.read token = .error (.noMatch token.kind) := by
      rw [read, create_of_declines h]
      rfl
    simp [hread, h, eq_comm]
  · obtain ⟨x, hcreate, hx⟩ := exists_create_of_not_declines h
    have hread : reader.read token = x := by
      rw [read, hcreate]
      rfl
    simp [hread, h, hx kind]

theorem read_eq_noMatch_iff_declines :
    reader.read token = .error (.noMatch token.kind) ↔ reader.Declines token.kind := by
  rw [read_eq_noMatch_iff]
  exact and_iff_right rfl

theorem events_of_declines (h : reader.Declines token.kind) :
    reader.events token = [.unmatched token] := by
  rw [events, create_of_declines h]
  rfl

theorem events_of_not_declines (h : ¬reader.Declines token.kind) : reader.events token = [] := by
  obtain ⟨x, hcreate, -⟩ := exists_create_of_not_declines h
  rw [events, hcreate]
  rfl

/-- Readers that know the same of the operators that the token's kind may name do the same. -/
theorem create_eq_create
    (h : ∀ op, token.kind.operator? = some op → (op ∈ reader.operators ↔ op ∈ other.operators)) :
    reader.create token = other.create token := by
  cases hop : token.kind.operator? with
  | none => exact create_eq_of_operator?_eq_none hop
  | some op => simp only [create_of_operator? hop, h op hop]

theorem read_eq_read_iff :
    reader.read token = other.read token ↔
      ∀ op, token.kind.operator? = some op → (op ∈ reader.operators ↔ op ∈ other.operators) := by
  constructor
  · intro heq op h
    have hdeclines : reader.Declines token.kind ↔ other.Declines token.kind := by
      rw [← read_eq_noMatch_iff_declines, ← read_eq_noMatch_iff_declines, heq]
    rw [declines_iff_of_operator? h, declines_iff_of_operator? h] at hdeclines
    exact Decidable.not_iff_not.mp hdeclines
  · intro hagree
    rw [read, read, create_eq_create hagree]

/-- A token is declined for its kind alone, and only then something is reported. If its kind names
an operator that the reader knows, an expression with both slots unset is made of it just when the
text spells that operator, and otherwise the text is refused as it stands. Names keep their text,
blanks included. Two readers do the same with a token unless its kind names an operator of just one
of them. -/
theorem read_by_kind_then_spelling (reader : Reader) (token : Token) :
    (∀ kind, reader.read token = .error (.noMatch kind) ↔
      kind = token.kind ∧ reader.Declines token.kind) ∧
    (reader.Declines token.kind → reader.events token = [.unmatched token]) ∧
    (¬reader.Declines token.kind → reader.events token = []) ∧
    (∀ op, token.kind.operator? = some op → op ∈ reader.operators →
      (reader.read token = .ok (.expression op none none) ↔ op.Spells token.text) ∧
      (¬op.Spells token.text →
        reader.read token = .error (.invalidOperator token.kind token.text))) ∧
    (token.kind = .identifier → reader.read token = .ok (.finished (.var token.text))) ∧
    (token.kind = .constant → reader.read token = .ok (.finished (.const token.text))) ∧
    (token.kind = .functionName → reader.read token = .ok (.function token.text none)) ∧
    (token.kind = .openParenthesis → reader.read token = .ok (.group none)) ∧
    ∀ other : Reader,
      (reader.read token = other.read token ∧ reader.events token = other.events token) ↔
        ∀ op, token.kind.operator? = some op →
          (op ∈ reader.operators ↔ op ∈ other.operators) := by
  have hspelled : ∀ op, token.kind.operator? = some op → op ∈ reader.operators →
      (reader.read token = .ok (.expression op none none) ↔ op.Spells token.text) := by
    intro op h hop
    constructor
    · intro hread
      refine Classical.byContradiction fun hspells => ?_
      rw [read_operator_of_not_spells h hop hspells] at hread
      cases hread
    · exact read_operator_of_spells h hop
  refine ⟨fun kind => read_eq_noMatch_iff, events_of_declines, events_of_not_declines,
    fun op h hop => ⟨hspelled op h hop, read_operator_of_not_spells h hop⟩, ?_, ?_, ?_, ?_, ?_⟩
  · intro h
    rw [read, create, h]
    rfl
  · intro h
    rw [read, create, h]
    rfl
  · intro h
    rw [read, create, h]
    rfl
  · intro h
    rw [read, create, h]
    rfl
  · intro other
    rw [← read_eq_read_iff]
    constructor
    · exact And.left
    · intro heq
      rw [events, events, create_eq_create (read_eq_read_iff.mp heq)]
      exact ⟨heq, rfl⟩

/-- Not even the text of another operator is looked at. -/
example : restricted.read ⟨.factorial, "*"⟩ = .error (.noMatch .factorial) := rfl

end Token.Reader

end Formula
