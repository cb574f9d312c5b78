import Formula.Proofs.Faults
import Formula.Proofs.FiniteFloat
import Formula.Proofs.RoundTrip

/-! # What is decoded

Whatever spelling a document has at whatever place, a term that is decoded from it has been put
together from drafts, so it is well-formed; its numbers are finite, since no numeral stands for
anything else; and it is no deeper than the document.
-/

namespace Formula

theorem Document.isFinite_of_toReal? {d : Document} {x : Float} (h : d.toReal? = some x) :
    x.isFinite := by
  cases d with
  | number n => exact isFinite_of_toFloat? h
  | _ => cases h

theorem Document.nesting_ofReal (x : Float) : (ofReal x).nesting = 0 := by
  unfold ofReal
  split <;> rfl

namespace Term

open Document

/-- What is known of a term that has been decoded with so much room. -/
structure Decoded (room : Nat) (t : Term) : Prop where
  wellFormed : t.WellFormed
  finite : t.Everywhere Finite
  nesting : t.toDocument.nesting ≤ room

namespace Decoded

variable {room : Nat} {a : Term}

theorem leaf {t : Term} (hleaf : t.isLeaf) (hfinite : t.Finite)
    (hnesting : t.toDocument.nesting ≤ room) : t.Decoded room where
  wellFormed := everywhere_of_children_eq_nil (children_eq_nil_of_isLeaf hleaf) (by
    cases t <;> trivial)
  finite := everywhere_of_children_eq_nil (children_eq_nil_of_isLeaf hleaf) hfinite
  nesting := hnesting

theorem function (ha : a.Decoded room) (name : String) :
    (function name a).Decoded (room + 2) where
  wellFormed := everywhere_function.mpr ⟨trivial, ha.wellFormed⟩
  finite := everywhere_function.mpr ⟨trivial, ha.finite⟩
  nesting := by
    have := ha.nesting
    simp [toDocument, nesting_tagged, ofFields, Document.nesting, fieldNesting, ofText]
    omega

theorem group (ha : a.Decoded room) : (group a).Decoded (room + 1) where
  wellFormed := everywhere_group.mpr ⟨trivial, ha.wellFormed⟩
  finite := everywhere_group.mpr ⟨trivial, ha.finite⟩
  nesting := by
    rw [toDocument, nesting_tagged]
    exact Nat.succ_le_succ ha.nesting

theorem expression {op : Operator} {left right : Option Term}
    (hfits : (expression op left right).Fits) (hleft : ∀ a, left = some a → a.Decoded room)
    (hright : ∀ a, right = some a → a.Decoded room) :
    (expression op left right).Decoded (room + 2) where
  wellFormed := everywhere_expression.mpr
    ⟨hfits, fun a ha => (hleft a ha).wellFormed, fun a ha => (hright a ha).wellFormed⟩
  finite := everywhere_expression.mpr
    ⟨trivial, fun a ha => (hleft a ha).finite, fun a ha => (hright a ha).finite⟩
  nesting := by
    have hl : ∀ a, left = some a → a.toDocument.nesting ≤ room := fun a ha => (hleft a ha).nesting
    have hr : ∀ a, right = some a → a.toDocument.nesting ≤ room :=
      fun a ha => (hright a ha).nesting
    cases left <;> cases right <;>
      simp_all [toDocument, nesting_tagged, ofFields, Document.nesting, fieldNesting, ofOperator,
        ofText]

end Decoded

structure Parts.All (P : Term → Prop) (parts : Parts) : Prop where
  operand : ∀ a, parts.operand = some a → P a
  left : ∀ a, parts.left = some a → P a
  right : ∀ a, parts.right = some a → P a

section Record

variable {P : Term → Prop} {room : Nat} {dec : Document → Decoder Term}
  (hdec : ∀ {d t}, dec d = .ok t → P t)

include hdec

theorem of_optional_eq_ok {d : Document} {slot : Option Term} (h : optional dec d = .ok slot) :
    ∀ a, slot = some a → P a := by
  rintro a rfl
  unfold optional at h
  split at h
  · cases h
  · cases hd : dec _ with
    | error e =>
      rw [hd] at h
      cases h
    | ok t =>
      rw [hd] at h
      cases h
      exact hdec hd

theorem all_of_decodeField {parts parts' : Parts} {entry : String × Document}
    (hparts : parts.All P) (h : decodeField room dec parts entry = .ok parts') :
    parts'.All P := by
  unfold decodeField at h
  split at h
  case h_8 => cases h
  all_goals
    obtain ⟨x, hx, h⟩ := Except.bind_eq_ok_iff.mp h
    cases h
  case h_5 => exact ⟨fun a ha => Option.some.inj ha ▸ hdec hx, hparts.left, hparts.right⟩
  case h_6 => exact ⟨hparts.operand, of_optional_eq_ok hdec hx, hparts.right⟩
  case h_7 => exact ⟨hparts.operand, hparts.left, of_optional_eq_ok hdec hx⟩
  all_goals exact ⟨hparts.operand, hparts.left, hparts.right⟩

theorem all_of_decodeRecord {names : List String} {d : Document} {parts : Parts}
    (h : decodeRecord names room dec d = .ok parts) : parts.All P := by
  refine foldRecord_invariant (fun hparts => all_of_decodeField hdec hparts) ?_ h
  constructor <;> intro a ha <;> cases ha

end Record

theorem exists_of_decodeFunction_eq_ok {parts : Parts} {t : Term}
    (h : decodeFunction parts = .ok t) :
    ∃ name a, parts.operand = some a ∧ t = function name a := by
  obtain ⟨name, -, h⟩ := Except.bind_eq_ok_iff.mp h
  obtain ⟨a, ha, h⟩ := Except.bind_eq_ok_iff.mp h
  cases h
  exact ⟨name, a, require_eq_ok_iff.mp ha, rfl⟩

theorem exists_of_decodeExpression_eq_ok {parts : Parts} {t : Term}
    (h : decodeExpression parts = .ok t) :
    ∃ op, t = expression op parts.left parts.right ∧ t.Fits := by
  obtain ⟨op, hop, -⟩ := Except.bind_eq_ok_iff.mp h
  have hparts : decodeExpression parts =
      decodeExpression { operator := some op, left := parts.left, right := parts.right } := by
    rw [decodeExpression, require_eq_ok_iff.mp hop]
    rfl
  rw [hparts, decodeExpression_eq, verdict_eq_ok_iff] at h
  exact ⟨op, h.1, h.1 ▸ (h.2 _ List.mem_cons_self).1⟩

theorem decoded_of_function {room : Nat} {d : Document} {node : Decoder Term} {t : Term}
    (ih : ∀ {d t}, decode room d = .ok t → t.Decoded room)
    (hnode : (decodeRecord ["name", "operand"] room (decode room) d >>= fun parts =>
      .ok (decodeFunction parts)) = .ok node) (h : node = .ok t) :
    t.Decoded (room + 2) := by
  obtain ⟨parts, hparts, hnode⟩ := Except.bind_eq_ok_iff.mp hnode
  cases hnode
  obtain ⟨name, a, ha, rfl⟩ := exists_of_decodeFunction_eq_ok h
  exact ((all_of_decodeRecord ih hparts).operand a ha).function name

theorem decoded_of_expression {room : Nat} {d : Document} {node : Decoder Term} {t : Term}
    (ih : ∀ {d t}, decode room d = .ok t → t.Decoded room)
    (hnode : (decodeRecord ["operator", "left", "right"] room (decode room) d >>= fun parts =>
      .ok (decodeExpression parts)) = .ok node) (h : node = .ok t) :
    t.Decoded (room + 2) := by
  obtain ⟨parts, hparts, hnode⟩ := Except.bind_eq_ok_iff.mp hnode
  cases hnode
  obtain ⟨op, rfl, hfits⟩ := exists_of_decodeExpression_eq_ok h
  have hall := all_of_decodeRecord ih hparts
  exact .expression hfits hall.left hall.right

theorem exists_of_closing_eq_ok {rest : List (Spelled × Document)}
    {contents : Decoder (Decoder Term)} {t : Term} (h : closing rest contents = .ok t) :
    ∃ node, contents = .ok node ∧ node = .ok t := by
  obtain ⟨node, hnode, h⟩ := Except.bind_eq_ok_iff.mp h
  split at h
  · exact ⟨node, hnode, h⟩
  · cases h

theorem exists_of_leaf {α : Type} {x : Option α} {leaf : α → Term} {node : Decoder Term} {t : Term}
    (hnode : (require x >>= fun a => .ok (.ok (leaf a))) = .ok node) (h : node = .ok t) :
    ∃ a, x = some a ∧ t = leaf a := by
  obtain ⟨a, ha, hnode⟩ := Except.bind_eq_ok_iff.mp hnode
  cases hnode
  cases h
  exact ⟨a, require_eq_ok_iff.mp ha, rfl⟩

theorem decode_decoded {room : Nat} {d : Document} {t : Term} (h : decode room d = .ok t) :
    t.Decoded room := by
  -- A record is decoded with two levels less, so the induction has to reach further back.
  induction room using Nat.strongRecOn generalizing d t with
  | _ room ih =>
  unfold decode at h
  split at h
  case h_2 => cases h
  rename_i room tag d rest
  obtain ⟨node, hnode, ht⟩ := exists_of_closing_eq_ok h
  clear h
  split at hnode
  case h_1 =>
    obtain ⟨n, -, rfl⟩ := exists_of_leaf hnode ht
    exact .leaf rfl trivial (by simp [toDocument, nesting_tagged, Document.nesting, ofInteger])
  case h_2 =>
    obtain ⟨x, hx, rfl⟩ := exists_of_leaf hnode ht
    have hfinite : x.isFinite := isFinite_of_toReal? hx
    exact .leaf rfl hfinite (by simp [toDocument, nesting_tagged, nesting_ofReal])
  case h_3 | h_4 =>
    obtain ⟨name, -, rfl⟩ := exists_of_leaf hnode ht
    exact .leaf rfl trivial (by simp [toDocument, nesting_tagged, Document.nesting, ofText])
  case h_5 =>
    obtain ⟨a, ha, hnode⟩ := Except.bind_eq_ok_iff.mp hnode
    cases hnode
    cases ht
    exact (ih room (Nat.lt_succ_self room) ha).group
  case h_6 =>
    split at hnode
    · obtain ⟨parts, -, hnode⟩ := Except.bind_eq_ok_iff.mp hnode
      cases hnode
      obtain ⟨n, -, ht⟩ := Except.bind_eq_ok_iff.mp ht
      obtain ⟨d, -, ht⟩ := Except.bind_eq_ok_iff.mp ht
      cases ht
      exact .leaf rfl trivial (by
        simp [toDocument, nesting_tagged, ofFields, Document.nesting, fieldNesting, ofInteger])
    · cases hnode
  case h_7 =>
    split at hnode
    · exact decoded_of_function (ih _ (by omega)) hnode ht
    · cases hnode
  case h_8 =>
    split at hnode
    · exact decoded_of_expression (ih _ (by omega)) hnode ht
    · cases hnode
  case h_9 => cases hnode

theorem decode_of_ofJson_eq_ok {text : String} {t : Term} (h : ofJson text = .ok t) :
    decode maxNesting (readState text).document = .ok t := by
  obtain ⟨u, hu, h⟩ := Except.bind_eq_ok_iff.mp h
  obtain ⟨d, -, h⟩ := Except.bind_eq_ok_iff.mp h
  cases h
  exact hu

/-- Every text that is read at all is read as a term that could have been written: it is well-formed
with finite numbers, reading it again changes nothing, and none of its operators ever misses an
operand. -/
theorem wellFormed_of_ofJson_eq_ok {text : String} {t : Term} (h : ofJson text = .ok t) :
    t.WellFormed ∧ t.Everywhere Finite ∧
      (t.Everywhere ReadsBack → ofJson t.toDocument.toText = .ok t) ∧
      ∀ (m : Machine) (op : Operator), ∀ x ∈ [t.eval, t.accept, t.evaluate],
        m.result x ≠ .error (.missingOperand op) := by
  have hdecoded : t.Decoded maxNesting := decode_decoded (decode_of_ofJson_eq_ok h)
  refine ⟨hdecoded.wellFormed, hdecoded.finite, ?_, ?_⟩
  · intro hread
    rw [← written_usual, ofJson_written (written_usual t ▸ hdecoded.nesting) hread,
      verdict_eq_ok_iff, forall_mem_completion_iff]
    exact ⟨rfl, hdecoded.wellFormed, hdecoded.finite⟩
  · intro m op
    apply result_ne_error
    intro s hs hfault
    exact hfault.not_fits_of_missingOperand (hdecoded.wellFormed s hs)

/-- A sum in its array form, with an unknown field among those of its left operand. -/
theorem ofJson_sum_array :
    let text := "\x7b\"Expression\": [\"Add\", \x7b\"Function\": \x7b\"operand\": " ++
      "\x7b\"Number\": -5e-1\x7d, \"line\": 3, \"name\": \"sin\"\x7d\x7d, \x7b\"Integer\": 2\x7d]\x7d"
    let sum := binary (function "sin" (number (-0.5))) .add (integer 2)
    ofJson text = .ok sum ∧ ofJson sum.toDocument.toText = .ok sum := by
  intro text sum
  let half : Decimal.Numeral :=
    { negative := true, whole := ['5'], fraction := [], exponent := some (-1) }
  let call := ofFields [("operand", tagged "Number" (.number half)), ("line", ofInteger 3),
    ("name", ofText "sin")]
  let d := tagged "Expression"
    (array [ofText "Add", tagged "Function" call, tagged "Integer" (ofInteger 2)])
  have hlex : lex text.toList = (d.lexemes, true) := by decide +kernel
  have hdecode : decode maxNesting d = .ok sum := by
    simp only [d, call, half, sum]
    rfl
  have h : ofJson text = .ok sum := (ofJson_of_read? (read?_of_lex hlex)).trans hdecode
  exact ⟨h, (wellFormed_of_ofJson_eq_ok h).2.2.1 (by decide +kernel)⟩

end Term

end Formula
