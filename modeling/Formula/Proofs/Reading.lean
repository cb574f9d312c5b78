import Formula.Proofs.Decoding
import Formula.Proofs.Writing

/-! # Reading what is written

A written term is read node by node, in the order `completion`. A record is read field by field in
whatever order its fields come, so by the time an expression is finished all of its operands are.
-/

namespace Formula

namespace Term

open Document

theorem decode_integer (room : Nat) (n : Int64) :
    decode (room + 1) (integer n).toDocument = .ok (integer n) := by
  have h : (ofInteger n).toInteger? = some n := toInt64?_ofInt n
  simp [toDocument, tagged, decode, closing, h]

theorem decode_var (room : Nat) (name : String) :
    decode (room + 1) (var name).toDocument = .ok (var name) := rfl

theorem decode_const (room : Nat) (name : String) :
    decode (room + 1) (const name).toDocument = .ok (const name) := rfl

/-- A number that is not finite has been written as null, and null is none. -/
theorem decode_number (room : Nat) {x : Float} (hread : (number x).ReadsBack) :
    decode (room + 1) (number x).toDocument = verdict (number x) [number x] := by
  rw [toDocument, tagged, decode, ofReal]
  by_cases hx : x.isFinite
  · have h := hread hx
    simp [hx, closing, toReal?, h, verdict, flaw?]
  · simp [hx, closing, toReal?, verdict, flaw?]

theorem decode_rational (room : Nat) (n d : Int64) :
    decode (room + 2) (rational n d).toDocument = .ok (rational n d) := by
  have hn : (ofInteger n).toInteger? = some n := toInt64?_ofInt n
  have hd : (ofInteger d).toInteger? = some d := toInt64?_ofInt d
  rw [toDocument, tagged, decode, decodeRecord, foldRecord_ofFields (by simp) (by simp)]
  simp [closing, decodeField, decodeRational, hn, hd]

theorem decode_group (room : Nat) (d : Document) :
    decode (room + 1) (tagged "SubExpression" d) = decode room d >>= fun a => .ok (group a) := by
  rw [tagged, decode]
  cases decode room d <;> rfl

theorem decode_function (room : Nat) (name : String) (d : Document) :
    decode (room + 2) (tagged "Function" (ofFields [("name", ofText name), ("operand", d)])) =
      decode room d >>= fun a => .ok (function name a) := by
  rw [tagged, decode, decodeRecord, foldRecord_ofFields (by simp) (by simp)]
  cases h : decode room d <;> simp [decodeField, h] <;> rfl

theorem toOperator?_ofOperator (room : Nat) (op : Operator) :
    (ofOperator op).toOperator? room = some op := by
  cases op <;> rfl

/-- A written term is an object, never the null that an unset slot is written as. -/
theorem optional_written (dec : Document → Decoder Term) (o : Arrangement) (t : Term) :
    optional dec (t.written o) = dec (t.written o) >>= fun a => .ok (some a) := by
  cases t with
  | expression op left right =>
    rw [written_expression]
    rfl
  | _ => rfl

theorem optional_slot {dec : Document → Decoder Term} {o : Arrangement} {slot : Option Term}
    (h : ∀ a, slot = some a → dec (a.written o) = verdict a (a.completion o)) :
    optional dec (slot.elim null (written o)) = verdict slot (slot.elim [] (completion o)) := by
  cases slot with
  | none => rfl
  | some a =>
    rw [Option.elim_some, Option.elim_some, optional_written, h a rfl]
    exact verdict_map some

/-- What the record of an expression is known to hold once a field is read. -/
def Parts.learn (op : Operator) (left right : Option Term) (parts : Parts) : Field → Parts
  | .operator => { parts with operator := some op }
  | .left => { parts with left }
  | .right => { parts with right }

theorem Parts.foldl_learn (op : Operator) (left right : Option Term) (o : FieldOrder) :
    o.fields.foldl (Parts.learn op left right) {} = { operator := some op, left, right } := by
  have hcomm : ∀ parts f g, learn op left right (learn op left right parts f) g =
      learn op left right (learn op left right parts g) f := by
    intro parts f g
    cases f <;> cases g <;> rfl
  rw [o.perm.foldl_eq' fun f _ g _ parts => hcomm parts f g]
  rfl

section Record

variable {room : Nat} {op : Operator} {left right : Option Term}
  {leftDocument rightDocument : Document} {leftNodes rightNodes : List Term}
  (hleft : optional (decode room) leftDocument = verdict left leftNodes)
  (hright : optional (decode room) rightDocument = verdict right rightNodes)

include hleft hright

theorem decodeField_pick (parts : Parts) (field : Field) :
    decodeField room (decode room) parts
        (field.name, field.pick (ofOperator op) leftDocument rightDocument) =
      verdict (parts.learn op left right field) (field.pick [] leftNodes rightNodes) := by
  cases field with
  | operator =>
    simp [decodeField, Field.name, Field.pick, toOperator?_ofOperator, verdict_nil, Parts.learn]
  | left =>
    change (optional (decode room) leftDocument >>= fun a => .ok (parts.learn op a right .left)) = _
    rw [hleft]
    exact verdict_map fun a => parts.learn op a right .left
  | right =>
    change (optional (decode room) rightDocument >>= fun a => .ok (parts.learn op left a .right)) = _
    rw [hright]
    exact verdict_map fun a => parts.learn op left a .right

theorem foldlM_decodeField (fields : List Field) (parts : Parts) :
    (fields.map fun field =>
        (field.name, field.pick (ofOperator op) leftDocument rightDocument)).foldlM
        (decodeField room (decode room)) parts =
      verdict (fields.foldl (Parts.learn op left right) parts)
        (fields.flatMap (Field.pick [] leftNodes rightNodes)) := by
  induction fields generalizing parts with
  | nil => rfl
  | cons field fields ih =>
    rw [List.map_cons, List.foldlM_cons, decodeField_pick hleft hright, List.flatMap_cons]
    exact verdict_bind (ih _)

theorem decodeRecord_written (o : FieldOrder) :
    decodeRecord ["operator", "left", "right"] room (decode room)
        (ofFields (o.fields.map fun field =>
          (field.name, field.pick (ofOperator op) leftDocument rightDocument))) =
      verdict { operator := some op, left, right }
        (o.fields.flatMap (Field.pick [] leftNodes rightNodes)) := by
  rw [decodeRecord, foldRecord_ofFields, foldlM_decodeField hleft hright, Parts.foldl_learn]
  · intro field hfield
    obtain ⟨f, -, rfl⟩ := List.mem_map.mp hfield
    cases f <;> simp [Field.name]
  · rw [List.map_map]
    exact o.nodup_names

end Record

/-- The rules for drafts refuse just the expressions that do not fit, and for the reason given. -/
theorem decodeExpression_eq (op : Operator) (left right : Option Term) :
    decodeExpression { operator := some op, left, right } =
      verdict (expression op left right) [expression op left right] := by
  cases op <;> cases left <;> cases right <;> rfl

theorem decode_expression (room : Nat) (d : Document) :
    decode (room + 2) (tagged "Expression" d) =
      decodeRecord ["operator", "left", "right"] room (decode room) d >>= decodeExpression := by
  rw [tagged, decode]
  cases decodeRecord _ room (decode room) d <;> rfl

theorem decode_written_expression {room : Nat} {o : Arrangement} {op : Operator}
    {left right : Option Term}
    (hleft : ∀ a, left = some a →
      decode room (a.written (o.below .left)) = verdict a (a.completion (o.below .left)))
    (hright : ∀ a, right = some a →
      decode room (a.written (o.below .right)) = verdict a (a.completion (o.below .right))) :
    decode (room + 2) ((expression op left right).written o) =
      verdict (expression op left right) ((expression op left right).completion o) := by
  rw [written_expression, completion_expression, decode_expression,
    decodeRecord_written (optional_slot hleft) (optional_slot hright)]
  exact verdict_bind (decodeExpression_eq op left right)

/-- Reading a written term stops at the first of its nodes that cannot be had, in the order in
which they are finished; if all can, the term is read. -/
theorem decode_written {room : Nat} {t : Term} {o : Arrangement}
    (hnest : (t.written o).nesting ≤ room) (hread : t.Everywhere ReadsBack) :
    decode room (t.written o) = verdict t (t.completion o) := by
  induction t generalizing room o with
  | integer n =>
    obtain ⟨room, rfl, -⟩ := exists_room_tagged hnest
    exact decode_integer room n
  | number x =>
    obtain ⟨room, rfl, -⟩ := exists_room_tagged hnest
    exact decode_number room hread.self
  | rational n d =>
    obtain ⟨room, rfl, -⟩ := exists_room_record hnest
    exact decode_rational room n d
  | var name =>
    obtain ⟨room, rfl, -⟩ := exists_room_tagged hnest
    exact decode_var room name
  | const name =>
    obtain ⟨room, rfl, -⟩ := exists_room_tagged hnest
    exact decode_const room name
  | function name a ih =>
    obtain ⟨-, ha⟩ := everywhere_function.mp hread
    obtain ⟨room, rfl, hfields⟩ := exists_room_record hnest
    have hnesta : (a.written (o.below .operand)).nesting ≤ room :=
      hfields ("operand", _) (by simp)
    rw [written, decode_function, ih hnesta ha]
    exact verdict_bind rfl
  | group a ih =>
    obtain ⟨-, ha⟩ := everywhere_group.mp hread
    obtain ⟨room, rfl, hnesta⟩ := exists_room_tagged hnest
    rw [written, decode_group, ih hnesta ha]
    exact verdict_bind rfl
  | expression op left right ihl ihr =>
    obtain ⟨-, hl, hr⟩ := everywhere_expression.mp hread
    rw [written_expression] at hnest
    obtain ⟨room, rfl, hfields⟩ := exists_room_record hnest
    have hfield (field : Field) := hfields _ (List.mem_map_of_mem ((o []).mem_fields field))
    apply decode_written_expression
    · rintro a rfl
      exact ihl a rfl (hfield .left) (hl a rfl)
    · rintro a rfl
      exact ihr a rfl (hfield .right) (hr a rfl)

theorem numbersWellFormed_ofInteger (n : Int64) : (ofInteger n).NumbersWellFormed :=
  numbersWellFormed_number (Decimal.Numeral.wellFormed_ofInt n.toInt)

theorem numbersWellFormed_ofReal (x : Float) : (ofReal x).NumbersWellFormed := by
  unfold ofReal
  split
  · exact numbersWellFormed_number (Decimal.Layout.interchanged.wellFormed_numeral x)
  · exact numbersWellFormed_null

theorem numbersWellFormed_written (o : Arrangement) (t : Term) :
    (t.written o).NumbersWellFormed := by
  induction t generalizing o with
  | integer n => exact .tagged (numbersWellFormed_ofInteger n)
  | number x => exact .tagged (numbersWellFormed_ofReal x)
  | rational n d =>
    apply NumbersWellFormed.tagged
    apply NumbersWellFormed.ofFields
    intro field hfield
    obtain rfl | rfl := List.mem_pair.mp hfield
    · exact numbersWellFormed_ofInteger n
    · exact numbersWellFormed_ofInteger d
  | var name => exact .tagged (numbersWellFormed_text _)
  | const name => exact .tagged (numbersWellFormed_text _)
  | function name a ih =>
    apply NumbersWellFormed.tagged
    apply NumbersWellFormed.ofFields
    intro field hfield
    obtain rfl | rfl := List.mem_pair.mp hfield
    · exact numbersWellFormed_text _
    · exact ih _
  | group a ih => exact .tagged (ih _)
  | expression op left right ihl ihr =>
    rw [written_expression]
    apply NumbersWellFormed.tagged
    apply NumbersWellFormed.ofFields
    intro entry hentry
    obtain ⟨field, -, rfl⟩ := List.mem_map.mp hentry
    cases field with
    | operator => exact numbersWellFormed_text _
    | left =>
      cases left with
      | none => exact numbersWellFormed_null
      | some a => exact ihl a rfl _
    | right =>
      cases right with
      | none => exact numbersWellFormed_null
      | some a => exact ihr a rfl _

theorem ofJson_of_read? {text : String} {d : Document} (h : read? text = some d) :
    ofJson text = ofDocument d := by
  rw [read?] at h
  rw [ofJson, State.document_of_complete? h, h]
  cases ofDocument d <;> rfl

theorem ofJson_written {t : Term} {o : Arrangement} (hnest : (t.written o).nesting ≤ maxNesting)
    (hread : t.Everywhere ReadsBack) :
    ofJson (t.written o).toText = verdict t (t.completion o) := by
  rw [ofJson_of_read? (read?_toText (numbersWellFormed_written o t))]
  exact decode_written hnest hread

theorem verdict_eq_ok_iff {α : Type} {a b : α} {nodes : List Term} :
    verdict a nodes = .ok b ↔ b = a ∧ ∀ s ∈ nodes, s.Fits ∧ s.Finite := by
  rw [verdict]
  cases h : nodes.findSome? flaw? with
  | some cause =>
    obtain ⟨s, hs, hflaw⟩ := List.exists_of_findSome?_eq_some h
    simp only [reduceCtorEq, false_iff, not_and]
    rintro rfl hall
    rw [flaw?_eq_none_iff.mpr (hall s hs)] at hflaw
    cases hflaw
  | none =>
    rw [List.findSome?_eq_none_iff] at h
    simp only [Except.ok.injEq, eq_comm, iff_self_and]
    rintro rfl s hs
    exact flaw?_eq_none_iff.mp (h s hs)

end Term

end Formula
