import Formula.Term.Measure
import Formula.Term.Transcript

/-! # Going through a term

A walker is an interpretation that calls for the meaning of every operand, from left to right. It is
handed each node once, in pre-order and with the fields of that node, whatever it does on the way.
The counts that are reported of a term, which come from walks of their own, are those of this one.
-/

namespace Formula

universe u

/-- What a walker does to its state when a node is handed to it, between the operands of an
expression, and when it is done with them. -/
structure Walker (σ : Type u) where
  arrive : Term → σ → σ
  between : Term → σ → σ
  leave : Term → σ → σ

namespace Walker

variable {σ : Type u}

def leaf (w : Walker σ) (t : Term) (s : σ) : σ := w.leave t (w.arrive t s)

def enter (slot : Option (Operand (σ → σ))) (s : σ) : σ :=
  match slot with
  | some a => a.meaning () s
  | none => s

def interpretation (w : Walker σ) : Interpretation (σ → σ) where
  unsupported _ := id
  integer value := w.leaf (.integer value)
  number value := w.leaf (.number value)
  rational numerator denominator := w.leaf (.rational numerator denominator)
  var name := w.leaf (.var name)
  const name := w.leaf (.const name)
  function name a s :=
    let t := Term.function name a.term
    w.leave t (a.meaning () (w.arrive t s))
  group a s :=
    let t := Term.group a.term
    w.leave t (a.meaning () (w.arrive t s))
  expression op left right s :=
    let t := Term.expression op (left.map Operand.term) (right.map Operand.term)
    w.leave t (enter right (w.between t (enter left (w.arrive t s))))

/-- The same walker, which keeps a list of what it is handed besides. -/
def recording (w : Walker σ) : Walker (σ × List Term) where
  arrive t s := (w.arrive t s.1, s.2 ++ [t])
  between t s := (w.between t s.1, s.2)
  leave t s := (w.leave t s.1, s.2)

theorem arrive_recording (w : Walker σ) (t : Term) (s : σ) (seen : List Term) :
    w.recording.arrive t (s, seen) = (w.arrive t s, seen ++ [t]) := rfl

theorem between_recording (w : Walker σ) (t : Term) (s : σ) (seen : List Term) :
    w.recording.between t (s, seen) = (w.between t s, seen) := rfl

theorem leave_recording (w : Walker σ) (t : Term) (s : σ) (seen : List Term) :
    w.recording.leave t (s, seen) = (w.leave t s, seen) := rfl

/-- The nodes that a walker is handed on its way through a term, in this order. -/
def dispatches (w : Walker σ) (s : σ) (t : Term) : List Term :=
  (t.interpret w.recording.interpretation (s, [])).2

end Walker

namespace Term

variable {σ : Type u}

theorem map_term_asOperand (I : Interpretation (σ → σ)) (slot : Option Term) :
    (slot.map (asOperand I)).map Operand.term = slot := by
  cases slot <;> rfl

theorem interpret_expression_walker (w : Walker σ) (op : Operator) (left right : Option Term)
    (s : σ) :
    (expression op left right).interpret w.interpretation s =
      w.leave (expression op left right)
        (Walker.enter (right.map (asOperand w.interpretation))
          (w.between (expression op left right)
            (Walker.enter (left.map (asOperand w.interpretation))
              (w.arrive (expression op left right) s)))) := by
  rw [interpret_expression, Walker.interpretation]
  simp only [map_term_asOperand]

theorem enter_recording {w : Walker σ} {slot : Option Term}
    (h : ∀ a, slot = some a → ∀ (s : σ) (seen : List Term),
      a.interpret w.recording.interpretation (s, seen) =
        (a.interpret w.interpretation s, seen ++ a.subterms)) (s : σ) (seen : List Term) :
    Walker.enter (slot.map (asOperand w.recording.interpretation)) (s, seen) =
      (Walker.enter (slot.map (asOperand w.interpretation)) s,
        seen ++ slot.toList.flatMap subterms) := by
  cases slot with
  | none => rw [Option.toList_none, List.flatMap_nil, List.append_nil]; rfl
  | some a => rw [Option.toList_some, List.flatMap_singleton]; exact h a rfl s seen

theorem interpret_recording (w : Walker σ) (t : Term) (s : σ) (seen : List Term) :
    t.interpret w.recording.interpretation (s, seen) =
      (t.interpret w.interpretation s, seen ++ t.subterms) := by
  induction t generalizing s seen with
  | integer _ | number _ | rational _ _ | var _ | const _ => rfl
  | function name a ih =>
    have hoperand := ih (w.arrive (function name a) s) (seen ++ [function name a])
    rw [List.append_assoc] at hoperand
    exact congrArg (w.recording.leave (function name a)) hoperand
  | group a ih =>
    have hoperand := ih (w.arrive (group a) s) (seen ++ [group a])
    rw [List.append_assoc] at hoperand
    exact congrArg (w.recording.leave (group a)) hoperand
  | expression op left right ihl ihr =>
    rw [interpret_expression_walker, interpret_expression_walker, subterms_eq, children,
      List.flatMap_append]
    simp only [Walker.arrive_recording, enter_recording ihl, Walker.between_recording,
      enter_recording ihr, Walker.leave_recording, List.append_assoc, List.nil_append,
      List.cons_append]

/-- A walker is handed every node of a term once, in pre-order, and is not disturbed by the record
of it. The number of nodes and the height that are reported are those of the term. -/
theorem dispatches_eq_subterms (w : Walker σ) (s : σ) (t : Term) :
    w.dispatches s t = t.subterms ∧
      (t.interpret w.recording.interpretation (s, [])).1 = t.interpret w.interpretation s ∧
      t.interpret .transcript = (w.dispatches s t).map entry ∧
      (w.dispatches s t).length = t.nodeCount ∧ t.nodeCount = t.size ∧ t.depth = t.height := by
  have hrecording := interpret_recording w t s []
  have hdispatches : w.dispatches s t = t.subterms := congrArg Prod.snd hrecording
  refine ⟨hdispatches, congrArg Prod.fst hrecording, ?_, ?_, t.nodeCount_eq_size,
    t.depth_eq_height⟩
  · rw [hdispatches, interpret_transcript]
  · rw [hdispatches, length_subterms, nodeCount_eq_size]

end Term

end Formula
