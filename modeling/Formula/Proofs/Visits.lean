import Formula.Proofs.Operands
import Formula.Proofs.Quiet

/-! # Visits

What an evaluation reports of its way through a term: the nodes that it enters are the first ones of
`Term.visits`, in that order and at those levels, and all of them if it comes to a value.
-/

namespace Formula

open Eval

def Event.visit (visit : Nat × Term) : Event :=
  .entered visit.1 visit.2.kind visit.2.operatorSymbol

/-- The nodes that a computation enters stand at the front of a list and within the limit; a
computation that ends with a value has entered the whole list. -/
structure Eval.Enters {α : Type} (m : Machine) (x : Eval α) (visits entered : List (Nat × Term)) :
    Prop where
  front : entered <+: visits
  limit : ∀ visit ∈ entered, visit.1 < m.evaluator.context.limit
  complete : ∀ a, m.result x = .ok a → entered = visits
  events : m.events x =
    if m.evaluator.context.tracing then (entered.map Event.visit).toArray else #[]

/-- The list is given by the level on which the computation begins. -/
structure Eval.Lists {α : Type} (x : Eval α) (visits : Nat → List (Nat × Term)) : Prop where
  quiet : Quiet x
  enters : ∀ m : Machine, ∃ entered, Enters m x (visits m.evaluator.depth) entered

namespace Eval

variable {α β : Type} {x : Eval α} {f : α → Eval β} {visits later : Nat → List (Nat × Term)}

theorem events_pure (m : Machine) (a : α) : m.events (pure a : Eval α) = #[] := rfl

theorem events_throw (m : Machine) (e : Failure) : m.events (throw e : Eval α) = #[] := rfl

theorem Enters.nothing {m : Machine} {list : List (Nat × Term)} (hevents : m.events x = #[])
    (hcomplete : ∀ a, m.result x = .ok a → [] = list) : Enters m x list [] where
  front := List.nil_prefix
  limit visit hvisit := by cases hvisit
  complete := hcomplete
  events := by
    rw [hevents]
    split <;> rfl

theorem lists_pure (a : α) : Lists (pure a : Eval α) fun _ => [] where
  quiet := quiet_pure a
  enters m := ⟨[], .nothing (events_pure m a) fun _ _ => rfl⟩

/-- A computation that fails at once may stand for any list. -/
theorem lists_throw (e : Failure) (visits : Nat → List (Nat × Term)) :
    Lists (throw e : Eval α) visits where
  quiet := quiet_throw e
  enters m := by
    refine ⟨[], .nothing (events_throw m e) ?_⟩
    intro a ha
    cases ha

theorem Immediate.lists (hx : Immediate x) : Lists x fun _ => [] := by
  cases hx with
  | pure a => exact lists_pure a
  | throw e => exact lists_throw e _

theorem Lists.bind (hx : Lists x visits) (hf : ∀ a, Lists (f a) later) :
    Lists (x >>= f) fun level => visits level ++ later level where
  quiet := hx.quiet.bind fun a => (hf a).quiet
  enters m := by
    have hbind := result_bind hx.quiet (fun a => (hf a).quiet) m
    have hevents := events_bind hx.quiet (fun a => (hf a).quiet) m
    obtain ⟨entered, hentered⟩ := hx.enters m
    cases hresult : m.result x with
    | error e =>
      rw [hresult] at hbind hevents
      refine ⟨entered, hentered.front.trans (List.prefix_append _ _), hentered.limit, ?_, ?_⟩
      · intro b hb
        rw [hbind] at hb
        cases hb
      · rw [hevents, hentered.events]
    | ok a =>
      rw [hresult] at hbind hevents
      obtain ⟨entered', hentered'⟩ := (hf a).enters m
      have hall := hentered.complete a hresult
      subst hall
      refine ⟨_ ++ entered', (List.prefix_append_right_inj _).mpr hentered'.front, ?_, ?_, ?_⟩
      · intro visit hvisit
        obtain hvisit | hvisit := List.mem_append.mp hvisit
        · exact hentered.limit visit hvisit
        · exact hentered'.limit visit hvisit
      · intro b hb
        rw [hbind] at hb
        rw [hentered'.complete b hb]
      · rw [hevents]
        simp only [hentered.events, hentered'.events]
        split <;> simp

theorem Lists.get_bind {g : Machine → Eval β} (hg : ∀ m, Lists (g m) visits)
    (hlog : ∀ m log, g (m.withLog log) = g m) : Lists (get >>= g) visits where
  quiet := quiet_get_bind (fun m => (hg m).quiet) hlog
  enters m := by
    obtain ⟨entered, hentered⟩ := (hg m).enters m
    refine ⟨entered, hentered.front, hentered.limit, ?_, ?_⟩
    · intro b hb
      rw [result_get_bind] at hb
      exact hentered.complete b hb
    · rw [events_get_bind hlog, hentered.events]

theorem Lists.enter (hx : Lists x visits) (t : Term) :
    Lists (enter t x) fun level => (level, t) :: visits (level + 1) where
  quiet := hx.quiet.enter t
  enters m := by
    have hresult := result_enter hx.quiet t m
    have hevents := events_enter hx.quiet t m
    obtain ⟨entered, hentered⟩ := hx.enters m.deeper
    cases hadmission : admission m with
    | error e =>
      rw [hadmission] at hresult hevents
      refine ⟨[], .nothing hevents ?_⟩
      intro a ha
      rw [hresult] at ha
      cases ha
    | ok _ =>
      rw [hadmission] at hresult hevents
      refine ⟨(m.evaluator.depth, t) :: entered, ?_, ?_, ?_, ?_⟩
      · exact (List.prefix_cons_inj _).mpr hentered.front
      · intro visit hvisit
        obtain rfl | hvisit := List.mem_cons.mp hvisit
        · exact depth_lt_of_admission_eq_ok hadmission
        · exact hentered.limit visit hvisit
      · intro a ha
        rw [hresult] at ha
        rw [hentered.complete a ha]
        rfl
      · rw [hevents, hentered.events, entry, hadmission]
        change (if m.evaluator.context.tracing then _ else _) ++
          (if m.evaluator.context.tracing then _ else _) = _
        split
        · simp [Event.visit]
        · rfl

end Eval

namespace Term

theorem lists_eval_of_accept {t : Term}
    (h : Lists t.accept fun level => t.operands.flatMap (visits level)) :
    Lists t.eval fun level => t.visits level := by
  simp only [visits_eq _ t]
  exact h.enter t

theorem lists_slotValue (op : Operator) {slot : Option Term}
    (h : ∀ a, slot = some a → Lists a.accept fun level => a.operands.flatMap (visits level)) :
    Lists (slotValue op (slot.map (asOperand .numeric))) fun level =>
      slot.toList.flatMap (visits level) := by
  cases slot with
  | none => exact lists_throw _ _
  | some a =>
    simp only [Option.toList_some, List.flatMap_cons, List.flatMap_nil, List.append_nil]
    exact lists_eval_of_accept (h a rfl)

theorem lists_accept (t : Term) :
    Lists t.accept fun level => t.operands.flatMap (visits level) := by
  induction t with
  | integer n => exact lists_pure _
  | number x => exact lists_pure _
  | rational n d => exact (immediate_accept_rational n d).lists
  | var name => exact .get_bind (fun m => (immediate_require _ _).lists) fun m log => rfl
  | const name => exact (immediate_require _ _).lists
  | function name a ih =>
    refine .get_bind (fun m => ?_) fun m log => rfl
    have hcall (f : Float → Float) :=
      (lists_eval_of_accept ih).bind fun x => (immediate_inDomain name x (f x)).lists
    have h := (immediate_require (Builtin.function? m.evaluator.library name)
      (.unknownFunction name)).lists.bind hcall
    simp only [operands, List.flatMap_cons, List.flatMap_nil]
    exact h
  | group a ih =>
    simp only [operands, List.flatMap_cons, List.flatMap_nil, List.append_nil]
    exact lists_eval_of_accept ih
  | expression op left right ihl ihr =>
    rw [accept, interpret_expression]
    refine .get_bind (fun m => ?_) fun m log => rfl
    have hleft := lists_slotValue op ihl
    have hright := lists_slotValue op ihr
    split
    · simp only [operands]
      cases op.fixity with
      | between =>
        have h := hleft.bind fun x => hright.bind fun y =>
          (immediate_applyBinary m.evaluator.library op x y).lists
        simpa only [List.flatMap_append, List.append_nil] using h
      | before =>
        have h := hright.bind fun x => (immediate_applyUnary op x).lists
        simpa only [List.append_nil] using h
      | after =>
        have h := hleft.bind fun x => (immediate_applyUnary op x).lists
        simpa only [List.append_nil] using h
    · exact lists_throw _ _

theorem lists_eval (t : Term) : Lists t.eval fun level => t.visits level :=
  lists_eval_of_accept t.lists_accept

theorem quiet_accept (t : Term) : Quiet t.accept := t.lists_accept.quiet

theorem quiet_eval (t : Term) : Quiet t.eval := t.lists_eval.quiet

end Term

end Formula
