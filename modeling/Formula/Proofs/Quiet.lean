import Formula.Evaluation.Numeric

/-! # Quiet computations

A quiet computation adds events to those that are there and changes nothing else, and neither its
result nor the events it adds depend on those that are there. What an evaluation is put together
from is quiet, and most of it is immediate: it does not even look at the machine.
-/

namespace Formula

namespace Machine

variable {α β : Type}

def result (m : Machine) (x : Eval α) : Except Failure α := (m.perform x).1

def withLog (m : Machine) (log : Array Event) : Machine := { m with log }

def events (m : Machine) (x : Eval α) : Array Event := ((m.withLog #[]).perform x).2.log

end Machine

namespace Eval

variable {α β : Type} {x : Eval α} {f : α → Eval β}

def Quiet (x : Eval α) : Prop :=
  ∀ (m : Machine) (log : Array Event),
    (m.withLog log).perform x = (m.result x, m.withLog (log ++ m.events x))

/-- Quietness is shown by saying what the result is and which events are added. -/
theorem quiet_of_perform {r : Machine → Except Failure α} {l : Machine → Array Event}
    (h : ∀ m log, (m.withLog log).perform x = (r m, m.withLog (log ++ l m))) :
    Quiet x ∧ (∀ m : Machine, m.result x = r m) ∧ ∀ m : Machine, m.events x = l m := by
  have hresult (m : Machine) : m.result x = r m := congrArg Prod.fst (h m m.log)
  have hevents (m : Machine) : m.events x = l m := by
    rw [Machine.events, h]
    exact Array.empty_append
  refine ⟨?_, hresult, hevents⟩
  intro m log
  rw [h, hresult, hevents]

theorem Quiet.perform_eq (hx : Quiet x) (m : Machine) :
    m.perform x = (m.result x, m.withLog (m.log ++ m.events x)) := hx m m.log

theorem Quiet.result_withLog (hx : Quiet x) (m : Machine) (log : Array Event) :
    (m.withLog log).result x = m.result x := by
  rw [Machine.result, hx]

theorem quiet_pure (a : α) : Quiet (pure a : Eval α) := by
  refine (quiet_of_perform (r := fun _ => .ok a) (l := fun _ => #[]) fun m log => ?_).1
  rw [Machine.perform_pure, Array.append_empty]

theorem quiet_throw (e : Failure) : Quiet (throw e : Eval α) := by
  refine (quiet_of_perform (r := fun _ => .error e) (l := fun _ => #[]) fun m log => ?_).1
  rw [Machine.perform_throw, Array.append_empty]

theorem perform_bind_of_quiet (hx : Quiet x) (hf : ∀ a, Quiet (f a)) (m : Machine)
    (log : Array Event) :
    (m.withLog log).perform (x >>= f) =
      (m.result x >>= fun a => m.result (f a),
        m.withLog (log ++ match m.result x with
          | .ok a => m.events x ++ m.events (f a)
          | .error _ => m.events x)) := by
  rw [Machine.perform_bind, hx]
  cases m.result x with
  | ok a =>
    change (m.withLog (log ++ m.events x)).perform (f a) = _
    rw [hf, Array.append_assoc]
    rfl
  | error e => rfl

theorem Quiet.bind (hx : Quiet x) (hf : ∀ a, Quiet (f a)) : Quiet (x >>= f) :=
  (quiet_of_perform (perform_bind_of_quiet hx hf)).1

theorem result_bind (hx : Quiet x) (hf : ∀ a, Quiet (f a)) (m : Machine) :
    m.result (x >>= f) = m.result x >>= fun a => m.result (f a) :=
  (quiet_of_perform (perform_bind_of_quiet hx hf)).2.1 m

theorem events_bind (hx : Quiet x) (hf : ∀ a, Quiet (f a)) (m : Machine) :
    m.events (x >>= f) =
      match m.result x with
      | .ok a => m.events x ++ m.events (f a)
      | .error _ => m.events x :=
  (quiet_of_perform (perform_bind_of_quiet hx hf)).2.2 m

/-- A computation may look at the machine as long as it does not look at the events. -/
theorem quiet_get_bind {g : Machine → Eval β} (hg : ∀ m, Quiet (g m))
    (hlog : ∀ m log, g (m.withLog log) = g m) : Quiet (get >>= g) := by
  refine (quiet_of_perform (r := fun m => m.result (g m)) (l := fun m => m.events (g m))
    fun m log => ?_).1
  rw [Machine.perform_bind, Machine.perform_get]
  change (m.withLog log).perform (g (m.withLog log)) = _
  rw [hlog, hg]

theorem result_get_bind (g : Machine → Eval β) (m : Machine) :
    m.result (get >>= g) = m.result (g m) := by
  rw [Machine.result, Machine.perform_bind, Machine.perform_get]
  rfl

theorem events_get_bind {g : Machine → Eval β} (hlog : ∀ m log, g (m.withLog log) = g m)
    (m : Machine) : m.events (get >>= g) = m.events (g m) := by
  rw [Machine.events, Machine.perform_bind, Machine.perform_get]
  change ((m.withLog #[]).perform (g (m.withLog #[]))).2.log = _
  rw [hlog]
  rfl

/-- A computation that ends at once, in the same way on every machine. -/
inductive Immediate : Eval α → Prop
  | pure (a : α) : Immediate (pure a)
  | throw (e : Failure) : Immediate (throw e)

theorem Immediate.quiet (hx : Immediate x) : Quiet x := by
  cases hx with
  | pure a => exact quiet_pure a
  | throw e => exact quiet_throw e

theorem Immediate.result_eq (hx : Immediate x) (m m' : Machine) : m.result x = m'.result x := by
  cases hx <;> rfl

theorem Immediate.events_eq (hx : Immediate x) (m : Machine) : m.events x = #[] := by
  cases hx <;> rfl

theorem events_bind_of_immediate (hx : Quiet x) (hf : ∀ a, Immediate (f a)) (m : Machine) :
    m.events (x >>= f) = m.events x := by
  rw [events_bind hx fun a => (hf a).quiet]
  cases m.result x with
  | ok a =>
    change m.events x ++ m.events (f a) = _
    rw [(hf a).events_eq, Array.append_empty]
  | error e => rfl

theorem immediate_require (a : Option α) (e : Failure) : Immediate (require a e) := by
  cases a with
  | none => exact .throw e
  | some a => exact .pure a

theorem immediate_inDomain (operation : String) (input value : Float) :
    Immediate (inDomain operation input value) := by
  unfold inDomain
  split
  · exact .throw _
  · exact .pure _

theorem immediate_applyUnary (op : Operator) (a : Float) : Immediate (applyUnary op a) := by
  unfold applyUnary
  split
  · exact .pure _
  · exact immediate_inDomain _ _ _
  · exact immediate_require _ _
  · exact .throw _

theorem immediate_applyBinary (lib : Elementary) (op : Operator) (a b : Float) :
    Immediate (applyBinary lib op a b) := by
  unfold applyBinary
  split
  · exact .pure _
  · exact .pure _
  · exact .pure _
  · split
    · exact .throw _
    · exact .pure _
  · exact immediate_inDomain _ _ _
  · exact .throw _

def admission (m : Machine) : Except Failure Unit :=
  if m.isInterrupted then .error .interrupted
  else if m.evaluator.context.limit ≤ m.evaluator.depth then
    .error (.tooDeep (m.evaluator.depth + 1) m.evaluator.context.limit)
  else .ok ()

theorem admission_eq_ok {m : Machine} (hclear : ¬m.isInterrupted)
    (hdepth : m.evaluator.depth < m.evaluator.context.limit) : admission m = .ok () := by
  rw [admission, if_neg hclear, if_neg (Nat.not_le_of_lt hdepth)]

theorem depth_lt_of_admission_eq_ok {m : Machine} (h : admission m = .ok ()) :
    m.evaluator.depth < m.evaluator.context.limit := by
  unfold admission at h
  split at h
  · cases h
  · split at h
    · cases h
    · exact Nat.lt_of_not_le ‹_›

def permission (m : Machine) (op : Operator) : Except Failure Unit :=
  if op ∈ m.evaluator.operators then .ok () else .error (.unknownOperator op)

theorem permission_eq_ok_iff {m : Machine} {op : Operator} {u : Unit} :
    permission m op = .ok u ↔ op ∈ m.evaluator.operators := by
  simp [permission]

theorem permission_eq_error_iff {m : Machine} {op : Operator} {e : Failure} :
    permission m op = .error e ↔ op ∉ m.evaluator.operators ∧ e = .unknownOperator op := by
  unfold permission
  split
  · simp_all
  · simp_all [eq_comm]

def entry (t : Term) (m : Machine) : Array Event :=
  match admission m with
  | .error _ => #[]
  | .ok _ =>
    if m.evaluator.context.tracing then #[.entered m.evaluator.depth t.kind t.operatorSymbol]
    else #[]

theorem perform_check_withLog (t : Term) (m : Machine) (log : Array Event) :
    (m.withLog log).perform (check t) = (admission m, m.withLog (log ++ entry t m)) := by
  have hnothing : m.withLog log = m.withLog (log ++ #[]) := by rw [Array.append_empty]
  rw [perform_check, entry, admission]
  change (if m.isInterrupted then _ else if m.evaluator.context.limit ≤ m.evaluator.depth then _
    else if m.evaluator.context.tracing then _ else _) = _
  by_cases hi : m.isInterrupted
  · rw [if_pos hi, if_pos hi, ← hnothing]
  rw [if_neg hi, if_neg hi]
  by_cases hdepth : m.evaluator.context.limit ≤ m.evaluator.depth
  · rw [if_pos hdepth, if_pos hdepth, ← hnothing]
    rfl
  rw [if_neg hdepth, if_neg hdepth]
  by_cases htracing : m.evaluator.context.tracing
  · rw [if_pos htracing, if_pos htracing]
    rfl
  · rw [if_neg htracing, if_neg htracing, ← hnothing]

theorem quiet_check (t : Term) : Quiet (check t) :=
  (quiet_of_perform (perform_check_withLog t)).1

theorem result_check (t : Term) (m : Machine) : m.result (check t) = admission m :=
  (quiet_of_perform (perform_check_withLog t)).2.1 m

theorem events_check (t : Term) (m : Machine) : m.events (check t) = entry t m :=
  (quiet_of_perform (perform_check_withLog t)).2.2 m

theorem perform_oneLevelDown_withLog (hx : Quiet x) (m : Machine) (log : Array Event) :
    (m.withLog log).perform (oneLevelDown x) =
      (m.deeper.result x, m.withLog (log ++ m.deeper.events x)) := by
  have h : (m.withLog log).deeper.perform x =
      (m.deeper.result x, m.deeper.withLog (log ++ m.deeper.events x)) := hx m.deeper log
  rw [perform_oneLevelDown, h]
  rfl

theorem Quiet.enter (hx : Quiet x) (t : Term) : Quiet (enter t x) :=
  (quiet_check t).bind fun _ => (quiet_of_perform (perform_oneLevelDown_withLog hx)).1

theorem result_enter (hx : Quiet x) (t : Term) (m : Machine) :
    m.result (enter t x) = admission m >>= fun _ => m.deeper.result x := by
  have hdown := quiet_of_perform (perform_oneLevelDown_withLog hx)
  rw [Eval.enter, result_bind (quiet_check t) fun _ => hdown.1, result_check]
  exact congrArg (admission m >>= ·) (funext fun _ => hdown.2.1 m)

theorem events_enter (hx : Quiet x) (t : Term) (m : Machine) :
    m.events (enter t x) =
      match admission m with
      | .ok _ => entry t m ++ m.deeper.events x
      | .error _ => #[] := by
  have hdown := quiet_of_perform (perform_oneLevelDown_withLog hx)
  rw [Eval.enter, events_bind (quiet_check t) fun _ => hdown.1, result_check, events_check,
    hdown.2.2, entry]
  cases admission m <;> rfl

end Eval

theorem Term.immediate_accept_rational (n d : Int64) : Eval.Immediate (rational n d).accept := by
  change Eval.Immediate (if d = 0 then _ else _)
  split
  · exact .throw _
  · exact .pure _

end Formula
