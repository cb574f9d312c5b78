import Formula.Proofs.Limit
import Formula.Proofs.Simulation

/-! # Behind the door

A term may be handed to an evaluator past the door that its operands come to. All of it then lies
one level higher than if the door had counted it, which nothing but the limit and the reports can
tell, so the two ways of evaluating it run in step.
-/

namespace Formula

open Eval

/-- What a failure turns into if everything lies one level further down. -/
def Failure.sunk : Failure → Failure
  | tooDeep depth limit => tooDeep (depth + 1) (limit + 1)
  | e => e

def Event.sunk : Event → Event
  | entered depth kind operator => entered (depth + 1) kind operator
  | event => event

/-- The same machine one level further down, with one more level to enter. -/
def Machine.sunk (m : Machine) : Machine :=
  { m with evaluator := { m.evaluator with
      context := { m.evaluator.context with limit := m.evaluator.context.limit + 1 }
      depth := m.evaluator.depth + 1 } }

theorem follows_sunk_iff {α : Type} {r r' : Except Failure α} :
    Follows (fun e => some e.sunk) r r' ↔ r' = r.mapError Failure.sunk := by
  cases r with
  | ok a => exact Iff.rfl
  | error e =>
    constructor
    · intro h
      exact h e.sunk rfl
    · intro h e' he'
      cases he'
      exact h

namespace Eval

theorem admission_sunk (m : Machine) :
    admission m.sunk = (admission m).mapError Failure.sunk := by
  unfold admission
  change (if m.isInterrupted then _ else if _ + 1 ≤ _ + 1 then _ else _) = _
  simp only [Nat.add_le_add_iff_right]
  split
  · rfl
  · split <;> rfl

theorem lookup_sunk (m : Machine) (name : String) :
    lookup m.sunk name = (lookup m name).mapError Failure.sunk := by
  have h : lookup m.sunk name = lookup m name := rfl
  rw [h, lookup]
  cases m.evaluator.valuation.get? name <;> rfl

theorem permission_sunk (m : Machine) (op : Operator) :
    permission m.sunk op = (permission m op).mapError Failure.sunk := by
  have h : permission m.sunk op = permission m op := rfl
  rw [h, permission]
  split <;> rfl

theorem entry_sunk (t : Term) (m : Machine) : entry t m.sunk = (entry t m).map Event.sunk := by
  rw [entry, entry, admission_sunk]
  cases admission m with
  | error e => exact Array.map_empty.symm
  | ok u =>
    change (if m.evaluator.context.tracing then _ else _) = Array.map _ (if _ then _ else _)
    split
    · rw [Array.map_singleton]
      rfl
    · exact Array.map_empty.symm

end Eval

theorem Machine.simulation_sunk : Simulation (fun e => some e.sunk) fun m m' => m' = m.sunk where
  ofTerm e he := by
    cases e with
    | tooDeep _ _ => cases he
    | _ => rfl
  library h := h ▸ rfl
  admission h := follows_sunk_iff.mpr (h ▸ admission_sunk _)
  deeper h := h ▸ rfl
  lookup h name := follows_sunk_iff.mpr (h ▸ lookup_sunk _ name)
  permission h op := follows_sunk_iff.mpr (h ▸ permission_sunk _ op)

namespace Term

theorem result_accept_sunk (t : Term) (m : Machine) :
    m.sunk.result t.accept = (m.result t.accept).mapError Failure.sunk :=
  follows_sunk_iff.mp (Machine.simulation_sunk.accept t rfl)

theorem slotResult_sunk (op : Operator) (slot : Option Term) (m : Machine) :
    slotResult m.sunk op slot = (slotResult m op slot).mapError Failure.sunk :=
  follows_sunk_iff.mp (Machine.simulation_sunk.slotResult op slot rfl)

theorem events_eval_sunk_of_accept {t : Term} {m : Machine}
    (h : ∀ m : Machine, m.sunk.events t.accept = (m.events t.accept).map Event.sunk) :
    m.sunk.events t.eval = (m.events t.eval).map Event.sunk := by
  have hdeeper : m.sunk.deeper = m.deeper.sunk := rfl
  rw [events_eval, events_eval, admission_sunk, entry_sunk, hdeeper, h]
  cases admission m with
  | error e => exact Array.map_empty.symm
  | ok u => exact Array.map_append.symm

theorem slotEvents_sunk {slot : Option Term} {m : Machine}
    (h : ∀ a, slot = some a → ∀ m : Machine,
      m.sunk.events a.accept = (m.events a.accept).map Event.sunk) :
    slotEvents m.sunk slot = (slotEvents m slot).map Event.sunk := by
  cases slot with
  | none => exact Array.map_empty.symm
  | some a => exact events_eval_sunk_of_accept (h a rfl)

theorem events_accept_sunk (t : Term) (m : Machine) :
    m.sunk.events t.accept = (m.events t.accept).map Event.sunk := by
  induction t generalizing m with
  | integer _ | number _ | rational _ _ | var _ | const _ =>
    rw [events_accept_of_isLeaf rfl, events_accept_of_isLeaf rfl, Array.map_empty]
  | function name a ih =>
    have hlibrary : m.sunk.evaluator.library = m.evaluator.library := rfl
    rw [events_accept_function, events_accept_function, hlibrary, events_eval_sunk_of_accept ih]
    split
    · rfl
    · exact Array.map_empty.symm
  | group a ih => exact events_eval_sunk_of_accept ih
  | expression op left right ihl ihr =>
    have hoperators : m.sunk.evaluator.operators = m.evaluator.operators := rfl
    rw [events_accept_expression, events_accept_expression, hoperators, slotEvents_sunk ihl,
      slotEvents_sunk ihr, slotResult_sunk]
    split
    · cases op.fixity with
      | between =>
        -- Whether the right operand is entered is up to how the left one ends, here as there.
        cases slotResult m op left with
        | ok x => exact Array.map_append.symm
        | error e => rfl
      | before | after => rfl
    · exact Array.map_empty.symm

theorem result_eval_of_isInterrupted {m : Machine} (hm : m.isInterrupted) (t : Term) :
    m.result t.eval = .error .interrupted := by
  rw [result_eval, admission, if_pos hm]
  rfl

/-- A leaf is not asked whether the evaluation is interrupted, nor on which level it lies. -/
theorem result_accept_of_isLeaf {m m' : Machine} {t : Term} (ht : t.isLeaf)
    (hvaluation : m'.evaluator.valuation = m.evaluator.valuation) :
    m'.result t.accept = m.result t.accept := by
  cases t with
  | integer _ | number _ => rfl
  | rational n d => exact (immediate_accept_rational n d).result_eq _ _
  | var name =>
    rw [result_accept_var_eq_lookup, result_accept_var_eq_lookup, lookup, lookup, hvaluation]
  | const name => exact (immediate_require _ _).result_eq _ _
  | function _ _ | group _ | expression _ _ _ => cases ht

theorem exists_operand_of_result_accept_eq_ok {m : Machine} {t : Term} {x : Float}
    (ht : ¬t.isLeaf) (h : m.result t.accept = .ok x) :
    ∃ a ∈ t.operands, ∃ y, m.result a.eval = .ok y := by
  cases t with
  | integer _ | number _ | rational _ _ | var _ | const _ => exact absurd rfl ht
  | function name a =>
    rw [result_accept_function, Except.bind_eq_ok_iff] at h
    obtain ⟨f, -, h⟩ := h
    obtain ⟨y, hy, -⟩ := Except.bind_eq_ok_iff.mp h
    exact ⟨a, List.mem_singleton_self a, y, hy⟩
  | group a => exact ⟨a, List.mem_singleton_self a, x, h⟩
  | expression op left right =>
    obtain ⟨a, _, y, _, -, -, hmem, -, hy, -⟩ | ⟨a, hmem, y, hy, -⟩ :=
      result_accept_expression_eq_ok h
    · exact ⟨a, hmem, y, hy⟩
    · exact ⟨a, hmem, y, hy⟩

theorem result_accept_ne_ok_of_isInterrupted {m : Machine} (hm : m.isInterrupted) {t : Term}
    (ht : ¬t.isLeaf) (x : Float) : m.result t.accept ≠ .ok x := by
  intro h
  obtain ⟨a, -, y, hy⟩ := exists_operand_of_result_accept_eq_ok ht h
  rw [result_eval_of_isInterrupted hm] at hy
  cases hy

/-- Behind the door everything lies one level higher, results and reports alike, and one level
fewer is counted. Only the door itself looks at the signal: a leaf behind it is evaluated in spite
of an interruption, while any other node comes to a door again. -/
theorem eval_accept_sunk (lib : Elementary) (v : Valuation) (context : Context) (signals : Signals)
    (operators : OperatorSet) (t : Term) :
    let inside := Machine.start lib v context signals operators
    let outside (limit : Nat) (signals : Signals) :=
      Machine.start lib v { context with limit } signals operators
    (¬signals.isRaised context.signal →
      (outside (context.limit + 1) signals).result t.eval =
          (inside.result t.accept).mapError Failure.sunk ∧
        (∀ depth limit, inside.result t.accept = .error (.tooDeep depth limit) →
          depth = context.limit + 1 ∧ limit = context.limit) ∧
        (context.tracing → (outside (context.limit + 1) signals).events t.eval =
          #[Event.visit (0, t)] ++ (inside.events t.accept).map Event.sunk)) ∧
      (signals.isRaised context.signal →
        (∀ limit, (outside limit signals).result t.eval = .error .interrupted) ∧
          (t.isLeaf → ∀ clear : Signals, ¬clear.isRaised context.signal →
            inside.result t.accept = (outside (context.limit + 1) clear).result t.eval) ∧
          (¬t.isLeaf → ∀ x, inside.result t.accept ≠ .ok x)) := by
  intro inside outside
  have hadmission (signals : Signals) (h : ¬signals.isRaised context.signal) :
      admission (outside (context.limit + 1) signals) = .ok () :=
    admission_eq_ok (m := outside (context.limit + 1) signals) h (Nat.succ_pos _)
  have hdeeper : (outside (context.limit + 1) signals).deeper = inside.sunk := rfl
  constructor
  · intro hclear
    have hresult : (outside (context.limit + 1) signals).result t.eval =
        (inside.result t.accept).mapError Failure.sunk := by
      rw [result_eval_of_admission_eq_ok (hadmission signals hclear), hdeeper, result_accept_sunk]
    refine ⟨hresult, ?_, ?_⟩
    · intro depth limit h
      rw [h] at hresult
      have hsunk := eq_of_result_eval_eq_tooDeep (Nat.zero_le _) hresult
      exact ⟨Nat.succ.inj hsunk.1, Nat.succ.inj hsunk.2⟩
    · intro htracing
      rw [events_eval, Eval.entry, hadmission signals hclear, hdeeper, events_accept_sunk]
      exact congrArg (· ++ _) (if_pos htracing)
  · intro hraised
    refine ⟨?_, ?_, ?_⟩
    · intro limit
      exact result_eval_of_isInterrupted (m := outside limit signals) hraised t
    · intro ht clear hclear
      rw [result_eval_of_admission_eq_ok (hadmission clear hclear)]
      exact result_accept_of_isLeaf ht rfl
    · intro ht
      exact result_accept_ne_ok_of_isInterrupted (m := inside) hraised ht

/-- One level decides about a sum with a group in it; when interrupted, its summand still has a
value behind the door. -/
theorem eval_accept_sunk_sum :
    let context : Context := { limit := 1, tracing := true }
    let raised := Signals.raise {} context.signal
    let start (limit : Nat) (signals : Signals) :=
      Machine.start .native ∅ { context with limit } signals .all
    let t := expression .add (some (integer 1)) (some (group (number 2)))
    ((start 1 {}).result t.accept = .error (.tooDeep 2 1) ∧
        (start 2 {}).result t.eval = .error (.tooDeep 3 2) ∧
        (start 1 {}).events t.accept = #[.entered 0 .integer "", .entered 0 .group ""] ∧
        (start 2 {}).events t.eval =
          #[.entered 0 .expression "+", .entered 1 .integer "", .entered 1 .group ""]) ∧
      (start 1 raised).result t.eval = .error .interrupted ∧
      (start 1 raised).result (integer 1).accept = .ok (nearestFloat 1) ∧
      ∀ x, (start 1 raised).result t.accept ≠ .ok x := by
  intro context raised start t
  obtain ⟨hclear, -⟩ := eval_accept_sunk .native ∅ context {} .all t
  obtain ⟨hresult, -, hevents⟩ := hclear (by decide)
  have haccept : (start 1 {}).result t.accept = .error (.tooDeep 2 1) := rfl
  have hreport : (start 1 {}).events t.accept = #[.entered 0 .integer "", .entered 0 .group ""] :=
    rfl
  have hsunk : #[.entered 0 .integer "", .entered 0 .group ""].map Event.sunk =
      #[.entered 1 .integer "", .entered 1 .group ""] := by simp [Event.sunk]
  obtain ⟨-, hraised⟩ := eval_accept_sunk .native ∅ context raised .all t
  obtain ⟨hinterrupted, -, hcomposite⟩ := hraised (by decide)
  obtain ⟨-, hraisedLeaf⟩ := eval_accept_sunk .native ∅ context raised .all (integer 1)
  obtain ⟨-, hleaf, -⟩ := hraisedLeaf (by decide)
  refine ⟨⟨haccept, ?_, hreport, ?_⟩, hinterrupted 1, ?_, hcomposite (by decide)⟩
  · exact hresult.trans (congrArg _ haccept)
  · apply (hevents rfl).trans
    change #[Event.visit (0, t)] ++ ((start 1 {}).events t.accept).map Event.sunk = _
    rw [hreport, hsunk]
    rfl
  · exact hleaf rfl {} (by decide)

end Term

end Formula
