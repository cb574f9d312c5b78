import Formula.Evaluation.Failure
import Formula.Token

/-! # Events

What a component reports of its work, apart from its result.
-/

namespace Formula

inductive Event.Level where
  | trace
  | debug
  deriving DecidableEq, Repr

inductive Event where
  /-- No term begins with the token. -/
  | unmatched (token : Token)
  | started (kind : Kind) (nodes depth names : Nat)
  | finished (value : Float)
  | failed (failure : Failure)
  /-- The evaluator enters a node that lies `depth` levels below the one it began with. -/
  | entered (depth : Nat) (kind : Kind) (operator : String)
  deriving DecidableEq

namespace Event

def level : Event → Level
  | unmatched _ | entered _ _ _ => .trace
  | started _ _ _ _ | finished _ | failed _ => .debug

def message : Event → String
  | unmatched _ => "no node for token"
  | started _ _ _ _ => "evaluate"
  | finished _ => "evaluate finished"
  | failed _ => "evaluate failed"
  | entered _ _ _ => "evaluating node"

end Event

end Formula
