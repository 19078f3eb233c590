/-!
# Events

What the library has to report for a log: how a bounded match ended, and what became of a config. Each event has
a level, a message and named values in a fixed order.
-/

namespace Backtrack

inductive Level where
  | warn
  | debug
  deriving DecidableEq, Repr

inductive Topic where
  | matching
  | configuring
  deriving DecidableEq, Repr

inductive FieldValue where
  | number (n : Nat)
  | truth (b : Bool)
  | text (s : String)
  deriving DecidableEq, Repr

inductive Event where
  /-- A bounded match gave up at its nesting limit. -/
  | nestingExceeded (limit inputSize : Nat)
  /-- A bounded match gave up with its budget spent. -/
  | budgetSpent (limit inputSize : Nat)
  /-- A bounded match reached a verdict. -/
  | matchFinished (steps : Nat) (matched : Bool)
  | configTooDeep (depth max : Nat)
  | configTooLarge (nodes max : Nat)
  | configCompiled (depth nodes : Nat) (rule : String)
  deriving DecidableEq, Repr

namespace Event

def level : Event → Level
  | nestingExceeded .. | budgetSpent .. => .warn
  | _ => .debug

def topic : Event → Topic
  | nestingExceeded .. | budgetSpent .. | matchFinished .. => .matching
  | _ => .configuring

def message : Event → String
  | nestingExceeded .. => "rule exceeded its nesting limit"
  | budgetSpent .. => "rule exceeded its step budget"
  | matchFinished .. => "bounded match finished"
  | configTooDeep .. => "rejected rule config: too deep"
  | configTooLarge .. => "rejected rule config: too large"
  | configCompiled .. => "compiled rule config"

def fields : Event → List (String × FieldValue)
  | nestingExceeded limit inputSize => [("limit", .number limit), ("input_len", .number inputSize)]
  | budgetSpent limit inputSize => [("limit", .number limit), ("input_len", .number inputSize)]
  | matchFinished steps matched => [("steps", .number steps), ("matched", .truth matched)]
  | configTooDeep depth max => [("depth", .number depth), ("max", .number max)]
  | configTooLarge nodes max => [("nodes", .number nodes), ("max", .number max)]
  | configCompiled depth nodes rule => [("depth", .number depth), ("nodes", .number nodes), ("rule", .text rule)]

end Event

end Backtrack
