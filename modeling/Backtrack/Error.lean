import Backtrack.Text.Quoted
import Backtrack.Text.Structured

/-!
# Errors

Why a rule could not be built, or why a bounded match gave up. A plain match never fails: a rule that does not
match answers `false`.
-/

namespace Backtrack

inductive RuleError where
  /-- A composite of the named kind was given no rules. -/
  | emptyComposite (kind : String)
  | depthExceeded (depth max : Nat)
  | tooManyRules (count max : Nat)
  | literalTooLong (length max : Nat)
  | tooManyNodes (nodes max : Nat)
  /-- A bounded match had to nest more deeply than its limit before it found a match. -/
  | recursionLimitExceeded (limit : Nat)
  /-- A bounded match spent its budget before it found a match. -/
  | stepLimitExceeded (limit : Nat)
  | invalidConfig (message : String)
  deriving DecidableEq, Repr

namespace RuleError

def message : RuleError → String
  | emptyComposite kind => s!"{kind} requires at least one rule"
  | depthExceeded depth max =>
    s!"rule nesting depth is {depth}, but maximum allowed is {max}; flatten the rule or split it into smaller pieces"
  | tooManyRules count max => s!"composite rule has {count} children, but maximum allowed is {max}"
  | literalTooLong length max => s!"literal length is {length}, but maximum allowed is {max}"
  | tooManyNodes nodes max => s!"rule compiles to {nodes} nodes, but maximum allowed is {max}"
  | recursionLimitExceeded limit =>
    s!"match gave up at nesting depth {limit}; the input is too long for this rule"
  | stepLimitExceeded limit =>
    s!"match gave up after {limit} steps; the rule backtracks too much for this input"
  | invalidConfig message => s!"invalid config: {message}"

def debug : RuleError → String
  | emptyComposite kind => Text.record "EmptyComposite" [("kind", Text.quoteString kind)]
  | depthExceeded depth max => Text.record "DepthExceeded" [("depth", toString depth), ("max", toString max)]
  | tooManyRules count max => Text.record "TooManyRules" [("count", toString count), ("max", toString max)]
  | literalTooLong length max => Text.record "LiteralTooLong" [("len", toString length), ("max", toString max)]
  | tooManyNodes nodes max => Text.record "TooManyNodes" [("nodes", toString nodes), ("max", toString max)]
  | recursionLimitExceeded limit => Text.record "RecursionLimitExceeded" [("limit", toString limit)]
  | stepLimitExceeded limit => Text.record "StepLimitExceeded" [("limit", toString limit)]
  | invalidConfig message => Text.record "InvalidConfig" [("message", Text.quoteString message)]

end RuleError

end Backtrack
