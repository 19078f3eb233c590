/-!
# Limits

The bounds that keep described rules and bounded matches small. Rules built in code are held to none of them
until they are matched under a budget.
-/

namespace Backtrack.Limits

/-- Deepest nesting of a config that compiles. -/
def maxConfigDepth : Nat := 32

/-- Most children of one sequence or alternative in a config. -/
def maxChildren : Nat := 256

/-- Longest literal or character set in a config, in characters. -/
def maxLiteralLength : Nat := 512

/-- Most nodes of a rule that a config compiles to. -/
def maxRuleNodes : Nat := 2048

/-- Deepest nesting of evaluations in a bounded match. -/
def maxNesting : Nat := 2048

/-- A budget of evaluations for callers that have no better figure. -/
def defaultStepLimit : Nat := 1000000

/-- Node counts are 64-bit words and stay at their largest value once they reach it. -/
def maxWord : Nat := 0xFFFFFFFFFFFFFFFF

end Backtrack.Limits
