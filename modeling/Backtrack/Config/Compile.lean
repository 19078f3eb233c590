import Backtrack.Config.Basic
import Backtrack.Event
import Backtrack.Rule.Build
import Backtrack.Rule.Outline

/-!
# Compiling configs

Only a config within the limits compiles to a rule. Its nesting is checked first. Then the rule is built, and whatever
stands in the way on the way down is reported: literals and sets that are too long, composites with too many children
or with none. The total size is checked last.
-/

set_option autoImplicit false

namespace Backtrack.Config

variable {σ : Type}

/-- Refuses a literal or a set that is too long. -/
def checkLiteral (s : String) : Except RuleError Unit :=
  if s.length > Limits.maxLiteralLength then .error (.literalTooLong s.length Limits.maxLiteralLength)
  else .ok ()

/-- Refuses too many children. -/
def checkWidth (cs : List Config) : Except RuleError Unit :=
  if cs.length > Limits.maxChildren then .error (.tooManyRules cs.length Limits.maxChildren)
  else .ok ()

mutual

/-- Builds the rule of a config, whatever its nesting and its total size. -/
def build : Config → Except RuleError (Rule σ)
  | any => return .any
  | oneOf set => do
    checkLiteral set
    return .oneOf (.ofString set)
  | val value => do
    checkLiteral value
    return .literal value.toList
  | empty => return .empty
  | .end => return .end
  | optional c => return .optional (← c.build)
  | many c => return .many (← c.build)
  | oneOrMore c => return .oneOrMore (← c.build)
  | eof c => return .eof (← c.build)
  | sequence cs => do
    checkWidth cs
    Rule.trySequence (← buildAll cs)
  | alternative cs => do
    checkWidth cs
    Rule.tryAlternative (← buildAll cs)

/-- Builds children from left to right, up to the first that cannot be built. -/
def buildAll : List Config → Except RuleError (List (Rule σ))
  | [] => return []
  | c :: cs => return (← c.build) :: (← buildAll cs)

end

/-- The rule of a config, or the first limit that the config breaks. -/
def compile (c : Config) : Except RuleError (Rule σ) := do
  if c.depth > Limits.maxConfigDepth then throw (.depthExceeded c.depth Limits.maxConfigDepth)
  let rule ← c.build
  if c.nodeCount > Limits.maxRuleNodes then throw (.tooManyNodes c.nodeCount Limits.maxRuleNodes)
  return rule

/-- What compiling the config reports to the log. What stands in the way of building it is not reported. -/
def compileEvent? (c : Config) : Option Event :=
  match (c.compile : Except RuleError (Rule Unit)) with
  | .ok rule => some (.configCompiled c.depth c.nodeCount (rule.display ()))
  | .error (.depthExceeded depth max) => some (.configTooDeep depth max)
  | .error (.tooManyNodes nodes max) => some (.configTooLarge nodes max)
  | .error _ => none

end Backtrack.Config
