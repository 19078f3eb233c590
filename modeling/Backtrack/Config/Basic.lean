import Backtrack.Limits
import Backtrack.Text.Quoted
import Backtrack.Text.Structured

/-!
# Configs

A config describes a rule as data. It knows neither custom rules nor shared parts, and its sequences and
alternatives have any number of children.
-/

set_option autoImplicit false

namespace Backtrack

inductive Config where
  | any
  /-- One character of a set, which is written as a string of its members. -/
  | oneOf (set : String)
  | val (value : String)
  | empty
  | end
  | optional (rule : Config)
  | many (rule : Config)
  | oneOrMore (rule : Config)
  /-- The inner rule, and then the input is exhausted. -/
  | eof (rule : Config)
  | sequence (rules : List Config)
  | alternative (rules : List Config)

namespace Config

mutual

def same : Config → Config → Bool
  | any, any => true
  | oneOf set, oneOf set' => set == set'
  | val value, val value' => value == value'
  | empty, empty => true
  | .end, .end => true
  | optional c, optional d => c.same d
  | many c, many d => c.same d
  | oneOrMore c, oneOrMore d => c.same d
  | eof c, eof d => c.same d
  | sequence cs, sequence ds => sameAll cs ds
  | alternative cs, alternative ds => sameAll cs ds
  | _, _ => false

def sameAll : List Config → List Config → Bool
  | [], [] => true
  | c :: cs, d :: ds => c.same d && sameAll cs ds
  | _, _ => false

end

mutual

theorem same_iff (c d : Config) : c.same d = true ↔ c = d := by
  cases c <;> cases d <;> simp [same, same_iff, sameAll_iff]

theorem sameAll_iff (cs ds : List Config) : sameAll cs ds = true ↔ cs = ds := by
  cases cs <;> cases ds <;> simp [sameAll, same_iff, sameAll_iff]

end

instance : DecidableEq Config := fun c d => decidable_of_iff _ (same_iff c d)

mutual

/-- Levels of the config. Leaves are at 1. -/
def depth : Config → Nat
  | optional c => 1 + c.depth
  | many c => 1 + c.depth
  | oneOrMore c => 1 + c.depth
  | eof c => 1 + c.depth
  | sequence cs => 1 + depthAll cs
  | alternative cs => 1 + depthAll cs
  | _ => 1

def depthAll : List Config → Nat
  | [] => 0
  | c :: cs => max c.depth (depthAll cs)

end

/-- Addition of words that stay at their largest value. -/
def addCapped (a b : Nat) : Nat := min (a + b) Limits.maxWord

def mulCapped (a b : Nat) : Nat := min (a * b) Limits.maxWord

/-- Nodes of the literal of `n` characters: the characters and the appends between them. -/
def literalNodes : Nat → Nat
  | 0 => 1
  | n => mulCapped n 2 - 1

mutual

/-- Nodes of the rule that the config compiles to, every occurrence counted, as a capped word. -/
def nodeCount : Config → Nat
  | val value => literalNodes value.length
  | optional c => addCapped c.nodeCount 1
  | many c => addCapped c.nodeCount 1
  | oneOrMore c => addCapped (mulCapped c.nodeCount 2) 2
  | eof c => addCapped c.nodeCount 2
  | sequence cs => nodeCountAll (cs.length - 1) cs
  | alternative cs => nodeCountAll (cs.length - 1) cs
  | _ => 1

/-- Adds the nodes of several configs to those already counted. -/
def nodeCountAll (counted : Nat) : List Config → Nat
  | [] => counted
  | c :: cs => nodeCountAll (addCapped counted c.nodeCount) cs

end

mutual

def debug : Config → String
  | any => "Any"
  | oneOf set => Text.record "OneOf" [("set", Text.quoteString set)]
  | val value => Text.record "Val" [("value", Text.quoteString value)]
  | empty => "Empty"
  | .end => "End"
  | optional c => Text.record "Optional" [("rule", c.debug)]
  | many c => Text.record "Many" [("rule", c.debug)]
  | oneOrMore c => Text.record "OneOrMore" [("rule", c.debug)]
  | eof c => Text.record "Eof" [("rule", c.debug)]
  | sequence cs => Text.record "Sequence" [("rules", Text.list (debugAll cs))]
  | alternative cs => Text.record "Alternative" [("rules", Text.list (debugAll cs))]

def debugAll : List Config → List String
  | [] => []
  | c :: cs => c.debug :: debugAll cs

end

end Config

end Backtrack
