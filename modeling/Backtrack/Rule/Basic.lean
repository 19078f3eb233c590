import Backtrack.CharSet
import Backtrack.Input

/-!
# Rules

A rule says which beginnings of an input it can consume. Rules are finite trees over ten kinds of node. Nine of
them are fixed; the tenth, `custom`, is whatever its author wants, told as a dialogue with the search: a custom
rule sees the input, offers remainders onward, runs other rules, and finally answers.

Rules are indexed by the type `σ` of what custom rules share and may change while they match. A rule without
custom nodes fits every `σ`. Apart from that, each call of a custom rule has a memory of its own, which what it hands
to the rules it runs can read and change too, and which is gone when the call has answered.
-/

namespace Backtrack

inductive Kind where
  | any | oneOf | val | empty | end | append | or | optional | many | custom
  deriving DecidableEq, Repr

namespace Kind

def all : List Kind := [any, oneOf, val, empty, .end, append, or, optional, many, custom]

def name : Kind → String
  | any => "any"
  | oneOf => "one_of"
  | val => "val"
  | empty => "empty"
  | .end => "end"
  | append => "append"
  | or => "or"
  | optional => "optional"
  | many => "many"
  | custom => "custom"

theorem name_injective {k l : Kind} (h : k.name = l.name) : k = l := by
  cases k <;> cases l <;> simp_all [name]

end Kind

/-- What one call of a custom rule may keep until it answers: a row of texts, in whatever use the rule makes of it. -/
abbrev Memory := List Input

mutual

inductive Rule (σ : Type) : Type where
  /-- One character, whatever it is. -/
  | any
  /-- One character of a set. -/
  | oneOf (set : CharSet)
  /-- Exactly this character. -/
  | val (c : Char)
  /-- Consumes nothing. -/
  | empty
  /-- Succeeds on exhausted input, without asking what accepts the remainder. -/
  | end
  /-- The first rule, then the second on what the first left over. -/
  | append (first second : Rule σ)
  /-- The first rule with all that follows it, and only if that fails the second. -/
  | or (first second : Rule σ)
  /-- The inner rule, or else nothing. -/
  | optional (inner : Rule σ)
  /-- The inner rule as often as it will go, giving back one repetition at a time. -/
  | many (inner : Rule σ)
  /-- A rule of the user's own: how it is shown, and how it behaves on an input. -/
  | custom (label : σ → String) (act : Input → Dialogue σ)

/-- What a custom rule does with an input, one request at a time. -/
inductive Dialogue (σ : Type) : Type where
  | answer (verdict : Bool)
  /-- Hands a remainder to the continuation and learns whether it was accepted. -/
  | offer (rest : Input) (next : Bool → Dialogue σ)
  /-- Runs a rule as part of the same search, with a continuation of its own making. -/
  | run (rule : Rule σ) (input : Input) (onRest : Input → Dialogue σ) (next : Bool → Dialogue σ)
  /-- Runs a rule in a separate search without limits. Its continuation works in the search outside. -/
  | apart (rule : Rule σ) (input : Input) (onRest : Input → Dialogue σ) (next : Bool → Dialogue σ)
  /-- Looks at the number of evaluations so far and at how deeply they nest. -/
  | observe (next : (steps depth : Nat) → Dialogue σ)
  /-- Changes what custom rules share, and sees the result. -/
  | update (change : σ → σ) (next : σ → Dialogue σ)
  /-- Changes what this call of the custom rule keeps, and sees the result. -/
  | remember (change : Memory → Memory) (next : Memory → Dialogue σ)

end

namespace Rule

variable {σ : Type}

def kind : Rule σ → Kind
  | any => .any
  | oneOf _ => .oneOf
  | val _ => .val
  | empty => .empty
  | .end => .end
  | append _ _ => .append
  | or _ _ => .or
  | optional _ => .optional
  | many _ => .many
  | custom _ _ => .custom

/-- One of the rules that consume a single character. -/
def isAtom (r : Rule σ) : Bool := r.kind = .any || r.kind = .oneOf || r.kind = .val

def isAppend (r : Rule σ) : Bool := r.kind = .append

def isOr (r : Rule σ) : Bool := r.kind = .or

def isMany (r : Rule σ) : Bool := r.kind = .many

/-- Levels of the tree. A custom rule counts as a leaf. -/
def depth : Rule σ → Nat
  | append a b => 1 + max a.depth b.depth
  | or a b => 1 + max a.depth b.depth
  | optional r => 1 + r.depth
  | many r => 1 + r.depth
  | _ => 1

/-- Nodes of the tree, every occurrence counted. A custom rule counts as a leaf. -/
def nodeCount : Rule σ → Nat
  | append a b => a.nodeCount + b.nodeCount + 1
  | or a b => a.nodeCount + b.nodeCount + 1
  | optional r => r.nodeCount + 1
  | many r => r.nodeCount + 1
  | _ => 1

def CustomFree : Rule σ → Prop
  | append a b => a.CustomFree ∧ b.CustomFree
  | or a b => a.CustomFree ∧ b.CustomFree
  | optional r => r.CustomFree
  | many r => r.CustomFree
  | custom _ _ => False
  | _ => True

def EndFree : Rule σ → Prop
  | append a b => a.EndFree ∧ b.EndFree
  | or a b => a.EndFree ∧ b.EndFree
  | optional r => r.EndFree
  | many r => r.EndFree
  | .end => False
  | _ => True

def ManyFree : Rule σ → Prop
  | append a b => a.ManyFree ∧ b.ManyFree
  | or a b => a.ManyFree ∧ b.ManyFree
  | optional r => r.ManyFree
  | many _ => False
  | _ => True

/-- The behaviour of each custom node of the tree has a property. -/
def CustomAll (p : (Input → Dialogue σ) → Prop) : Rule σ → Prop
  | append a b => a.CustomAll p ∧ b.CustomAll p
  | or a b => a.CustomAll p ∧ b.CustomAll p
  | optional r => r.CustomAll p
  | many r => r.CustomAll p
  | custom _ act => p act
  | _ => True

theorem CustomFree.customAll {p : (Input → Dialogue σ) → Prop} {r : Rule σ} (h : r.CustomFree) : r.CustomAll p := by
  induction r using Rule.rec (motive_2 := fun _ => True) with
  | append a b iha ihb => exact ⟨iha h.1, ihb h.2⟩
  | or a b iha ihb => exact ⟨iha h.1, ihb h.2⟩
  | optional r ih => exact ih h
  | many r ih => exact ih h
  | custom label act _ => exact h.elim
  | _ => trivial

end Rule

namespace Dialogue

variable {σ : Type}

/-- Runs a rule within the search, offers what it leaves over, and answers what the run answered. -/
def pass (r : Rule σ) (s : Input) : Dialogue σ := run r s (fun rest => offer rest answer) answer

/-- Runs a rule within the search as a test, accepting whatever it leaves over. -/
def test (r : Rule σ) (s : Input) (next : Bool → Dialogue σ) : Dialogue σ :=
  run r s (fun _ => answer true) next

/-- Offers remainders in order until one is accepted. -/
def offerFirst : List Input → Dialogue σ
  | [] => answer false
  | rest :: rests => offer rest fun accepted => if accepted then answer true else offerFirst rests

end Dialogue

end Backtrack
