import Backtrack.Error
import Backtrack.Rule.Basic

/-!
# Building rules

Literals, repetition and composites, built from the ten kinds of node the way one would write them by hand.
Nothing matches while a rule is built.
-/

namespace Backtrack.Rule

variable {σ : Type}

/-- A literal: its characters appended from the left. The empty literal consumes nothing. -/
def literal : List Char → Rule σ
  | [] => empty
  | c :: cs => cs.foldl (fun r d => r.append (val d)) (val c)

def oneOrMore (r : Rule σ) : Rule σ := r.append (many r)

/-- The rule, and then the input is exhausted. -/
def eof (r : Rule σ) : Rule σ := r.append .end

/-- Appends rules from the left. -/
def sequence (first : Rule σ) (rest : List (Rule σ)) : Rule σ := rest.foldl append first

/-- Joins rules in order of priority. -/
def alternative (first : Rule σ) (rest : List (Rule σ)) : Rule σ := rest.foldl or first

/-- A sequence of no rules has no sensible meaning, so it is an error. -/
def trySequence : List (Rule σ) → Except RuleError (Rule σ)
  | [] => .error (.emptyComposite "sequence")
  | first :: rest => .ok (sequence first rest)

def tryAlternative : List (Rule σ) → Except RuleError (Rule σ)
  | [] => .error (.emptyComposite "alternative")
  | first :: rest => .ok (alternative first rest)

def nest (wrap : Rule σ → Rule σ) : Nat → Rule σ → Rule σ
  | 0, r => r
  | n + 1, r => nest wrap n (wrap r)

end Backtrack.Rule
