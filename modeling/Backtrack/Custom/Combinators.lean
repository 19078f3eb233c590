import Backtrack.Rule.Outline

/-!
# Custom rules around a rule

Custom rules that run another rule and decide on its answer, or on what it left over. All but `isolated` run it as
part of the search that came upon them, so that its evaluations count against the same limits and show in the same
trace.
-/

set_option autoImplicit false

namespace Backtrack.Rule

variable {σ : Type}

/-- A custom rule that is shown by its name and the tree of the rule inside. -/
def around (name : String) (inner : Rule σ) (act : Input → Dialogue σ) : Rule σ :=
  custom (fun shared => Text.tuple name [inner.debug shared]) act

/-- The inner rule as it is. -/
def nested (inner : Rule σ) : Rule σ := around "Scoped" inner fun s => .pass inner s

/-- The inner rule, in a search of its own. -/
def isolated (inner : Rule σ) : Rule σ :=
  around "Plain" inner fun s => .apart inner s (fun rest => .offer rest .answer) .answer

/-- The inner rule, but never on exhausted input. -/
def nonEmpty (inner : Rule σ) : Rule σ :=
  around "NonEmpty" inner fun s => if s.isEmpty then .answer false else .pass inner s

/-- Consumes nothing, where the inner rule can match. -/
def lookahead (inner : Rule σ) : Rule σ :=
  around "Lookahead" inner fun s =>
    .test inner s fun found => if found then .offer s .answer else .answer false

/-- Consumes nothing, where the inner rule cannot match. -/
def notAhead (inner : Rule σ) : Rule σ :=
  around "Not" inner fun s =>
    .test inner s fun found => if found then .answer false else .offer s .answer

/-- The first way in which the inner rule can match, and no other. What it leaves over is kept, and only that is
offered. -/
def atomic (inner : Rule σ) : Rule σ :=
  around "Atomic" inner fun s =>
    .run inner s (fun rest => .remember (fun _ => [rest]) fun _ => .answer true) fun found =>
      .remember id fun
        | rest :: _ => if found then .offer rest .answer else .answer false
        | [] => .answer false

/-- Consumes nothing, as long as the search has taken no more than a number of steps. -/
def withinSteps (most : Nat) : Rule σ :=
  custom (fun _ => Text.tuple "StepsMax" [toString most]) fun s =>
    .observe fun steps _ => if steps ≤ most then .offer s .answer else .answer false

end Backtrack.Rule
