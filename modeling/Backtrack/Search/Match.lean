import Backtrack.Error
import Backtrack.Event
import Backtrack.Limits
import Backtrack.Search.Eval
import Backtrack.Search.Trace

/-!
# Matching

The ways to ask a rule about an input: with a continuation of the caller's, as a plain question about some
beginning of the input, under a budget, or with a record of the whole search. Each starts a search of its own.

The caller has a state `ω` that only its continuation touches; custom rules share a state `σ`, which the
continuation can see and change too. Neither reaches into the search.
-/

namespace Backtrack

variable {ω σ : Type}

/-- A continuation of the caller's, which works outside the search. -/
abbrev Acceptor (ω σ : Type) := Input → StateM (ω × σ) Bool

/-- The acceptor as the search sees it. -/
def Acceptor.lift (k : Acceptor ω σ) : Continuation ω σ := fun rest world =>
  let (accepted, outer, shared) := k rest (world.outer, world.shared)
  (accepted, { world with outer := outer, shared := shared })

def Acceptor.all : Acceptor ω σ := fun _ => return true

namespace Search

/-- Runs a computation in a search, and returns the search as it ended beside the result. -/
def run {α : Type} (search : Search) (m : SearchM ω σ α) : StateM (ω × σ) (α × Search) := fun (outer, shared) =>
  let (a, world) := m ⟨search, outer, shared⟩
  ((a, world.search), world.outer, world.shared)

/-- What a search under a step limit, ended on `matched`, says about the rule. A match that was found counts,
whether or not a limit was hit before. -/
def verdict (search : Search) (limit : Nat) (matched : Bool) : Except RuleError Bool :=
  if !matched && search.tooDeep then .error (.recursionLimitExceeded Limits.maxNesting)
  else if !matched && search.exhausted then .error (.stepLimitExceeded limit)
  else .ok matched

/-- What a search under a step limit, ended on `matched`, reports to the log. -/
def event (search : Search) (limit : Nat) (matched : Bool) : Event :=
  if !matched && search.tooDeep then .nestingExceeded Limits.maxNesting search.inputSize
  else if !matched && search.exhausted then .budgetSpent limit search.inputSize
  else .matchFinished search.steps matched

end Search

/-- For a computation whose caller has no state. -/
def alone {α : Type} (m : StateM (Unit × σ) α) : StateM σ α := fun shared =>
  let (a, _, shared) := m ((), shared)
  (a, shared)

/-- Carries out a custom rule's behaviour in a search of its own, with no rule around it. -/
def Dialogue.matchWith (act : Input → Dialogue σ) (s : Input) (k : Acceptor ω σ) : StateM (ω × σ) Bool := do
  let (matched, _) ← (Search.unbounded s).run ((act s).play k.lift)
  return matched

namespace Rule

/-- Can the rule consume some beginning of the input so that the acceptor takes what is left? -/
def matchWith (r : Rule σ) (s : Input) (k : Acceptor ω σ) : StateM (ω × σ) Bool := do
  let (matched, _) ← (Search.unbounded s).run (r.eval s k.lift)
  return matched

/-- Does some beginning of the input match? -/
def isMatch (r : Rule σ) (s : Input) : StateM σ Bool := alone (r.matchWith s .all)

/-- A search under a budget and under the nesting limit of bounded matches, as it ended. -/
def boundedSearch (r : Rule σ) (s : Input) (limit : Nat) : StateM σ (Bool × Search) :=
  alone ((Search.bounded s limit Limits.maxNesting).run (r.eval s Acceptor.all.lift))

/-- Does some beginning of the input match? Gives up when a limit is hit before a match is found. -/
def matchBounded (r : Rule σ) (s : Input) (limit : Nat) : StateM σ (Except RuleError Bool) := do
  let (matched, search) ← r.boundedSearch s limit
  return search.verdict limit matched

/-- A bounded match with what it reports to the log. -/
def matchReported (r : Rule σ) (s : Input) (limit : Nat) : StateM σ (Except RuleError Bool × Event) := do
  let (matched, search) ← r.boundedSearch s limit
  return (search.verdict limit matched, search.event limit matched)

/-- Does some beginning of the input match? Keeps a record of the search. -/
def trace (r : Rule σ) (s : Input) : StateM σ Trace := do
  let (matched, search) ← alone ((Search.tracing s).run (r.eval s Acceptor.all.lift))
  return .ofSearch matched search

end Rule

end Backtrack
