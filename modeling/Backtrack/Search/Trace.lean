import Backtrack.Search.State
import Backtrack.Text.Quoted
import Backtrack.Text.Structured

/-!
# Traces

A backtracking search comes back to the same rules many times, so its record is flat: every evaluation in the
order in which it was entered.
-/

namespace Backtrack

theorem foldl_max_le_iff (ns : List Nat) (m bound : Nat) :
    ns.foldl max m ≤ bound ↔ m ≤ bound ∧ ∀ n ∈ ns, n ≤ bound := by
  induction ns generalizing m with
  | nil => simp
  | cons n ns ih => rw [List.foldl_cons, ih, Nat.max_le, List.forall_mem_cons, and_assoc]

theorem foldl_max_eq_of_mem {ns : List Nat} {n : Nat} (hmem : n ∈ ns) (hle : ∀ k ∈ ns, k ≤ n) :
    ns.foldl max 0 = n := by
  apply Nat.le_antisymm
  · exact (foldl_max_le_iff ns 0 n).mpr ⟨Nat.zero_le n, hle⟩
  · exact ((foldl_max_le_iff ns 0 _).mp (Nat.le_refl _)).2 n hmem

structure Trace where
  matched : Bool
  steps : Nat
  /-- The deepest nesting that was reached. -/
  maxDepth : Nat
  path : List Step
  deriving DecidableEq, Repr

namespace Step

def debug (step : Step) : String :=
  Text.record "MatchStep"
    [("rule", Text.quoteString step.rule), ("offset", toString step.offset), ("depth", toString step.depth)]

end Step

namespace Trace

/-- The record of a search that has ended with a verdict. -/
def ofSearch (matched : Bool) (search : Search) : Trace where
  matched := matched
  steps := search.steps
  maxDepth := search.maxDepth
  path := (search.path.getD []).reverse

/-- The furthest place in the input at which any rule was tried. -/
def furthestOffset (trace : Trace) : Nat := (trace.path.map (·.offset)).foldl max 0

theorem furthestOffset_le_iff (trace : Trace) (bound : Nat) :
    trace.furthestOffset ≤ bound ↔ ∀ step ∈ trace.path, step.offset ≤ bound := by
  rw [furthestOffset, foldl_max_le_iff, List.forall_mem_map]
  exact and_iff_right (Nat.zero_le bound)

def count (trace : Trace) (rule : String) : Nat := trace.path.countP (·.rule == rule)

def debug (trace : Trace) : String :=
  Text.record "MatchTrace"
    [("matched", toString trace.matched), ("steps", toString trace.steps), ("max_depth", toString trace.maxDepth),
     ("path_len", toString trace.path.length)]

end Trace

end Backtrack
