import Backtrack.Rule.Outcome
import Backtrack.Search.Match

/-!
# Offering outcomes

How a list of outcomes meets an acceptor: remainders are offered one after another, and the first success ends it.
A list may be met part by part.
-/

set_option autoImplicit false

namespace Backtrack

variable {ω σ : Type}

namespace Acceptor

/-- Offers outcomes in order, up to the first that is accepted or succeeds outright. -/
def settle (k : Acceptor ω σ) : List Outcome → StateM (ω × σ) Bool
  | [] => return false
  | .done :: _ => return true
  | .rest t :: os => do if ← k t then return true else k.settle os

/-- An acceptor that always answers the same about a remainder. -/
def ofPred (accepts : Input → Bool) : Acceptor ω σ := fun t => return accepts t

theorem settle_append (k : Acceptor ω σ) (os ps : List Outcome) :
    k.settle (os ++ ps) = (do if ← k.settle os then return true else k.settle ps) := by
  induction os with
  | nil => rfl
  | cons o os ih =>
    cases o with
    | done => rfl
    | rest t =>
      funext state
      simp only [List.cons_append, settle, ih]
      simp only [bind, StateT.bind]
      rcases k t state with ⟨accepted, state'⟩
      cases accepted <;> rfl

theorem settle_ofPred (accepts : Input → Bool) (os : List Outcome) (state : ω × σ) :
    (ofPred accepts : Acceptor ω σ).settle os state
      = (os.any fun
          | .rest t => accepts t
          | .done => true, state) := by
  induction os with
  | nil => rfl
  | cons o os ih =>
    cases o with
    | done => rfl
    | rest t =>
      simp only [settle, bind, StateT.bind, ofPred, List.any_cons]
      cases h : accepts t
      · exact ih
      · rfl

end Acceptor

end Backtrack
