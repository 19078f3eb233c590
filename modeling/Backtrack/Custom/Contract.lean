import Backtrack.Search.Eval

/-!
# The contract of custom rules

A custom rule should answer `true` only if its continuation accepted a remainder that it was handed. To say so, a
continuation is given a flag that it raises when it accepts.
-/

set_option autoImplicit false

namespace Backtrack

variable {ω σ : Type}

/-- The continuation, which raises a flag of its own when it accepts. -/
def Continuation.flagged (k : Continuation ω σ) : Continuation (ω × Bool) σ := fun t world =>
  let (accepted, after) := k t ⟨world.search, world.outer.1, world.shared⟩
  (accepted, ⟨after.search, (after.outer, world.outer.2 || accepted), after.shared⟩)

namespace SearchM

/-- From every state, success means that the flag has been raised on the way. -/
def Earned (m : SearchM (ω × Bool) σ Bool) : Prop :=
  ∀ search outer shared, (m ⟨search, (outer, false), shared⟩).1 = true →
    (m ⟨search, (outer, false), shared⟩).2.outer.2 = true

end SearchM

/-- A behaviour keeps the contract if it never succeeds without its continuation. -/
def Dialogue.Faithful (act : Input → Dialogue σ) : Prop :=
  ∀ {ω : Type} (k : Continuation ω σ) (s : Input), ((act s).play k.flagged).Earned

end Backtrack
