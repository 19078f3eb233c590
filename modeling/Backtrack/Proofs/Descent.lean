import Backtrack.Proofs.Visits

/-!
# Descents

Where each evaluation is entered inside the one before, a search only comes down. What it notes is
read off the places that it comes to, and it nests as deep as there are places. A frame is such a
place, with the kind of rule that is evaluated there.
-/

set_option autoImplicit false

namespace Backtrack

variable {ω σ : Type}

/-- A place in the input with the kind of rule that is evaluated there. -/
abbrev Frame := Kind × Input

/-- The evaluations that are entered at the frames one inside another. -/
def descent (size depth : Nat) : List Frame → List Step
  | [] => []
  | (kind, s) :: frames => ⟨kind.name, size - bytes s, depth + 1⟩ :: descent size (depth + 1) frames

@[simp] theorem length_descent (size depth : Nat) (frames : List Frame) :
    (descent size depth frames).length = frames.length := by
  induction frames generalizing depth with
  | nil => rfl
  | cons frame frames ih => simp [descent, ih]

theorem map_offset_descent (size depth : Nat) (frames : List Frame) :
    (descent size depth frames).map (·.offset) = frames.map fun f => size - bytes f.2 := by
  induction frames generalizing depth with
  | nil => rfl
  | cons frame frames ih => simp [descent, ih]

theorem countP_descent (size depth : Nat) (frames : List Frame) (kind : Kind) :
    (descent size depth frames).countP (·.rule == kind.name) = frames.countP (·.1 = kind) := by
  induction frames generalizing depth with
  | nil => rfl
  | cons frame frames ih =>
    have hname : (frame.1.name == kind.name) = decide (frame.1 = kind) := by
      rw [Bool.eq_iff_iff, beq_iff_eq, decide_eq_true_iff]
      exact ⟨Kind.name_injective, congrArg Kind.name⟩
    rw [descent, List.countP_cons, List.countP_cons, ih]
    simp only [hname]

/-- A descent nests as deep as it has frames, unless it has none. -/
theorem foldl_max_descent {depth m : Nat} {frames : List Frame} (h : frames ≠ [] ∨ depth ≤ m)
    (size : Nat) :
    ((descent size depth frames).map (·.depth)).foldl max m = max m (depth + frames.length) := by
  induction frames generalizing depth m with
  | nil =>
    rcases h with hne | hle
    · exact absurd rfl hne
    · exact (Nat.max_eq_left hle).symm
  | cons frame frames ih =>
    rw [descent, List.map_cons, List.foldl_cons, ih (.inr (Nat.le_max_right m (depth + 1))),
      List.length_cons]
    omega

/-- A computation at the bottom of evaluations that are entered one inside another. -/
def SearchM.nested (frames : List Frame) (body : SearchM ω σ Bool) : SearchM ω σ Bool :=
  frames.foldr (fun frame inner => visit frame.1 frame.2 inner) body

namespace SearchTree

def nested (frames : List Frame) (body : SearchTree σ) : SearchTree σ :=
  frames.foldr (fun frame inner => visit frame.1 frame.2 inner) body

theorem nested_append (first second : List Frame) (body : SearchTree σ) :
    nested (first ++ second) body = nested first (nested second body) := List.foldr_append

theorem run_nested (k : Continuation ω σ) (frames : List Frame) (body : SearchTree σ) :
    (nested frames body).run k = SearchM.nested frames (body.run k) := by
  induction frames with
  | nil => rfl
  | cons frame frames ih => exact congrArg (SearchM.visit frame.1 frame.2) ih

theorem visits_nested (size depth : Nat) (frames : List Frame) (body : SearchTree σ) :
    (nested frames body).visits size depth
      = descent size depth frames ++ body.visits size (depth + frames.length) := by
  induction frames generalizing depth with
  | nil => rfl
  | cons frame frames ih =>
    have hcons : nested (frame :: frames) body = visit frame.1 frame.2 (nested frames body) := rfl
    rw [hcons, visits, ih, descent, List.cons_append, List.length_cons, Nat.add_right_comm]
    rfl

end SearchTree

end Backtrack
