import Backtrack.Proofs.Admission

/-!
# Where limits cut a row off

Under a step limit and a nesting limit a row of evaluations is let through up to the first one
beyond a limit. A larger step limit moves that place back, or leaves it where it is if it was the
nesting that went too far.
-/

set_option autoImplicit false

namespace Backtrack.Search

/-- The number, counted on from `start`, of the first evaluation beyond one of two limits. -/
def firstBeyond (stepLimit nestingLimit start : Nat) (steps : List Step) : Option Nat :=
  ((steps.zipIdx start).find? fun (step, i) =>
    stepLimit < i || nestingLimit < step.depth).map (·.2)

theorem firstBeyond_cons (stepLimit nestingLimit start : Nat) (step : Step) (steps : List Step) :
    firstBeyond stepLimit nestingLimit start (step :: steps)
      = if stepLimit < start ∨ nestingLimit < step.depth then some start
        else firstBeyond stepLimit nestingLimit (start + 1) steps := by
  rw [firstBeyond, List.zipIdx_cons, List.find?_cons]
  by_cases h : stepLimit < start ∨ nestingLimit < step.depth
  · have hd : (decide (stepLimit < start) || decide (nestingLimit < step.depth)) = true := by
      simpa using h
    simp [hd, h]
  · have hd : (decide (stepLimit < start) || decide (nestingLimit < step.depth)) = false := by
      simpa using h
    simp only [hd, if_neg h, firstBeyond]

section Monotone
variable {limit more nesting start i : Nat} {steps : List Step}

theorem firstBeyond_bounds (h : firstBeyond limit nesting start steps = some i) :
    start ≤ i ∧ i < start + steps.length := by
  induction steps generalizing start with
  | nil => cases h
  | cons step steps ih =>
    rw [firstBeyond_cons] at h
    rw [List.length_cons]
    split at h
    · cases h
      omega
    · have hi := ih h
      omega

theorem firstBeyond_none_mono (hmore : limit ≤ more)
    (h : firstBeyond limit nesting start steps = none) :
    firstBeyond more nesting start steps = none := by
  induction steps generalizing start with
  | nil => rfl
  | cons step steps ih =>
    rw [firstBeyond_cons] at h ⊢
    split at h
    · cases h
    · rw [if_neg (by omega)]
      exact ih h

/-- A larger step limit makes no difference to an evaluation that nests too deeply. -/
theorem firstBeyond_of_le (hmore : limit ≤ more)
    (h : firstBeyond limit nesting start steps = some i) (hi : i ≤ limit) :
    firstBeyond more nesting start steps = some i := by
  induction steps generalizing start with
  | nil => cases h
  | cons step steps ih =>
    rw [firstBeyond_cons] at h ⊢
    split at h
    · cases h
      exact if_pos (by omega)
    · rw [if_neg (by omega)]
      exact ih h

theorem firstBeyond_mono {j : Nat} (hmore : limit ≤ more)
    (h : firstBeyond limit nesting start steps = some i)
    (hj : firstBeyond more nesting start steps = some j) : i ≤ j := by
  induction steps generalizing start with
  | nil => cases h
  | cons step steps ih =>
    rw [firstBeyond_cons] at h hj
    split at h
    · cases h
      split at hj
      · cases hj
        exact Nat.le_refl _
      · exact Nat.le_of_succ_le (firstBeyond_bounds hj).1
    · rw [if_neg (by omega)] at hj
      exact ih h hj

/-- Where nothing nests too deeply, only the step limit can stand in the way. -/
theorem lt_firstBeyond (hshallow : ∀ step ∈ steps, step.depth ≤ nesting)
    (h : firstBeyond limit nesting start steps = some i) : limit < i := by
  induction steps generalizing start with
  | nil => cases h
  | cons step steps ih =>
    obtain ⟨hstep, hsteps⟩ := List.forall_mem_cons.mp hshallow
    rw [firstBeyond_cons] at h
    split at h
    · cases h
      omega
    · exact ih hsteps h

end Monotone

/-- Which flags are up after a row of evaluations, by the place of the first one beyond a limit. -/
structure StoppedAt (search : Search) (stepLimit : Nat) (beyond : Option Nat) : Prop where
  exhausted_iff : search.exhausted = true ↔ ∃ i, beyond = some i ∧ stepLimit < i
  tooDeep_iff : search.tooDeep = true ↔ ∃ i, beyond = some i ∧ i ≤ stepLimit

section Limits
variable {stepLimit nestingLimit : Nat}

theorem refusal_of_limits {search : Search} (hs : search.stepLimit = some stepLimit)
    (hn : search.nestingLimit = some nestingLimit) (depth : Nat) :
    search.refusal depth =
      if stepLimit < search.steps + 1 then some .steps
      else if nestingLimit < depth then some .nesting else none := by
  rw [refusal, hs, hn]
  simp [overruns]

/-- A search that stops at an evaluation raises the flag of the limit that stands against it. -/
theorem stoppedAt_refuse {search : Search} (hrunning : search.stopped = false) :
    (search.refuse (if stepLimit < search.steps + 1 then .steps else .nesting)).StoppedAt stepLimit
      (some (search.steps + 1)) := by
  obtain ⟨hexhausted, htooDeep⟩ := stopped_eq_false.mp hrunning
  split <;> constructor <;> simp [refuse, hexhausted, htooDeep] <;> omega

theorem advance_of_limits (search : Search) (hrunning : search.stopped = false)
    (hs : search.stepLimit = some stepLimit) (hn : search.nestingLimit = some nestingLimit)
    (steps : List Step) :
    (search.advance steps).StoppedAt stepLimit
        (firstBeyond stepLimit nestingLimit (search.steps + 1) steps) ∧
      match firstBeyond stepLimit nestingLimit (search.steps + 1) steps with
      | none => search.admitted steps = steps.length
      | some i => search.steps + search.admitted steps + 1 = i := by
  induction steps generalizing search with
  | nil =>
    obtain ⟨hexhausted, htooDeep⟩ := stopped_eq_false.mp hrunning
    exact ⟨⟨by simp [advance, firstBeyond, hexhausted], by simp [advance, firstBeyond, htooDeep]⟩, rfl⟩
  | cons step steps ih =>
    rw [firstBeyond_cons]
    have hr := refusal_of_limits hs hn step.depth
    by_cases hbeyond : stepLimit < search.steps + 1 ∨ nestingLimit < step.depth
    · rw [if_pos hbeyond]
      have hhalt : search.refusal step.depth
          = some (if stepLimit < search.steps + 1 then .steps else .nesting) := by
        rw [hr]
        split
        · rfl
        · rw [if_pos (by omega)]
      have heq := attempt_of_refusal hrunning hhalt
      have hstop : (search.attempt step).stopped = true := by rw [heq, stopped_refuse]
      rw [advance_cons, advance_of_stopped hstop, admitted, if_pos hstop, heq]
      exact ⟨stoppedAt_refuse hrunning, rfl⟩
    · rw [if_neg hbeyond]
      have hnone : search.refusal step.depth = none := by
        rw [hr, if_neg (by omega), if_neg (by omega)]
      have heq := attempt_of_admitted hrunning hnone
      have hgo : (search.note step).stopped = false := hrunning
      have hsteps : (search.note step).steps = search.steps + 1 := rfl
      obtain ⟨hflags, hcount⟩ := ih (search.note step) hgo hs hn
      rw [hsteps] at hflags hcount
      rw [advance_cons, admitted, heq, if_neg (by simp [hgo])]
      refine ⟨hflags, ?_⟩
      revert hcount
      cases firstBeyond stepLimit nestingLimit (search.steps + 1 + 1) steps with
      | none =>
        intro hadmitted
        exact congrArg (· + 1) hadmitted
      | some i =>
        intro hadmitted
        dsimp only at hadmitted ⊢
        omega

/-- From its start a search is let into a row up to the first evaluation beyond a limit. -/
theorem start_of_limits (s : Input) (stepLimit nestingLimit : Nat) (recording : Bool)
    (steps : List Step) :
    ((start s (some stepLimit) (some nestingLimit) recording).advance steps).StoppedAt stepLimit
        (firstBeyond stepLimit nestingLimit 1 steps) ∧
      match firstBeyond stepLimit nestingLimit 1 steps with
      | none =>
        (start s (some stepLimit) (some nestingLimit) recording).admitted steps = steps.length
      | some i =>
        (start s (some stepLimit) (some nestingLimit) recording).admitted steps = i - 1 := by
  obtain ⟨hflags, hcount⟩ := advance_of_limits
    (start s (some stepLimit) (some nestingLimit) recording) rfl rfl rfl steps
  have hsteps : (start s (some stepLimit) (some nestingLimit) recording).steps = 0 := rfl
  rw [hsteps] at hflags hcount
  refine ⟨hflags, ?_⟩
  revert hcount
  cases firstBeyond stepLimit nestingLimit (0 + 1) steps with
  | none => exact id
  | some i =>
    intro hadmitted
    dsimp only at hadmitted ⊢
    omega

end Limits

end Backtrack.Search
