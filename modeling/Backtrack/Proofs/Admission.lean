import Backtrack.Search.Invariant

/-!
# Evaluations in a row

A search meets the evaluations of a match one after another. As long as none is refused it counts
and notes them; from the first refusal on it does not change any more. So it is enough to know how
many in the row are let through.
-/

set_option autoImplicit false

namespace Backtrack.Search

def note (search : Search) (step : Step) : Search :=
  { search with
    steps := search.steps + 1
    maxDepth := max search.maxDepth step.depth
    path := search.path.map (step :: ·) }

/-- The search after an evaluation was entered and left again, or was refused. -/
def attempt (search : Search) (step : Step) : Search :=
  if search.stopped then search
  else match search.refusal step.depth with
    | some halt => search.refuse halt
    | none => search.note step

def advance (search : Search) (steps : List Step) : Search := steps.foldl attempt search

/-- How many evaluations at the start of a row are let through. -/
def admitted (search : Search) : List Step → Nat
  | [] => 0
  | step :: steps =>
    if (search.attempt step).stopped then 0 else (search.attempt step).admitted steps + 1

def stepAt (search : Search) (kind : Kind) (s : Input) : Step :=
  ⟨kind.name, search.inputSize - bytes s, search.depth + 1⟩

def moveTo (depth : Nat) (search : Search) : Search := { search with depth := depth }

/-- The same search without its record. -/
def unrecorded (search : Search) : Search := { search with path := none }

section Attempt
variable {search : Search} {step : Step}

theorem attempt_of_stopped (h : search.stopped = true) : search.attempt step = search := by
  simp [attempt, h]

theorem attempt_of_refusal {halt : Halt} (h : search.stopped = false)
    (hr : search.refusal step.depth = some halt) : search.attempt step = search.refuse halt := by
  simp [attempt, h, hr]

theorem attempt_of_admitted (h : search.stopped = false) (hr : search.refusal step.depth = none) :
    search.attempt step = search.note step := by
  simp [attempt, h, hr]

@[simp] theorem stopped_note (search : Search) (step : Step) :
    (search.note step).stopped = search.stopped := rfl

theorem attempt_cases (search : Search) (step : Step) :
    (search.stopped = true ∧ search.attempt step = search) ∨
    (∃ halt, search.stopped = false ∧ search.refusal step.depth = some halt ∧
      search.attempt step = search.refuse halt) ∨
    (search.stopped = false ∧ search.refusal step.depth = none ∧
      search.attempt step = search.note step) := by
  cases h : search.stopped with
  | true => exact .inl ⟨rfl, attempt_of_stopped h⟩
  | false =>
    cases hr : search.refusal step.depth with
    | some halt => exact .inr (.inl ⟨halt, rfl, rfl, attempt_of_refusal h hr⟩)
    | none => exact .inr (.inr ⟨rfl, rfl, attempt_of_admitted h hr⟩)

theorem enter_of_refused {kind : Kind} {s : Input}
    (h : (search.attempt (search.stepAt kind s)).stopped = true) :
    search.enter kind s = (false, search.attempt (search.stepAt kind s)) := by
  rcases enter_cases search kind s with
    ⟨hstopped, heq⟩ | ⟨halt, hrunning, hr, heq⟩ | ⟨hrunning, hr, heq⟩
  · rw [heq, attempt_of_stopped hstopped]
  · rw [heq, attempt_of_refusal hrunning hr]
  · rw [attempt_of_admitted hrunning hr, stopped_note, hrunning] at h
    cases h

theorem enter_of_admitted {kind : Kind} {s : Input}
    (h : (search.attempt (search.stepAt kind s)).stopped = false) :
    search.enter kind s
      = (true, (search.attempt (search.stepAt kind s)).moveTo (search.depth + 1)) := by
  rcases enter_cases search kind s with
    ⟨hstopped, heq⟩ | ⟨halt, hrunning, hr, heq⟩ | ⟨hrunning, hr, heq⟩
  · rw [attempt_of_stopped hstopped, hstopped] at h
    cases h
  · rw [attempt_of_refusal hrunning hr, stopped_refuse] at h
    cases h
  · rw [heq, attempt_of_admitted hrunning hr]
    rfl

@[simp] theorem attempt_depth (search : Search) (step : Step) :
    (search.attempt step).depth = search.depth := by
  rcases attempt_cases search step with ⟨-, heq⟩ | ⟨halt, -, -, heq⟩ | ⟨-, -, heq⟩
  · rw [heq]
  · rw [heq, depth_refuse]
  · rw [heq]
    rfl

@[simp] theorem attempt_inputSize (search : Search) (step : Step) :
    (search.attempt step).inputSize = search.inputSize := by
  rcases attempt_cases search step with ⟨-, heq⟩ | ⟨halt, -, -, heq⟩ | ⟨-, -, heq⟩
  · rw [heq]
  · rw [heq, inputSize_refuse]
  · rw [heq]
    rfl

/-- What is changed about a search that no single attempt looks at may as well be changed after it. -/
theorem attempt_comm {f : Search → Search} (hstopped : ∀ search, (f search).stopped = search.stopped)
    (hrefusal : ∀ search depth, (f search).refusal depth = search.refusal depth)
    (hrefuse : ∀ search halt, (f search).refuse halt = f (search.refuse halt))
    (hnote : ∀ search step, (f search).note step = f (search.note step)) (search : Search)
    (step : Step) : (f search).attempt step = f (search.attempt step) := by
  rcases attempt_cases search step with ⟨h, heq⟩ | ⟨halt, h, hr, heq⟩ | ⟨h, hr, heq⟩
  · rw [heq, attempt_of_stopped ((hstopped search).trans h)]
  · rw [heq, attempt_of_refusal ((hstopped search).trans h) ((hrefusal search _).trans hr), hrefuse]
  · rw [heq, attempt_of_admitted ((hstopped search).trans h) ((hrefusal search _).trans hr), hnote]

theorem attempt_moveTo (depth : Nat) (search : Search) (step : Step) :
    (search.moveTo depth).attempt step = (search.attempt step).moveTo depth := by
  apply attempt_comm (f := moveTo depth) (fun _ => rfl) (fun _ _ => rfl) ?_ (fun _ _ => rfl)
  rintro search (_ | _) <;> rfl

theorem attempt_unrecorded (search : Search) (step : Step) :
    search.unrecorded.attempt step = (search.attempt step).unrecorded := by
  apply attempt_comm (f := unrecorded) (fun _ => rfl) (fun _ _ => rfl) ?_ (fun _ _ => rfl)
  rintro search (_ | _) <;> rfl

theorem leave_moveTo {depth : Nat} (h : search.depth = depth) :
    (search.moveTo (depth + 1)).leave = search := by
  subst h
  rfl

end Attempt

@[simp] theorem advance_cons (search : Search) (step : Step) (steps : List Step) :
    search.advance (step :: steps) = (search.attempt step).advance steps := rfl

theorem advance_append (search : Search) (first second : List Step) :
    search.advance (first ++ second) = (search.advance first).advance second := List.foldl_append

@[simp] theorem advance_depth (search : Search) (steps : List Step) :
    (search.advance steps).depth = search.depth := by
  induction steps generalizing search with
  | nil => rfl
  | cons step steps ih => rw [advance_cons, ih, attempt_depth]

@[simp] theorem advance_inputSize (search : Search) (steps : List Step) :
    (search.advance steps).inputSize = search.inputSize := by
  induction steps generalizing search with
  | nil => rfl
  | cons step steps ih => rw [advance_cons, ih, attempt_inputSize]

section Frame
variable {f : Search → Search}
variable (hf : ∀ search step, (f search).attempt step = f (search.attempt step))
include hf

/-- A change that single attempts do not notice is not noticed by a row of them. -/
theorem advance_comm (search : Search) (steps : List Step) :
    (f search).advance steps = f (search.advance steps) := by
  induction steps generalizing search with
  | nil => rfl
  | cons step steps ih => rw [advance_cons, hf, ih, advance_cons]

theorem admitted_comm (hstopped : ∀ search, (f search).stopped = search.stopped) (search : Search)
    (steps : List Step) : (f search).admitted steps = search.admitted steps := by
  induction steps generalizing search with
  | nil => rfl
  | cons step steps ih => rw [admitted, hf, hstopped, ih, admitted]

end Frame

theorem advance_moveTo (depth : Nat) (search : Search) (steps : List Step) :
    (search.moveTo depth).advance steps = (search.advance steps).moveTo depth :=
  advance_comm (attempt_moveTo depth) search steps

theorem admitted_moveTo (depth : Nat) (search : Search) (steps : List Step) :
    (search.moveTo depth).admitted steps = search.admitted steps :=
  admitted_comm (attempt_moveTo depth) (fun _ => rfl) search steps

theorem advance_unrecorded (search : Search) (steps : List Step) :
    search.unrecorded.advance steps = (search.advance steps).unrecorded :=
  advance_comm attempt_unrecorded search steps

theorem admitted_unrecorded (search : Search) (steps : List Step) :
    search.unrecorded.admitted steps = search.admitted steps :=
  admitted_comm attempt_unrecorded (fun _ => rfl) search steps

section Row
variable {search : Search}

theorem advance_of_stopped (h : search.stopped = true) (steps : List Step) :
    search.advance steps = search := by
  induction steps with
  | nil => rfl
  | cons step steps ih => rw [advance_cons, attempt_of_stopped h, ih]

theorem admitted_of_stopped (h : search.stopped = true) (steps : List Step) :
    search.admitted steps = 0 := by
  cases steps with
  | nil => rfl
  | cons step steps => rw [admitted, attempt_of_stopped h, if_pos h]

theorem admitted_le_length (search : Search) (steps : List Step) :
    search.admitted steps ≤ steps.length := by
  induction steps generalizing search with
  | nil => exact Nat.le_refl 0
  | cons step steps ih =>
    rw [admitted]
    split
    · exact Nat.zero_le _
    · exact Nat.succ_le_succ (ih _)

theorem stopped_of_admitted_lt {steps : List Step} (h : search.admitted steps < steps.length) :
    (search.advance steps).stopped = true := by
  induction steps generalizing search with
  | nil => cases h
  | cons step steps ih =>
    rw [admitted] at h
    rw [advance_cons]
    split at h
    · rename_i hstopped
      rwa [advance_of_stopped hstopped]
    · exact ih (Nat.lt_of_succ_lt_succ h)

theorem admitted_append (search : Search) (first second : List Step) :
    search.admitted (first ++ second)
      = search.admitted first + (search.advance first).admitted second := by
  induction first generalizing search with
  | nil => exact (Nat.zero_add _).symm
  | cons step first ih =>
    rw [List.cons_append, admitted, admitted, advance_cons]
    split
    · rename_i hstopped
      rw [advance_of_stopped hstopped, admitted_of_stopped hstopped]
    · rw [ih]
      omega

/-- What the search has noted, after a row, is what it let through. -/
theorem advance_path (search : Search) (steps : List Step) :
    (search.advance steps).path
      = search.path.map ((steps.take (search.admitted steps)).reverse ++ ·) := by
  induction steps generalizing search with
  | nil => simp [advance]
  | cons step steps ih =>
    rw [advance_cons, admitted]
    rcases attempt_cases search step with ⟨h, heq⟩ | ⟨halt, -, -, heq⟩ | ⟨h, -, heq⟩
    · rw [heq, if_pos h, advance_of_stopped h]
      simp
    · have hstopped := stopped_refuse search halt
      rw [heq, if_pos hstopped, advance_of_stopped hstopped, path_refuse]
      simp
    · have hrunning : ¬ (search.note step).stopped = true := by simp [h]
      rw [heq, if_neg hrunning, ih]
      simp [note, Function.comp_def]

end Row

/-- No limit is set and none was hit. -/
structure Free (search : Search) : Prop where
  stepLimit : search.stepLimit = none
  nestingLimit : search.nestingLimit = none
  running : search.stopped = false

section Unlimited
variable {search : Search}

theorem free_start (s : Input) (recording : Bool) : (start s none none recording).Free :=
  ⟨rfl, rfl, rfl⟩

theorem Free.refusal (h : search.Free) (depth : Nat) : search.refusal depth = none := by
  simp [Search.refusal, h.stepLimit, h.nestingLimit, overruns]

theorem Free.enter (h : search.Free) (kind : Kind) (s : Input) :
    search.enter kind s = (true, search.descend kind s) := by
  simp [Search.enter, h.running, h.refusal]

theorem Free.descend (h : search.Free) (kind : Kind) (s : Input) : (search.descend kind s).Free :=
  ⟨h.stepLimit, h.nestingLimit, h.running⟩

theorem Free.leave (h : search.Free) : search.leave.Free :=
  ⟨h.stepLimit, h.nestingLimit, h.running⟩

theorem Free.note (h : search.Free) (step : Step) : (search.note step).Free :=
  ⟨h.stepLimit, h.nestingLimit, h.running⟩

theorem Free.attempt (h : search.Free) (step : Step) : search.attempt step = search.note step :=
  attempt_of_admitted h.running (h.refusal step.depth)

theorem Free.advance (h : search.Free) (steps : List Step) : (search.advance steps).Free := by
  induction steps generalizing search with
  | nil => exact h
  | cons step steps ih =>
    rw [advance_cons, h.attempt]
    exact ih (h.note step)

/-- What is noted inside an evaluation comes behind the evaluation, which is left again. -/
theorem Free.leave_advance_descend (h : search.Free) (kind : Kind) (s : Input)
    (steps : List Step) :
    ((search.descend kind s).advance steps).leave
      = search.advance (search.stepAt kind s :: steps) := by
  have hdescend : search.descend kind s
      = (search.note (search.stepAt kind s)).moveTo (search.depth + 1) := rfl
  rw [advance_cons, h.attempt, hdescend, advance_moveTo, leave_moveTo]
  rw [advance_depth]
  rfl

theorem Free.admitted (h : search.Free) (steps : List Step) :
    search.admitted steps = steps.length := by
  induction steps generalizing search with
  | nil => rfl
  | cons step steps ih =>
    rw [Search.admitted, h.attempt, if_neg (by simp [(h.note step).running]), ih (h.note step),
      List.length_cons]

theorem Free.advance_steps (h : search.Free) (steps : List Step) :
    (search.advance steps).steps = search.steps + steps.length := by
  induction steps generalizing search with
  | nil => rfl
  | cons step steps ih =>
    have hnote : (search.note step).steps = search.steps + 1 := rfl
    rw [advance_cons, h.attempt, ih (h.note step), hnote, List.length_cons]
    omega

theorem Free.advance_maxDepth (h : search.Free) (steps : List Step) :
    (search.advance steps).maxDepth = (steps.map (·.depth)).foldl max search.maxDepth := by
  induction steps generalizing search with
  | nil => rfl
  | cons step steps ih =>
    rw [advance_cons, h.attempt, ih (h.note step)]
    rfl

end Unlimited

end Backtrack.Search
