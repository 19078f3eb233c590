import Backtrack.Search.State

/-!
# What holds of every search

A search that stopped hit one of its limits, and stopped exactly at the first overrun: with one step more than the step
limit, or within it when it was the nesting that would have gone too far. The nesting never exceeds the deepest nesting
noted, and that stays within the nesting limit.
-/

set_option autoImplicit false

namespace Backtrack.Search

theorem overruns_eq_true {n : Nat} {bound : Option Nat} :
    overruns n bound = true ↔ ∃ limit, bound = some limit ∧ limit < n := by
  cases bound <;> simp [overruns]

theorem overruns_eq_false {n : Nat} {bound : Option Nat} :
    overruns n bound = false ↔ ∀ limit, bound = some limit → n ≤ limit := by
  cases bound <;> simp [overruns]

theorem stopped_eq_true {search : Search} :
    search.stopped = true ↔ search.exhausted = true ∨ search.tooDeep = true := by
  simp [stopped]

theorem stopped_eq_false {search : Search} :
    search.stopped = false ↔ search.exhausted = false ∧ search.tooDeep = false := by
  simp [stopped]

section Refusal
variable {search : Search} {depth : Nat}

theorem refusal_eq_steps :
    search.refusal depth = some .steps ↔ overruns (search.steps + 1) search.stepLimit = true := by
  unfold refusal
  split
  · rename_i h
    simp [h]
  · rename_i h
    split <;> simp [h]

theorem refusal_eq_nesting :
    search.refusal depth = some .nesting ↔
      overruns (search.steps + 1) search.stepLimit = false ∧ overruns depth search.nestingLimit = true := by
  unfold refusal
  split
  · rename_i h
    simp [h]
  · rename_i h
    split <;> simp_all

theorem refusal_eq_none :
    search.refusal depth = none ↔
      overruns (search.steps + 1) search.stepLimit = false ∧ overruns depth search.nestingLimit = false := by
  unfold refusal
  split
  · rename_i h
    simp [h]
  · rename_i h
    split <;> simp_all

end Refusal

@[simp] theorem stopped_refuse (search : Search) (halt : Halt) : (search.refuse halt).stopped = true := by
  cases halt <;> simp [refuse, stopped]

@[simp] theorem steps_refuse (search : Search) (halt : Halt) : (search.refuse halt).steps = search.steps + 1 := by
  cases halt <;> rfl

@[simp] theorem depth_refuse (search : Search) (halt : Halt) : (search.refuse halt).depth = search.depth := by
  cases halt <;> rfl

@[simp] theorem inputSize_refuse (search : Search) (halt : Halt) :
    (search.refuse halt).inputSize = search.inputSize := by
  cases halt <;> rfl

@[simp] theorem path_refuse (search : Search) (halt : Halt) : (search.refuse halt).path = search.path := by
  cases halt <;> rfl

/-- What becomes of a search that comes to an evaluation. -/
theorem enter_cases (search : Search) (kind : Kind) (s : Input) :
    (search.stopped = true ∧ search.enter kind s = (false, search)) ∨
    (∃ halt, search.stopped = false ∧ search.refusal (search.depth + 1) = some halt ∧
      search.enter kind s = (false, search.refuse halt)) ∨
    (search.stopped = false ∧ search.refusal (search.depth + 1) = none ∧
      search.enter kind s = (true, search.descend kind s)) := by
  unfold enter
  cases hstopped : search.stopped with
  | true => exact .inl ⟨rfl, rfl⟩
  | false =>
    cases hrefusal : search.refusal (search.depth + 1) with
    | some halt => exact .inr (.inl ⟨halt, rfl, rfl, rfl⟩)
    | none => exact .inr (.inr ⟨rfl, rfl, rfl⟩)

/-- A search that stopped changes no more. -/
theorem enter_of_stopped {search : Search} (h : search.stopped = true) (kind : Kind) (s : Input) :
    search.enter kind s = (false, search) := by
  simp [enter, h]

/-- The counters agree with the limits and with the flags. -/
structure Sound (search : Search) : Prop where
  one_limit : ¬ (search.exhausted = true ∧ search.tooDeep = true)
  steps_le : ∀ limit, search.stepLimit = some limit → search.exhausted = false → search.steps ≤ limit
  exhausted_steps : search.exhausted = true → ∃ limit, search.stepLimit = some limit ∧ search.steps = limit + 1
  tooDeep_limit : search.tooDeep = true → search.nestingLimit ≠ none
  depth_le : search.depth ≤ search.maxDepth
  maxDepth_le : ∀ limit, search.nestingLimit = some limit → search.maxDepth ≤ limit

theorem sound_start (s : Input) (stepLimit nestingLimit : Option Nat) (recording : Bool) :
    (start s stepLimit nestingLimit recording).Sound := by
  constructor <;> simp [start]

namespace Sound

variable {search : Search} (h : search.Sound)
include h

theorem leave : search.leave.Sound where
  one_limit := h.one_limit
  steps_le := h.steps_le
  exhausted_steps := h.exhausted_steps
  tooDeep_limit := h.tooDeep_limit
  depth_le := Nat.le_trans (Nat.sub_le _ _) h.depth_le
  maxDepth_le := h.maxDepth_le

theorem refuse_steps (hrunning : search.stopped = false)
    (hover : overruns (search.steps + 1) search.stepLimit = true) : (search.refuse .steps).Sound := by
  obtain ⟨hexhausted, htooDeep⟩ := stopped_eq_false.mp hrunning
  obtain ⟨limit, hlimit, hlt⟩ := overruns_eq_true.mp hover
  have hle := h.steps_le limit hlimit hexhausted
  exact {
    one_limit := by simp [refuse, htooDeep]
    steps_le := by simp [refuse]
    exhausted_steps := fun _ => ⟨limit, hlimit, Nat.le_antisymm (Nat.succ_le_succ hle) hlt⟩
    tooDeep_limit := h.tooDeep_limit
    depth_le := h.depth_le
    maxDepth_le := h.maxDepth_le }

theorem refuse_nesting (hrunning : search.stopped = false)
    (hsteps : overruns (search.steps + 1) search.stepLimit = false) {depth : Nat}
    (hover : overruns depth search.nestingLimit = true) : (search.refuse .nesting).Sound := by
  obtain ⟨hexhausted, htooDeep⟩ := stopped_eq_false.mp hrunning
  obtain ⟨limit, hlimit, -⟩ := overruns_eq_true.mp hover
  exact {
    one_limit := by simp [refuse, hexhausted]
    steps_le := fun l hl _ => overruns_eq_false.mp hsteps l hl
    exhausted_steps := fun hout => absurd hout (Bool.eq_false_iff.mp hexhausted)
    tooDeep_limit := fun _ => by simp [refuse, hlimit]
    depth_le := h.depth_le
    maxDepth_le := h.maxDepth_le }

theorem descend (hrunning : search.stopped = false) (hnone : search.refusal (search.depth + 1) = none)
    (kind : Kind) (s : Input) : (search.descend kind s).Sound := by
  obtain ⟨hexhausted, -⟩ := stopped_eq_false.mp hrunning
  obtain ⟨hsteps, hnesting⟩ := refusal_eq_none.mp hnone
  exact {
    one_limit := h.one_limit
    steps_le := fun l hl _ => overruns_eq_false.mp hsteps l hl
    exhausted_steps := fun hout => absurd hout (Bool.eq_false_iff.mp hexhausted)
    tooDeep_limit := h.tooDeep_limit
    depth_le := Nat.le_max_right _ _
    maxDepth_le := fun l hl => Nat.max_le.mpr ⟨h.maxDepth_le l hl, overruns_eq_false.mp hnesting l hl⟩ }

theorem enter (kind : Kind) (s : Input) : (search.enter kind s).2.Sound := by
  rcases enter_cases search kind s with ⟨-, heq⟩ | ⟨halt, hrunning, hrefusal, heq⟩ | ⟨hrunning, hnone, heq⟩
  · rwa [heq]
  · rw [heq]
    cases halt with
    | steps => exact h.refuse_steps hrunning (refusal_eq_steps.mp hrefusal)
    | nesting =>
      obtain ⟨hsteps, hover⟩ := refusal_eq_nesting.mp hrefusal
      exact h.refuse_nesting hrunning hsteps hover
  · rw [heq]
    exact h.descend hrunning hnone kind s

end Sound

end Backtrack.Search

namespace Backtrack.SearchM

variable {ω σ : Type} {α : Type}

theorem visitOr_of_refused {refused : α} {kind : Kind} {s : Input} {world : World ω σ}
    (h : (world.search.enter kind s).1 = false) (body : SearchM ω σ α) :
    visitOr refused kind s body world
      = (refused, { world with search := (world.search.enter kind s).2 }) := by
  unfold visitOr
  rcases henter : world.search.enter kind s with ⟨entered, search⟩
  rw [henter] at h
  cases h
  rfl

theorem visitOr_of_entered {refused : α} {kind : Kind} {s : Input} {world : World ω σ}
    (h : (world.search.enter kind s).1 = true) (body : SearchM ω σ α) :
    visitOr refused kind s body world =
      ((body { world with search := (world.search.enter kind s).2 }).1,
       { (body { world with search := (world.search.enter kind s).2 }).2 with
         search := (body { world with search := (world.search.enter kind s).2 }).2.search.leave }) := by
  unfold visitOr
  rcases henter : world.search.enter kind s with ⟨entered, search⟩
  rw [henter] at h
  cases h
  rfl

theorem visit_of_refused {kind : Kind} {s : Input} {world : World ω σ}
    (h : (world.search.enter kind s).1 = false) (body : SearchM ω σ Bool) :
    visit kind s body world = (false, { world with search := (world.search.enter kind s).2 }) :=
  visitOr_of_refused h body

theorem visit_of_entered {kind : Kind} {s : Input} {world : World ω σ}
    (h : (world.search.enter kind s).1 = true) (body : SearchM ω σ Bool) :
    visit kind s body world =
      ((body { world with search := (world.search.enter kind s).2 }).1,
       { (body { world with search := (world.search.enter kind s).2 }).2 with
         search := (body { world with search := (world.search.enter kind s).2 }).2.search.leave }) :=
  visitOr_of_entered h body

end Backtrack.SearchM
