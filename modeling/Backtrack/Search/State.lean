import Backtrack.Rule.Basic

/-!
# The state of a search

One search stands behind one match. It counts the evaluations entered, knows how deeply they nest, and stops for
good once a limit is hit: from then on every evaluation is refused. The refusal at which it stops is itself counted
as a step, whichever limit it was, and changes nothing about the nesting.

A computation within a search sees the search, what belongs to the caller outside, and what custom rules share. What
belongs to the caller may be extended: by a search that waits while another one runs, or by the memory of one call of
a custom rule.
-/

namespace Backtrack

/-- One evaluation as a trace shows it. -/
structure Step where
  /-- What was evaluated. A search writes the name of the rule's kind. -/
  rule : String
  /-- Bytes of the input before the place where the rule started. -/
  offset : Nat
  /-- How deeply the evaluation nests. The outermost rule is at 1. -/
  depth : Nat
  deriving DecidableEq, Repr

/-- The limit at which a search stops for good. -/
inductive Halt where
  | steps
  | nesting
  deriving DecidableEq, Repr

structure Search where
  /-- Bytes of the whole input, from which offsets are counted. -/
  inputSize : Nat
  stepLimit : Option Nat
  nestingLimit : Option Nat
  steps : Nat
  depth : Nat
  maxDepth : Nat
  /-- The step limit was hit. -/
  exhausted : Bool
  /-- The nesting limit was hit. -/
  tooDeep : Bool
  /-- The evaluations entered, newest first, where the search keeps a record. -/
  path : Option (List Step)
  deriving DecidableEq, Repr

namespace Search

def start (s : Input) (stepLimit nestingLimit : Option Nat) (recording : Bool) : Search where
  inputSize := bytes s
  stepLimit := stepLimit
  nestingLimit := nestingLimit
  steps := 0
  depth := 0
  maxDepth := 0
  exhausted := false
  tooDeep := false
  path := if recording then some [] else none

def unbounded (s : Input) : Search := start s none none false

def bounded (s : Input) (stepLimit nestingLimit : Nat) : Search :=
  start s (some stepLimit) (some nestingLimit) false

def tracing (s : Input) : Search := start s none none true

/-- One of the limits was hit. -/
def stopped (search : Search) : Bool := search.exhausted || search.tooDeep

def overruns (n : Nat) (limit : Option Nat) : Bool := limit.any (· < n)

/-- The limit that stands against an evaluation at a depth, if one does. The step limit is asked first. -/
def refusal (search : Search) (depth : Nat) : Option Halt :=
  if overruns (search.steps + 1) search.stepLimit then some .steps
  else if overruns depth search.nestingLimit then some .nesting
  else none

/-- The search after it has counted an evaluation and stopped at a limit. -/
def refuse (search : Search) : Halt → Search
  | .steps => { search with steps := search.steps + 1, exhausted := true }
  | .nesting => { search with steps := search.steps + 1, tooDeep := true }

/-- The search as it is inside an evaluation that neither limit refuses. -/
def descend (search : Search) (kind : Kind) (s : Input) : Search :=
  let depth := search.depth + 1
  { search with
    steps := search.steps + 1
    depth := depth
    maxDepth := max search.maxDepth depth
    path := search.path.map (⟨kind.name, search.inputSize - bytes s, depth⟩ :: ·) }

def enter (search : Search) (kind : Kind) (s : Input) : Bool × Search :=
  if search.stopped then (false, search)
  else match search.refusal (search.depth + 1) with
    | some halt => (false, search.refuse halt)
    | none => (true, search.descend kind s)

def leave (search : Search) : Search := { search with depth := search.depth - 1 }

end Search

/-- What an evaluation can see and change: its search, what belongs to the caller outside, and what custom rules
share. -/
structure World (ω σ : Type) where
  search : Search
  outer : ω
  shared : σ

/-- The world without what was added outside. -/
def World.inner {ω β σ : Type} (world : World (ω × β) σ) : World ω σ := ⟨world.search, world.outer.1, world.shared⟩

/-- A computation within a search, in which `ω` belongs to the caller. -/
abbrev SearchM (ω σ : Type) := StateM (World ω σ)

/-- Decides whether a remainder is acceptable from here on. -/
abbrev Continuation (ω σ : Type) := Input → SearchM ω σ Bool

namespace SearchM

variable {ω σ : Type} {α β : Type}

/-- The second computation is tried only where the first one fails. -/
def orElse (first second : SearchM ω σ Bool) : SearchM ω σ Bool := do
  if ← first then return true else second

/-- Counts and records an evaluation around its body. Where the search refuses to enter it, the answer is settled. -/
def visitOr (refused : α) (kind : Kind) (s : Input) (body : SearchM ω σ α) : SearchM ω σ α := fun world =>
  match world.search.enter kind s with
  | (false, search) => (refused, { world with search := search })
  | (true, search) =>
    let (a, world) := body { world with search := search }
    (a, { world with search := world.search.leave })

/-- An evaluation that the search refuses to enter has failed. -/
def visit (kind : Kind) (s : Input) (body : SearchM ω σ Bool) : SearchM ω σ Bool := visitOr false kind s body

/-- Runs a computation in a search of its own, while the present search waits outside. -/
def apart (fresh : Search) (inner : SearchM (Search × ω) σ α) : SearchM ω σ α := fun world =>
  let (a, inside) := inner ⟨fresh, (world.search, world.outer), world.shared⟩
  (a, ⟨inside.outer.1, inside.outer.2, inside.shared⟩)

/-- From inside a separate search, runs a computation in the search that waits outside. -/
def outside (waiting : SearchM ω σ α) : SearchM (Search × ω) σ α := fun world =>
  let (a, after) := waiting ⟨world.outer.1, world.outer.2, world.shared⟩
  (a, ⟨world.search, (after.search, after.outer), after.shared⟩)

/-- Runs a computation beside something that it does not touch. -/
def beside (m : SearchM ω σ α) : SearchM (ω × β) σ α := fun world =>
  let (a, after) := m world.inner
  (a, ⟨after.search, (after.outer, world.outer.2), after.shared⟩)

/-- Runs a computation with a memory that is empty before and gone afterwards. -/
def framed (m : SearchM (ω × Memory) σ α) : SearchM ω σ α := fun world =>
  let (a, after) := m ⟨world.search, (world.outer, []), world.shared⟩
  (a, after.inner)

end SearchM

end Backtrack
