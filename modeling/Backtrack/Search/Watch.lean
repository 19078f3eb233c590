import Backtrack.Search.Eval

/-!
# Watching an evaluation

The same evaluation with somebody who looks on. The watcher is told when an evaluation is come to, when it was
entered and when it is about to be left, before each step of a custom rule, and when the continuation is asked. Rules
that run apart from the search have a search of their own and are not watched, but what they hand on is.

The watcher can write down what the search is like at each of these moments, beside what belongs to the caller.
-/

set_option autoImplicit false

namespace Backtrack

variable {ω σ : Type} {α β : Type}

/-- Where a watcher looks at the search. -/
inductive Moment where
  /-- An evaluation is come to, and the search is yet to be asked. -/
  | starts
  /-- The evaluation was entered. -/
  | runs
  /-- A custom rule is about to answer or to make its next request. -/
  | acts
  /-- The continuation is about to be asked. -/
  | asks
  /-- An evaluation that was entered is about to be left. -/
  | leaves
  deriving DecidableEq, Repr

/-- What is done at each moment. -/
abbrev Watcher (ω σ : Type) := Moment → SearchM ω σ Unit

/-- The watcher as it is where something was added outside. -/
def Watcher.beside (w : Watcher ω σ) : Watcher (ω × β) σ := fun moment => SearchM.beside (w moment)

/-- The continuation, with somebody looking on when it is asked. -/
def Continuation.watched (k : Continuation ω σ) (w : Watcher ω σ) : Continuation ω σ := fun rest => do
  w .asks
  k rest

namespace SearchM

def watchOr (w : Watcher ω σ) (refused : α) (kind : Kind) (s : Input) (body : SearchM ω σ α) : SearchM ω σ α := do
  w .starts
  visitOr refused kind s do
    w .runs
    let a ← body
    w .leaves
    return a

def watch (w : Watcher ω σ) (kind : Kind) (s : Input) (body : SearchM ω σ Bool) : SearchM ω σ Bool :=
  watchOr w false kind s body

end SearchM

/-- Greedy repetition, watched. -/
def Watcher.repeated (w : Watcher ω σ) (round : Input → Continuation ω σ → SearchM ω σ Bool) (k : Continuation ω σ)
    (s : Input) : SearchM ω σ Bool :=
  SearchM.watch w .many s <|
    SearchM.orElse
      (round s fun rest => if bytes rest < bytes s then w.repeated round k rest else return false)
      (k s)
termination_by bytes s

mutual

/-- Evaluates a rule as `Rule.eval` does, watched. -/
def Rule.watch : Rule σ → {ω : Type} → Watcher ω σ → Input → Continuation ω σ → SearchM ω σ Bool
  | .any, _, w, s, k => SearchM.watch w .any s (consume (fun _ => true) k s)
  | .oneOf set, _, w, s, k => SearchM.watch w .oneOf s (consume set.contains k s)
  | .val c, _, w, s, k => SearchM.watch w .val s (consume (· == c) k s)
  | .empty, _, w, s, k => SearchM.watch w .empty s (k s)
  | .end, _, w, s, _ => SearchM.watch w .end s (return s.isEmpty)
  | .append first second, _, w, s, k =>
    SearchM.watch w .append s (first.watch w s fun rest => second.watch w rest k)
  | .or first second, _, w, s, k => SearchM.watch w .or s (SearchM.orElse (first.watch w s k) (second.watch w s k))
  | .optional inner, _, w, s, k => SearchM.watch w .optional s (SearchM.orElse (inner.watch w s k) (k s))
  | .many inner, _, w, s, k => w.repeated (inner.watch w) k s
  | .custom _ act, _, w, s, k =>
    SearchM.watch w .custom s (SearchM.framed ((act s).watch w.beside fun rest => SearchM.beside (k rest)))

/-- Carries out a custom rule's side of the dialogue as `Dialogue.perform` does, watched. -/
def Dialogue.watch : Dialogue σ → {ω : Type} → Watcher (ω × Memory) σ → Continuation (ω × Memory) σ →
    SearchM (ω × Memory) σ Bool
  | .answer verdict, _, w, _ => do
    w .acts
    return verdict
  | .offer rest next, _, w, k => do
    w .acts
    let accepted ← k rest
    (next accepted).watch w k
  | .run rule s onRest next, _, w, k => do
    w .acts
    let matched ← rule.watch w s fun rest => (onRest rest).watch w k
    (next matched).watch w k
  | .apart rule s onRest next, _, w, k => do
    w .acts
    let matched ← SearchM.apart (.unbounded s) (rule.eval s fun rest => SearchM.outside ((onRest rest).watch w k))
    (next matched).watch w k
  | .observe next, _, w, k => do
    w .acts
    let world ← get
    (next world.search.steps world.search.depth).watch w k
  | .update change next, _, w, k => do
    w .acts
    modify fun world => { world with shared := change world.shared }
    let world ← get
    (next world.shared).watch w k
  | .remember change next, _, w, k => do
    w .acts
    modify fun world => { world with outer := (world.outer.1, change world.outer.2) }
    let world ← get
    (next world.outer.2).watch w k

end

/-- One call of a custom rule, watched. -/
def Dialogue.watchPlay (d : Dialogue σ) (w : Watcher ω σ) (k : Continuation ω σ) : SearchM ω σ Bool :=
  SearchM.framed (d.watch w.beside fun rest => SearchM.beside (k rest))

/-- What a watcher wrote down: the moments in order, each with the search as it was. -/
abbrev Moments := List (Moment × Search)

/-- Writes down every moment. -/
def noting : Watcher (ω × Moments) σ := fun moment =>
  modify fun world => { world with outer := (world.outer.1, world.outer.2 ++ [(moment, world.search)]) }

/-- How many evaluations were entered, going by what was written down. -/
def Moments.entered (moments : Moments) : Nat := moments.countP (·.1 == .runs)

end Backtrack
