import Backtrack.Search.State

/-!
# Evaluation

A rule is asked whether it can consume some beginning of the input so that the continuation accepts what is left.
Sequencing extends the continuation; alternatives and repetition go on to their next option when it refuses.

A repetition is entered again only on a remainder with fewer bytes than the input it started on, so every
evaluation ends.
-/

namespace Backtrack

variable {ω σ : Type}

/-- The first character, if it is acceptable, and then the continuation on the rest. -/
def consume (accepts : Char → Bool) (k : Continuation ω σ) : Input → SearchM ω σ Bool
  | [] => return false
  | c :: rest => if accepts c then k rest else return false

/-- Greedy repetition of one round: a round that made progress is followed by the same repetition on what it
left over, and the continuation is asked last. -/
def repeated (round : Input → Continuation ω σ → SearchM ω σ Bool) (k : Continuation ω σ) (s : Input) :
    SearchM ω σ Bool :=
  SearchM.visit .many s <|
    SearchM.orElse
      (round s fun rest => if bytes rest < bytes s then repeated round k rest else return false)
      (k s)
termination_by bytes s

mutual

/-- Evaluates a rule on an input under a continuation. -/
def Rule.eval : Rule σ → {ω : Type} → Input → Continuation ω σ → SearchM ω σ Bool
  | .any, _, s, k => SearchM.visit .any s (consume (fun _ => true) k s)
  | .oneOf set, _, s, k => SearchM.visit .oneOf s (consume set.contains k s)
  | .val c, _, s, k => SearchM.visit .val s (consume (· == c) k s)
  | .empty, _, s, k => SearchM.visit .empty s (k s)
  | .end, _, s, _ => SearchM.visit .end s (return s.isEmpty)
  | .append first second, _, s, k =>
    SearchM.visit .append s (first.eval s fun rest => second.eval rest k)
  | .or first second, _, s, k => SearchM.visit .or s (SearchM.orElse (first.eval s k) (second.eval s k))
  | .optional inner, _, s, k => SearchM.visit .optional s (SearchM.orElse (inner.eval s k) (k s))
  | .many inner, _, s, k => repeated inner.eval k s
  | .custom _ act, _, s, k =>
    SearchM.visit .custom s (SearchM.framed ((act s).perform fun rest => SearchM.beside (k rest)))

/-- Carries out a custom rule's side of the dialogue, answering its requests from the search. What belongs to the
caller outside has the memory of the call beside it. -/
def Dialogue.perform : Dialogue σ → {ω : Type} → Continuation (ω × Memory) σ → SearchM (ω × Memory) σ Bool
  | .answer verdict, _, _ => return verdict
  | .offer rest next, _, k => do
    let accepted ← k rest
    (next accepted).perform k
  | .run rule s onRest next, _, k => do
    let matched ← rule.eval s fun rest => (onRest rest).perform k
    (next matched).perform k
  | .apart rule s onRest next, _, k => do
    let matched ← SearchM.apart (.unbounded s) (rule.eval s fun rest => SearchM.outside ((onRest rest).perform k))
    (next matched).perform k
  | .observe next, _, k => do
    let world ← get
    (next world.search.steps world.search.depth).perform k
  | .update change next, _, k => do
    modify fun world => { world with shared := change world.shared }
    let world ← get
    (next world.shared).perform k
  | .remember change next, _, k => do
    modify fun world => { world with outer := (world.outer.1, change world.outer.2) }
    let world ← get
    (next world.outer.2).perform k

end

/-- One call of a custom rule: its side of the dialogue, with a memory that the continuation knows nothing of. -/
def Dialogue.play (d : Dialogue σ) (k : Continuation ω σ) : SearchM ω σ Bool :=
  SearchM.framed (d.perform fun rest => SearchM.beside (k rest))

theorem Rule.eval_custom (label : σ → String) (act : Input → Dialogue σ) (s : Input) (k : Continuation ω σ) :
    (Rule.custom label act).eval s k = SearchM.visit .custom s ((act s).play k) := by
  rw [Rule.eval, Dialogue.play]

end Backtrack
