import Backtrack.Search.Eval
import Backtrack.Search.Invariant

/-!
# Evaluations side by side

A relation between computations passes from continuations to whole evaluations as soon as it is kept
by the few ways in which evaluations are put together: an answer, one computation after another, a
look at the counters, a change of what is shared, and a visit. `Sequencing` lists all but the last and
`Congruence` adds it. `Rule.eval_congr` draws the conclusion for every rule, whatever its custom rules
do. A property of single computations is a relation that ignores one side.

Neither a search of its own nor the memory of a custom rule needs a clause. Seen from the search that
waits outside, all that an inner search does is to come out now and then, and such a relation holds of
it with the state of the inner search as a value that is passed along. A memory is passed along in
the same way.
-/

set_option autoImplicit false

namespace Backtrack

variable {ω ω' σ : Type} {α : Type}

/-- A relation that is kept where one computation follows another. What is shared may differ between
the two sides, as far as `same` allows. -/
structure Sequencing (same : σ → σ → Prop)
    (P : {α : Type} → SearchM ω σ α → SearchM ω' σ α → Prop) : Prop where
  answer {α : Type} (a : α) : P (pure a) (pure a)
  bind {α β : Type} {m : SearchM ω σ α} {m' : SearchM ω' σ α} {f : α → SearchM ω σ β}
    {f' : α → SearchM ω' σ β} : P m m' → (∀ a, P (f a) (f' a)) → P (m >>= f) (m' >>= f')
  look {α : Type} {f : Nat → Nat → SearchM ω σ α} {f' : Nat → Nat → SearchM ω' σ α} :
    (∀ steps depth, P (f steps depth) (f' steps depth)) →
      P (do let world ← get; f world.search.steps world.search.depth)
        (do let world ← get; f' world.search.steps world.search.depth)
  change {α : Type} (g : σ → σ) (f : σ → SearchM ω σ α) (f' : σ → SearchM ω' σ α) :
    (∀ x y, same x y → P (f x) (f' y)) →
      P (do
          modify fun world => { world with shared := g world.shared }
          let world ← get
          f world.shared)
        (do
          modify fun world => { world with shared := g world.shared }
          let world ← get
          f' world.shared)

/-- A relation that is kept by all the ways in which evaluations are put together. -/
structure Congruence (same : σ → σ → Prop)
    (P : {α : Type} → SearchM ω σ α → SearchM ω' σ α → Prop) : Prop
    extends Sequencing same P where
  visit {α : Type} {m : SearchM ω σ α} {m' : SearchM ω' σ α} (refused : α) (kind : Kind) (s : Input) :
    P m m' → P (SearchM.visitOr refused kind s m) (SearchM.visitOr refused kind s m')

mutual

/-- No custom rule in the tree tells apart what counts as the same. -/
def Rule.Respects (same : σ → σ → Prop) : Rule σ → Prop
  | .append a b => a.Respects same ∧ b.Respects same
  | .or a b => a.Respects same ∧ b.Respects same
  | .optional r => r.Respects same
  | .many r => r.Respects same
  | .custom _ act => ∀ s, (act s).Respects same
  | _ => True

def Dialogue.Respects (same : σ → σ → Prop) : Dialogue σ → Prop
  | .answer _ => True
  | .offer _ next => ∀ accepted, (next accepted).Respects same
  | .run rule _ onRest next =>
    rule.Respects same ∧ (∀ rest, (onRest rest).Respects same) ∧
      ∀ matched, (next matched).Respects same
  | .apart rule _ onRest next =>
    rule.Respects same ∧ (∀ rest, (onRest rest).Respects same) ∧
      ∀ matched, (next matched).Respects same
  | .observe next => ∀ steps depth, (next steps depth).Respects same
  | .update _ next => (∀ x y, same x y → next x = next y) ∧ ∀ x, (next x).Respects same
  | .remember _ next => ∀ memory, (next memory).Respects same

end

mutual

/-- Every rule tells apart no more than what differs. -/
theorem Rule.respects_eq (r : Rule σ) : r.Respects Eq := by
  cases r with
  | append a b => exact ⟨a.respects_eq, b.respects_eq⟩
  | or a b => exact ⟨a.respects_eq, b.respects_eq⟩
  | optional r => exact r.respects_eq
  | many r => exact r.respects_eq
  | custom label act => exact fun s => (act s).respects_eq
  | _ => trivial

theorem Dialogue.respects_eq (d : Dialogue σ) : d.Respects Eq := by
  cases d with
  | answer verdict => trivial
  | offer rest next => exact fun accepted => (next accepted).respects_eq
  | run rule s onRest next =>
    exact ⟨rule.respects_eq, fun rest => (onRest rest).respects_eq,
      fun matched => (next matched).respects_eq⟩
  | apart rule s onRest next =>
    exact ⟨rule.respects_eq, fun rest => (onRest rest).respects_eq,
      fun matched => (next matched).respects_eq⟩
  | observe next => exact fun steps depth => (next steps depth).respects_eq
  | update g next => exact ⟨fun x y h => congrArg next h, fun x => (next x).respects_eq⟩
  | remember g next => exact fun memory => (next memory).respects_eq

end

namespace SearchM

/-- Runs a computation in a search of its own and also returns that search as it ended. -/
def aside (fresh : Search) (inner : SearchM (Search × ω) σ α) : SearchM ω σ (α × Search) :=
  fun world =>
    let (a, inside) := inner ⟨fresh, (world.search, world.outer), world.shared⟩
    ((a, inside.search), ⟨inside.outer.1, inside.outer.2, inside.shared⟩)

theorem apart_eq_aside (fresh : Search) (inner : SearchM (Search × ω) σ α) :
    apart fresh inner = aside fresh inner >>= fun result => pure result.1 := rfl

theorem aside_outside (fresh : Search) (waiting : SearchM ω σ α) :
    aside fresh (outside waiting) = waiting >>= fun a => pure (a, fresh) := rfl

theorem aside_bind {β : Type} (fresh : Search) (m : SearchM (Search × ω) σ α)
    (f : α → SearchM (Search × ω) σ β) :
    aside fresh (m >>= f) = aside fresh m >>= fun result => aside result.2 (f result.1) := rfl

theorem aside_visitOr (fresh : Search) (refused : α) (kind : Kind) (s : Input)
    (body : SearchM (Search × ω) σ α) :
    aside fresh (visitOr refused kind s body) =
      if (fresh.enter kind s).1 then
        aside (fresh.enter kind s).2 body >>= fun result => pure (result.1, result.2.leave)
      else pure (refused, (fresh.enter kind s).2) := by
  funext world
  rcases h : fresh.enter kind s with ⟨entered, after⟩
  cases entered <;> simp only [aside, visitOr, h] <;> rfl

/-- Runs a computation with a memory of its own and also returns that memory as it ended. -/
def keeping (memory : Memory) (m : SearchM (ω × Memory) σ α) : SearchM ω σ (α × Memory) :=
  fun world =>
    let (a, after) := m ⟨world.search, (world.outer, memory), world.shared⟩
    ((a, after.outer.2), after.inner)

theorem framed_eq_keeping (m : SearchM (ω × Memory) σ α) :
    framed m = keeping [] m >>= fun result => pure result.1 := rfl

theorem keeping_beside (memory : Memory) (m : SearchM ω σ α) :
    keeping memory (beside m) = m >>= fun a => pure (a, memory) := rfl

theorem keeping_bind {β : Type} (memory : Memory) (m : SearchM (ω × Memory) σ α)
    (f : α → SearchM (ω × Memory) σ β) :
    keeping memory (m >>= f) = keeping memory m >>= fun result => keeping result.2 (f result.1) :=
  rfl

theorem keeping_visitOr (memory : Memory) (refused : α) (kind : Kind) (s : Input)
    (body : SearchM (ω × Memory) σ α) :
    keeping memory (visitOr refused kind s body)
      = visitOr (refused, memory) kind s (keeping memory body) := by
  funext world
  rcases h : world.search.enter kind s with ⟨entered, after⟩
  cases entered <;> simp only [keeping, visitOr, h] <;> rfl

/-- A custom rule that changes its memory goes on with another one. -/
theorem keeping_remember (memory : Memory) (g : Memory → Memory) (next : Memory → Dialogue σ)
    (k : Continuation (ω × Memory) σ) :
    keeping memory ((Dialogue.remember g next).perform k)
      = keeping (g memory) ((next (g memory)).perform k) := by
  rw [Dialogue.perform]
  rfl

end SearchM

namespace Sequencing

variable {same : σ → σ → Prop} {P : {α : Type} → SearchM ω σ α → SearchM ω' σ α → Prop}
variable (h : Sequencing same P)
include h

/-- What is kept in one search is kept in every search apart from it, seen from outside. -/
theorem inside :
    Congruence same fun {α} (m : SearchM (Search × ω) σ α) (m' : SearchM (Search × ω') σ α) =>
      ∀ fresh, P (SearchM.aside fresh m) (SearchM.aside fresh m') where
  answer a fresh := h.answer (a, fresh)
  bind hm hf fresh := by
    rw [SearchM.aside_bind, SearchM.aside_bind]
    exact h.bind (hm fresh) fun result => hf result.1 result.2
  look hf fresh := hf fresh.steps fresh.depth fresh
  change g f f' hf fresh := h.change g _ _ fun x y hxy => hf x y hxy fresh
  visit refused kind s hm fresh := by
    rw [SearchM.aside_visitOr, SearchM.aside_visitOr]
    split
    · exact h.bind (hm _) fun result => h.answer _
    · exact h.answer _

/-- What is kept without a memory is kept with every memory beside, seen from outside. -/
theorem keeping :
    Sequencing same fun {α} (m : SearchM (ω × Memory) σ α) (m' : SearchM (ω' × Memory) σ α) =>
      ∀ memory, P (SearchM.keeping memory m) (SearchM.keeping memory m') where
  answer a memory := h.answer (a, memory)
  bind hm hf memory := by
    rw [SearchM.keeping_bind, SearchM.keeping_bind]
    exact h.bind (hm memory) fun result => hf result.1 result.2
  look hf memory := h.look fun steps depth => hf steps depth memory
  change g f f' hf memory := h.change g _ _ fun x y hxy => hf x y hxy memory

theorem framed {m : SearchM (ω × Memory) σ α} {m' : SearchM (ω' × Memory) σ α}
    (hm : ∀ memory, P (SearchM.keeping memory m) (SearchM.keeping memory m')) :
    P (SearchM.framed m) (SearchM.framed m') := by
  rw [SearchM.framed_eq_keeping, SearchM.framed_eq_keeping]
  exact h.bind (hm []) fun result => h.answer result.1

theorem beside {m : SearchM ω σ α} {m' : SearchM ω' σ α} (hm : P m m') (memory : Memory) :
    P (SearchM.keeping memory (SearchM.beside m)) (SearchM.keeping memory (SearchM.beside m')) := by
  rw [SearchM.keeping_beside, SearchM.keeping_beside]
  exact h.bind hm fun a => h.answer (a, memory)

theorem orElse {m n : SearchM ω σ Bool} {m' n' : SearchM ω' σ Bool} (hm : P m m') (hn : P n n') :
    P (SearchM.orElse m n) (SearchM.orElse m' n') := by
  apply h.bind hm
  intro matched
  cases matched with
  | true => exact h.answer true
  | false => exact hn

theorem consume {accepts : Char → Bool} {k : Continuation ω σ} {k' : Continuation ω' σ}
    (hk : ∀ rest, P (k rest) (k' rest)) (s : Input) :
    P (consume accepts k s) (consume accepts k' s) := by
  cases s with
  | nil => exact h.answer false
  | cons c rest =>
    rw [Backtrack.consume, Backtrack.consume]
    split
    · exact hk rest
    · exact h.answer false

end Sequencing

namespace Congruence

variable {same : σ → σ → Prop} {P : {α : Type} → SearchM ω σ α → SearchM ω' σ α → Prop}
variable (h : Congruence same P)
include h

theorem keeping :
    Congruence same fun {α} (m : SearchM (ω × Memory) σ α) (m' : SearchM (ω' × Memory) σ α) =>
      ∀ memory, P (SearchM.keeping memory m) (SearchM.keeping memory m') where
  toSequencing := h.toSequencing.keeping
  visit refused kind s hm memory := by
    rw [SearchM.keeping_visitOr, SearchM.keeping_visitOr]
    exact h.visit (refused, memory) kind s (hm memory)

theorem repeated {round : Input → Continuation ω σ → SearchM ω σ Bool}
    {round' : Input → Continuation ω' σ → SearchM ω' σ Bool}
    (hround : ∀ s k k', (∀ rest, P (k rest) (k' rest)) → P (round s k) (round' s k'))
    {k : Continuation ω σ} {k' : Continuation ω' σ} (hk : ∀ rest, P (k rest) (k' rest))
    (s : Input) : P (repeated round k s) (repeated round' k' s) := by
  fun_induction Backtrack.repeated round k s with
  | case1 s ih =>
    rw [Backtrack.repeated]
    apply h.visit false
    apply h.orElse ?_ (hk s)
    apply hround
    intro rest
    split
    · rename_i hlt
      exact ih rest hlt
    · exact h.answer false

end Congruence

mutual

/-- A rule keeps what its continuation keeps. -/
theorem Rule.eval_congr {ω ω' : Type} {same : σ → σ → Prop}
    {P : {α : Type} → SearchM ω σ α → SearchM ω' σ α → Prop} (hP : Congruence same P)
    {r : Rule σ} (h : r.Respects same) {k : Continuation ω σ} {l : Continuation ω' σ}
    (hk : ∀ rest, P (k rest) (l rest)) (s : Input) : P (r.eval s k) (r.eval s l) := by
  cases r with
  | any => rw [Rule.eval, Rule.eval]; exact hP.visit false _ _ (hP.consume hk s)
  | oneOf set => rw [Rule.eval, Rule.eval]; exact hP.visit false _ _ (hP.consume hk s)
  | val c => rw [Rule.eval, Rule.eval]; exact hP.visit false _ _ (hP.consume hk s)
  | empty => rw [Rule.eval, Rule.eval]; exact hP.visit false _ _ (hk s)
  | «end» => rw [Rule.eval, Rule.eval]; exact hP.visit false _ _ (hP.answer _)
  | append a b =>
    obtain ⟨ha, hb⟩ := h
    rw [Rule.eval, Rule.eval]
    apply hP.visit false
    apply Rule.eval_congr hP ha
    intro rest
    exact Rule.eval_congr hP hb hk rest
  | or a b =>
    obtain ⟨ha, hb⟩ := h
    rw [Rule.eval, Rule.eval]
    exact hP.visit false _ _ (hP.orElse (Rule.eval_congr hP ha hk s) (Rule.eval_congr hP hb hk s))
  | optional r =>
    have hr : r.Respects same := h
    rw [Rule.eval, Rule.eval]
    exact hP.visit false _ _ (hP.orElse (Rule.eval_congr hP hr hk s) (hk s))
  | many r =>
    have hr : r.Respects same := h
    rw [Rule.eval, Rule.eval]
    apply hP.repeated ?_ hk
    intro s k l hk
    exact Rule.eval_congr hP hr hk s
  | custom label act =>
    rw [Rule.eval, Rule.eval]
    apply hP.visit false
    apply hP.framed
    apply Dialogue.perform_congr hP (h s)
    intro rest
    exact hP.beside (hk rest)

/-- So does a custom rule, with a continuation that leaves its memory alone or not. -/
theorem Dialogue.perform_congr {ω ω' : Type} {same : σ → σ → Prop}
    {P : {α : Type} → SearchM ω σ α → SearchM ω' σ α → Prop} (hP : Congruence same P)
    {d : Dialogue σ} (h : d.Respects same) {k : Continuation (ω × Memory) σ}
    {l : Continuation (ω' × Memory) σ}
    (hk : ∀ rest memory, P (SearchM.keeping memory (k rest)) (SearchM.keeping memory (l rest)))
    (memory : Memory) :
    P (SearchM.keeping memory (d.perform k)) (SearchM.keeping memory (d.perform l)) := by
  cases d with
  | answer verdict =>
    rw [Dialogue.perform, Dialogue.perform]
    exact hP.answer (verdict, memory)
  | offer rest next =>
    rw [Dialogue.perform, Dialogue.perform]
    exact hP.keeping.bind (hk rest) (fun accepted => Dialogue.perform_congr hP (h accepted) hk)
      memory
  | run rule s onRest next =>
    obtain ⟨hrule, hrest, hnext⟩ := h
    rw [Dialogue.perform, Dialogue.perform]
    refine hP.keeping.bind ?_ (fun matched => Dialogue.perform_congr hP (hnext matched) hk) memory
    apply Rule.eval_congr hP.keeping hrule
    intro rest
    exact Dialogue.perform_congr hP (hrest rest) hk
  | apart rule s onRest next =>
    obtain ⟨hrule, hrest, hnext⟩ := h
    rw [Dialogue.perform, Dialogue.perform]
    refine hP.keeping.bind ?_ (fun matched => Dialogue.perform_congr hP (hnext matched) hk) memory
    rw [SearchM.apart_eq_aside, SearchM.apart_eq_aside]
    refine hP.keeping.bind (Rule.eval_congr hP.keeping.inside hrule ?_ s (.unbounded s))
      fun _ => hP.keeping.answer _
    intro rest fresh
    rw [SearchM.aside_outside, SearchM.aside_outside]
    exact hP.keeping.bind (Dialogue.perform_congr hP (hrest rest) hk) fun _ => hP.keeping.answer _
  | observe next =>
    rw [Dialogue.perform, Dialogue.perform]
    exact hP.keeping.look (fun steps depth => Dialogue.perform_congr hP (h steps depth) hk) memory
  | update g next =>
    obtain ⟨hsame, hnext⟩ := h
    rw [Dialogue.perform, Dialogue.perform]
    refine hP.keeping.change g (fun x => (next x).perform k) (fun x => (next x).perform l) ?_ memory
    intro x y hxy
    rw [hsame x y hxy]
    exact Dialogue.perform_congr hP (hnext y) hk
  | remember g next =>
    rw [SearchM.keeping_remember, SearchM.keeping_remember]
    exact Dialogue.perform_congr hP (h (g memory)) hk (g memory)

end

namespace SearchM

variable {β : Type}

theorem beside_visitOr (refused : α) (kind : Kind) (s : Input) (body : SearchM ω σ α) :
    visitOr refused kind s (beside body : SearchM (ω × β) σ α)
      = beside (visitOr refused kind s body) := by
  funext world
  cases henter : (world.search.enter kind s).1 with
  | false =>
    have hinner : (world.inner.search.enter kind s).1 = false := henter
    simp only [beside, visitOr_of_refused henter, visitOr_of_refused hinner]
    rfl
  | true =>
    have hinner : (world.inner.search.enter kind s).1 = true := henter
    simp only [beside, visitOr_of_entered henter, visitOr_of_entered hinner]
    rfl

/-- Evaluations do not notice what stands beside them. -/
theorem congruence_beside :
    Congruence Eq fun {α} (m : SearchM ω σ α) (m' : SearchM (ω × β) σ α) => m' = beside m where
  answer _ := rfl
  bind {α γ m m' f f'} hm hf := by
    obtain rfl := hm
    obtain rfl : f' = fun a => beside (f a) := funext hf
    rfl
  visit refused kind s hm := by
    obtain rfl := hm
    exact beside_visitOr refused kind s _
  look {α f f'} hf := by
    obtain rfl : f' = fun steps depth => beside (f steps depth) := by
      funext steps depth
      exact hf steps depth
    rfl
  change g f f' hf := by
    obtain rfl : f' = fun x => beside (f x) := by
      funext x
      exact hf x x rfl
    rfl

/-- The first computation does what the second one does, and touches what was added outside. -/
def Covers (m : SearchM (ω × β) σ α) (m' : SearchM ω σ α) : Prop :=
  ∀ world, (m world).1 = (m' world.inner).1 ∧ (m world).2.inner = (m' world.inner).2

theorem Covers.visit {body : SearchM (ω × β) σ α} {body' : SearchM ω σ α}
    (h : body.Covers body') (refused : α) (kind : Kind) (s : Input) :
    (visitOr refused kind s body).Covers (visitOr refused kind s body') := by
  intro world
  cases henter : (world.search.enter kind s).1 with
  | false =>
    have hinner : (world.inner.search.enter kind s).1 = false := henter
    rw [visitOr_of_refused henter, visitOr_of_refused hinner]
    exact ⟨rfl, rfl⟩
  | true =>
    have hinner : (world.inner.search.enter kind s).1 = true := henter
    rw [visitOr_of_entered henter, visitOr_of_entered hinner]
    obtain ⟨hresult, hafter⟩ := h { world with search := (world.search.enter kind s).2 }
    exact ⟨hresult, congrArg (fun after => { after with search := after.search.leave }) hafter⟩

theorem congruence_covers :
    Congruence Eq fun {α} (m : SearchM (ω × β) σ α) (m' : SearchM ω σ α) => m.Covers m' where
  answer _ _ := ⟨rfl, rfl⟩
  bind {α γ m m' f f'} hm hf world := by
    obtain ⟨hresult, hafter⟩ := hm world
    have hnext := hf (m world).1 (m world).2
    rw [hafter, hresult] at hnext
    show (f (m world).1 (m world).2).1 = (f' (m' world.inner).1 (m' world.inner).2).1 ∧
      (f (m world).1 (m world).2).2.inner = (f' (m' world.inner).1 (m' world.inner).2).2
    rw [hresult]
    exact hnext
  visit refused kind s hm := hm.visit refused kind s
  look hf world := hf world.search.steps world.search.depth world
  change g _ _ hf world := hf (g world.shared) _ rfl { world with shared := g world.shared }

end SearchM

/-- A memory that nobody uses makes no difference. -/
theorem Rule.framed_eval (r : Rule σ) (s : Input) (k : Continuation ω σ) :
    SearchM.framed (r.eval s fun rest => SearchM.beside (k rest)) = r.eval s k := by
  rw [Rule.eval_congr SearchM.congruence_beside r.respects_eq (fun _ => rfl) s]
  rfl

namespace Dialogue

variable (k : Continuation ω σ)

theorem play_answer (verdict : Bool) : (answer verdict).play k = pure verdict := by
  rw [play, perform]
  rfl

theorem play_offer (rest : Input) (next : Bool → Dialogue σ) :
    (offer rest next).play k = k rest >>= fun accepted => (next accepted).play k := by
  rw [play, perform]
  rfl

theorem play_update (g : σ → σ) (next : σ → Dialogue σ) :
    (update g next).play k = fun world =>
      (next (g world.shared)).play k { world with shared := g world.shared } := by
  rw [play, perform]
  rfl

theorem play_test (r : Rule σ) (s : Input) (next : Bool → Dialogue σ) :
    (test r s next).play k
      = r.eval s (fun _ => pure true) >>= fun found => (next found).play k := by
  have hbeside : (r.eval s fun _ => pure true : SearchM (ω × Memory) σ Bool)
      = SearchM.beside (r.eval s fun _ => pure true) :=
    Rule.eval_congr SearchM.congruence_beside r.respects_eq (k := fun _ => pure true)
      (fun _ => rfl) s
  rw [test, play, perform]
  simp only [perform]
  rw [hbeside]
  rfl

/-- To hand on what another rule leaves over, and to answer alike, is to be that rule. -/
theorem play_pass (r : Rule σ) (s : Input) : (pass r s).play k = r.eval s k := by
  rw [← r.framed_eval s k, play, pass, perform]
  simp only [perform]
  rfl

/-- One call of a custom rule keeps what its continuation keeps. -/
theorem play_congr {same : σ → σ → Prop}
    {P : {α : Type} → SearchM ω σ α → SearchM ω' σ α → Prop} (hP : Congruence same P)
    {d : Dialogue σ} (h : d.Respects same) {k : Continuation ω σ} {l : Continuation ω' σ}
    (hk : ∀ rest, P (k rest) (l rest)) : P (d.play k) (d.play l) :=
  hP.framed (perform_congr hP h fun rest => hP.beside (hk rest))

end Dialogue

end Backtrack
