import Backtrack.Custom.Combinators
import Backtrack.Proofs.Bookkeeping
import Backtrack.Search.Watch

/-!
# What an evaluation passes through

To watch an evaluation changes nothing about it, and what is written down on the way accounts for
everything that the search went through: between two moments it only refuses evaluations, and each
evaluation entered or left is a moment of its own. So every moment finds the search in a state that it
can reach, after as many evaluations as have been seen to run.
-/

set_option autoImplicit false

namespace Backtrack

variable {ω ω' σ : Type} {α : Type}

/-- A relation between computations and watched ones that is kept by the ways in which evaluations are
put together. -/
structure Watching (w : Watcher ω' σ) (P : {α : Type} → SearchM ω σ α → SearchM ω' σ α → Prop) :
    Prop extends Sequencing Eq P where
  watch {α : Type} {m : SearchM ω σ α} {m' : SearchM ω' σ α} (refused : α) (kind : Kind) (s : Input) :
    P m m' → P (SearchM.visitOr refused kind s m) (SearchM.watchOr w refused kind s m')
  acts {α : Type} {m : SearchM ω σ α} {m' : SearchM ω' σ α} :
    P m m' → P m (w .acts >>= fun _ => m')

theorem SearchM.keeping_watchOr (memory : Memory) (w : Watcher ω σ) (refused : α) (kind : Kind)
    (s : Input) (body : SearchM (ω × Memory) σ α) :
    keeping memory (watchOr w.beside refused kind s body)
      = watchOr w (refused, memory) kind s (keeping memory body) := by
  have hbody : keeping memory (do w.beside .runs; let a ← body; w.beside .leaves; return a)
      = (do w .runs; let result ← keeping memory body; w .leaves; return result) := rfl
  rw [watchOr, watchOr, ← hbody, ← keeping_visitOr]
  rfl

namespace Watching

variable {w : Watcher ω' σ} {P : {α : Type} → SearchM ω σ α → SearchM ω' σ α → Prop}

/-- What is kept without a memory is kept with every memory beside. -/
theorem keeping (h : Watching w P) :
    Watching w.beside fun {α} (m : SearchM (ω × Memory) σ α) (m' : SearchM (ω' × Memory) σ α) =>
      ∀ memory, P (SearchM.keeping memory m) (SearchM.keeping memory m') where
  toSequencing := h.toSequencing.keeping
  watch refused kind s hm memory := by
    rw [SearchM.keeping_visitOr, SearchM.keeping_watchOr]
    exact h.watch (refused, memory) kind s (hm memory)
  acts hm memory := h.acts (hm memory)

theorem repeated (h : Watching w P) {round : Input → Continuation ω σ → SearchM ω σ Bool}
    {round' : Input → Continuation ω' σ → SearchM ω' σ Bool}
    (hround : ∀ s k k', (∀ rest, P (k rest) (k' rest)) → P (round s k) (round' s k'))
    {k : Continuation ω σ} {k' : Continuation ω' σ} (hk : ∀ rest, P (k rest) (k' rest))
    (s : Input) : P (repeated round k s) (w.repeated round' k' s) := by
  fun_induction Backtrack.repeated round k s with
  | case1 s ih =>
    rw [Watcher.repeated]
    apply h.watch false
    apply h.orElse ?_ (hk s)
    apply hround
    intro rest
    split
    · rename_i hlt
      exact ih rest hlt
    · exact h.answer false

end Watching

mutual

/-- A rule and the watched rule are related as their continuations are. -/
theorem Rule.eval_watch {ω ω' : Type} {w : Watcher ω' σ}
    {P : {α : Type} → SearchM ω σ α → SearchM ω' σ α → Prop} (hP : Watching w P) (r : Rule σ)
    {k : Continuation ω σ} {l : Continuation ω' σ} (hk : ∀ rest, P (k rest) (l rest)) (s : Input) :
    P (r.eval s k) (r.watch w s l) := by
  cases r with
  | any => rw [Rule.eval, Rule.watch]; exact hP.watch false _ _ (hP.consume hk s)
  | oneOf set => rw [Rule.eval, Rule.watch]; exact hP.watch false _ _ (hP.consume hk s)
  | val c => rw [Rule.eval, Rule.watch]; exact hP.watch false _ _ (hP.consume hk s)
  | empty => rw [Rule.eval, Rule.watch]; exact hP.watch false _ _ (hk s)
  | «end» => rw [Rule.eval, Rule.watch]; exact hP.watch false _ _ (hP.answer _)
  | append a b =>
    rw [Rule.eval, Rule.watch]
    apply hP.watch false
    apply Rule.eval_watch hP a
    intro rest
    exact Rule.eval_watch hP b hk rest
  | or a b =>
    rw [Rule.eval, Rule.watch]
    exact hP.watch false _ _ (hP.orElse (Rule.eval_watch hP a hk s) (Rule.eval_watch hP b hk s))
  | optional r =>
    rw [Rule.eval, Rule.watch]
    exact hP.watch false _ _ (hP.orElse (Rule.eval_watch hP r hk s) (hk s))
  | many r =>
    rw [Rule.eval, Rule.watch]
    apply hP.repeated ?_ hk
    intro s k l hk
    exact Rule.eval_watch hP r hk s
  | custom label act =>
    rw [Rule.eval, Rule.watch]
    apply hP.watch false
    apply hP.framed
    apply Dialogue.perform_watch hP (act s)
    intro rest
    exact hP.beside (hk rest)

theorem Dialogue.perform_watch {ω ω' : Type} {w : Watcher ω' σ}
    {P : {α : Type} → SearchM ω σ α → SearchM ω' σ α → Prop} (hP : Watching w P)
    (d : Dialogue σ) {k : Continuation (ω × Memory) σ} {l : Continuation (ω' × Memory) σ}
    (hk : ∀ rest memory, P (SearchM.keeping memory (k rest)) (SearchM.keeping memory (l rest)))
    (memory : Memory) :
    P (SearchM.keeping memory (d.perform k)) (SearchM.keeping memory (d.watch w.beside l)) := by
  have hkeep := hP.keeping
  cases d with
  | answer verdict =>
    rw [Dialogue.perform, Dialogue.watch]
    exact hkeep.acts (hkeep.answer verdict) memory
  | offer rest next =>
    rw [Dialogue.perform, Dialogue.watch]
    refine hkeep.acts (hkeep.bind (hk rest) ?_) memory
    intro accepted
    exact Dialogue.perform_watch hP (next accepted) hk
  | run rule s onRest next =>
    rw [Dialogue.perform, Dialogue.watch]
    refine hkeep.acts (hkeep.bind ?_ ?_) memory
    · apply Rule.eval_watch hkeep rule
      intro rest
      exact Dialogue.perform_watch hP (onRest rest) hk
    · intro matched
      exact Dialogue.perform_watch hP (next matched) hk
  | apart rule s onRest next =>
    rw [Dialogue.perform, Dialogue.watch]
    refine hkeep.acts (hkeep.bind ?_ ?_) memory
    · rw [SearchM.apart_eq_aside, SearchM.apart_eq_aside]
      refine hkeep.bind (Rule.eval_congr hkeep.inside rule.respects_eq ?_ s (.unbounded s))
        fun _ => hkeep.answer _
      intro rest fresh
      rw [SearchM.aside_outside, SearchM.aside_outside]
      exact hkeep.bind (Dialogue.perform_watch hP (onRest rest) hk) fun _ => hkeep.answer _
    · intro matched
      exact Dialogue.perform_watch hP (next matched) hk
  | observe next =>
    rw [Dialogue.perform, Dialogue.watch]
    exact hkeep.acts (hkeep.look fun steps depth => Dialogue.perform_watch hP (next steps depth) hk)
      memory
  | update g next =>
    rw [Dialogue.perform, Dialogue.watch]
    refine hkeep.acts (hkeep.change g (fun x => (next x).perform k)
      (fun x => (next x).watch w.beside l) ?_) memory
    rintro x _ rfl
    exact Dialogue.perform_watch hP (next x) hk
  | remember g next =>
    rw [SearchM.keeping_remember, Dialogue.watch]
    exact hP.acts (Dialogue.perform_watch hP (next (g memory)) hk (g memory))

end

namespace Moments

@[simp] theorem entered_append (before after : Moments) :
    Moments.entered (before ++ after) = before.entered + after.entered := List.countP_append

theorem entered_singleton (moment : Moment) (search : Search) :
    Moments.entered [(moment, search)] = if moment = .runs then 1 else 0 := by
  cases moment <;> rfl

/-- A moment in a row is the last one or stands in the row before it. -/
theorem split_concat {row before after : Moments} {last moment : Moment × Search}
    (h : row ++ [last] = before ++ moment :: after) :
    row = before ∧ moment = last ∨ ∃ after', row = before ++ moment :: after' := by
  rcases List.eq_nil_or_concat after with rfl | ⟨after', x, rfl⟩
  · obtain ⟨hrow, hlast⟩ := List.append_inj' h rfl
    exact .inl ⟨hrow, (List.cons.inj hlast).1.symm⟩
  · rw [List.concat_eq_append, ← List.cons_append, ← List.append_assoc] at h
    exact .inr ⟨after', (List.append_inj' h rfl).1⟩

end Moments

namespace Search

/-- From one state of a search to another, with the moments noted on the way. Whenever an evaluation
is entered or left, a moment says so. -/
inductive Trail (first : Search) : Moments → Search → Prop where
  | refl : Trail first [] first
  | look {moments : Moments} {search : Search} (moment : Moment) : Trail first moments search →
    moment ≠ .runs → moment ≠ .leaves → Trail first (moments ++ [(moment, search)]) search
  | enter {moments : Moments} {search : Search} {kind : Kind} {s : Input} :
    Trail first moments search → (search.enter kind s).1 = true →
    Trail first (moments ++ [(.runs, (search.enter kind s).2)]) (search.enter kind s).2
  | refuse {moments : Moments} {search : Search} {kind : Kind} {s : Input} :
    Trail first moments search → (search.enter kind s).1 = false →
    Trail first moments (search.enter kind s).2
  | leave {moments : Moments} {search : Search} : Trail first moments search → 0 < search.depth →
    Trail first (moments ++ [(.leaves, search)]) search.leave

namespace Trail

variable {first middle last : Search} {moments more : Moments}

theorem trans (h : first.Trail moments middle) (h' : middle.Trail more last) :
    first.Trail (moments ++ more) last := by
  induction h' with
  | refl =>
    rw [List.append_nil]
    exact h
  | look moment _ hruns hleaves ih =>
    rw [← List.append_assoc]
    exact .look moment ih hruns hleaves
  | enter _ henter ih =>
    rw [← List.append_assoc]
    exact .enter ih henter
  | refuse _ henter ih => exact .refuse ih henter
  | leave _ hdepth ih =>
    rw [← List.append_assoc]
    exact .leave ih hdepth

/-- A trail is a walk on which as many evaluations are entered as are seen to run. -/
theorem walk (h : first.Trail moments last) : first.Walk moments.entered last := by
  induction h with
  | refl => exact .refl
  | look moment _ hruns _ ih =>
    rw [Moments.entered_append, Moments.entered_singleton, if_neg hruns]
    exact ih
  | enter _ henter ih =>
    rw [Moments.entered_append]
    exact .enter ih henter
  | refuse _ henter ih => exact .refuse ih henter
  | leave _ hdepth ih =>
    rw [Moments.entered_append]
    exact .leave ih hdepth

/-- The walk up to one of the moments. -/
theorem walk_to (h : first.Trail moments last) {before after : Moments} {moment : Moment}
    {search : Search} (hsplit : moments = before ++ (moment, search) :: after) :
    first.Walk (Moments.entered (before ++ [(moment, search)])) search ∧
      (moment = .leaves → 0 < search.depth) := by
  induction h generalizing after with
  | refl =>
    exact absurd hsplit.symm (List.append_ne_nil_of_right_ne_nil before (List.cons_ne_nil _ after))
  | look moment hbefore hruns hleaves ih =>
    rcases Moments.split_concat hsplit with ⟨rfl, heq⟩ | ⟨after', hearlier⟩
    · cases heq
      exact ⟨(Trail.look moment hbefore hruns hleaves).walk, fun hleft => absurd hleft hleaves⟩
    · exact ih hearlier
  | enter hbefore henter ih =>
    rcases Moments.split_concat hsplit with ⟨rfl, heq⟩ | ⟨after', hearlier⟩
    · cases heq
      exact ⟨(Trail.enter hbefore henter).walk, nofun⟩
    · exact ih hearlier
  | refuse _ _ ih => exact ih hsplit
  | leave hbefore hdepth ih =>
    rcases Moments.split_concat hsplit with ⟨rfl, heq⟩ | ⟨after', hearlier⟩
    · cases heq
      refine ⟨?_, fun _ => hdepth⟩
      rw [Moments.entered_append]
      exact hbefore.walk
    · exact ih hearlier

end Trail

end Search

namespace SearchM

/-- The second computation does what the first one does, comes back to the depth it started from, and
writes down a trail of what it passes through. -/
structure Shows (m : SearchM ω σ α) (m' : SearchM (ω × Moments) σ α) : Prop where
  covers : m'.Covers m
  depth_eq : ∀ world, (m' world).2.search.depth = world.search.depth
  trail : ∀ world, ∃ moments, (m' world).2.outer.2 = world.outer.2 ++ moments ∧
    world.search.Trail moments (m' world).2.search

/-- What nothing is added to and what leaves the search as it is. -/
theorem shows_beside {m : SearchM ω σ α} (h : ∀ world, (m world).2.search = world.search) :
    m.Shows (SearchM.beside m) where
  covers _ := ⟨rfl, rfl⟩
  depth_eq world := congrArg Search.depth (h world.inner)
  trail world := by
    refine ⟨[], (List.append_nil _).symm, ?_⟩
    have hsame : (SearchM.beside (β := Moments) m world).2.search = world.search := h world.inner
    rw [hsame]
    exact .refl

/-- To write down a moment first. -/
theorem Shows.look {m : SearchM ω σ α} {m' : SearchM (ω × Moments) σ α} (h : m.Shows m')
    {moment : Moment} (hruns : moment ≠ .runs) (hleaves : moment ≠ .leaves) :
    m.Shows (noting moment >>= fun _ => m') where
  covers world :=
    h.covers { world with outer := (world.outer.1, world.outer.2 ++ [(moment, world.search)]) }
  depth_eq world :=
    h.depth_eq { world with outer := (world.outer.1, world.outer.2 ++ [(moment, world.search)]) }
  trail world := by
    obtain ⟨moments, hmoments, htrail⟩ :=
      h.trail { world with outer := (world.outer.1, world.outer.2 ++ [(moment, world.search)]) }
    refine ⟨(moment, world.search) :: moments, ?_, ?_⟩
    · rw [List.append_cons]
      exact hmoments
    · exact (Search.Trail.look moment .refl hruns hleaves).trans htrail

theorem Shows.bind {β : Type} {m : SearchM ω σ α} {m' : SearchM (ω × Moments) σ α}
    {f : α → SearchM ω σ β} {f' : α → SearchM (ω × Moments) σ β} (hm : m.Shows m')
    (hf : ∀ a, (f a).Shows (f' a)) : (m >>= f).Shows (m' >>= f') where
  covers := congruence_covers.bind hm.covers fun a => (hf a).covers
  depth_eq world := ((hf (m' world).1).depth_eq (m' world).2).trans (hm.depth_eq world)
  trail world := by
    obtain ⟨moments, hmoments, htrail⟩ := hm.trail world
    obtain ⟨more, hmore, htrail'⟩ := (hf (m' world).1).trail (m' world).2
    refine ⟨moments ++ more, ?_, htrail.trans htrail'⟩
    rw [← List.append_assoc, ← hmoments]
    exact hmore

/-- A body with the moments in which it is entered and left. -/
def attended (body : SearchM (ω × Moments) σ α) : SearchM (ω × Moments) σ α := do
  noting .runs
  let a ← body
  noting .leaves
  return a

theorem covers_attended {m : SearchM ω σ α} {m' : SearchM (ω × Moments) σ α} (h : m'.Covers m) :
    (attended m').Covers m := fun world =>
  h { world with outer := (world.outer.1, world.outer.2 ++ [(.runs, world.search)]) }

/-- What is written down about an evaluation that is entered. -/
theorem Shows.trail_entered {m : SearchM ω σ α} {m' : SearchM (ω × Moments) σ α} (h : m.Shows m')
    {search : Search} {kind : Kind} {s : Input} (henter : (search.enter kind s).1 = true)
    (outer : ω) (before : Moments) (shared : σ) :
    ∃ moments,
      (attended m' ⟨(search.enter kind s).2, (outer, before), shared⟩).2.outer.2 = before ++ moments ∧
      search.Trail moments
        (attended m' ⟨(search.enter kind s).2, (outer, before), shared⟩).2.search.leave ∧
      (attended m' ⟨(search.enter kind s).2, (outer, before), shared⟩).2.search.depth
        = search.depth + 1 := by
  obtain ⟨moments, hmoments, htrail⟩ :=
    h.trail ⟨(search.enter kind s).2, (outer, before ++ [(.runs, (search.enter kind s).2)]), shared⟩
  have hdepth := (h.depth_eq ⟨(search.enter kind s).2,
    (outer, before ++ [(.runs, (search.enter kind s).2)]), shared⟩).trans
    (Search.depth_of_entered henter)
  generalize hafter : (m' ⟨(search.enter kind s).2,
    (outer, before ++ [(.runs, (search.enter kind s).2)]), shared⟩) = after at hmoments htrail hdepth
  have hattended : attended m' ⟨(search.enter kind s).2, (outer, before), shared⟩
      = (after.1, { after.2 with
          outer := (after.2.outer.1, after.2.outer.2 ++ [(.leaves, after.2.search)]) }) := by
    rw [← hafter]
    rfl
  have hleft : 0 < after.2.search.depth := by
    rw [hdepth]
    exact Nat.succ_pos _
  rw [hattended]
  refine ⟨[(.runs, (search.enter kind s).2)] ++ moments ++ [(.leaves, after.2.search)], ?_,
    .leave ((Search.Trail.enter .refl henter).trans htrail) hleft, hdepth⟩
  dsimp only
  rw [hmoments]
  simp

theorem Shows.watch {m : SearchM ω σ α} {m' : SearchM (ω × Moments) σ α} (h : m.Shows m')
    (refused : α) (kind : Kind) (s : Input) :
    (visitOr refused kind s m).Shows (watchOr noting refused kind s m') := by
  -- what is written down before the search is asked is the same in both cases
  apply Shows.look ?_ (by decide) (by decide)
  have hvisit : (visitOr refused kind s (attended m')).Covers (visitOr refused kind s m) :=
    (covers_attended h.covers).visit refused kind s
  refine ⟨hvisit, ?_, ?_⟩
  · intro world
    show (visitOr refused kind s (attended m') world).2.search.depth = world.search.depth
    cases henter : (world.search.enter kind s).1 with
    | false =>
      rw [visitOr_of_refused henter]
      exact Search.depth_of_refused henter
    | true =>
      obtain ⟨-, -, -, hdepth⟩ := h.trail_entered henter world.outer.1 world.outer.2 world.shared
      rw [visitOr_of_entered henter]
      exact congrArg (· - 1) hdepth
  · intro world
    show ∃ moments, (visitOr refused kind s (attended m') world).2.outer.2
      = world.outer.2 ++ moments ∧
        world.search.Trail moments (visitOr refused kind s (attended m') world).2.search
    cases henter : (world.search.enter kind s).1 with
    | false =>
      rw [visitOr_of_refused henter]
      exact ⟨[], (List.append_nil _).symm, .refuse .refl henter⟩
    | true =>
      obtain ⟨moments, hmoments, htrail, -⟩ :=
        h.trail_entered henter world.outer.1 world.outer.2 world.shared
      rw [visitOr_of_entered henter]
      exact ⟨moments, hmoments, htrail⟩

theorem watching_shows :
    Watching noting fun {α} (m : SearchM ω σ α) (m' : SearchM (ω × Moments) σ α) => m.Shows m' where
  answer a := shows_beside (m := pure a) fun _ => rfl
  bind hm hf := hm.bind hf
  look {α f f'} hf := {
    covers := fun world => (hf world.search.steps world.search.depth).covers world
    depth_eq := fun world => (hf world.search.steps world.search.depth).depth_eq world
    trail := fun world => (hf world.search.steps world.search.depth).trail world }
  change g f f' hf := {
    covers := fun world =>
      (hf (g world.shared) _ rfl).covers { world with shared := g world.shared }
    depth_eq := fun world =>
      (hf (g world.shared) _ rfl).depth_eq { world with shared := g world.shared }
    trail := fun world =>
      (hf (g world.shared) _ rfl).trail { world with shared := g world.shared } }
  watch refused kind s hm := hm.watch refused kind s
  acts hm := hm.look (by decide) (by decide)

/-- A computation that keeps to its search, and the same computation with all that it evaluates
watched. -/
inductive Attended : {α : Type} → SearchM ω σ α → SearchM (ω × Moments) σ α → Prop where
  | outer {α : Type} (f : StateM (ω × σ) α) :
    Attended
      (fun world =>
        let (a, outer, shared) := f (world.outer, world.shared)
        (a, { world with outer := outer, shared := shared }))
      (SearchM.beside fun world =>
        let (a, outer, shared) := f (world.outer, world.shared)
        (a, { world with outer := outer, shared := shared }))
  | look {α : Type} (f : Nat → Nat → α) :
    Attended (fun world => (f world.search.steps world.search.depth, world))
      (SearchM.beside fun world => (f world.search.steps world.search.depth, world))
  | bind {α β : Type} {m : SearchM ω σ α} {m' : SearchM (ω × Moments) σ α} {f : α → SearchM ω σ β}
    {f' : α → SearchM (ω × Moments) σ β} :
    Attended m m' → (∀ a, Attended (f a) (f' a)) → Attended (m >>= f) (m' >>= f')
  | eval (r : Rule σ) (s : Input) {k : Continuation ω σ} {k' : Continuation (ω × Moments) σ} :
    (∀ rest, Attended (k rest) (k' rest)) → Attended (r.eval s k) (r.watch noting s k')
  | play (d : Dialogue σ) {k : Continuation ω σ} {k' : Continuation (ω × Moments) σ} :
    (∀ rest, Attended (k rest) (k' rest)) → Attended (d.play k) (d.watchPlay noting k')

theorem Attended.shows {m : SearchM ω σ α} {m' : SearchM (ω × Moments) σ α} (h : Attended m m') :
    m.Shows m' := by
  induction h with
  | outer f => exact shows_beside fun _ => rfl
  | look f => exact shows_beside fun _ => rfl
  | bind _ _ ihm ihf => exact ihm.bind ihf
  | eval r s _ ih => exact Rule.eval_watch watching_shows r ih s
  | play d _ ih =>
    exact watching_shows.framed
      (Dialogue.perform_watch watching_shows d fun rest => watching_shows.beside (ih rest))

/-- Everything that keeps to its search can be watched. -/
theorem Tame.attended {m : SearchM ω σ α} (h : Tame m) : ∃ m', Attended m m' := by
  induction h with
  | outer f => exact ⟨_, .outer f⟩
  | look f => exact ⟨_, .look f⟩
  | bind _ _ ihm ihf =>
    obtain ⟨m', hm⟩ := ihm
    obtain ⟨f', hf⟩ := Classical.axiomOfChoice ihf
    exact ⟨_, .bind hm hf⟩
  | eval r s _ ih =>
    obtain ⟨k', hk⟩ := Classical.axiomOfChoice ih
    exact ⟨_, .eval r s hk⟩
  | play d _ ih =>
    obtain ⟨k', hk⟩ := Classical.axiomOfChoice ih
    exact ⟨_, .play d hk⟩

end SearchM

/-- What was written down fits searches with these limits: every moment finds the search in a state
that it can reach, after as many evaluations as have been seen to run by then, and nothing is left that
is not open. -/
structure Moments.Fit (stepLimit nestingLimit : Option Nat) (entered : Nat) (moments : Moments) :
    Prop where
  reachable : ∀ before moment search after, moments = before ++ (moment, search) :: after →
    Search.Reachable stepLimit nestingLimit
      (entered + Moments.entered (before ++ [(moment, search)])) search
  opened : ∀ search, (Moment.leaves, search) ∈ moments → 0 < search.depth

theorem Search.Trail.fit {first last : Search} {moments : Moments} (h : first.Trail moments last)
    {stepLimit nestingLimit : Option Nat} {entered : Nat}
    (hfirst : Reachable stepLimit nestingLimit entered first) :
    moments.Fit stepLimit nestingLimit entered where
  reachable _ _ _ _ hsplit := hfirst.walk (h.walk_to hsplit).1
  opened _ hmem := by
    obtain ⟨_, _, hsplit⟩ := List.append_of_mem hmem
    exact (h.walk_to hsplit).2 rfl

namespace Rule

theorem watch_eq_watch (r : Rule σ) (w : Watcher ω σ) (s : Input) (k : Continuation ω σ) :
    ∃ body, r.watch w s k = SearchM.watch w r.kind s body := by
  cases r <;> rw [Rule.watch]
  case many r =>
    rw [Watcher.repeated]
    exact ⟨_, rfl⟩
  all_goals exact ⟨_, rfl⟩

/-- Of an evaluation that is refused nothing is seen but that it was come to. -/
theorem watch_of_refused (r : Rule σ) (s : Input) (k : Continuation (ω × Moments) σ)
    {search : Search} (h : (search.enter r.kind s).1 = false) (outer : ω) (noted : Moments)
    (shared : σ) :
    (r.watch noting s k ⟨search, (outer, noted), shared⟩).2.outer.2
      = noted ++ [(.starts, search)] := by
  obtain ⟨body, hbody⟩ := r.watch_eq_watch noting s k
  have hrefused : SearchM.visitOr false r.kind s (SearchM.attended body)
      ⟨search, (outer, noted ++ [(.starts, search)]), shared⟩
      = (false, ⟨(search.enter r.kind s).2, (outer, noted ++ [(.starts, search)]), shared⟩) :=
    SearchM.visitOr_of_refused h _
  rw [hbody]
  exact congrArg (fun after => after.2.outer.2) hrefused

/-- An evaluation and the same evaluation watched, in full. -/
theorem watch_eq_eval (r : Rule σ) (s : Input) {k : Continuation ω σ}
    {k' : Continuation (ω × Moments) σ} (hk : ∀ rest, (k rest).Attended (k' rest))
    (world : World ω σ) (noted : Moments) :
    ∃ moments : Moments,
      r.watch noting s (k'.watched noting) ⟨world.search, (world.outer, noted), world.shared⟩
        = ((r.eval s k world).1, ⟨(r.eval s k world).2.search,
            ((r.eval s k world).2.outer, noted ++ moments), (r.eval s k world).2.shared⟩) ∧
      world.search.Trail moments (r.eval s k world).2.search := by
  have hshows : (r.eval s k).Shows (r.watch noting s (k'.watched noting)) :=
    eval_watch SearchM.watching_shows r
      (fun rest => (hk rest).shows.look (by decide) (by decide)) s
  obtain ⟨hresult, hafter⟩ := hshows.covers ⟨world.search, (world.outer, noted), world.shared⟩
  obtain ⟨moments, hmoments, htrail⟩ :=
    hshows.trail ⟨world.search, (world.outer, noted), world.shared⟩
  rcases hwatch : r.watch noting s (k'.watched noting)
    ⟨world.search, (world.outer, noted), world.shared⟩ with ⟨answer, search, ⟨outer, written⟩, shared⟩
  rw [hwatch] at hresult hafter hmoments htrail
  have hplain : (r.eval s k world).2 = ⟨search, outer, shared⟩ := hafter.symm
  have hanswer : (r.eval s k world).1 = answer := hresult.symm
  refine ⟨moments, ?_, ?_⟩
  · rw [hplain, hanswer, ← hmoments]
  · rw [hplain]
    exact htrail

/-- The books of a search are kept in every state that it can reach, and through every evaluation that
starts in such a state: at each moment of it, when an evaluation is come to, entered or left, when a
custom rule acts and when the continuation is asked, the search is in a state that it can reach after
as many evaluations as have run by then. -/
theorem eval_bookkeeping (r : Rule σ) (s : Input) {k : Continuation ω σ}
    (hk : ∀ rest, (k rest).Tame) {stepLimit nestingLimit : Option Nat} {entered : Nat}
    (world : World ω σ) (h : Search.Reachable stepLimit nestingLimit entered world.search) :
    (∀ n search, Search.Reachable stepLimit nestingLimit n search →
      search.Consistent stepLimit nestingLimit n) ∧
    (r.eval s k world).2.search.depth = world.search.depth ∧
    world.search.steps ≤ (r.eval s k world).2.search.steps ∧
    (world.search.exhausted = true → (r.eval s k world).2.search.exhausted = true) ∧
    (world.search.tooDeep = true → (r.eval s k world).2.search.tooDeep = true) ∧
    ((world.search.enter r.kind s).1 = false → ∀ k' : Continuation ω σ,
      r.eval s k' world = (false, { world with search := (world.search.enter r.kind s).2 })) ∧
    (world.search.exhausted = true ∨ world.search.tooDeep = true →
      ∀ k' : Continuation ω σ, r.eval s k' world = (false, world)) ∧
    (∃ k' : Continuation (ω × Moments) σ, ∀ rest, (k rest).Attended (k' rest)) ∧
    ∀ k' : Continuation (ω × Moments) σ, (∀ rest, (k rest).Attended (k' rest)) → ∀ noted : Moments,
      ∃ moments : Moments,
        r.watch noting s (k'.watched noting) ⟨world.search, (world.outer, noted), world.shared⟩
          = ((r.eval s k world).1, ⟨(r.eval s k world).2.search,
              ((r.eval s k world).2.outer, noted ++ moments), (r.eval s k world).2.shared⟩) ∧
        world.search.Trail moments (r.eval s k world).2.search ∧
        moments.Fit stepLimit nestingLimit entered ∧
        Search.Reachable stepLimit nestingLimit (entered + moments.entered)
          (r.eval s k world).2.search ∧
        ((world.search.enter r.kind s).1 = false → moments = [(.starts, world.search)]) := by
  obtain ⟨⟨n, hwalk⟩, hdepth⟩ := (SearchM.Tame.eval r s hk).balanced world
  refine ⟨fun n search hsearch => hsearch.consistent, hdepth, hwalk.steps_le, hwalk.flags.1,
    hwalk.flags.2, fun hrefused k' => r.eval_of_refused s k' hrefused, ?_,
    Classical.axiomOfChoice fun rest => (hk rest).attended, ?_⟩
  · intro hlimit k'
    exact r.eval_of_stopped s k' (Search.stopped_eq_true.mpr hlimit)
  · intro k' hk' noted
    obtain ⟨moments, hwatch, htrail⟩ := r.watch_eq_eval s hk' world noted
    refine ⟨moments, hwatch, htrail, htrail.fit h, h.walk htrail.walk, ?_⟩
    intro hrefused
    have hseen := r.watch_of_refused s (k'.watched noting) hrefused world.outer noted world.shared
    rw [hwatch] at hseen
    exact List.append_cancel_left hseen

/-- The budget is spent inside a custom rule, which then asks its continuation all the same. -/
theorem eval_bookkeeping_spent :
    ∃ (world : World Unit Unit) (moments : Moments),
      (notAhead any).eval ['a'] Acceptor.all.lift ⟨.bounded ['a'] 1 5, (), ()⟩ = (true, world) ∧
        world.search.exhausted = true ∧ world.search.depth = 0 ∧
        moments.map (·.1)
          = [.starts, .runs, .acts, .starts, .acts, .asks, .acts, .leaves] ∧
        moments.Fit (some 1) (some 5) 0 ∧ moments.entered ≤ 1 ∧
        (Search.bounded ['a'] 1 5).Trail moments world.search := by
  have hall : ∀ rest, ((Acceptor.all : Acceptor Unit Unit).lift rest).Tame :=
    fun rest => .outer ((Acceptor.all : Acceptor Unit Unit) rest)
  have hreachable : Search.Reachable (some 1) (some 5) 0 (.bounded ['a'] 1 5) :=
    ⟨['a'], false, .refl⟩
  obtain ⟨hconsistent, hdepth, -, -, -, -, -, -, hwatched⟩ :=
    eval_bookkeeping (notAhead any) ['a'] hall ⟨.bounded ['a'] 1 5, (), ()⟩ hreachable
  obtain ⟨moments, hwatch, htrail, hfit, hafter, -⟩ :=
    hwatched (fun rest => SearchM.beside ((Acceptor.all : Acceptor Unit Unit).lift rest))
      (fun rest => .outer ((Acceptor.all : Acceptor Unit Unit) rest)) []
  have hentered := (hconsistent _ _ hafter).entered_le 1 rfl
  have hspent : ((notAhead any).eval ['a'] (Acceptor.all : Acceptor Unit Unit).lift
      ⟨.bounded ['a'] 1 5, (), ()⟩).2.search.exhausted = true := by decide +kernel
  refine ⟨_, moments, Prod.ext (by decide +kernel) rfl, hspent, hdepth, ?_, hfit, by omega, htrail⟩
  have hseen := congrArg (fun after => after.2.outer.2.map (·.1)) hwatch
  dsimp only at hseen
  rw [List.nil_append] at hseen
  rw [← hseen]
  decide +kernel

end Rule

end Backtrack
