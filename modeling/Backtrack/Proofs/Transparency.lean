import Backtrack.Proofs.Algebra
import Backtrack.Proofs.Bookkeeping
import Backtrack.Proofs.Budget
import Backtrack.Proofs.Interposition
import Backtrack.Proofs.SearchOrder

/-!
# Observers change nothing

Counters and recorders add visits of their own and write down what they see. Neither makes a
difference to the remainders that the rule inside hands on: the tree with observers and the plain one
have the same leaves in the same order.
-/

set_option autoImplicit false

namespace Backtrack

variable {ω σ : Type}

namespace SearchTree

/-- What the leaves of a tree amount to, from the first to the last. -/
def offers : SearchTree σ → List Outcome
  | leaf verdict => if verdict then [.done] else []
  | ask rest => [.rest rest]
  | visit _ _ body => body.offers
  | branch first _ onFailure => first.offers ++ onFailure.offers
  | change _ next => next.offers

theorem offers_orElse (first second : SearchTree σ) :
    (orElse first second).offers = first.offers ++ second.offers := rfl

theorem offers_pass (tree : SearchTree σ) : (orElse tree (leaf false)).offers = tree.offers := by
  rw [offers_orElse]
  exact List.append_nil _

theorem offers_consume (accepts : Char → Bool) (κ : Input → SearchTree σ) (s : Input) :
    (consume accepts κ s).offers
      = (Outcome.ofChar accepts s).flatMap (Outcome.followedBy fun t => (κ t).offers) := by
  cases s with
  | nil => rfl
  | cons c rest =>
    simp only [consume, Outcome.ofChar]
    split
    · exact (List.append_nil _).symm
    · rfl

theorem offers_repeated {layout : Input → (Input → SearchTree σ) → SearchTree σ}
    {round : Input → List Outcome}
    (hlayout : ∀ s κ, (layout s κ).offers
      = (round s).flatMap (Outcome.followedBy fun t => (κ t).offers))
    (κ : Input → SearchTree σ) (s : Input) :
    (repeated layout κ s).offers
      = (Outcome.ofRepetition round s).flatMap (Outcome.followedBy fun t => (κ t).offers) := by
  fun_induction repeated layout κ s with
  | case1 s ih =>
    rw [offers, offers_orElse, hlayout, Outcome.ofRepetition, List.flatMap_append,
      Outcome.flatMap_followedBy_assoc]
    congr 1
    · congr 2
      funext t
      split
      · rename_i hlt
        exact ih t hlt
      · rfl
    · exact (List.append_nil _).symm

end SearchTree

/-- The leaves of a rule under observers are those of the plain rule. -/
theorem Rule.Observed.offers_searchTree {plain r : Rule Gauges} (h : Observed plain r) (s : Input)
    (κ : Input → SearchTree Gauges) :
    (r.searchTree s κ).offers
      = (plain.offers s).flatMap (Outcome.followedBy fun t => (κ t).offers) := by
  induction h generalizing s κ with
  | any => exact SearchTree.offers_consume _ κ s
  | oneOf set => exact SearchTree.offers_consume _ κ s
  | val c => exact SearchTree.offers_consume _ κ s
  | empty => exact (List.append_nil _).symm
  | «end» => cases s <;> rfl
  | append _ _ iha ihb =>
    rw [searchTree, SearchTree.offers, iha, Rule.offers, Outcome.flatMap_followedBy_assoc]
    simp only [ihb]
  | or _ _ iha ihb =>
    rw [searchTree, SearchTree.offers, SearchTree.offers_orElse, iha, ihb, Rule.offers,
      List.flatMap_append]
  | optional _ ih =>
    rw [searchTree, SearchTree.offers, SearchTree.offers_orElse, ih, Rule.offers,
      List.flatMap_append]
    congr 1
    exact (List.append_nil _).symm
  | many _ ih =>
    rw [searchTree, Rule.offers]
    apply SearchTree.offers_repeated
    intro s κ
    exact ih s κ
  | counted handle _ ih =>
    rw [searchTree_counted, SearchTree.offers, SearchTree.offers, SearchTree.offers_pass, ih]
    simp only [SearchTree.offers_pass]
  | recorded handle _ ih =>
    rw [searchTree_recorded, SearchTree.offers, SearchTree.offers_pass, ih]
    simp only [SearchTree.offers, SearchTree.offers_pass]

theorem Rule.Observed.offers_wholeTree {plain r : Rule Gauges} (h : Observed plain r) (s : Input) :
    (r.wholeTree s).offers = plain.offers s := by
  rw [wholeTree, h.offers_searchTree]
  exact Outcome.flatMap_followedBy_rest _

namespace Outcome

variable {os ps : List Outcome} {calls more : List (Input × Bool)} {verdict : Bool}

theorem Settled.append_of_true (h : Settled os calls true) : Settled (os ++ ps) calls true := by
  generalize hverdict : true = verdict at h
  induction h with
  | exhausted => cases hverdict
  | done os => exact .done (os ++ ps)
  | accepted t os => exact .accepted t (os ++ ps)
  | refused _ ih => exact .refused (ih hverdict)

theorem Settled.append_of_false (h : Settled os calls false) (hmore : Settled ps more verdict) :
    Settled (os ++ ps) (calls ++ more) verdict := by
  generalize hrefused : false = refused at h
  induction h with
  | exhausted => exact hmore
  | done os => cases hrefused
  | accepted t os => cases hrefused
  | refused _ ih => exact .refused (ih hrefused)

end Outcome

/-- Notes each remainder before the acceptor is asked about it. -/
def Acceptor.recording (handle : Handle) (k : Acceptor ω Gauges) : Acceptor ω Gauges := fun rest => do
  modify fun (outer, g) => (outer, g.record handle rest)
  k rest

theorem Acceptor.lift_recording (handle : Handle) (k : Acceptor ω Gauges) :
    (k.recording handle).lift
      = fun rest world => k.lift rest { world with shared := world.shared.record handle rest } :=
  rfl

/-- What is shared makes no difference to the answers, nor to what belongs to the caller. -/
def Acceptor.Unaware (k : Acceptor ω σ) : Prop :=
  ∀ t outer shared shared', (k t (outer, shared)).1 = (k t (outer, shared')).1 ∧
    (k t (outer, shared)).2.1 = (k t (outer, shared')).2.1

theorem Acceptor.Unaware.logged {k : Acceptor ω σ} (h : k.Unaware) : k.logged.Unaware := by
  intro t outer shared shared'
  obtain ⟨hanswer, houter⟩ := h t outer.1 shared shared'
  refine ⟨hanswer, ?_⟩
  exact Prod.ext houter (congrArg (fun accepted => outer.2 ++ [(t, accepted)]) hanswer)

namespace SearchTree

variable {tree : SearchTree σ} (h : tree.Eager)
include h

/-- Whatever the acceptor sees and does, a tree puts its leaves to it one after another. -/
theorem Eager.settled (k : Acceptor ω σ) (outer : ω) (before : List (Input × Bool)) (shared : σ) :
    ∃ calls, Outcome.Settled tree.offers calls (tree.traverse k (outer, shared)).1 ∧
      tree.traverse k.logged ((outer, before), shared)
        = ((tree.traverse k (outer, shared)).1,
           ((tree.traverse k (outer, shared)).2.1, before ++ calls),
           (tree.traverse k (outer, shared)).2.2) := by
  induction tree generalizing outer before shared with
  | leaf verdict =>
    refine ⟨[], ?_, ?_⟩
    · cases verdict
      · exact .exhausted
      · exact .done []
    · rw [List.append_nil]
      rfl
  | ask rest =>
    obtain ⟨calls, hcalls, heq⟩ := k.settle_logged [.rest rest] outer before shared
    rw [Acceptor.settle_singleton] at hcalls heq
    rw [Acceptor.settle_singleton] at heq
    exact ⟨calls, hcalls, heq⟩
  | visit kind s body ih => exact ih h outer before shared
  | branch first onSuccess onFailure ihfirst _ ihfailure =>
    obtain ⟨rfl, hfirst, hfailure⟩ := h
    obtain ⟨calls, hcalls, heq⟩ := ihfirst hfirst outer before shared
    simp only [traverse, offers, bind, StateT.bind, heq]
    rcases hrun : first.traverse k (outer, shared) with ⟨matched, outer', shared'⟩
    rw [hrun] at hcalls
    cases matched with
    | true => exact ⟨calls, hcalls.append_of_true, rfl⟩
    | false =>
      obtain ⟨more, hmore, heq'⟩ := ihfailure hfailure outer' (before ++ calls) shared'
      rw [List.append_assoc] at heq'
      exact ⟨calls ++ more, hcalls.append_of_false hmore, heq'⟩
  | change f next ih => exact ih h outer before (f shared)

/-- Where the acceptor takes no notice of what is shared, a tree is to the caller as its leaves. -/
theorem Eager.traverse_unaware {k : Acceptor ω σ} (hk : k.Unaware) (outer : ω)
    (shared shared' : σ) :
    (tree.traverse k (outer, shared)).1 = (k.settle tree.offers (outer, shared')).1 ∧
      (tree.traverse k (outer, shared)).2.1 = (k.settle tree.offers (outer, shared')).2.1 := by
  induction tree generalizing outer shared shared' with
  | leaf verdict => cases verdict <;> exact ⟨rfl, rfl⟩
  | ask rest =>
    rw [offers, Acceptor.settle_singleton]
    exact hk rest outer shared shared'
  | visit kind s body ih => exact ih h outer shared shared'
  | branch first onSuccess onFailure ihfirst _ ihfailure =>
    obtain ⟨rfl, hfirst, hfailure⟩ := h
    obtain ⟨hverdict, houter⟩ := ihfirst hfirst outer shared shared'
    rw [offers, Acceptor.settle_append]
    simp only [traverse, bind, StateT.bind]
    rcases hrun : first.traverse k (outer, shared) with ⟨matched, after, gauges⟩
    rcases hsettle : k.settle first.offers (outer, shared') with ⟨matched', after', gauges'⟩
    rw [hrun, hsettle] at hverdict houter
    cases hverdict
    cases houter
    cases matched with
    | true => exact ⟨rfl, rfl⟩
    | false => exact ihfailure hfailure after gauges gauges'
  | change f next ih => exact ih h outer (f shared) shared'

end SearchTree

namespace Rule

section Observers
variable (handle : Handle) (inner : Rule Gauges) (s : Input)

theorem eval_counted (k : Continuation ω Gauges) :
    (counted handle inner).eval s k = SearchM.visit .custom s fun world =>
      inner.eval s k { world with shared := world.shared.bump handle } := by
  rw [counted, eval_custom, Dialogue.play_update]
  simp only [Dialogue.play_pass]

theorem eval_recorded (k : Continuation ω Gauges) :
    (recorded handle inner).eval s k = SearchM.visit .custom s (inner.eval s fun rest world =>
      k rest { world with shared := world.shared.record handle rest }) := by
  rw [recorded, eval_custom, ← inner.framed_eval, Dialogue.play, Dialogue.perform]
  simp only [Dialogue.perform]
  rfl

end Observers

/-- An observer around the rule, of one sort or the other. -/
inductive ObserverOf (inner : Rule Gauges) : Rule Gauges → Prop where
  | counted (handle : Handle) : ObserverOf inner (counted handle inner)
  | recorded (handle : Handle) : ObserverOf inner (recorded handle inner)

/-- An observer notes itself and right after that the rule that it is around. -/
theorem ObserverOf.eval_notes {inner observer : Rule Gauges} (h : ObserverOf inner observer)
    {k : Continuation ω Gauges} (hk : ∀ rest, (k rest).Balanced) (s : Input)
    {world : World ω Gauges} (hfree : world.search.Free) {before : List Step}
    (hpath : world.search.path = some before) :
    ∃ later, (observer.eval s k world).2.search.path = some (later ++
      ⟨inner.kind.name, world.search.inputSize - bytes s, world.search.depth + 2⟩ ::
      ⟨Kind.custom.name, world.search.inputSize - bytes s, world.search.depth + 1⟩ :: before) := by
  have henter := hfree.enter .custom s
  have hinside : (world.search.descend .custom s).path
      = some (⟨Kind.custom.name, world.search.inputSize - bytes s, world.search.depth + 1⟩
          :: before) := by
    simp [Search.descend, hpath]
  have hfree' := hfree.descend .custom s
  cases h with
  | counted handle =>
    rw [eval_counted, SearchM.visit_of_entered (by rw [henter]), henter]
    exact Rule.eval_notes hk s inner ⟨_, _, _⟩ hfree' hinside
  | recorded handle =>
    rw [eval_recorded, SearchM.visit_of_entered (by rw [henter]), henter]
    have hrecorded : ∀ rest, SearchM.Balanced fun world : World ω Gauges =>
        k rest { world with shared := world.shared.record handle rest } :=
      fun rest world => hk rest { world with shared := world.shared.record handle rest }
    exact Rule.eval_notes hrecorded s inner ⟨_, _, _⟩ hfree' hinside

theorem matchRecorded_eq_recording (handle : Handle) (inner : Rule Gauges) (s : Input)
    (k : Acceptor ω Gauges) :
    matchRecorded handle inner s k = inner.matchWith s (k.recording handle) := rfl

/-- Without limits it makes no difference to a rule where in a search it is evaluated. -/
theorem Blind.eval_of_free [Inhabited σ] {r : Rule σ} (h : r.Blind) (s : Input) (k : Acceptor ω σ)
    {search : Search} (hfree : search.Free) (outer : ω) (shared : σ) :
    ∃ after, r.eval s k.lift ⟨search, outer, shared⟩
      = ((r.matchWith s k (outer, shared)).1,
         ⟨after, (r.matchWith s k (outer, shared)).2.1,
          (r.matchWith s k (outer, shared)).2.2⟩) := by
  have heq := (r.wholeTree s).run_notes k hfree outer shared
  rw [← eval_eq_run_wholeTree h, ← matchWith_eq_traverse h] at heq
  exact ⟨_, heq⟩

section Direct
variable {inner : Rule Gauges} (h : inner.Blind) (handle : Handle) (s : Input)
  (k : Acceptor ω Gauges)
include h

theorem Blind.matchCounted_eq :
    matchCounted handle inner s k = (counted handle inner).matchWith s k := by
  funext ⟨outer, g⟩
  have hfree := Search.free_start s false
  obtain ⟨after, heq⟩ := h.eval_of_free s k (hfree.descend .custom s) outer (g.bump handle)
  rw [matchWith]
  simp only [eval_counted, Search.run, Search.unbounded, SearchM.visit, SearchM.visitOr, hfree.enter, bind,
    StateT.bind, heq]
  rfl

theorem Blind.matchRecorded_eq :
    matchRecorded handle inner s k = (recorded handle inner).matchWith s k := by
  funext ⟨outer, g⟩
  have hfree := Search.free_start s false
  obtain ⟨after, heq⟩ := h.eval_of_free s (k.recording handle) (hfree.descend .custom s) outer g
  rw [Acceptor.lift_recording] at heq
  rw [matchWith, matchRecorded_eq_recording]
  simp only [eval_recorded, Search.run, Search.unbounded, SearchM.visit, SearchM.visitOr, hfree.enter, bind,
    StateT.bind, heq]
  rfl

end Direct

/-- The rule puts these outcomes to every acceptor, one after another up to the first success. -/
def HandsOn (r : Rule σ) (s : Input) (os : List Outcome) : Prop :=
  ∀ {ω : Type} (k : Acceptor ω σ) (outer : ω) (before : List (Input × Bool)) (shared : σ),
    ∃ calls, Outcome.Settled os calls (r.matchWith s k (outer, shared)).1 ∧
      r.matchWith s k.logged ((outer, before), shared)
        = ((r.matchWith s k (outer, shared)).1,
           ((r.matchWith s k (outer, shared)).2.1, before ++ calls),
           (r.matchWith s k (outer, shared)).2.2)

end Rule

/-- But for the observers' own visits, the records of two matches are the same. -/
structure Trace.Underlies (plain observed : Trace) : Prop where
  matched_eq : observed.matched = plain.matched
  path_eq : (observed.path.filter (·.rule ≠ Kind.custom.name)).map
      (fun step => (step.rule, step.offset))
    = plain.path.map fun step => (step.rule, step.offset)
  after_observer : ∀ earlier observer later, observed.path = earlier ++ observer :: later →
    observer.rule = Kind.custom.name →
    ∃ inner rest, later = inner :: rest ∧ inner.offset = observer.offset ∧
      inner.depth = observer.depth + 1

namespace Rule

section Observed
variable {plain r : Rule Gauges} (h : Observed plain r) (s : Input)
include h

theorem Observed.handsOn : r.HandsOn s (plain.offers s) := by
  intro ω k outer before g
  rw [matchWith_eq_traverse h.blind, matchWith_eq_traverse h.blind, ← h.offers_wholeTree]
  have heager : (r.wholeTree s).Eager := h.eager s fun _ => trivial
  exact heager.settled k outer before g

theorem Observed.matchWith_unaware {k : Acceptor ω Gauges} (hk : k.Unaware) (outer : ω)
    (g g' : Gauges) :
    (r.matchWith s k (outer, g)).1 = (plain.matchWith s k (outer, g')).1 ∧
      (r.matchWith s k (outer, g)).2.1 = (plain.matchWith s k (outer, g')).2.1 := by
  rw [matchWith_eq_traverse h.blind, matchWith_eq_settle h.customFree, ← h.offers_wholeTree]
  have heager : (r.wholeTree s).Eager := h.eager s fun _ => trivial
  exact heager.traverse_unaware hk outer g g'

theorem Observed.trace_underlies (g g' : Gauges) :
    (plain.trace s g').1.Underlies (r.trace s g).1 := by
  have hobserves : (plain.wholeTree s).Observes (r.wholeTree s) :=
    h.observes s SearchTree.observes_ask
  have hsteps := hobserves.visits (bytes s) 0 0
  constructor
  · rw [trace_matched h.blind, trace_matched h.customFree.blind, hobserves.succeeds_eq]
  · rw [trace_path h.blind, trace_path h.customFree.blind]
    exact hsteps.without_observers
  · rw [trace_path h.blind]
    intro earlier observer later hsplit hrule
    exact hsteps.after_observer hsplit hrule

end Observed

/-- A rule under observers hands on what the plain rule does, also to an acceptor that reads the
gauges, and answers alike where the acceptor does not. Its record is the plain one with each
observer right before what it is around. An observer asked directly does what it does within a
search. -/
theorem transparent_of_observed {plain r : Rule Gauges} (h : Observed plain r) (s : Input) :
    plain.HandsOn s (plain.offers s) ∧ r.HandsOn s (plain.offers s) ∧
    (∀ {ω : Type} (k : Acceptor ω Gauges), k.Unaware → ∀ outer g g',
      (r.matchWith s k (outer, g)).1 = (plain.matchWith s k (outer, g')).1 ∧
      (r.matchWith s k.logged ((outer, []), g)).2.1
        = (plain.matchWith s k.logged ((outer, []), g')).2.1) ∧
    (∀ g g', (plain.trace s g').1.Underlies (r.trace s g).1) ∧
    (∀ observer, ObserverOf r observer → ∀ {ω : Type} (k : Continuation ω Gauges),
      (∀ rest, (k rest).Tame) → ∀ world before, world.search.Free →
      world.search.path = some before →
      ∃ later, (observer.eval s k world).2.search.path = some (later ++
        ⟨r.kind.name, world.search.inputSize - bytes s, world.search.depth + 2⟩ ::
        ⟨Kind.custom.name, world.search.inputSize - bytes s, world.search.depth + 1⟩ :: before)) ∧
    (∀ {ω : Type} (k : Acceptor ω Gauges) handle,
      matchCounted handle r s k = (counted handle r).matchWith s k ∧
      matchRecorded handle r s k = (recorded handle r).matchWith s k) := by
  refine ⟨(Observed.refl h.customFree).handsOn s, h.handsOn s, ?_, h.trace_underlies s, ?_, ?_⟩
  · intro ω k hk outer g g'
    obtain ⟨hverdict, -⟩ := h.matchWith_unaware s hk outer g g'
    obtain ⟨-, hcalls⟩ := h.matchWith_unaware s hk.logged (outer, []) g g'
    exact ⟨hverdict, hcalls⟩
  · intro observer hobserver ω k hk world before hfree hpath
    exact hobserver.eval_notes (fun rest => (hk rest).balanced) s hfree hpath
  · intro ω k handle
    exact ⟨h.blind.matchCounted_eq handle s k, h.blind.matchRecorded_eq handle s k⟩

/-- Two observers around a repetition, and an acceptor that gives in at its second call. -/
theorem transparent_of_observed_twice :
    Observed (many (val 'a')) (recorded 1 (counted 0 (many (val 'a')))) ∧
      ((recorded 1 (counted 0 (many (val 'a')))).matchWith ['a']
        (fun _ (calls, g) => (calls == 1, calls + 1, g)) (0, Gauges.empty)).1 = true ∧
      ((recorded 1 (counted 0 (many (val 'a')))).matchWith ['a']
        (Acceptor.logged fun _ (calls, g) => (calls == 1, calls + 1, g))
        ((0, []), Gauges.empty)).2.1 = (2, [([], false), (['a'], true)]) ∧
      ((recorded 1 (counted 0 (many (val 'a')))).trace ['a'] Gauges.empty).1.path
        = [⟨"custom", 0, 1⟩, ⟨"custom", 0, 2⟩, ⟨"many", 0, 3⟩, ⟨"val", 0, 4⟩, ⟨"many", 1, 5⟩,
            ⟨"val", 1, 6⟩] ∧
      ((many (val 'a')).trace ['a'] Gauges.empty).1.Underlies
        ((recorded 1 (counted 0 (many (val 'a')))).trace ['a'] Gauges.empty).1 := by
  have hobserved : Observed (many (val 'a')) (recorded 1 (counted 0 (many (val 'a')))) :=
    .recorded 1 (.counted 0 (.many (.val 'a')))
  obtain ⟨-, -, hunaware, hunderlies, -⟩ := transparent_of_observed hobserved ['a']
  obtain ⟨hverdict, hcalls⟩ := hunaware (fun _ (calls, g) => (calls == 1, calls + 1, g))
    (fun _ _ _ _ => ⟨rfl, rfl⟩) 0 .empty .empty
  refine ⟨hobserved, ?_, ?_, by decide +kernel, hunderlies .empty .empty⟩
  · rw [hverdict]
    decide +kernel
  · rw [hcalls]
    decide +kernel

end Rule

end Backtrack
