import Backtrack.Proofs.Earning
import Backtrack.Proofs.Transparency

/-!
# What observers write down

Observers keep their books from inside a search, and the books agree with what the search itself
knows. A counter has counted exactly the visits of custom rules that were entered: one that a limit
refuses never comes to it. A recorder has written down exactly the remainders that its continuation
was called with, in order.

Each is a law for how the world changes from one moment of a search to a later one. An evaluation
obeys such a law as soon as its continuation and its custom rules do. The law of the counters is
broken between the entry of a counter and its count, and so its visit is taken as one; the law of
the recorders says nothing about the search.
-/

set_option autoImplicit false

namespace Backtrack

variable {ω σ : Type}

/-- A law for how a world may change, which a search obeys by itself. -/
structure World.Lawful (R : World ω σ → World ω σ → Prop) : Prop where
  refl (world : World ω σ) : R world world
  trans {first middle last : World ω σ} : R first middle → R middle last → R first last
  enter (world : World ω σ) {kind : Kind} (s : Input) : kind ≠ .custom →
    R world { world with search := (world.search.enter kind s).2 }
  leave (world : World ω σ) : R world { world with search := world.search.leave }

/-- From every world the computation comes to one that the law allows. -/
def SearchM.Obeys (R : World ω σ → World ω σ → Prop) (m : SearchM ω σ Bool) : Prop :=
  ∀ world, R world (m world).2

namespace World.Lawful

variable {R : World ω σ → World ω σ → Prop} (hR : Lawful R)
include hR

theorem visit {kind : Kind} {s : Input} {body : SearchM ω σ Bool}
    (henter : ∀ world, R world { world with search := (world.search.enter kind s).2 })
    (hbody : body.Obeys R) : (SearchM.visit kind s body).Obeys R := by
  intro world
  cases hentered : (world.search.enter kind s).1 with
  | false =>
    rw [SearchM.visit_of_refused hentered]
    exact henter world
  | true =>
    rw [SearchM.visit_of_entered hentered]
    apply hR.trans (henter world)
    apply hR.trans (hbody _)
    apply hR.leave

theorem orElse {m n : SearchM ω σ Bool} (hm : m.Obeys R) (hn : n.Obeys R) :
    (SearchM.orElse m n).Obeys R := by
  intro world
  have hfirst := hm world
  simp only [SearchM.orElse, bind, StateT.bind]
  rcases hrun : m world with ⟨matched, after⟩
  rw [hrun] at hfirst
  cases matched with
  | true => exact hfirst
  | false => exact hR.trans hfirst (hn after)

variable {k : Continuation ω σ} (hk : ∀ rest, (k rest).Obeys R) (s : Input)
include hk

theorem consume (accepts : Char → Bool) : (consume accepts k s).Obeys R := by
  cases s with
  | nil => exact hR.refl
  | cons c rest =>
    rw [Backtrack.consume]
    split
    · exact hk rest
    · exact hR.refl

theorem repeated {round : Input → Continuation ω σ → SearchM ω σ Bool}
    (hround : ∀ s k, (∀ rest, (k rest).Obeys R) → (round s k).Obeys R) :
    (repeated round k s).Obeys R := by
  fun_induction Backtrack.repeated round k s with
  | case1 s ih =>
    apply hR.visit fun world => hR.enter world s (by decide)
    apply hR.orElse ?_ (hk s)
    apply hround
    intro rest
    split
    · rename_i hlt
      exact ih rest hlt
    · exact hR.refl

end World.Lawful

/-- A rule obeys what its custom rules and its continuation do. -/
theorem Rule.eval_obeys {R : World ω σ → World ω σ → Prop} (hR : World.Lawful R) {r : Rule σ}
    (hcustom : r.CustomAll fun act => ∀ (k : Continuation ω σ) (s : Input),
      (∀ rest, (k rest).Obeys R) → (SearchM.visit .custom s ((act s).play k)).Obeys R)
    {k : Continuation ω σ} (hk : ∀ rest, (k rest).Obeys R) (s : Input) :
    (r.eval s k).Obeys R := by
  have henter : ∀ {kind : Kind} (s : Input), kind ≠ .custom → ∀ world : World ω σ,
      R world { world with search := (world.search.enter kind s).2 } :=
    fun s hkind world => hR.enter world s hkind
  induction r using Rule.rec (motive_2 := fun _ => True) generalizing s k with
  | any => rw [eval]; exact hR.visit (henter s (by decide)) (hR.consume hk s _)
  | oneOf set => rw [eval]; exact hR.visit (henter s (by decide)) (hR.consume hk s _)
  | val c => rw [eval]; exact hR.visit (henter s (by decide)) (hR.consume hk s _)
  | empty => rw [eval]; exact hR.visit (henter s (by decide)) (hk s)
  | «end» => rw [eval]; exact hR.visit (henter s (by decide)) hR.refl
  | append a b iha ihb =>
    obtain ⟨ha, hb⟩ := hcustom
    rw [eval]
    apply hR.visit (henter s (by decide))
    apply iha ha
    intro rest
    exact ihb hb hk rest
  | or a b iha ihb =>
    obtain ⟨ha, hb⟩ := hcustom
    rw [eval]
    exact hR.visit (henter s (by decide)) (hR.orElse (iha ha hk s) (ihb hb hk s))
  | optional r ih =>
    rw [eval]
    exact hR.visit (henter s (by decide)) (hR.orElse (ih hcustom hk s) (hk s))
  | many r ih =>
    rw [eval]
    apply hR.repeated hk
    intro s k hk
    exact ih hcustom hk s
  | custom label act _ =>
    rw [eval_custom]
    exact hcustom k s hk
  | _ => trivial

section Counters

/-- How many of the evaluations in a row are those of custom rules. -/
def customVisits (steps : List Step) : Nat := steps.countP (·.rule == Kind.custom.name)

variable (steps later : List Step)

@[simp] theorem customVisits_append :
    customVisits (later ++ steps) = customVisits later + customVisits steps := List.countP_append

@[simp] theorem customVisits_reverse : customVisits steps.reverse = customVisits steps :=
  List.countP_reverse

theorem customVisits_le_length : customVisits steps ≤ steps.length := List.countP_le_length

theorem customVisits_singleton (search : Search) (kind : Kind) (s : Input) :
    customVisits [search.stepAt kind s] = if kind = .custom then 1 else 0 := by
  by_cases h : kind = .custom
  · subst h
    rfl
  · have hname : kind.name ≠ Kind.custom.name := fun heq => h (Kind.name_injective heq)
    rw [if_neg h]
    simpa [customVisits, Search.stepAt] using hname

/-- Where the search keeps a record, the counter grows by the visits of custom rules noted in it. -/
def World.Tallied (handle : Handle) (first last : World ω Gauges) : Prop :=
  ∀ before, first.search.path = some before →
    ∃ entered, last.search.path = some (entered ++ before) ∧
      last.shared.calls handle = first.shared.calls handle + customVisits entered

namespace World

variable {handle : Handle}

theorem tallied_refused {world : World ω Gauges} {kind : Kind} {s : Input}
    (h : (world.search.enter kind s).1 = false) :
    world.Tallied handle { world with search := (world.search.enter kind s).2 } := by
  intro before hpath
  exact ⟨[], (Search.path_of_refused h).trans hpath, rfl⟩

theorem tallied_entered {world : World ω Gauges} {kind : Kind} {s : Input}
    (h : (world.search.enter kind s).1 = true) {g : Gauges}
    (hcalls : g.calls handle
      = world.shared.calls handle + if kind = .custom then 1 else 0) :
    world.Tallied handle ⟨(world.search.enter kind s).2, world.outer, g⟩ := by
  intro before hpath
  refine ⟨[world.search.stepAt kind s], ?_, ?_⟩
  · rw [Search.path_of_entered h, hpath]
    rfl
  · rw [customVisits_singleton]
    exact hcalls

theorem lawful_tallied : Lawful fun first last : World ω Gauges => first.Tallied handle last where
  refl _ _ hpath := ⟨[], hpath, rfl⟩
  trans hfirst hlast before hpath := by
    obtain ⟨entered, hmiddle, hcalls⟩ := hfirst before hpath
    obtain ⟨more, hafter, hmore⟩ := hlast _ hmiddle
    refine ⟨more ++ entered, ?_, ?_⟩
    · rw [List.append_assoc]
      exact hafter
    · rw [customVisits_append]
      omega
  enter world {kind} s hkind := by
    cases h : (world.search.enter kind s).1 with
    | false => exact tallied_refused h
    | true =>
      apply tallied_entered h
      rw [if_neg hkind]
      rfl
  leave _ _ hpath := ⟨[], hpath, rfl⟩

end World

namespace Rule

variable {handle : Handle} {r : Rule Gauges}

theorem tallied_counted {inner : Rule Gauges} {k : Continuation ω Gauges} {s : Input}
    (h : (inner.eval s k).Obeys (World.Tallied handle)) :
    ((counted handle inner).eval s k).Obeys (World.Tallied handle) := by
  rw [eval_counted]
  intro world
  cases hentered : (world.search.enter .custom s).1 with
  | false =>
    -- the counter is not come to
    rw [SearchM.visit_of_refused hentered]
    exact World.tallied_refused hentered
  | true =>
    have hbump : (world.shared.bump handle).calls handle = world.shared.calls handle + 1 := by
      rw [Gauges.calls_bump, if_pos rfl]
    rw [SearchM.visit_of_entered hentered]
    apply World.lawful_tallied.trans (World.tallied_entered hentered hbump)
    apply World.lawful_tallied.trans (h _)
    apply World.lawful_tallied.leave

theorem CountedBy.customAll (h : CountedBy handle r) :
    r.CustomAll fun act => ∀ (k : Continuation ω Gauges) (s : Input),
      (∀ rest, (k rest).Obeys (World.Tallied handle)) →
        (SearchM.visit .custom s ((act s).play k)).Obeys (World.Tallied handle) := by
  induction h with
  | append _ _ iha ihb => exact ⟨iha, ihb⟩
  | or _ _ iha ihb => exact ⟨iha, ihb⟩
  | optional _ ih => exact ih
  | many _ ih => exact ih
  | counted _ ih =>
    intro k s hk
    have hcounted := tallied_counted (eval_obeys World.lawful_tallied ih hk s)
    rwa [Rule.counted, eval_custom] at hcounted
  | _ => trivial

/-- A match that keeps a record has counted the custom rules in it. -/
theorem CountedBy.calls_run (h : CountedBy handle r) (s : Input)
    (stepLimit nestingLimit : Option Nat) (g : Gauges) :
    ∃ entered,
      (alone ((Search.start s stepLimit nestingLimit true).run
        (r.eval s Acceptor.all.lift)) g).1.2.path = some entered ∧
      (alone ((Search.start s stepLimit nestingLimit true).run
        (r.eval s Acceptor.all.lift)) g).2.calls handle = g.calls handle + customVisits entered := by
  have hall : ∀ rest, ((Acceptor.all : Acceptor Unit Gauges).lift rest).Obeys
      (World.Tallied handle) := fun _ => World.lawful_tallied.refl
  obtain ⟨entered, hpath, hcalls⟩ := eval_obeys World.lawful_tallied h.customAll hall s
    ⟨.start s stepLimit nestingLimit true, (), g⟩ [] rfl
  rw [List.append_nil] at hpath
  exact ⟨entered, hpath, hcalls⟩

theorem CountedBy.calls_trace (h : CountedBy handle r) (s : Input) (g : Gauges) :
    (r.trace s g).2.calls handle
      = g.calls handle + (r.trace s g).1.count Kind.custom.name := by
  obtain ⟨entered, hpath, hcalls⟩ := h.calls_run s none none g
  have htrace : (r.trace s g).1.path = ((alone ((Search.start s none none true).run
      (r.eval s Acceptor.all.lift)) g).1.2.path.getD []).reverse := rfl
  rw [hpath] at htrace
  rw [Trace.count, htrace]
  exact hcalls.trans (congrArg _ (customVisits_reverse entered).symm)

theorem boundedRecord_entered_le (r : Rule σ) (s : Input) (limit : Nat) (shared : σ)
    {entered : List Step} (h : (r.boundedRecord s limit shared).1.2.path = some entered) :
    entered.length ≤ limit := by
  have hall : ∀ rest, ((Acceptor.all : Acceptor Unit σ).lift rest).Tame :=
    fun rest => .outer ((Acceptor.all : Acceptor Unit σ) rest)
  obtain ⟨⟨n, hwalk⟩, -⟩ := (SearchM.Tame.eval r s hall).balanced
    ⟨.start s (some limit) (some Limits.maxNesting) true, (), shared⟩
  have hreachable : Search.Reachable (some limit) (some Limits.maxNesting) n
      (r.boundedRecord s limit shared).1.2 := ⟨s, true, hwalk⟩
  rw [hreachable.recorded h]
  exact hreachable.consistent.entered_le limit rfl

theorem CountedBy.boundedSearch_eq_record (h : CountedBy handle r) (s : Input) (limit : Nat)
    (g : Gauges) :
    r.boundedSearch s limit g
      = (((r.boundedRecord s limit g).1.1, (r.boundedRecord s limit g).1.2.unrecorded),
         (r.boundedRecord s limit g).2) := by
  obtain ⟨plain, hobserved⟩ := h.observed
  exact boundedSearch_eq hobserved.blind s limit g

theorem CountedBy.calls_matchBounded (h : CountedBy handle r) (s : Input) (limit : Nat)
    (g : Gauges) :
    ∃ entered, (r.boundedRecord s limit g).1.2.path = some entered ∧
      (r.matchBounded s limit g).2.calls handle = g.calls handle + customVisits entered ∧
      customVisits entered ≤ limit := by
  obtain ⟨entered, hpath, hcalls⟩ := h.calls_run s (some limit) (some Limits.maxNesting) g
  have hgauges : (r.matchBounded s limit g).2 = (r.boundedRecord s limit g).2 :=
    congrArg Prod.snd (h.boundedSearch_eq_record s limit g)
  refine ⟨entered, hpath, ?_, ?_⟩
  · rw [hgauges]
    exact hcalls
  · apply Nat.le_trans (customVisits_le_length entered)
    exact r.boundedRecord_entered_le s limit g hpath

end Rule

/-- A match that keeps a record, or one under a budget. -/
inductive Query where
  | traced (s : Input)
  | bounded (s : Input) (limit : Nat)

namespace Query

def after (r : Rule Gauges) (g : Gauges) : Query → Gauges
  | traced s => (r.trace s g).2
  | bounded s limit => (r.matchBounded s limit g).2

/-- The evaluations entered in the match. Under a budget it is the search with a record that knows. -/
def entered (r : Rule Gauges) (g : Gauges) : Query → List Step
  | traced s => (r.trace s g).1.path
  | bounded s limit => ((r.boundedRecord s limit g).1.2.path.getD []).reverse

/-- The evaluations entered in matches one after another. -/
def enteredInTurn (r : Rule Gauges) : Gauges → List Query → List Step
  | _, [] => []
  | g, query :: queries => query.entered r g ++ enteredInTurn r (query.after r g) queries

end Query

namespace Rule

variable {handle : Handle} {r : Rule Gauges} (h : CountedBy handle r)
include h

theorem CountedBy.calls_after (g : Gauges) (query : Query) :
    (query.after r g).calls handle = g.calls handle + customVisits (query.entered r g) := by
  cases query with
  | traced s => exact h.calls_trace s g
  | bounded s limit =>
    obtain ⟨entered, hpath, hcalls, -⟩ := h.calls_matchBounded s limit g
    rw [Query.after, Query.entered, hcalls, hpath, Option.getD_some, customVisits_reverse]

theorem CountedBy.calls_foldl_after (g : Gauges) (queries : List Query) :
    (queries.foldl (Query.after r) g).calls handle
      = g.calls handle + customVisits (Query.enteredInTurn r g queries) := by
  induction queries generalizing g with
  | nil => rfl
  | cons query queries ih =>
    rw [List.foldl_cons, ih, h.calls_after, Query.enteredInTurn, customVisits_append,
      Nat.add_assoc]

end Rule

end Counters

section Recorders

/-- The continuation with a list of its calls and answers, oldest first. -/
def Continuation.logged (k : Continuation ω σ) : Continuation (ω × List (Input × Bool)) σ :=
  fun t world =>
    let (accepted, after) := k t world.inner
    (accepted, ⟨after.search, (after.outer, world.outer.2 ++ [(t, accepted)]), after.shared⟩)

/-- The continuation does not write to the record of the handle. -/
def Continuation.Leaves (handle : Handle) (k : Continuation ω Gauges) : Prop :=
  ∀ t world, (k t world).2.shared.remainders handle = world.shared.remainders handle

namespace World

/-- The world with something put beside what belongs to the caller. -/
def beside {β : Type} (world : World ω σ) (b : β) : World (ω × β) σ :=
  ⟨world.search, (world.outer, b), world.shared⟩

theorem inner_beside {β : Type} (world : World (ω × β) σ) :
    world.inner.beside world.outer.2 = world := rfl

/-- The remainders that are written down are those that are called with. -/
def Accounted (handle : Handle) (first last : World (ω × List (Input × Bool)) Gauges) : Prop :=
  ∃ calls, last.outer.2 = first.outer.2 ++ calls ∧
    last.shared.remainders handle = first.shared.remainders handle ++ calls.map Prod.fst

variable {handle : Handle}

theorem accounted_search (world : World (ω × List (Input × Bool)) Gauges) (search : Search) :
    world.Accounted handle { world with search := search } :=
  ⟨[], (List.append_nil _).symm, (List.append_nil _).symm⟩

theorem lawful_accounted :
    Lawful fun first last : World (ω × List (Input × Bool)) Gauges =>
      first.Accounted handle last where
  refl world := world.accounted_search world.search
  trans := by
    rintro first middle last ⟨calls, hlog, hrecord⟩ ⟨more, hlog', hrecord'⟩
    refine ⟨calls ++ more, ?_, ?_⟩
    · rw [hlog', hlog, List.append_assoc]
    · rw [hrecord', hrecord, List.map_append, List.append_assoc]
  enter world _ _ _ := world.accounted_search _
  leave world := world.accounted_search _

end World

namespace Rule

variable {inner : Rule Gauges} (h : inner.CustomFree) (handle : Handle) (s : Input)
include h

theorem CustomFree.accounted_recorded {k : Continuation ω Gauges} (hk : k.Leaves handle) :
    ((recorded handle inner).eval s k.logged).Obeys (World.Accounted handle) := by
  rw [eval_recorded]
  apply World.lawful_accounted.visit fun world => world.accounted_search _
  apply eval_obeys World.lawful_accounted h.customAll
  -- a remainder is written down, and then the continuation is called with it
  intro rest world
  refine ⟨[_], rfl, ?_⟩
  have hkept := hk rest ⟨world.search, world.outer.1, world.shared.record handle rest⟩
  rw [Gauges.remainders_record, if_pos rfl] at hkept
  exact hkept

/-- From wherever a search has come to, a recorder writes down what its continuation is called
with. -/
theorem CustomFree.eval_recorded_logged {k : Continuation ω Gauges} (hk : k.Leaves handle)
    (world : World ω Gauges) (before : List (Input × Bool)) :
    ∃ calls,
      (recorded handle inner).eval s k.logged (world.beside before)
        = (((recorded handle inner).eval s k world).1,
           ((recorded handle inner).eval s k world).2.beside (before ++ calls)) ∧
      ((recorded handle inner).eval s k world).2.shared.remainders handle
        = world.shared.remainders handle ++ calls.map Prod.fst := by
  have hcovers := eval_congr SearchM.congruence_covers (recorded handle inner).respects_eq
    (k := k.logged) (l := k) (fun rest world => ⟨rfl, rfl⟩) s
  obtain ⟨hanswer, hafter⟩ := hcovers (world.beside before)
  obtain ⟨calls, hlog, hrecord⟩ := h.accounted_recorded handle s hk (world.beside before)
  refine ⟨calls, Prod.ext hanswer ?_, ?_⟩
  · rw [← World.inner_beside ((recorded handle inner).eval s k.logged (world.beside before)).2,
      hafter, hlog]
    rfl
  · exact (congrArg (fun after => after.shared.remainders handle) hafter).symm.trans hrecord

/-- In a match these are the offers of the rule inside, up to the first success. -/
theorem CustomFree.matchWith_recorded_logged {k : Acceptor ω Gauges}
    (hk : Continuation.Leaves handle k.lift) (outer : ω) (before : List (Input × Bool))
    (g : Gauges) :
    ∃ calls,
      Outcome.Settled (inner.offers s) calls
        ((recorded handle inner).matchWith s k (outer, g)).1 ∧
      (recorded handle inner).matchWith s k.logged ((outer, before), g)
        = (((recorded handle inner).matchWith s k (outer, g)).1,
           (((recorded handle inner).matchWith s k (outer, g)).2.1, before ++ calls),
           ((recorded handle inner).matchWith s k (outer, g)).2.2) ∧
      ((recorded handle inner).matchWith s k (outer, g)).2.2.remainders handle
        = g.remainders handle ++ calls.map Prod.fst := by
  have hobserved : Observed inner (recorded handle inner) := .recorded handle (.refl h)
  obtain ⟨calls, hsettled, hlogged⟩ := hobserved.handsOn s k outer before g
  obtain ⟨calls', hlogged', hrecord⟩ :=
    h.eval_recorded_logged handle s hk ⟨.unbounded s, outer, g⟩ before
  refine ⟨calls, hsettled, hlogged, ?_⟩
  -- the two accounts are of one list of calls
  have hsame : before ++ calls = before ++ calls' := by
    have hlists := congrArg (fun result => result.2.1.2) hlogged
    exact hlists.symm.trans (congrArg (fun result => result.2.outer.2) hlogged')
  rw [List.append_cancel_left hsame]
  exact hrecord

end Rule

end Recorders

/-- What observers write down is exact. A counter grows by the visits of custom rules that the search
has entered, in a match with a record, in one under a budget, and in any row of these. A recorder
adds the remainders that its continuation is called with, wherever in a search that happens. -/
theorem Rule.observers_exact (handle : Handle) :
    (∀ {r : Rule Gauges}, CountedBy handle r → ∀ g : Gauges,
      (∀ s, (r.trace s g).2.calls handle
        = g.calls handle + (r.trace s g).1.count Kind.custom.name) ∧
      (∀ s limit,
        r.boundedSearch s limit g
            = (((r.boundedRecord s limit g).1.1, (r.boundedRecord s limit g).1.2.unrecorded),
               (r.boundedRecord s limit g).2) ∧
          ∃ entered, (r.boundedRecord s limit g).1.2.path = some entered ∧
            (r.matchBounded s limit g).2.calls handle
              = g.calls handle + customVisits entered ∧
            customVisits entered ≤ limit) ∧
      ∀ queries, (queries.foldl (Query.after r) g).calls handle
        = g.calls handle + customVisits (Query.enteredInTurn r g queries)) ∧
    ∀ {inner : Rule Gauges}, inner.CustomFree → ∀ (s : Input) {ω : Type},
      (∀ {k : Continuation ω Gauges}, k.Leaves handle → ∀ world before, ∃ calls,
        (recorded handle inner).eval s k.logged (world.beside before)
            = (((recorded handle inner).eval s k world).1,
               ((recorded handle inner).eval s k world).2.beside (before ++ calls)) ∧
          ((recorded handle inner).eval s k world).2.shared.remainders handle
            = world.shared.remainders handle ++ calls.map Prod.fst) ∧
      ∀ {k : Acceptor ω Gauges}, Continuation.Leaves handle k.lift →
        matchRecorded handle inner s k = (recorded handle inner).matchWith s k ∧
        ∀ outer before g, ∃ calls,
          Outcome.Settled (inner.offers s) calls
              ((recorded handle inner).matchWith s k (outer, g)).1 ∧
            (recorded handle inner).matchWith s k.logged ((outer, before), g)
              = (((recorded handle inner).matchWith s k (outer, g)).1,
                 (((recorded handle inner).matchWith s k (outer, g)).2.1, before ++ calls),
                 ((recorded handle inner).matchWith s k (outer, g)).2.2) ∧
            ((recorded handle inner).matchWith s k (outer, g)).2.2.remainders handle
              = g.remainders handle ++ calls.map Prod.fst := by
  constructor
  · intro r hcounted g
    refine ⟨fun s => hcounted.calls_trace s g, ?_, hcounted.calls_foldl_after g⟩
    intro s limit
    exact ⟨hcounted.boundedSearch_eq_record s limit g, hcounted.calls_matchBounded s limit g⟩
  · intro inner hinner s ω
    refine ⟨hinner.eval_recorded_logged handle s, ?_⟩
    intro k hk
    exact ⟨hinner.blind.matchRecorded_eq handle s k,
      hinner.matchWith_recorded_logged handle s hk⟩

/-- In the match under a budget the second visit of the counter is the one that is refused. The
recorder holds a remainder from before, and its acceptor gives in at the second call. -/
theorem Rule.observers_exact_refused :
    ((([.traced ['a', 'a', 'b'], .bounded ['a', 'a', 'b'] 4] : List Query).foldl
        (Query.after (.append (counted 0 (val 'a')) (many (counted 0 (val 'a')))))
        (Gauges.empty.bump 0)).calls 0 = 1 + (3 + 1)) ∧
      ((recorded 0 (many (val 'a'))).matchWith ['a', 'a', 'b']
          (fun _ (calls, g) => (calls == 1, calls + 1, g.bump 0))
          (0, Gauges.empty.record 0 ['x'])).2.2.remainders 0
        = [['x'], ['b'], ['a', 'b']] := by
  have hcounted : CountedBy 0 (.append (counted 0 (val 'a')) (many (counted 0 (val 'a')))) :=
    .append (.counted (.val 'a')) (.many (.counted (.val 'a')))
  have hfree : (many (val 'a') : Rule Gauges).CustomFree := trivial
  obtain ⟨hcounters, hrecorders⟩ := observers_exact 0
  constructor
  · obtain ⟨-, -, hqueries⟩ := hcounters hcounted (Gauges.empty.bump 0)
    have hbefore : (Gauges.empty.bump 0).calls 0 = 1 := by simp
    rw [hqueries, hbefore]
    apply congrArg (1 + ·)
    decide +kernel
  · obtain ⟨-, hmatch⟩ := hrecorders hfree ['a', 'a', 'b'] (ω := Nat)
    obtain ⟨-, hcalls⟩ := hmatch (k := fun _ (calls, g) => (calls == 1, calls + 1, g.bump 0))
      fun _ _ => rfl
    obtain ⟨calls, -, hlogged, hrecord⟩ := hcalls 0 [] (Gauges.empty.record 0 ['x'])
    have hlog : calls = [(['b'], false), (['a', 'b'], true)] := by
      have hsnd := congrArg (fun result => result.2.1.2) hlogged
      refine Eq.trans hsnd.symm ?_
      decide +kernel
    have hbefore : (Gauges.empty.record 0 ['x']).remainders 0 = [['x']] := by simp
    rw [hrecord, hlog, hbefore]
    rfl

end Backtrack
