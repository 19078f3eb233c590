import Backtrack.Proofs.Bookkeeping
import Backtrack.Proofs.Trust

/-!
# No success without the continuation

Where no rule of a tree ends an input on its own and every custom rule keeps to its contract, an
evaluation succeeds only after its continuation has accepted a remainder. The contract is about the
continuation that the custom rule is given, and inside a sequence or a repetition this is one that
the search has made. So a custom rule is watched with two flags, one for each continuation, and
whenever the nearer one is raised the outer one has been raised before.
-/

set_option autoImplicit false

namespace Backtrack

variable {ω σ : Type} {α β : Type}

/-- A state that a search can reach, under whatever limits and with a record or without. -/
def Search.Reached (search : Search) : Prop :=
  ∃ stepLimit nestingLimit entered, Search.Reachable stepLimit nestingLimit entered search

namespace Search

theorem reached_start (s : Input) (stepLimit nestingLimit : Option Nat) (recording : Bool) :
    (start s stepLimit nestingLimit recording).Reached :=
  ⟨stepLimit, nestingLimit, 0, s, recording, .refl⟩

theorem Reached.walk {search last : Search} {n : Nat} (h : search.Reached)
    (hwalk : search.Walk n last) : last.Reached := by
  obtain ⟨stepLimit, nestingLimit, entered, hreachable⟩ := h
  exact ⟨stepLimit, nestingLimit, entered + n, hreachable.walk hwalk⟩

theorem Reached.enter {search : Search} (h : search.Reached) {kind : Kind} {s : Input}
    (henter : (search.enter kind s).1 = true) : (search.enter kind s).2.Reached :=
  h.walk (.enter .refl henter)

end Search

/-- In every search that comes to the behaviour, it succeeds only if its continuation has accepted a
remainder on the way. -/
def Dialogue.Honest (act : Input → Dialogue σ) : Prop :=
  ∀ {ω : Type} (k : Continuation ω σ), (∀ rest, (k rest).Tame) → ∀ s (search : Search),
    search.Reached → (search.enter .custom s).1 = true → ∀ outer shared,
      ((act s).play k.flagged ⟨(search.enter .custom s).2, (outer, false), shared⟩).1 = true →
      ((act s).play k.flagged
        ⟨(search.enter .custom s).2, (outer, false), shared⟩).2.outer.2 = true

theorem Dialogue.Faithful.honest {act : Input → Dialogue σ} (h : Dialogue.Faithful act) :
    Dialogue.Honest act := by
  intro ω k _ s search _ _ outer shared hsuccess
  exact h k s _ outer shared hsuccess

namespace SearchM

/-- To run beside something is to keep to the search as before. -/
theorem Tame.beside {m : SearchM ω σ α} (h : Tame m) :
    Tame (SearchM.beside m : SearchM (ω × β) σ α) := by
  induction h with
  | outer f =>
    exact .outer fun state =>
      ((f (state.1.1, state.2)).1, ((f (state.1.1, state.2)).2.1, state.1.2),
        (f (state.1.1, state.2)).2.2)
  | look f => exact .look f
  | bind _ _ ihm ihf => exact .bind ihm ihf
  | @eval r s k _ ih =>
    rw [← Rule.eval_congr congruence_beside r.respects_eq (fun _ => rfl) s]
    exact .eval r s ih
  | @play d k _ ih =>
    rw [← Dialogue.play_congr congruence_beside d.respects_eq (fun _ => rfl)]
    exact .play d ih

/-- In every search the computation keeps to what holds outside. -/
structure Upholds (I : ω → Prop) (m : SearchM ω σ α) : Prop where
  balanced : m.Balanced
  keeps : ∀ world, world.search.Reached → I world.outer → I (m world).2.outer

variable {I : ω → Prop}

theorem Upholds.visit {body : SearchM ω σ α} (h : body.Upholds I) (refused : α) (kind : Kind)
    (s : Input) : (visitOr refused kind s body).Upholds I where
  balanced := h.balanced.visit refused kind s
  keeps world hreached hI := by
    cases henter : (world.search.enter kind s).1 with
    | false =>
      rw [visitOr_of_refused henter]
      exact hI
    | true =>
      rw [visitOr_of_entered henter]
      exact h.keeps { world with search := (world.search.enter kind s).2 }
        (hreached.enter henter) hI

theorem congruence_upholds (I : ω → Prop) :
    Congruence Eq fun {α} (m _ : SearchM ω σ α) => m.Upholds I where
  answer _ := ⟨fun _ => ⟨⟨0, .refl⟩, rfl⟩, fun _ _ hI => hI⟩
  bind {_ _ m _ _ _} hm hf := {
    balanced := hm.balanced.bind fun a => (hf a).balanced
    keeps := by
      intro world hreached hI
      obtain ⟨⟨n, hwalk⟩, -⟩ := hm.balanced world
      exact (hf (m world).1).keeps (m world).2 (hreached.walk hwalk) (hm.keeps world hreached hI) }
  visit refused kind s hm := hm.visit refused kind s
  look hf := {
    balanced := fun world => (hf world.search.steps world.search.depth).balanced world
    keeps := fun world => (hf world.search.steps world.search.depth).keeps world }
  change g _ _ hf := {
    balanced := fun world =>
      (hf (g world.shared) _ rfl).balanced { world with shared := g world.shared }
    keeps := fun world =>
      (hf (g world.shared) _ rfl).keeps { world with shared := g world.shared } }

/-- The flag is up. -/
def Raised (outer : ω × Bool) : Prop := outer.2 = true

/-- In every search success means that the flag is up by then. -/
structure Earns (m : SearchM (ω × Bool) σ Bool) : Prop where
  balanced : m.Balanced
  raised : ∀ world, world.search.Reached → (m world).1 = true → Raised (m world).2.outer

theorem earns_refuse : Earns (pure false : SearchM (ω × Bool) σ Bool) where
  balanced _ := ⟨⟨0, .refl⟩, rfl⟩
  raised _ _ hsuccess := by cases hsuccess

namespace Earns

variable {m : SearchM (ω × Bool) σ Bool}

theorem visit (h : m.Earns) (kind : Kind) (s : Input) : (visit kind s m).Earns where
  balanced := h.balanced.visit false kind s
  raised world hreached hsuccess := by
    cases henter : (world.search.enter kind s).1 with
    | false =>
      rw [visit_of_refused henter] at hsuccess
      cases hsuccess
    | true =>
      rw [visit_of_entered henter] at hsuccess ⊢
      exact h.raised { world with search := (world.search.enter kind s).2 }
        (hreached.enter henter) hsuccess

theorem orElse {n : SearchM (ω × Bool) σ Bool} (h : m.Earns) (h' : n.Earns) :
    (orElse m n).Earns where
  balanced := h.balanced.orElse h'.balanced
  raised world hreached hsuccess := by
    obtain ⟨⟨steps, hwalk⟩, -⟩ := h.balanced world
    have hfirst := h.raised world hreached
    have hsecond := h'.raised (m world).2 (hreached.walk hwalk)
    simp only [SearchM.orElse, bind, StateT.bind] at hsuccess ⊢
    rcases hrun : m world with ⟨matched, after⟩
    rw [hrun] at hfirst hsecond hsuccess
    cases matched with
    | true => exact hfirst rfl
    | false => exact hsecond hsuccess

variable {k : Continuation (ω × Bool) σ} (hk : ∀ rest, (k rest).Earns) (s : Input)
include hk

theorem consume (accepts : Char → Bool) : (consume accepts k s).Earns := by
  cases s with
  | nil => exact earns_refuse
  | cons c rest =>
    rw [Backtrack.consume]
    split
    · exact hk rest
    · exact earns_refuse

end Earns

/-- As the search makes continuations out of one with a flag: the flag is never taken down, and the
answer is `true` only with the flag up. -/
structure Watched (m : SearchM (ω × Bool) σ Bool) : Prop where
  tame : m.Tame
  keeps : m.Upholds Raised
  earns : m.Earns

theorem watched_refuse : Watched (pure false : SearchM (ω × Bool) σ Bool) where
  tame := .outer fun state => (false, state)
  keeps := ⟨fun _ => ⟨⟨0, .refl⟩, rfl⟩, fun _ _ hraised => hraised⟩
  earns := earns_refuse

theorem watched_flagged {k : Continuation ω σ} {rest : Input} (hk : (k rest).Tame) :
    (k.flagged rest).Watched := by
  have hraise : ∀ accepted, Tame fun world : World (ω × Bool) σ =>
      (accepted, { world with outer := (world.outer.1, world.outer.2 || accepted) }) :=
    fun accepted => .outer fun state => (accepted, (state.1.1, state.1.2 || accepted), state.2)
  have htame : (k.flagged rest).Tame := .bind hk.beside hraise
  refine ⟨htame, ⟨htame.balanced, ?_⟩, ⟨htame.balanced, ?_⟩⟩
  · intro world _ hraised
    have hkept : (world.outer.2 || (k rest world.inner).1) = true := by rw [hraised, Bool.true_or]
    exact hkept
  · intro world _ haccepted
    have hup : (world.outer.2 || (k rest world.inner).1) = true := by
      rw [show (k rest world.inner).1 = true from haccepted, Bool.or_true]
    exact hup

end SearchM

section Watched

variable {k : Continuation (ω × Bool) σ} (hk : ∀ rest, (k rest).Watched)
include hk

/-- What the search makes of a rule and what follows it is watched as that is. -/
theorem Rule.eval_watched {r : Rule σ} {s : Input} (hearns : (r.eval s k).Earns) :
    (r.eval s k).Watched where
  tame := .eval r s fun rest => (hk rest).tame
  keeps := eval_congr (SearchM.congruence_upholds _) r.respects_eq (l := k)
    (fun rest => (hk rest).keeps) s
  earns := hearns

/-- A second flag for the continuation itself is never up before the first one. -/
theorem Continuation.upholds_flagged (rest : Input) :
    (k.flagged rest).Upholds fun outer => outer.2 = true → SearchM.Raised outer.1 where
  balanced := (SearchM.watched_flagged (hk rest).tame).tame.balanced
  keeps world hreached hbefore hraised := by
    have hraised : (world.outer.2 || (k rest world.inner).1) = true := hraised
    rcases Bool.or_eq_true_iff.mp hraised with hflag | haccepted
    · exact (hk rest).keeps.keeps world.inner hreached (hbefore hflag)
    · exact (hk rest).earns.raised world.inner hreached haccepted

theorem Dialogue.Honest.earns {act : Input → Dialogue σ} (hact : Dialogue.Honest act)
    (label : σ → String) (s : Input) : ((Rule.custom label act).eval s k).Earns where
  balanced := Rule.balanced_eval (fun rest => (hk rest).tame.balanced) s _
  raised world hreached hsuccess := by
    rw [Rule.eval_custom] at hsuccess ⊢
    cases henter : (world.search.enter .custom s).1 with
    | false =>
      rw [SearchM.visit_of_refused henter] at hsuccess
      cases hsuccess
    | true =>
      rw [SearchM.visit_of_entered henter] at hsuccess ⊢
      -- the same run with a flag for the continuation that the custom rule is given
      have hcovers := Dialogue.play_congr SearchM.congruence_covers (act s).respects_eq
        (k := k.flagged) (l := k) fun rest world => ⟨rfl, rfl⟩
      have hupholds := Dialogue.play_congr
        (SearchM.congruence_upholds fun outer => outer.2 = true → SearchM.Raised outer.1)
        (act s).respects_eq (l := k.flagged) (Continuation.upholds_flagged hk)
      obtain ⟨hresult, hafter⟩ :=
        hcovers ⟨(world.search.enter .custom s).2, (world.outer, false), world.shared⟩
      have hraised := hact k (fun rest => (hk rest).tame) s world.search hreached henter
        world.outer world.shared (hresult.trans hsuccess)
      have houter := hupholds.keeps
        ⟨(world.search.enter .custom s).2, (world.outer, false), world.shared⟩
        (hreached.enter henter) (fun hup => absurd hup Bool.false_ne_true) hraised
      exact (congrArg (fun after => SearchM.Raised after.outer) hafter).mp houter

end Watched

/-- An evaluation succeeds only with the flag of its continuation up. -/
theorem Rule.eval_earns {r : Rule σ} (hend : r.EndFree)
    (hcustom : r.CustomAll fun act => Dialogue.Honest act) {k : Continuation (ω × Bool) σ}
    (hk : ∀ rest, (k rest).Watched) (s : Input) : (r.eval s k).Earns := by
  induction r using Rule.rec (motive_2 := fun _ => True) generalizing s k with
  | any => rw [eval]; exact .visit (.consume (fun rest => (hk rest).earns) s _) _ s
  | oneOf set => rw [eval]; exact .visit (.consume (fun rest => (hk rest).earns) s _) _ s
  | val c => rw [eval]; exact .visit (.consume (fun rest => (hk rest).earns) s _) _ s
  | empty => rw [eval]; exact .visit (hk s).earns _ s
  | «end» => exact hend.elim
  | append a b iha ihb =>
    obtain ⟨henda, hendb⟩ := hend
    obtain ⟨hcustoma, hcustomb⟩ := hcustom
    rw [eval]
    apply SearchM.Earns.visit
    apply iha henda hcustoma
    intro rest
    exact eval_watched hk (ihb hendb hcustomb hk rest)
  | or a b iha ihb =>
    obtain ⟨henda, hendb⟩ := hend
    obtain ⟨hcustoma, hcustomb⟩ := hcustom
    rw [eval]
    exact .visit (.orElse (iha henda hcustoma hk s) (ihb hendb hcustomb hk s)) _ s
  | optional r ih =>
    rw [eval]
    exact .visit (.orElse (ih hend hcustom hk s) (hk s).earns) _ s
  | many r ih =>
    rw [eval]
    fun_induction repeated r.eval k s with
    | case1 s ihmany =>
      apply SearchM.Earns.visit
      apply SearchM.Earns.orElse ?_ (hk s).earns
      apply ih hend hcustom
      intro rest
      split
      · rename_i hlt
        -- the next round is the whole repetition again, on less input
        have hmany : (many r).eval rest k = repeated r.eval k rest := by rw [eval]
        rw [← hmany]
        apply eval_watched hk
        rw [hmany]
        exact ihmany rest hlt
      · exact SearchM.watched_refuse
  | custom label act _ => exact hcustom.earns hk label s
  | _ => trivial

namespace Rule

/-- To run another rule and answer alike is to keep the contract, where that rule does. -/
theorem honest_pass {inner : Rule σ} (hend : inner.EndFree)
    (hcustom : inner.CustomAll fun act => Dialogue.Honest act) :
    Dialogue.Honest fun s => .pass inner s := by
  intro ω k hk s search hreached henter outer shared hsuccess
  have hearns := eval_earns hend hcustom (fun rest => SearchM.watched_flagged (hk rest)) s
  rw [Dialogue.play_pass] at hsuccess ⊢
  exact hearns.raised _ (hreached.enter henter) hsuccess

section Contract
variable {r : Rule σ} (hend : r.EndFree) (hcustom : r.CustomAll fun act => Dialogue.Honest act)
include hend hcustom

/-- The flag makes no difference to an evaluation, and is up after every success. -/
theorem eval_flagged {k : Continuation ω σ} (hk : ∀ rest, (k rest).Tame) (s : Input)
    {search : Search} (hreached : search.Reached) (outer : ω) (shared : σ) :
    (r.eval s k.flagged ⟨search, (outer, false), shared⟩).1
        = (r.eval s k ⟨search, outer, shared⟩).1 ∧
      (r.eval s k.flagged ⟨search, (outer, false), shared⟩).2.inner
        = (r.eval s k ⟨search, outer, shared⟩).2 ∧
      ((r.eval s k ⟨search, outer, shared⟩).1 = true →
        (r.eval s k.flagged ⟨search, (outer, false), shared⟩).2.outer.2 = true) := by
  have hcovers := eval_congr SearchM.congruence_covers r.respects_eq (k := k.flagged) (l := k)
    (fun rest world => ⟨rfl, rfl⟩) s
  obtain ⟨hresult, hafter⟩ := hcovers ⟨search, (outer, false), shared⟩
  refine ⟨hresult, hafter, ?_⟩
  intro hsuccess
  have hearns := eval_earns hend hcustom (fun rest => SearchM.watched_flagged (hk rest)) s
  exact hearns.raised ⟨search, (outer, false), shared⟩ hreached (hresult.trans hsuccess)

theorem matchWith_refused {k : Acceptor ω σ} (hk : ∀ rest state, (k rest state).1 = false)
    (s : Input) (state : ω × σ) : (r.matchWith s k state).1 = false := by
  have htame : ∀ rest, (k.lift rest).Tame := fun rest => .outer (k rest)
  have hreached : (Search.unbounded s).Reached := Search.reached_start s none none false
  obtain ⟨-, -, hraised⟩ := eval_flagged hend hcustom htame s hreached state.1 state.2
  -- a continuation that refuses leaves the flag down
  have hdown : ∀ rest, (Continuation.flagged k.lift rest).Upholds fun outer => outer.2 = false := by
    intro rest
    refine ⟨(SearchM.watched_flagged (htame rest)).tame.balanced, ?_⟩
    intro world _ hdown
    have hkept : (world.outer.2 || (k rest (world.outer.1, world.shared)).1) = false := by
      rw [hdown, hk, Bool.or_false]
    exact hkept
  have hafter := (eval_congr (SearchM.congruence_upholds fun outer => outer.2 = false)
    r.respects_eq (l := Continuation.flagged k.lift) hdown s).keeps
      ⟨.unbounded s, (state.1, false), state.2⟩ hreached rfl
  have hverdict : (r.eval s k.lift ⟨.unbounded s, state.1, state.2⟩).1 = false := by
    apply Bool.eq_false_iff.mpr
    intro hsuccess
    rw [hraised hsuccess] at hafter
    cases hafter
  exact hverdict

end Contract

/-- A rule in which nothing ends the input on its own, and whose custom rules keep the contract,
succeeds only through its continuation, from wherever a search has come to. -/
theorem no_success_without_acceptance {r : Rule σ} (hend : r.EndFree)
    (hcustom : r.CustomAll fun act => Dialogue.Honest act) :
    (∀ {ω : Type} {k : Continuation ω σ}, (∀ rest, (k rest).Tame) → ∀ s (search : Search),
      search.Reached → ∀ outer shared,
      (r.eval s k.flagged ⟨search, (outer, false), shared⟩).1
          = (r.eval s k ⟨search, outer, shared⟩).1 ∧
        (r.eval s k.flagged ⟨search, (outer, false), shared⟩).2.inner
          = (r.eval s k ⟨search, outer, shared⟩).2 ∧
        ((r.eval s k ⟨search, outer, shared⟩).1 = true →
          (r.eval s k.flagged ⟨search, (outer, false), shared⟩).2.outer.2 = true)) ∧
    ∀ {ω : Type} {k : Acceptor ω σ}, (∀ rest state, (k rest state).1 = false) →
      ∀ s state, (r.matchWith s k state).1 = false := by
  constructor
  · intro ω k hk s search hreached outer shared
    exact eval_flagged hend hcustom hk s hreached outer shared
  · intro ω k hk s state
    exact matchWith_refused hend hcustom hk s state

/-- A rule that runs another, and behind it a test for an absence on which the budget is spent. -/
theorem no_success_without_acceptance_nested :
    ((append (nested (many (val 'a'))) (notAhead (val 'b')) : Rule Unit).eval ['a', 'c']
        (Continuation.flagged Acceptor.all.lift)
        ⟨.bounded ['a', 'c'] 7 10, ((), false), ()⟩).2.outer.2 = true ∧
      ((append (nested (many (val 'a'))) (notAhead (val 'b')) : Rule Unit).matchWith ['a', 'c']
        (fun _ state => (false, state)) ((), ())).1 = false := by
  have hcustom : (append (nested (many (val 'a'))) (notAhead (val 'b')) : Rule Unit).CustomAll
      fun act => Dialogue.Honest act := by
    constructor
    · exact honest_pass (show (many (val 'a')).EndFree from trivial) trivial
    · exact Dialogue.Faithful.honest (faithful_notAhead (val 'b'))
  have hend : (append (nested (many (val 'a'))) (notAhead (val 'b')) : Rule Unit).EndFree :=
    ⟨trivial, trivial⟩
  obtain ⟨heval, hrefused⟩ := no_success_without_acceptance hend hcustom
  have hall : ∀ rest, ((Acceptor.all : Acceptor Unit Unit).lift rest).Tame :=
    fun rest => .outer ((Acceptor.all : Acceptor Unit Unit) rest)
  obtain ⟨-, -, hraised⟩ := heval hall ['a', 'c'] (.bounded ['a', 'c'] 7 10)
    (Search.reached_start _ _ _ _) () ()
  exact ⟨hraised (by decide +kernel), hrefused (fun _ _ => rfl) ['a', 'c'] ((), ())⟩

end Rule

end Backtrack
