import Backtrack.Proofs.Bookkeeping

/-!
# Searches that are never refused

A search that was never refused an evaluation has done what a search without limits does, whether
the one or the other keeps a record. Custom rules may watch the counters, run rules apart from the
search and keep what they like for the time of a call: as long as no limit was hit there is nothing by
which they could tell. Only what is shared must not decide anything, since it may have another history
in the two searches.
-/

set_option autoImplicit false

namespace Backtrack

variable {ω σ : Type} {α : Type}

/-- No custom rule in the tree lets what is shared decide anything. -/
def Rule.Stateless (r : Rule σ) : Prop := r.Respects fun _ _ => True

/-- The second search has no limits, and the first has come to the same counters under its own. -/
structure Search.Mirrors (search free : Search) : Prop where
  running : search.stopped = false
  unlimited : free.Free
  steps_eq : search.steps = free.steps
  depth_eq : search.depth = free.depth

namespace Search.Mirrors

variable {search free : Search}

theorem descend (h : search.Mirrors free) (kind : Kind) (s : Input) :
    (search.descend kind s).Mirrors (free.descend kind s) where
  running := h.running
  unlimited := h.unlimited.descend kind s
  steps_eq := congrArg (· + 1) h.steps_eq
  depth_eq := congrArg (· + 1) h.depth_eq

theorem leave (h : search.Mirrors free) : search.leave.Mirrors free.leave where
  running := h.running
  unlimited := h.unlimited.leave
  steps_eq := h.steps_eq
  depth_eq := congrArg (· - 1) h.depth_eq

end Search.Mirrors

namespace SearchM

/-- Started alike, the first computation is stopped by a limit or does the same as the second. A
search that was stopped stays so. -/
structure Agrees (m free : SearchM ω σ α) : Prop where
  stopped : ∀ world, world.search.stopped = true → (m world).2.search.stopped = true
  agrees : ∀ world world', world.search.Mirrors world'.search → world.outer = world'.outer →
    (m world).2.search.stopped = true ∨
      (m world).1 = (free world').1 ∧ (m world).2.search.Mirrors (free world').2.search ∧
        (m world).2.outer = (free world').2.outer

theorem Agrees.bind {β : Type} {m free : SearchM ω σ α} {f f' : α → SearchM ω σ β}
    (hm : m.Agrees free) (hf : ∀ a, (f a).Agrees (f' a)) :
    (m >>= f).Agrees (free >>= f') where
  stopped world hstopped := (hf _).stopped _ (hm.stopped world hstopped)
  agrees world world' hmirrors houter := by
    have hbind : (m >>= f) world = f (m world).1 (m world).2 := rfl
    have hbind' : (free >>= f') world' = f' (free world').1 (free world').2 := rfl
    rw [hbind, hbind']
    rcases hm.agrees world world' hmirrors houter with hstopped | ⟨heq, hmirrors', houter'⟩
    · exact .inl ((hf _).stopped _ hstopped)
    · rw [heq]
      exact (hf _).agrees _ _ hmirrors' houter'

theorem Agrees.visit {body free : SearchM ω σ α} (h : body.Agrees free) (refused : α)
    (kind : Kind) (s : Input) :
    (visitOr refused kind s body).Agrees (visitOr refused kind s free) where
  stopped world hstopped := by
    have henter := Search.enter_of_stopped hstopped kind s
    rw [visitOr_of_refused (by rw [henter]), henter]
    exact hstopped
  agrees world world' hmirrors houter := by
    have hfree := hmirrors.unlimited.enter kind s
    have hentered : (world'.search.enter kind s).1 = true := by rw [hfree]
    rw [visitOr_of_entered hentered, hfree]
    rcases world.search.enter_cases kind s with
      ⟨hstopped, henter⟩ | ⟨halt, -, -, henter⟩ | ⟨-, -, henter⟩
    · rw [visitOr_of_refused (by rw [henter]), henter]
      exact .inl hstopped
    · rw [visitOr_of_refused (by rw [henter]), henter]
      exact .inl (Search.stopped_refuse _ halt)
    · rw [visitOr_of_entered (by rw [henter]), henter]
      rcases h.agrees { world with search := world.search.descend kind s }
        { world' with search := world'.search.descend kind s } (hmirrors.descend kind s) houter
        with hstopped | ⟨heq, hafter, houter'⟩
      · exact .inl hstopped
      · exact .inr ⟨heq, hafter.leave, houter'⟩

theorem Agrees.look {f f' : Nat → Nat → SearchM ω σ α}
    (hf : ∀ steps depth, (f steps depth).Agrees (f' steps depth)) :
    SearchM.Agrees (do let world ← get; f world.search.steps world.search.depth)
      (do let world ← get; f' world.search.steps world.search.depth) where
  stopped world hstopped := (hf _ _).stopped world hstopped
  agrees world world' hmirrors houter := by
    have hlook : (do let world ← get; f world.search.steps world.search.depth) world
        = f world.search.steps world.search.depth world := rfl
    rw [hlook, hmirrors.steps_eq, hmirrors.depth_eq]
    exact (hf _ _).agrees world world' hmirrors houter

theorem congruence_agrees :
    Congruence (fun _ _ => True) fun {α} (m free : SearchM ω σ α) => m.Agrees free where
  answer _ := ⟨fun _ hstopped => hstopped, fun _ _ hmirrors houter => .inr ⟨rfl, hmirrors, houter⟩⟩
  bind hm hf := hm.bind hf
  visit refused kind s hm := hm.visit refused kind s
  look hf := .look hf
  change g _ _ hf := {
    stopped := fun world hstopped =>
      (hf (g world.shared) (g world.shared) trivial).stopped _ hstopped
    agrees := fun world world' hmirrors houter =>
      (hf (g world.shared) (g world'.shared) trivial).agrees
        { world with shared := g world.shared } { world' with shared := g world'.shared }
        hmirrors houter }

end SearchM

namespace Rule

/-- A match from a fresh search without limits ends without having been stopped. -/
theorem free_run (r : Rule σ) (s : Input) (recording : Bool) (shared : σ) :
    (alone ((Search.start s none none recording).run (r.eval s Acceptor.all.lift)) shared).1.2.Free := by
  have hall : ∀ rest, ((Acceptor.all : Acceptor Unit σ).lift rest).Tame :=
    fun rest => .outer ((Acceptor.all : Acceptor Unit σ) rest)
  obtain ⟨⟨n, hwalk⟩, -⟩ :=
    (SearchM.Tame.eval r s hall).balanced ⟨.start s none none recording, (), shared⟩
  exact hwalk.free (Search.free_start s recording)

variable {r : Rule σ} (h : r.Stateless) (s : Input) (shared shared' : σ)
include h

/-- A match that no limit has stopped is the match without limits. -/
theorem run_eq_isMatch (stepLimit nestingLimit : Option Nat) (recording : Bool)
    (hrunning : (alone ((Search.start s stepLimit nestingLimit recording).run
      (r.eval s Acceptor.all.lift)) shared).1.2.stopped = false) :
    (alone ((Search.start s stepLimit nestingLimit recording).run
      (r.eval s Acceptor.all.lift)) shared).1.1 = (r.isMatch s shared').1 := by
  have hagrees : (r.eval s (Acceptor.all : Acceptor Unit σ).lift).Agrees
      (r.eval s (Acceptor.all : Acceptor Unit σ).lift) :=
    eval_congr SearchM.congruence_agrees h
      (fun _ => SearchM.congruence_agrees.answer true) s
  have hstart : (Search.start s stepLimit nestingLimit recording).Mirrors (.unbounded s) :=
    ⟨rfl, Search.free_start s false, rfl, rfl⟩
  rcases hagrees.agrees ⟨_, (), shared⟩ ⟨_, (), shared'⟩ hstart rfl with hstopped | ⟨heq, -, -⟩
  · exact absurd (hrunning.symm.trans hstopped) Bool.false_ne_true
  · exact heq

theorem boundedSearch_eq_isMatch (limit : Nat)
    (hrunning : (r.boundedSearch s limit shared).1.2.stopped = false) :
    (r.boundedSearch s limit shared).1.1 = (r.isMatch s shared').1 :=
  run_eq_isMatch h s shared shared' (some limit) (some Limits.maxNesting) false hrunning

/-- A match that keeps a record answers as the one that keeps none. -/
theorem matched_trace : (r.trace s shared).1.matched = (r.isMatch s shared').1 :=
  run_eq_isMatch h s shared shared' none none true (r.free_run s true shared).running

end Rule

end Backtrack
