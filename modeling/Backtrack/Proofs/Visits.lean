import Backtrack.Proofs.Admission
import Backtrack.Proofs.SearchTree
import Backtrack.Search.Match

/-!
# Visits

The evaluations of a match that accepts every remainder are the visits of its tree, in order. Under
limits a search makes the same visits up to the first that is refused, and then falls back on
whatever succeeds without one. So the limits come down to one number, how many visits the search was
allowed: verdict, state and what is shared follow from it.
-/

set_option autoImplicit false

namespace Backtrack

variable {ω σ : Type}

namespace SearchTree

def succeeds : SearchTree σ → Bool
  | leaf verdict => verdict
  | ask _ => true
  | visit _ _ body => body.succeeds
  | branch first onSuccess onFailure =>
    if first.succeeds then onSuccess.succeeds else onFailure.succeeds
  | change _ next => next.succeeds

/-- The visits as a search notes them that starts at a depth, in an input of so many bytes. -/
def visits (size depth : Nat) : SearchTree σ → List Step
  | leaf _ => []
  | ask _ => []
  | visit kind s body => ⟨kind.name, size - bytes s, depth + 1⟩ :: body.visits size (depth + 1)
  | branch first onSuccess onFailure =>
    first.visits size depth ++
      if first.succeeds then onSuccess.visits size depth else onFailure.visits size depth
  | change _ next => next.visits size depth

def visitCount : SearchTree σ → Nat
  | leaf _ => 0
  | ask _ => 0
  | visit _ _ body => body.visitCount + 1
  | branch first onSuccess onFailure =>
    first.visitCount + if first.succeeds then onSuccess.visitCount else onFailure.visitCount
  | change _ next => next.visitCount

/-- Does the search succeed if it may make no more than a number of visits? -/
def succeedsWithin : SearchTree σ → Nat → Bool
  | leaf verdict, _ => verdict
  | ask _, _ => true
  | visit _ _ _, 0 => false
  | visit _ _ body, n + 1 => body.succeedsWithin n
  | branch first onSuccess onFailure, n =>
    if first.succeedsWithin n then onSuccess.succeedsWithin (n - first.visitCount)
    else onFailure.succeedsWithin (n - first.visitCount)
  | change _ next, n => next.succeedsWithin n

def sharedWithin : SearchTree σ → Nat → σ → σ
  | leaf _, _, shared => shared
  | ask _, _, shared => shared
  | visit _ _ _, 0, shared => shared
  | visit _ _ body, n + 1, shared => body.sharedWithin n shared
  | branch first onSuccess onFailure, n, shared =>
    if first.succeedsWithin n then
      onSuccess.sharedWithin (n - first.visitCount) (first.sharedWithin n shared)
    else onFailure.sharedWithin (n - first.visitCount) (first.sharedWithin n shared)
  | change f next, n, shared => next.sharedWithin n (f shared)

theorem succeeds_orElse (first second : SearchTree σ) :
    (orElse first second).succeeds = if first.succeeds then true else second.succeeds := rfl

theorem visits_orElse (size depth : Nat) (first second : SearchTree σ) :
    (orElse first second).visits size depth
      = first.visits size depth ++ if first.succeeds then [] else second.visits size depth := rfl

@[simp] theorem length_visits (size depth : Nat) (tree : SearchTree σ) :
    (tree.visits size depth).length = tree.visitCount := by
  induction tree generalizing depth with
  | leaf => rfl
  | ask => rfl
  | visit kind s body ih => simp [visits, visitCount, ih]
  | branch first onSuccess onFailure ihfirst ihsuccess ihfailure =>
    rw [visits, visitCount, List.length_append, ihfirst]
    split
    · rw [ihsuccess]
    · rw [ihfailure]
  | change f next ih => exact ih depth

theorem succeedsWithin_of_le {tree : SearchTree σ} {n : Nat} (h : tree.visitCount ≤ n) :
    tree.succeedsWithin n = tree.succeeds := by
  induction tree generalizing n with
  | leaf => rfl
  | ask => rfl
  | visit kind s body ih =>
    cases n with
    | zero => exact absurd h (Nat.not_succ_le_zero _)
    | succ n => exact ih (Nat.le_of_succ_le_succ h)
  | branch first onSuccess onFailure ihfirst ihsuccess ihfailure =>
    rw [visitCount] at h
    rw [succeedsWithin, succeeds, ihfirst (by omega)]
    split at h
    · rename_i hfirst
      rw [if_pos hfirst, if_pos hfirst, ihsuccess (by omega)]
    · rename_i hfirst
      rw [if_neg hfirst, if_neg hfirst, ihfailure (by omega)]
  | change f next ih => exact ih h

theorem sharedWithin_of_le {tree : SearchTree σ} {n : Nat} (h : tree.visitCount ≤ n)
    (shared : σ) : tree.sharedWithin n shared = tree.sharedWithin tree.visitCount shared := by
  induction tree generalizing n shared with
  | leaf => rfl
  | ask => rfl
  | visit kind s body ih =>
    cases n with
    | zero => exact absurd h (Nat.not_succ_le_zero _)
    | succ n => exact ih (Nat.le_of_succ_le_succ h) shared
  | branch first onSuccess onFailure ihfirst ihsuccess ihfailure =>
    have hcount := h
    rw [visitCount] at h hcount ⊢
    rw [sharedWithin, sharedWithin, succeedsWithin_of_le (n := n) (by omega),
      succeedsWithin_of_le (by omega), ihfirst (n := n) (by omega),
      ihfirst (n := first.visitCount + _) (by omega)]
    split at h
    · rename_i hfirst
      rw [if_pos hfirst, if_pos hfirst, if_pos hfirst, ihsuccess (by omega),
        Nat.add_sub_cancel_left]
    · rename_i hfirst
      rw [if_neg hfirst, if_neg hfirst, if_neg hfirst, ihfailure (by omega),
        Nat.add_sub_cancel_left]
  | change f next ih => exact ih h (f shared)

/-- The search through a tree, under whatever limits, with every remainder accepted. -/
theorem run_all (tree : SearchTree σ) (search : Search) (outer : ω) (shared : σ) :
    tree.run Acceptor.all.lift ⟨search, outer, shared⟩
      = (tree.succeedsWithin (search.admitted (tree.visits search.inputSize search.depth)),
         ⟨search.advance (tree.visits search.inputSize search.depth), outer,
          tree.sharedWithin (search.admitted (tree.visits search.inputSize search.depth))
            shared⟩) := by
  induction tree generalizing search outer shared with
  | leaf => rfl
  | ask => rfl
  | visit kind s body ih =>
    have hvisits : (visit kind s body).visits search.inputSize search.depth
        = search.stepAt kind s :: body.visits search.inputSize (search.depth + 1) := rfl
    rw [hvisits, Search.advance_cons, Search.admitted, run, SearchM.visit,
      SearchM.visitOr]
    by_cases hstopped : (search.attempt (search.stepAt kind s)).stopped = true
    · simp only [Search.enter_of_refused hstopped, if_pos hstopped,
        Search.advance_of_stopped hstopped, succeedsWithin, sharedWithin]
    · have h := Bool.eq_false_iff.mpr hstopped
      -- inside the visit the search stands one deeper, which the rest of the row does not notice
      have hbody := ih ((search.attempt (search.stepAt kind s)).moveTo (search.depth + 1))
        outer shared
      rw [Search.advance_moveTo, Search.admitted_moveTo] at hbody
      have hsize : ((search.attempt (search.stepAt kind s)).moveTo (search.depth + 1)).inputSize
          = search.inputSize := Search.attempt_inputSize search _
      have hdepth : ((search.attempt (search.stepAt kind s)).moveTo (search.depth + 1)).depth
          = search.depth + 1 := rfl
      rw [hsize, hdepth] at hbody
      simp only [Search.enter_of_admitted h, hbody, if_neg hstopped, succeedsWithin,
        sharedWithin]
      rw [Search.leave_moveTo]
      rw [Search.advance_depth, Search.attempt_depth]
  | branch first onSuccess onFailure ihfirst ihsuccess ihfailure =>
    have hsuccess := ihsuccess (search.advance (first.visits search.inputSize search.depth)) outer
    have hfailure := ihfailure (search.advance (first.visits search.inputSize search.depth)) outer
    simp only [Search.advance_inputSize, Search.advance_depth] at hsuccess hfailure
    simp only [run, visits, bind, StateT.bind, ihfirst, Search.admitted_append,
      Search.advance_append]
    by_cases hcut : search.admitted (first.visits search.inputSize search.depth) < first.visitCount
    · -- the first part was cut short, so nothing more is let through
      have hstopped := Search.stopped_of_admitted_lt (by rwa [length_visits])
      have hleft : search.admitted (first.visits search.inputSize search.depth)
          - first.visitCount = 0 := by omega
      simp only [Search.admitted_of_stopped hstopped, Search.advance_of_stopped hstopped,
        Nat.add_zero, succeedsWithin, sharedWithin, hleft] at hsuccess hfailure ⊢
      cases first.succeedsWithin (search.admitted (first.visits search.inputSize search.depth)) with
      | true => exact hsuccess _
      | false => exact hfailure _
    · have hall : search.admitted (first.visits search.inputSize search.depth)
          = first.visitCount := by
        have hle := search.admitted_le_length (first.visits search.inputSize search.depth)
        rw [length_visits] at hle
        omega
      simp only [hall, succeedsWithin, sharedWithin, succeedsWithin_of_le (Nat.le_refl _),
        succeedsWithin_of_le (Nat.le_add_right _ _),
        sharedWithin_of_le (Nat.le_add_right _ _), Nat.add_sub_cancel_left]
      cases first.succeeds with
      | true => exact hsuccess _
      | false => exact hfailure _
  | change f next ih => exact ih search outer (f shared)

end SearchTree

namespace Rule

variable [Inhabited σ]

/-- The evaluations of a match without limits, in order. -/
def visits (r : Rule σ) (s : Input) : List Step := (r.wholeTree s).visits (bytes s) 0

variable {r : Rule σ} (h : r.Blind) (s : Input) (shared : σ)
include h

theorem run_start (stepLimit nestingLimit : Option Nat) (recording : Bool) :
    alone ((Search.start s stepLimit nestingLimit recording).run (r.eval s Acceptor.all.lift))
        shared
      = (((r.wholeTree s).succeedsWithin
            ((Search.start s stepLimit nestingLimit recording).admitted (r.visits s)),
          (Search.start s stepLimit nestingLimit recording).advance (r.visits s)),
         (r.wholeTree s).sharedWithin
            ((Search.start s stepLimit nestingLimit recording).admitted (r.visits s)) shared) := by
  have hrun := (r.wholeTree s).run_all (Search.start s stepLimit nestingLimit recording) () shared
  rw [← eval_eq_run_wholeTree h] at hrun
  simp only [alone, Search.run, hrun]
  rfl

theorem run_free (recording : Bool) :
    alone ((Search.start s none none recording).run (r.eval s Acceptor.all.lift)) shared
      = (((r.wholeTree s).succeeds, (Search.start s none none recording).advance (r.visits s)),
         (r.wholeTree s).sharedWithin (r.wholeTree s).visitCount shared) := by
  rw [run_start h, (Search.free_start s recording).admitted, visits, SearchTree.length_visits,
    SearchTree.succeedsWithin_of_le (Nat.le_refl _)]

theorem trace_eq :
    (r.trace s shared).1
      = .ofSearch (r.wholeTree s).succeeds
          ((Search.start s none none true).advance (r.visits s)) := by
  have hrun := run_free h s shared true
  simp only [trace, bind, StateT.bind, Search.tracing, hrun]
  rfl

theorem trace_matched : (r.trace s shared).1.matched = (r.wholeTree s).succeeds := by
  rw [trace_eq h]
  rfl

theorem trace_path : (r.trace s shared).1.path = r.visits s := by
  rw [trace_eq h, Trace.ofSearch, Search.advance_path, (Search.free_start s true).admitted,
    List.take_length]
  simp [Search.start]

theorem trace_steps : (r.trace s shared).1.steps = (r.visits s).length := by
  rw [trace_eq h, Trace.ofSearch, (Search.free_start s true).advance_steps]
  exact Nat.zero_add _

theorem trace_maxDepth :
    (r.trace s shared).1.maxDepth = ((r.visits s).map (·.depth)).foldl max 0 := by
  rw [trace_eq h, Trace.ofSearch, (Search.free_start s true).advance_maxDepth]
  rfl

theorem isMatch_eq : (r.isMatch s shared).1 = (r.wholeTree s).succeeds := by
  have hrun := run_free h s shared false
  have hmatch : r.isMatch s shared =
      ((alone ((Search.unbounded s).run (r.eval s Acceptor.all.lift)) shared).1.1,
       (alone ((Search.unbounded s).run (r.eval s Acceptor.all.lift)) shared).2) := rfl
  rw [hmatch, Search.unbounded, hrun]

end Rule

end Backtrack
