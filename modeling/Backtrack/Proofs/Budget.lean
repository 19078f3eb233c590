import Backtrack.Proofs.Cutoff
import Backtrack.Proofs.Monotone
import Mathlib.Data.Nat.Find

/-!
# Matching under a budget

A bounded match makes the visits of the unlimited one up to the first that goes beyond a limit.
Where a success is final, as it is in every rule under observers, what it then answers can be
trusted: a match it still finds is one, and a larger budget takes none back.
-/

set_option autoImplicit false

namespace Backtrack

variable {σ : Type}

namespace SearchTree

/-- No part of the tree goes on after a success. -/
def Eager : SearchTree σ → Prop
  | leaf _ => True
  | ask _ => True
  | visit _ _ body => body.Eager
  | branch first onSuccess onFailure => onSuccess = leaf true ∧ first.Eager ∧ onFailure.Eager
  | change _ next => next.Eager

theorem closed_eager : Closed fun _ (tree : SearchTree σ) => tree.Eager where
  leaf _ _ := trivial
  atom _ accepts s hκ := consume_of (Q := Eager) trivial hκ accepts s
  visit _ hbody := hbody
  orElse _ hfirst hsecond := ⟨rfl, hfirst, hsecond⟩
  change _ _ hnext := hnext

theorem Eager.monotone {tree : SearchTree σ} (h : tree.Eager) : tree.Monotone := by
  induction tree with
  | leaf => trivial
  | ask => trivial
  | visit kind s body ih => exact ih h
  | branch first onSuccess onFailure ihfirst _ ihfailure =>
    obtain ⟨rfl, hfirst, hfailure⟩ := h
    exact ⟨.inl rfl, ihfirst hfirst, trivial, ihfailure hfailure⟩
  | change f next ih => exact ih h

theorem Eager.succeedsWithin_mono {tree : SearchTree σ} (h : tree.Eager) {m n : Nat} (hmn : m ≤ n)
    (hm : tree.succeedsWithin m = true) : tree.succeedsWithin n = true :=
  h.monotone.succeedsWithin_mono hmn hm

theorem Eager.succeeds_of_succeedsWithin {tree : SearchTree σ} (h : tree.Eager) {n : Nat}
    (hn : tree.succeedsWithin n = true) : tree.succeeds = true :=
  h.monotone.succeeds_of_succeedsWithin hn

end SearchTree

theorem Rule.Observed.eager {plain r : Rule Gauges} (h : Observed plain r) (s : Input)
    {κ : Input → SearchTree Gauges} (hκ : ∀ rest, (κ rest).Eager) : (r.searchTree s κ).Eager :=
  h.closed SearchTree.closed_eager s hκ

namespace Search

theorem StoppedAt.verdict_of_none {search : Search} {limit : Nat}
    (h : search.StoppedAt limit none) (matched : Bool) : search.verdict limit matched = .ok matched := by
  have hexhausted := h.exhausted_iff
  have htooDeep := h.tooDeep_iff
  simp_all [verdict]

theorem StoppedAt.verdict_of_some {search : Search} {limit i : Nat}
    (h : search.StoppedAt limit (some i)) (matched : Bool) :
    search.verdict limit matched =
      if matched then .ok true
      else if limit < i then .error (.stepLimitExceeded limit)
      else .error (.recursionLimitExceeded Limits.maxNesting) := by
  have hexhausted := h.exhausted_iff
  have htooDeep := h.tooDeep_iff
  by_cases hi : limit < i
  · have hle : ¬ i ≤ limit := Nat.not_le.mpr hi
    cases matched <;> simp_all [verdict]
  · have hle : i ≤ limit := Nat.le_of_not_lt hi
    cases matched <;> simp_all [verdict]

end Search

namespace Rule

theorem matchBounded_eq_verdict (r : Rule σ) (s : Input) (limit : Nat) (shared : σ) :
    (r.matchBounded s limit shared).1 =
      (r.boundedSearch s limit shared).1.2.verdict limit (r.boundedSearch s limit shared).1.1 := rfl

section Verdict
variable [Inhabited σ] {r : Rule σ} (h : r.Blind) (s : Input) (limit : Nat) (shared : σ)
include h

/-- The answer of a bounded match, read off the tree and the visits of the unlimited one. -/
theorem matchBounded_eq :
    (r.matchBounded s limit shared).1 =
      match Search.firstBeyond limit Limits.maxNesting 1 (r.visits s) with
      | none => .ok (r.wholeTree s).succeeds
      | some i =>
        if (r.wholeTree s).succeedsWithin (i - 1) then .ok true
        else if limit < i then .error (.stepLimitExceeded limit)
        else .error (.recursionLimitExceeded Limits.maxNesting) := by
  have hrun := run_start h s shared (some limit) (some Limits.maxNesting) false
  rw [matchBounded_eq_verdict, boundedSearch, Search.bounded, hrun]
  obtain ⟨hflags, hcount⟩ := Search.start_of_limits s limit Limits.maxNesting false (r.visits s)
  revert hflags hcount
  cases Search.firstBeyond limit Limits.maxNesting 1 (r.visits s) with
  | none =>
    intro hflags hall
    dsimp only at hall
    rw [hflags.verdict_of_none, hall, visits, SearchTree.length_visits,
      SearchTree.succeedsWithin_of_le (Nat.le_refl _)]
  | some i =>
    intro hflags hcut
    dsimp only at hcut
    rw [hflags.verdict_of_some, hcut]

end Verdict

/-- A bounded match in a search that also keeps a record, as it ended. -/
def boundedRecord (r : Rule σ) (s : Input) (limit : Nat) : StateM σ (Bool × Search) :=
  alone ((Search.start s (some limit) (some Limits.maxNesting) true).run
    (r.eval s Acceptor.all.lift))

section Record
variable [Inhabited σ] {r : Rule σ} (h : r.Blind) (s : Input) (limit : Nat) (shared : σ)
include h

/-- Keeping a record changes nothing else. -/
theorem boundedSearch_eq :
    r.boundedSearch s limit shared
      = (((r.boundedRecord s limit shared).1.1, (r.boundedRecord s limit shared).1.2.unrecorded),
         (r.boundedRecord s limit shared).2) := by
  have hstart : Search.start s (some limit) (some Limits.maxNesting) false
      = (Search.start s (some limit) (some Limits.maxNesting) true).unrecorded := rfl
  rw [boundedSearch, Search.bounded, boundedRecord, run_start h, run_start h, hstart,
    Search.admitted_unrecorded, Search.advance_unrecorded]

theorem boundedRecord_path :
    (r.boundedRecord s limit shared).1.2.path =
      match Search.firstBeyond limit Limits.maxNesting 1 (r.visits s) with
      | none => some (r.visits s).reverse
      | some i => some ((r.visits s).take (i - 1)).reverse := by
  rw [boundedRecord, run_start h, Search.advance_path]
  have hpath : (Search.start s (some limit) (some Limits.maxNesting) true).path = some [] := rfl
  obtain ⟨-, hcount⟩ := Search.start_of_limits s limit Limits.maxNesting true (r.visits s)
  revert hcount
  cases Search.firstBeyond limit Limits.maxNesting 1 (r.visits s) with
  | none =>
    intro hall
    dsimp only at hall ⊢
    rw [hall, List.take_length, hpath]
    exact congrArg some (List.append_nil _)
  | some i =>
    intro hcut
    dsimp only at hcut ⊢
    rw [hcut, hpath]
    exact congrArg some (List.append_nil _)

end Record

end Rule

/-- The number, counted from one, of the first evaluation in a trace beyond one of two limits. -/
def Trace.firstBeyond (trace : Trace) (stepLimit nestingLimit : Nat) : Option Nat :=
  Search.firstBeyond stepLimit nestingLimit 1 trace.path

namespace Rule

/-- A bounded match enters what the unlimited one enters before its first evaluation beyond a limit.
If there is none, the answers agree; if there is one, the answer is a true success or names the
limit. -/
theorem Observed.matchBounded_trace {plain r : Rule Gauges} (h : Observed plain r) (s : Input)
    (limit : Nat) (g g' : Gauges) :
    (r.boundedSearch s limit g).1
        = ((r.boundedRecord s limit g).1.1, (r.boundedRecord s limit g).1.2.unrecorded) ∧
      (match (r.trace s g').1.firstBeyond limit Limits.maxNesting with
        | none =>
          (r.boundedRecord s limit g).1.2.path = some (r.trace s g').1.path.reverse ∧
            (r.matchBounded s limit g).1 = .ok (r.trace s g').1.matched
        | some i =>
          (r.boundedRecord s limit g).1.2.path
              = some ((r.trace s g').1.path.take (i - 1)).reverse ∧
            ((r.matchBounded s limit g).1 = .ok true ∧ (r.trace s g').1.matched = true ∨
              limit < i ∧ (r.matchBounded s limit g).1 = .error (.stepLimitExceeded limit) ∨
              i ≤ limit ∧ (r.matchBounded s limit g).1
                = .error (.recursionLimitExceeded Limits.maxNesting))) ∧
      (∀ verdict, (r.matchBounded s limit g).1 = .ok verdict → (r.isMatch s g').1 = verdict) ∧
      ((r.matchBounded s limit g).1 = .ok false →
        (r.trace s g').1.firstBeyond limit Limits.maxNesting = none) := by
  have heager : (r.wholeTree s).Eager := h.eager s fun _ => trivial
  rw [boundedSearch_eq h.blind, boundedRecord_path h.blind, matchBounded_eq h.blind,
    Trace.firstBeyond, trace_path h.blind, trace_matched h.blind, isMatch_eq h.blind]
  refine ⟨rfl, ?_⟩
  cases Search.firstBeyond limit Limits.maxNesting 1 (r.visits s) with
  | none =>
    refine ⟨⟨rfl, rfl⟩, ?_, fun _ => rfl⟩
    rintro verdict ⟨⟩
    rfl
  | some i =>
    by_cases hmatched : (r.wholeTree s).succeedsWithin (i - 1) = true
    · have hfull := heager.succeeds_of_succeedsWithin hmatched
      dsimp only
      rw [if_pos hmatched]
      refine ⟨⟨rfl, .inl ⟨rfl, hfull⟩⟩, ?_, ?_⟩
      · rintro verdict ⟨⟩
        exact hfull
      · rintro ⟨⟩
    · dsimp only
      rw [if_neg hmatched]
      by_cases hi : limit < i
      · rw [if_pos hi]
        exact ⟨⟨rfl, .inr (.inl ⟨hi, rfl⟩)⟩, by rintro _ ⟨⟩, by rintro ⟨⟩⟩
      · rw [if_neg hi]
        exact ⟨⟨rfl, .inr (.inr ⟨Nat.le_of_not_lt hi, rfl⟩)⟩, by rintro _ ⟨⟩, by rintro ⟨⟩⟩

/-- The budget is spent within the repetition, and the match falls back on its own input. -/
theorem matchBounded_trace_counted :
    Observed (optional (append (many (val 'a')) .end))
        (counted 0 (optional (recorded 1 (append (many (val 'a')) .end)))) ∧
      ((counted 0 (optional (recorded 1 (append (many (val 'a')) .end)))).isMatch ['a', 'b'] .empty).1
        = true := by
  have hobserved : Observed (optional (append (many (val 'a')) .end))
      (counted 0 (optional (recorded 1 (append (many (val 'a')) .end)))) :=
    .counted 0 (.optional (.recorded 1 (.append (.many (.val 'a')) .end)))
  have hbounded : ((counted 0 (optional (recorded 1 (append (many (val 'a')) .end)))).matchBounded
      ['a', 'b'] 5 .empty).1 = .ok true := by decide +kernel
  exact ⟨hobserved, (hobserved.matchBounded_trace _ _ _ _).2.2.1 true hbounded⟩

theorem Observed.matchBounded_eq_or_spent {plain r : Rule Gauges} (h : Observed plain r) (s : Input)
    {limit more : Nat} (hmore : limit ≤ more) (g g' : Gauges) :
    (r.matchBounded s limit g).1 = .error (.stepLimitExceeded limit) ∨
      (r.matchBounded s limit g).1 = (r.matchBounded s more g').1 := by
  have heager : (r.wholeTree s).Eager := h.eager s fun _ => trivial
  rw [matchBounded_eq h.blind, matchBounded_eq h.blind]
  cases hfirst : Search.firstBeyond limit Limits.maxNesting 1 (r.visits s) with
  | none =>
    rw [Search.firstBeyond_none_mono hmore hfirst]
    exact .inr rfl
  | some i =>
    by_cases hi : i ≤ limit
    · -- the nesting limit cut the search short, and does so under every larger budget
      rw [Search.firstBeyond_of_le hmore hfirst hi]
      dsimp only
      rw [if_neg (Nat.not_lt.mpr hi), if_neg (Nat.not_lt.mpr (Nat.le_trans hi hmore))]
      exact .inr rfl
    · by_cases hmatched : (r.wholeTree s).succeedsWithin (i - 1) = true
      · refine .inr ?_
        dsimp only
        rw [if_pos hmatched]
        cases hlater : Search.firstBeyond more Limits.maxNesting 1 (r.visits s) with
        | none =>
          dsimp only
          rw [heager.succeeds_of_succeedsWithin hmatched]
        | some j =>
          have hij := Search.firstBeyond_mono hmore hfirst hlater
          dsimp only
          rw [if_pos (heager.succeedsWithin_mono (by omega) hmatched)]
      · dsimp only
        rw [if_neg hmatched, if_pos (Nat.lt_of_not_le hi)]
        exact .inl rfl

theorem matchBounded_ne_spent [Inhabited σ] {r : Rule σ} (h : r.Blind) (s : Input) {limit : Nat}
    (hlimit : (r.visits s).length ≤ limit) (shared : σ) :
    (r.matchBounded s limit shared).1 ≠ .error (.stepLimitExceeded limit) := by
  rw [matchBounded_eq h]
  cases hfirst : Search.firstBeyond limit Limits.maxNesting 1 (r.visits s) with
  | none => exact nofun
  | some i =>
    have hi := (Search.firstBeyond_bounds hfirst).2
    dsimp only
    rw [if_neg (by omega : ¬ limit < i)]
    split <;> exact nofun

theorem matchBounded_ne_tooDeep [Inhabited σ] {r : Rule σ} (h : r.Blind) {s : Input}
    (hshallow : ∀ step ∈ r.visits s, step.depth ≤ Limits.maxNesting) (limit deepest : Nat)
    (shared : σ) :
    (r.matchBounded s limit shared).1 ≠ .error (.recursionLimitExceeded deepest) := by
  rw [matchBounded_eq h]
  cases hfirst : Search.firstBeyond limit Limits.maxNesting 1 (r.visits s) with
  | none => exact nofun
  | some i =>
    dsimp only
    rw [if_pos (Search.lt_firstBeyond hshallow hfirst)]
    split <;> exact nofun

/-- As the budget grows the answer changes at most once, from a spent budget to one that stays. -/
theorem Observed.matchBounded_stable {plain r : Rule Gauges} (h : Observed plain r) (s : Input) :
    (∀ {limit more : Nat}, limit ≤ more → ∀ g g',
      (r.matchBounded s limit g).1 = .error (.stepLimitExceeded limit) ∨
        (r.matchBounded s limit g).1 = (r.matchBounded s more g').1) ∧
      ∃ enough answer, ∀ limit g,
        (r.matchBounded s limit g).1
          = if limit < enough then .error (.stepLimitExceeded limit) else answer := by
  constructor
  · intro limit more hmore g g'
    exact h.matchBounded_eq_or_spent s hmore g g'
  classical
  have hex : ∃ limit, (r.matchBounded s limit default).1 ≠ .error (.stepLimitExceeded limit) :=
    ⟨_, matchBounded_ne_spent h.blind s (Nat.le_refl _) default⟩
  refine ⟨Nat.find hex, (r.matchBounded s (Nat.find hex) default).1, ?_⟩
  intro limit g
  split
  · rename_i hlt
    have hspent := not_not.mp (Nat.find_min hex hlt)
    rcases h.matchBounded_eq_or_spent s (Nat.le_refl limit) g default with hg | hg
    · exact hg
    · exact hg.trans hspent
  · rename_i hlt
    rcases h.matchBounded_eq_or_spent s (Nat.le_of_not_lt hlt) default g with hspent | heq
    · exact absurd hspent (Nat.find_spec hex)
    · exact heq.symm

theorem matchBounded_stable_counted :
    Observed (optional (append (many (val 'a')) .end))
        (counted 0 (optional (append (many (val 'a')) .end))) ∧
      ((counted 0 (optional (append (many (val 'a')) .end))).matchBounded ['a', 'b'] 100 .empty).1
        = .ok true := by
  have hobserved : Observed (optional (append (many (val 'a')) .end))
      (counted 0 (optional (append (many (val 'a')) .end))) :=
    .counted 0 (.optional (.append (.many (.val 'a')) .end))
  have hbounded : ((counted 0 (optional (append (many (val 'a')) .end))).matchBounded
      ['a', 'b'] 5 .empty).1 = .ok true := by decide +kernel
  refine ⟨hobserved, ?_⟩
  rcases (hobserved.matchBounded_stable ['a', 'b']).1 (by decide : 5 ≤ 100) .empty .empty with
    hspent | heq
  · rw [hbounded] at hspent
    cases hspent
  · exact heq.symm.trans hbounded

end Rule

end Backtrack
