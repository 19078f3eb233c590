import Backtrack.Custom.Combinators
import Backtrack.Custom.Contract
import Backtrack.Proofs.Budget
import Backtrack.Proofs.Unlimited

/-!
# Which verdicts of a bounded match can be trusted

A refusal is the verdict of the whole search, and so is a success that was found before any limit was
hit. A success that was found later can be trusted where no custom rule holds a success of another
against its own. A rule that tests for the absence of another does: once the budget is spent the
other cannot be found any more, and its absence is taken for granted.
-/

set_option autoImplicit false

namespace Backtrack

variable {σ : Type}

theorem Search.verdict_eq_ok {search : Search} {limit : Nat} {matched answer : Bool}
    (h : search.verdict limit matched = .ok answer) :
    matched = answer ∧ (answer = false → search.stopped = false) := by
  cases matched <;> cases hexhausted : search.exhausted <;> cases htooDeep : search.tooDeep <;>
    simp_all [verdict, stopped]

namespace Rule

/-- Where no success counts as a failure, a success under a budget is one without. -/
theorem Positive.isMatch_of_ok_true [Inhabited σ] {r : Rule σ} (h : r.Positive)
    (hblind : r.Blind) {s : Input} {limit : Nat} {shared : σ}
    (hok : (r.matchBounded s limit shared).1 = .ok true) (shared' : σ) :
    (r.isMatch s shared').1 = true := by
  have hmonotone : (r.wholeTree s).Monotone := h.monotone s fun _ => trivial
  rw [matchBounded_eq hblind] at hok
  rw [isMatch_eq hblind]
  cases hfirst : Search.firstBeyond limit Limits.maxNesting 1 (r.visits s) with
  | none =>
    rw [hfirst] at hok
    exact Except.ok.inj hok
  | some i =>
    rw [hfirst] at hok
    dsimp only at hok
    split at hok
    · rename_i hwithin
      exact hmonotone.succeeds_of_succeedsWithin hwithin
    · split at hok <;> cases hok

/-- A bounded verdict is that of the whole search, unless it is a success found after a limit was
hit in a rule where a success may count as a failure. -/
theorem isMatch_of_matchBounded {r : Rule σ} (h : r.Stateless) (s : Input) (limit : Nat)
    (shared shared' : σ) {answer : Bool}
    (hok : (r.matchBounded s limit shared).1 = .ok answer)
    (htrust : answer = true → (r.boundedSearch s limit shared).1.2.stopped = false ∨
      r.Blind ∧ r.Positive) :
    (r.isMatch s shared').1 = answer := by
  have hverdict := hok
  rw [matchBounded_eq_verdict] at hverdict
  obtain ⟨hmatched, hrunning⟩ := Search.verdict_eq_ok hverdict
  have huncut : (r.boundedSearch s limit shared).1.2.stopped = false →
      (r.isMatch s shared').1 = answer := by
    intro hstopped
    rw [← boundedSearch_eq_isMatch h s shared shared' limit hstopped]
    exact hmatched
  cases answer with
  | false => exact huncut (hrunning rfl)
  | true =>
    rcases htrust rfl with hstopped | ⟨hblind, hpositive⟩
    · exact huncut hstopped
    · have : Inhabited σ := ⟨shared⟩
      exact hpositive.isMatch_of_ok_true hblind hok shared'

theorem stateless_lookahead {inner : Rule σ} (h : inner.Stateless) :
    (lookahead inner).Stateless := by
  intro s
  refine ⟨h, fun _ => trivial, ?_⟩
  intro found
  cases found with
  | true => exact fun _ => trivial
  | false => trivial

theorem blind_lookahead {inner : Rule σ} (h : inner.Blind) : (lookahead inner).Blind := by
  intro s
  refine ⟨h, fun _ => trivial, ?_⟩
  intro found
  cases found with
  | true => exact fun _ => trivial
  | false => trivial

/-- To test for the presence of another rule is to let its failure settle the answer. -/
theorem positive_lookahead {inner : Rule σ} (h : inner.Positive) : (lookahead inner).Positive := by
  intro s
  refine ⟨h, fun _ => trivial, .inr (.inl rfl), ?_⟩
  intro found
  cases found with
  | true => exact ⟨.inr (.inl rfl), fun _ => trivial⟩
  | false => trivial

/-- The budget is spent on the test, and the match falls back on its own input. -/
theorem isMatch_of_matchBounded_lookahead :
    ((optional (lookahead (append (many (val 'a')) .end)) : Rule Unit).matchBounded
        ['a', 'b'] 3 ()).1 = .ok true ∧
      ((optional (lookahead (append (many (val 'a')) .end)) : Rule Unit).isMatch
        ['a', 'b'] ()).1 = true := by
  have hok : ((optional (lookahead (append (many (val 'a')) .end)) : Rule Unit).matchBounded
      ['a', 'b'] 3 ()).1 = .ok true := by decide +kernel
  have hstateless : (optional (lookahead (append (many (val 'a')) .end)) : Rule Unit).Stateless :=
    stateless_lookahead ⟨trivial, trivial⟩
  have hblind : (optional (lookahead (append (many (val 'a')) .end)) : Rule Unit).Blind :=
    blind_lookahead ⟨trivial, trivial⟩
  have hpositive : (optional (lookahead (append (many (val 'a')) .end)) : Rule Unit).Positive :=
    positive_lookahead ⟨trivial, trivial⟩
  exact ⟨hok, isMatch_of_matchBounded hstateless ['a', 'b'] 3 () () hok
    fun _ => .inr ⟨hblind, hpositive⟩⟩

/-- A rule that tests for the absence of another succeeds only through its continuation. -/
theorem faithful_notAhead (inner : Rule σ) :
    (notAhead inner).CustomAll fun act => Dialogue.Faithful act := by
  intro ω k s search outer shared h
  simp only [Dialogue.play_test, bind, StateT.bind] at h ⊢
  generalize inner.eval s _ _ = tested at h ⊢
  obtain ⟨found, after⟩ := tested
  cases found with
  | true =>
    simp only [if_true, Dialogue.play_answer] at h
    cases h
  | false =>
    simp only [Bool.false_eq_true, if_false, Dialogue.play_offer, Dialogue.play_answer, bind_pure] at h ⊢
    have haccepted : (k s ⟨after.search, after.outer.1, after.shared⟩).1 = true := h
    show (after.outer.2 || (k s ⟨after.search, after.outer.1, after.shared⟩).1) = true
    rw [haccepted, Bool.or_true]

/-- A rule that takes a test cut short for an absence, and so reports a match that is none. -/
theorem matchBounded_notAhead_spent :
    (notAhead any : Rule Unit).CustomAll (fun act => Dialogue.Faithful act) ∧
      (notAhead any : Rule Unit).Blind ∧
      ((notAhead any : Rule Unit).matchBounded ['a'] 1 ()).1 = .ok true ∧
      ((notAhead any : Rule Unit).isMatch ['a'] ()).1 = false := by
  refine ⟨faithful_notAhead any, ?_, by decide +kernel, by decide +kernel⟩
  intro s
  refine ⟨trivial, fun _ => trivial, ?_⟩
  intro found
  cases found with
  | true => trivial
  | false => exact fun _ => trivial

end Rule

end Backtrack
