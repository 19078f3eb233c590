import Backtrack.Proofs.Admission
import Backtrack.Proofs.SearchTree
import Backtrack.Search.Offers

/-!
# The order of a search

Without limits a search does nothing to its caller but go through its tree, depth first. For a rule
without custom nodes the leaves of the tree are the rule's offers, so the search hands on exactly
these, one after another, and stops at the first success.
-/

set_option autoImplicit false

namespace Backtrack

variable {ω σ : Type}

namespace Acceptor

theorem settle_singleton (k : Acceptor ω σ) (t : Input) : k.settle [.rest t] = k t := by
  funext state
  simp only [settle, bind, StateT.bind]
  rcases k t state with ⟨accepted, state'⟩
  cases accepted <;> rfl

theorem settle_flatMap (k : Acceptor ω σ) (next : Input → List Outcome) (os : List Outcome) :
    k.settle (os.flatMap (Outcome.followedBy next)) = settle (fun t => k.settle (next t)) os := by
  induction os with
  | nil => rfl
  | cons o os ih =>
    rw [List.flatMap_cons, settle_append, ih]
    cases o <;> rfl

end Acceptor

namespace SearchTree

/-- What the tree does to the caller and to what is shared, with no search around it. -/
def traverse (k : Acceptor ω σ) : SearchTree σ → StateM (ω × σ) Bool
  | leaf verdict => return verdict
  | ask rest => k rest
  | visit _ _ body => body.traverse k
  | branch first onSuccess onFailure => do
    if ← first.traverse k then onSuccess.traverse k else onFailure.traverse k
  | change f next => do
    modify fun (outer, shared) => (outer, f shared)
    next.traverse k

/-- The evaluations on the way through the tree that the acceptor's answers make the search take, as
a search notes them that starts at a depth, in an input of so many bytes. -/
def noted (k : Acceptor ω σ) (size depth : Nat) : SearchTree σ → ω × σ → List Step
  | leaf _, _ => []
  | ask _, _ => []
  | visit kind s body, state =>
    ⟨kind.name, size - bytes s, depth + 1⟩ :: body.noted k size (depth + 1) state
  | branch first onSuccess onFailure, state =>
    first.noted k size depth state ++
      if (first.traverse k state).1 then onSuccess.noted k size depth (first.traverse k state).2
      else onFailure.noted k size depth (first.traverse k state).2
  | change f next, (outer, shared) => next.noted k size depth (outer, f shared)

/-- Without limits a search through the tree is the traversal, and notes its way. -/
theorem run_notes (tree : SearchTree σ) (k : Acceptor ω σ) {search : Search} (h : search.Free)
    (outer : ω) (shared : σ) :
    tree.run k.lift ⟨search, outer, shared⟩
      = ((tree.traverse k (outer, shared)).1,
         ⟨search.advance (tree.noted k search.inputSize search.depth (outer, shared)),
          (tree.traverse k (outer, shared)).2.1, (tree.traverse k (outer, shared)).2.2⟩) := by
  induction tree generalizing search outer shared with
  | leaf verdict => rfl
  | ask rest => rfl
  | visit kind s body ih =>
    have hbody := ih (h.descend kind s) outer shared
    simp only [run, SearchM.visit, SearchM.visitOr, h.enter, hbody, traverse, noted]
    rw [h.leave_advance_descend]
    rfl
  | branch first onSuccess onFailure ihfirst ihsuccess ihfailure =>
    simp only [run, traverse, noted, bind, StateT.bind, ihfirst h]
    have hafter := h.advance (first.noted k search.inputSize search.depth (outer, shared))
    rcases first.traverse k (outer, shared) with ⟨matched, outer', shared'⟩
    cases matched with
    | true => simp [ihsuccess hafter, Search.advance_append]
    | false => simp [ihfailure hafter, Search.advance_append]
  | change f next ih => exact ih h outer (f shared)

theorem traverse_orElse (k : Acceptor ω σ) (first second : SearchTree σ) :
    (orElse first second).traverse k
      = (do if ← first.traverse k then return true else second.traverse k) := rfl

theorem traverse_consume (k : Acceptor ω σ) (accepts : Char → Bool) (κ : Input → SearchTree σ)
    (s : Input) :
    (consume accepts κ s).traverse k
      = Acceptor.settle (fun t => (κ t).traverse k) (Outcome.ofChar accepts s) := by
  cases s with
  | nil => rfl
  | cons c rest =>
    simp only [consume, Outcome.ofChar]
    split
    · rw [Acceptor.settle_singleton]
    · rfl

theorem traverse_repeated (k : Acceptor ω σ)
    {layout : Input → (Input → SearchTree σ) → SearchTree σ} {offers : Input → List Outcome}
    (hlayout : ∀ s κ,
      (layout s κ).traverse k = Acceptor.settle (fun t => (κ t).traverse k) (offers s))
    (κ : Input → SearchTree σ) (s : Input) :
    (repeated layout κ s).traverse k
      = Acceptor.settle (fun t => (κ t).traverse k) (Outcome.ofRepetition offers s) := by
  fun_induction repeated layout κ s with
  | case1 s ih =>
    rw [Outcome.ofRepetition, Acceptor.settle_append, Acceptor.settle_flatMap,
      Acceptor.settle_singleton, traverse, traverse_orElse, hlayout]
    congr 2
    funext t
    split
    · rename_i hlt
      exact ih t hlt
    · rfl

end SearchTree

/-- The tree of a rule without custom nodes meets an acceptor as the rule's offers do. -/
theorem Rule.traverse_searchTree [Inhabited σ] {r : Rule σ} (h : r.CustomFree) (k : Acceptor ω σ)
    (s : Input) (κ : Input → SearchTree σ) :
    (r.searchTree s κ).traverse k = Acceptor.settle (fun t => (κ t).traverse k) (r.offers s) := by
  induction r using Rule.rec (motive_2 := fun _ => True) generalizing s κ with
  | any => rw [searchTree, SearchTree.traverse, SearchTree.traverse_consume, offers]
  | oneOf set => rw [searchTree, SearchTree.traverse, SearchTree.traverse_consume, offers]
  | val c => rw [searchTree, SearchTree.traverse, SearchTree.traverse_consume, offers]
  | empty => rw [searchTree, SearchTree.traverse, offers, Acceptor.settle_singleton]
  | «end» => cases s <;> rfl
  | append a b iha ihb =>
    obtain ⟨ha, hb⟩ := h
    rw [searchTree, SearchTree.traverse, offers, Acceptor.settle_flatMap, iha ha]
    simp only [ihb hb]
  | or a b iha ihb =>
    obtain ⟨ha, hb⟩ := h
    rw [searchTree, SearchTree.traverse, SearchTree.traverse_orElse, offers,
      Acceptor.settle_append, iha ha, ihb hb]
  | optional r ih =>
    rw [searchTree, SearchTree.traverse, SearchTree.traverse_orElse, offers,
      Acceptor.settle_append, Acceptor.settle_singleton, ih h]
  | many r ih =>
    rw [searchTree, offers]
    apply SearchTree.traverse_repeated
    intro s κ
    exact ih h s κ
  | custom => exact h.elim
  | _ => trivial

theorem Rule.matchWith_eq_traverse [Inhabited σ] {r : Rule σ} (h : r.Blind) (s : Input)
    (k : Acceptor ω σ) : r.matchWith s k = (r.wholeTree s).traverse k := by
  funext ⟨outer, shared⟩
  have heq := (r.wholeTree s).run_notes k (Search.free_start s false) outer shared
  rw [← eval_eq_run_wholeTree h] at heq
  simp only [matchWith, Search.run, Search.unbounded, bind, StateT.bind, heq]
  rfl

/-- The acceptor with a list of its calls and answers, oldest first. -/
def Acceptor.logged (k : Acceptor ω σ) : Acceptor (ω × List (Input × Bool)) σ :=
  fun t ((outer, calls), shared) =>
    let (accepted, outer, shared) := k t (outer, shared)
    (accepted, (outer, calls ++ [(t, accepted)]), shared)

/-- Put to an acceptor one after another, the outcomes led to these calls and to this verdict. -/
inductive Outcome.Settled : List Outcome → List (Input × Bool) → Bool → Prop where
  | exhausted : Settled [] [] false
  | done (os : List Outcome) : Settled (.done :: os) [] true
  | accepted (t : Input) (os : List Outcome) : Settled (.rest t :: os) [(t, true)] true
  | refused {t : Input} {os : List Outcome} {calls : List (Input × Bool)} {verdict : Bool} :
    Settled os calls verdict → Settled (.rest t :: os) ((t, false) :: calls) verdict

theorem Acceptor.settle_logged (k : Acceptor ω σ) (os : List Outcome) (outer : ω)
    (before : List (Input × Bool)) (shared : σ) :
    ∃ calls, Outcome.Settled os calls (k.settle os (outer, shared)).1 ∧
      k.logged.settle os ((outer, before), shared)
        = ((k.settle os (outer, shared)).1,
           ((k.settle os (outer, shared)).2.1, before ++ calls),
           (k.settle os (outer, shared)).2.2) := by
  induction os generalizing outer before shared with
  | nil =>
    refine ⟨[], .exhausted, ?_⟩
    rw [List.append_nil]
    rfl
  | cons o os ih =>
    cases o with
    | done =>
      refine ⟨[], .done os, ?_⟩
      rw [List.append_nil]
      rfl
    | rest t =>
      simp only [settle, bind, StateT.bind, logged]
      rcases k t (outer, shared) with ⟨accepted, outer', shared'⟩
      cases accepted with
      | true => exact ⟨[(t, true)], .accepted t os, rfl⟩
      | false =>
        obtain ⟨calls, hcalls, heq⟩ := ih outer' (before ++ [(t, false)]) shared'
        refine ⟨(t, false) :: calls, .refused hcalls, ?_⟩
        simpa using heq

theorem Rule.matchWith_eq_settle {r : Rule σ} (h : r.CustomFree) (s : Input) (k : Acceptor ω σ) :
    r.matchWith s k = k.settle (r.offers s) := by
  funext ⟨outer, shared⟩
  have : Inhabited σ := ⟨shared⟩
  rw [matchWith_eq_traverse h.blind, wholeTree, traverse_searchTree h]
  rfl

/-- A match does to its acceptor what the offers do: one call for each remainder, in order, up to
the first success and no further. -/
theorem Rule.matchWith_settles_offers {r : Rule σ} (h : r.CustomFree) (s : Input)
    (k : Acceptor ω σ) :
    r.matchWith s k = k.settle (r.offers s) ∧
      ∀ outer before shared, ∃ calls,
        Outcome.Settled (r.offers s) calls (r.matchWith s k (outer, shared)).1 ∧
        r.matchWith s k.logged ((outer, before), shared)
          = ((r.matchWith s k (outer, shared)).1,
             ((r.matchWith s k (outer, shared)).2.1, before ++ calls),
             (r.matchWith s k (outer, shared)).2.2) := by
  have hsettle : r.matchWith s k = k.settle (r.offers s) := matchWith_eq_settle h s k
  refine ⟨hsettle, ?_⟩
  intro outer before shared
  rw [hsettle, matchWith_eq_settle h s k.logged]
  exact k.settle_logged (r.offers s) outer before shared

/-- The same remainder is offered twice, and accepted only at the third call. -/
theorem Rule.matchWith_settles_third_call :
    (Rule.many (.or (.val 'a') (.optional (.val 'a'))) : Rule Unit).CustomFree ∧
      (Rule.many (.or (.val 'a') (.optional (.val 'a'))) : Rule Unit).matchWith ['a']
          (fun _ (calls, shared) => (calls == 2, calls + 1, shared)) (0, ())
        = (true, 3, ()) := by
  have hfree : (Rule.many (.or (.val 'a') (.optional (.val 'a'))) : Rule Unit).CustomFree :=
    ⟨trivial, trivial⟩
  have hoffers : (Rule.many (.or (.val 'a') (.optional (.val 'a'))) : Rule Unit).offers ['a']
      = [.rest [], .rest [], .rest ['a']] := by decide +kernel
  refine ⟨hfree, ?_⟩
  rw [(matchWith_settles_offers hfree _ _).1, hoffers]
  rfl

end Backtrack
