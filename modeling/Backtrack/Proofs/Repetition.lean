import Backtrack.Proofs.Descent
import Backtrack.Proofs.SearchOrder
import Backtrack.Rule.Build

/-!
# Repetition of a single character

Repeating a rule for one character never idles, so the search comes down one round for each character
taken and one more that fails. Then it gives back a character at a time, and on the way up nothing
is evaluated again: only the continuation is asked, from the longest match to the empty one.
-/

set_option autoImplicit false

namespace Backtrack

variable {ω σ : Type}

namespace Rule

/-- The character is one that a rule for single characters consumes. -/
def takes : Rule σ → Char → Bool
  | any, _ => true
  | oneOf set, c => set.contains c
  | val d, c => c == d
  | _, _ => false

/-- How many characters at the start of the input the rule takes one after another. -/
def reach (a : Rule σ) (s : Input) : Nat := (s.takeWhile a.takes).length

/-- What is left behind as many characters as the rule takes, then behind one less, and so on. -/
def givenBack (a : Rule σ) (s : Input) : List Outcome :=
  (List.range (a.reach s + 1)).reverse.map fun i => .rest (s.drop i)

/-- The places to which a repetition comes, where it goes on and tries one more round. -/
def rounds (a : Rule σ) (s : Input) : List Frame :=
  (List.range (a.reach s + 1)).flatMap fun i => [(.many, s.drop i), (a.kind, s.drop i)]

section Reach
variable {a : Rule σ} {s : Input} {c : Char}

theorem reach_cons (a : Rule σ) (c : Char) (t : Input) :
    a.reach (c :: t) = if a.takes c then a.reach t + 1 else 0 := by
  unfold reach
  rw [List.takeWhile_cons]
  split <;> simp

/-- The rule takes no character at the start of the input, or it takes the first. -/
theorem reach_induction {motive : Input → Prop} (stuck : ∀ s, a.reach s = 0 → motive s)
    (taken : ∀ c t, a.takes c = true → motive t → motive (c :: t)) (s : Input) : motive s := by
  induction s with
  | nil => exact stuck [] rfl
  | cons c t ih =>
    by_cases hc : a.takes c = true
    · exact taken c t hc ih
    · exact stuck (c :: t) (by rw [reach_cons, if_neg hc])

theorem all_of_stuck (h : a.reach s = 0) : s.all a.takes = s.isEmpty := by
  cases s with
  | nil => rfl
  | cons c t => simp_all [reach_cons]

theorem consume_of_stuck (h : a.reach s = 0) (κ : Input → SearchTree σ) :
    SearchTree.consume a.takes κ s = .leaf false := by
  cases s with
  | nil => rfl
  | cons c t => simp_all [reach_cons, SearchTree.consume]

theorem givenBack_of_stuck (h : a.reach s = 0) : a.givenBack s = [.rest s] := by
  simp [givenBack, h]

theorem givenBack_of_taken (h : a.takes c = true) (t : Input) :
    a.givenBack (c :: t) = a.givenBack t ++ [.rest (c :: t)] := by
  rw [givenBack, givenBack, reach_cons, if_pos h, List.range_succ_eq_map]
  simp

theorem rounds_of_stuck (h : a.reach s = 0) : a.rounds s = [(.many, s), (a.kind, s)] := by
  simp [rounds, h]

theorem rounds_of_taken (h : a.takes c = true) (t : Input) :
    a.rounds (c :: t) = [(.many, c :: t), (a.kind, c :: t)] ++ a.rounds t := by
  rw [rounds, rounds, reach_cons, if_pos h, List.range_succ_eq_map]
  simp [List.flatMap_map]

theorem length_rounds (a : Rule σ) (s : Input) : (a.rounds s).length = 2 * a.reach s + 2 := by
  induction s using reach_induction (a := a) with
  | stuck s hs => simp [rounds_of_stuck hs, hs]
  | taken c t hc ih =>
    rw [rounds_of_taken hc, List.length_append, ih, reach_cons, if_pos hc]
    simp
    omega

theorem countP_rounds (h : a.isAtom = true) {kind : Kind} (hkind : kind = .many ∨ kind = a.kind)
    (s : Input) : (a.rounds s).countP (·.1 = kind) = a.reach s + 1 := by
  have hne : a.kind ≠ .many := by
    intro heq
    simp [isAtom, heq] at h
  have hround : ∀ t, [(Kind.many, t), (a.kind, t)].countP (fun f : Frame => f.1 = kind) = 1 := by
    intro t
    rcases hkind with rfl | rfl
    · simp [hne]
    · simp [hne.symm]
  induction s using reach_induction (a := a) with
  | stuck s hs => rw [rounds_of_stuck hs, hround, hs]
  | taken c t hc ih =>
    rw [rounds_of_taken hc, List.countP_append, hround, ih, reach_cons, if_pos hc, Nat.add_comm]

theorem customFree_of_isAtom (h : a.isAtom = true) : a.CustomFree := by
  cases a with
  | any | oneOf | val => trivial
  | _ => exact absurd h (by simp [isAtom, kind])

end Reach

section Tree
variable [Inhabited σ] {a : Rule σ} (h : a.isAtom = true)
include h

theorem searchTree_atom (s : Input) (κ : Input → SearchTree σ) :
    a.searchTree s κ = .visit a.kind s (.consume a.takes κ s) := by
  cases a with
  | any | oneOf | val => rfl
  | _ => exact absurd h (by simp [isAtom, kind])

theorem searchTree_many_of_stuck {s : Input} (hs : a.reach s = 0) (κ : Input → SearchTree σ) :
    (many a).searchTree s κ
      = .visit .many s (.orElse (.visit a.kind s (.leaf false)) (κ s)) := by
  rw [searchTree, SearchTree.repeated, searchTree_atom h, consume_of_stuck hs]

theorem searchTree_many_of_taken {c : Char} (hc : a.takes c = true) (t : Input)
    (κ : Input → SearchTree σ) :
    (many a).searchTree (c :: t) κ
      = .visit .many (c :: t)
          (.orElse (.visit a.kind (c :: t) ((many a).searchTree t κ)) (κ (c :: t))) := by
  -- a round that took a character has not idled
  rw [searchTree, SearchTree.repeated, searchTree_atom h, SearchTree.consume, if_pos hc,
    if_pos (bytes_lt_cons c t), searchTree]

theorem traverse_many_atom (k : Acceptor ω σ) (s : Input) :
    ((many a).wholeTree s).traverse k = k.settle (a.givenBack s) := by
  unfold wholeTree
  induction s using reach_induction (a := a) with
  | stuck s hs =>
    rw [searchTree_many_of_stuck h hs, givenBack_of_stuck hs, Acceptor.settle_singleton]
    rfl
  | taken c t hc ih =>
    rw [searchTree_many_of_taken h hc, givenBack_of_taken hc, Acceptor.settle_append,
      Acceptor.settle_singleton, ← ih]
    rfl

theorem noted_many_atom (k : Acceptor ω σ) (s : Input) (size depth : Nat) (state : ω × σ) :
    ((many a).wholeTree s).noted k size depth state = descent size depth (a.rounds s) := by
  unfold wholeTree
  induction s using reach_induction (a := a) generalizing depth with
  | stuck s hs =>
    rw [searchTree_many_of_stuck h hs, rounds_of_stuck hs]
    rfl
  | taken c t hc ih =>
    rw [searchTree_many_of_taken h hc, rounds_of_taken hc]
    simp [SearchTree.noted, SearchTree.orElse, descent, ih]

/-- Where the end of the input is to follow, each place that is given back is tried for it. -/
theorem many_atom_to_end (s : Input) :
    ((many a).searchTree s fun t => .visit .end t (.leaf t.isEmpty)).succeeds = s.all a.takes ∧
    ((many a).searchTree s fun t => .visit .end t (.leaf t.isEmpty)).visitCount
      = if s.all a.takes then 2 * a.reach s + 3 else 3 * a.reach s + 3 := by
  induction s using reach_induction (a := a) with
  | stuck s hs =>
    rw [searchTree_many_of_stuck h hs, hs, all_of_stuck hs]
    simp [SearchTree.orElse, SearchTree.succeeds, SearchTree.visitCount]
  | taken c t hc ih =>
    obtain ⟨hsucceeds, hcount⟩ := ih
    have hall : (c :: t).all a.takes = t.all a.takes := by simp [hc]
    rw [searchTree_many_of_taken h hc, reach_cons, if_pos hc, hall]
    simp only [SearchTree.orElse, SearchTree.succeeds, SearchTree.visitCount, hsucceeds, hcount]
    cases t.all a.takes <;> grind

end Tree

theorem trace_eof_many_atom {a : Rule σ} (h : a.isAtom = true) (s : Input) (shared : σ) :
    ((eof (many a)).trace s shared).1.matched = s.all a.takes ∧
    ((eof (many a)).trace s shared).1.steps
      = if s.all a.takes then 2 * a.reach s + 4 else 3 * a.reach s + 4 := by
  have : Inhabited σ := ⟨shared⟩
  have hfree : a.CustomFree := customFree_of_isAtom h
  have hblind : (eof (many a)).Blind := CustomFree.blind ⟨hfree, trivial⟩
  have htree : (eof (many a)).wholeTree s = .visit .append s
      ((many a).searchTree s fun t => .visit .end t (.leaf t.isEmpty)) := rfl
  obtain ⟨hsucceeds, hcount⟩ := many_atom_to_end h s
  rw [trace_matched hblind, trace_steps hblind, visits, SearchTree.length_visits, htree,
    SearchTree.succeeds, SearchTree.visitCount, hsucceeds, hcount]
  refine ⟨rfl, ?_⟩
  split <;> rfl

/-- Under any acceptor a repetition of a single character takes two evaluations for each character
taken and two more, each inside the one before, and gives back a character at a time. If the end of
the input has to follow, each place given back costs one evaluation more. -/
theorem eval_many_atom {a : Rule σ} (h : a.isAtom = true) (s : Input) :
    (∀ {ω : Type} (k : Acceptor ω σ) (search : Search) (outer : ω) (shared : σ), search.Free →
      ∃ after : Search,
        (many a).eval s k.lift ⟨search, outer, shared⟩
          = ((k.settle (a.givenBack s) (outer, shared)).1,
             ⟨after, (k.settle (a.givenBack s) (outer, shared)).2.1,
              (k.settle (a.givenBack s) (outer, shared)).2.2⟩) ∧
        after.steps = search.steps + (2 * a.reach s + 2) ∧
        after.depth = search.depth ∧
        after.maxDepth = max search.maxDepth (search.depth + (2 * a.reach s + 2)) ∧
        after.path = search.path.map
          ((descent search.inputSize search.depth (a.rounds s)).reverse ++ ·)) ∧
    (∀ size depth,
      (descent size depth (a.rounds s)).countP (·.rule == Kind.many.name) = a.reach s + 1 ∧
      (descent size depth (a.rounds s)).countP (·.rule == a.kind.name) = a.reach s + 1) ∧
    ∀ shared : σ,
      (s.all a.takes = true → ((eof (many a)).trace s shared).1.matched = true ∧
        ((eof (many a)).trace s shared).1.steps = 2 * a.reach s + 4) ∧
      (s.all a.takes = false → ((eof (many a)).trace s shared).1.matched = false ∧
        ((eof (many a)).trace s shared).1.steps = 3 * a.reach s + 4) := by
  have hfree : a.CustomFree := customFree_of_isAtom h
  have hblind : (many a).Blind := hfree.blind
  refine ⟨?_, ?_, ?_⟩
  · intro ω k search outer shared hsearch
    have : Inhabited σ := ⟨shared⟩
    have hrun := ((many a).wholeTree s).run_notes k hsearch outer shared
    rw [← eval_eq_run_wholeTree hblind, traverse_many_atom h, noted_many_atom h] at hrun
    refine ⟨_, hrun, ?_, Search.advance_depth _ _, ?_, ?_⟩
    · rw [hsearch.advance_steps, length_descent, length_rounds]
    · rw [hsearch.advance_maxDepth]
      have hne : a.rounds s ≠ [] := by
        intro heq
        have hlength := length_rounds a s
        rw [heq] at hlength
        cases hlength
      rw [foldl_max_descent (.inl hne), length_rounds]
    · rw [Search.advance_path, hsearch.admitted, List.take_length]
  · intro size depth
    simp only [countP_descent, countP_rounds h (.inl rfl), countP_rounds h (.inr rfl), and_self]
  · intro shared
    obtain ⟨hmatched, hsteps⟩ := trace_eof_many_atom h s shared
    constructor
    · intro hall
      simp [hmatched, hsteps, hall]
    · intro hall
      simp [hmatched, hsteps, hall]

/-- The acceptor takes the second of three offers, behind the first of two characters taken; the end
of the input is not among them. -/
theorem eval_many_atom_second_offer :
    (oneOf (.ofList ['é', 'a']) : Rule Unit).isAtom = true ∧
      (Search.tracing ['é', 'a', 'x']).Free ∧
      ['é', 'a', 'x'].all (oneOf (.ofList ['é', 'a']) : Rule Unit).takes = false ∧
      ['é', 'a'].all (oneOf (.ofList ['é', 'a']) : Rule Unit).takes = true ∧
      (∃ after, (many (oneOf (.ofList ['é', 'a'])) : Rule Unit).eval ['é', 'a', 'x']
          (Acceptor.lift fun t (calls, shared) => (t.length == 2, calls ++ [t], shared))
          ⟨.tracing ['é', 'a', 'x'], [], ()⟩ = (true, ⟨after, [['x'], ['a', 'x']], ()⟩) ∧
        after.steps = 6 ∧ after.maxDepth = 6) ∧
      ((eof (many (oneOf (.ofList ['é', 'a']))) : Rule Unit).trace ['é', 'a', 'x'] ()).1.steps = 10 ∧
      ((eof (many (oneOf (.ofList ['é', 'a']))) : Rule Unit).trace ['é', 'a'] ()).1.steps = 8 := by
  have hatom : (oneOf (.ofList ['é', 'a']) : Rule Unit).isAtom = true := rfl
  have hfree : (Search.tracing ['é', 'a', 'x']).Free := Search.free_start _ true
  have hreach : (oneOf (.ofList ['é', 'a']) : Rule Unit).reach ['é', 'a', 'x'] = 2 := by decide +kernel
  have hreach' : (oneOf (.ofList ['é', 'a']) : Rule Unit).reach ['é', 'a'] = 2 := by decide +kernel
  have hsome : ['é', 'a', 'x'].all (oneOf (.ofList ['é', 'a']) : Rule Unit).takes = false := by
    decide +kernel
  have hall : ['é', 'a'].all (oneOf (.ofList ['é', 'a']) : Rule Unit).takes = true := by
    decide +kernel
  obtain ⟨hrun, -, htrace⟩ := eval_many_atom hatom ['é', 'a', 'x']
  obtain ⟨-, -, htrace'⟩ := eval_many_atom hatom ['é', 'a']
  refine ⟨hatom, hfree, hsome, hall, ?_, ?_, ?_⟩
  · obtain ⟨after, heval, hsteps, -, hdepth, -⟩ :=
      hrun (fun t (calls, shared) => (t.length == 2, calls ++ [t], shared)) _ [] () hfree
    rw [givenBack, hreach] at heval
    rw [hreach] at hsteps hdepth
    exact ⟨after, heval, hsteps, hdepth⟩
  · rw [((htrace ()).2 hsome).2, hreach]
  · rw [((htrace' ()).1 hall).2, hreach']

end Rule

end Backtrack
