import Backtrack.Proofs.Algebra
import Backtrack.Proofs.Consumption
import Backtrack.Proofs.Descent
import Backtrack.Proofs.SearchOrder

/-!
# Literals

A literal is appended from the left, so its first character stands deepest, and each further one is
evaluated inside the evaluation of the character before it. The search only comes down: first
through the appends without moving, then from character to character, as far as the input agrees
with the literal. At the bottom the continuation is asked, or there is a failure.
-/

set_option autoImplicit false

namespace Backtrack

variable {σ : Type}

/-- The longest beginning of both. -/
def commonPrefix : Input → Input → Input
  | c :: s, d :: t => if c = d then c :: commonPrefix s t else []
  | _, _ => []

theorem commonPrefix_cases (c : Char) (s t : Input) :
    (∃ t', t = c :: t') ∨ commonPrefix (c :: s) t = [] := by
  cases t with
  | nil => exact .inr rfl
  | cons d t =>
    by_cases hcd : c = d
    · exact .inl ⟨t, by rw [hcd]⟩
    · exact .inr (if_neg hcd)

theorem prefix_commonPrefix_iff {p s t : Input} : p <+: commonPrefix s t ↔ p <+: s ∧ p <+: t := by
  fun_induction commonPrefix s t generalizing p with
  | case1 s d t ih =>
    cases p with
    | nil => simp
    | cons e p =>
      simp only [List.cons_prefix_cons, ih]
      tauto
  | case2 c s d t hne =>
    cases p with
    | nil => simp
    | cons e p =>
      simp only [List.cons_prefix_cons, List.prefix_nil, reduceCtorEq, false_iff]
      rintro ⟨⟨rfl, -⟩, rfl, -⟩
      exact hne rfl
  | case3 s t hnil =>
    cases p with
    | nil => simp
    | cons e p =>
      simp only [List.prefix_nil, reduceCtorEq, false_iff]
      rintro ⟨⟨s, rfl⟩, ⟨t, rfl⟩⟩
      exact hnil _ _ _ _ rfl rfl

theorem commonPrefix_prefix_left (s t : Input) : commonPrefix s t <+: s :=
  (prefix_commonPrefix_iff.mp (List.prefix_refl _)).1

theorem commonPrefix_prefix_right (s t : Input) : commonPrefix s t <+: t :=
  (prefix_commonPrefix_iff.mp (List.prefix_refl _)).2

theorem length_commonPrefix_eq_iff {s t : Input} :
    (commonPrefix s t).length = s.length ↔ s <+: t := by
  constructor
  · intro hlength
    have hs := (commonPrefix_prefix_left s t).eq_of_length hlength
    rw [← hs]
    exact commonPrefix_prefix_right s t
  · intro hprefix
    have hs : s <+: commonPrefix s t := prefix_commonPrefix_iff.mpr ⟨List.prefix_refl s, hprefix⟩
    exact Nat.le_antisymm (commonPrefix_prefix_left s t).length_le hs.length_le

theorem take_eq_take_of_le {s t : Input} {i : Nat} (h : i ≤ (commonPrefix s t).length) :
    t.take i = s.take i := by
  have htake : ∀ {u}, commonPrefix s t <+: u → u.take i = (commonPrefix s t).take i := by
    rintro u ⟨v, rfl⟩
    exact List.take_append_of_le_length h
  rw [htake (commonPrefix_prefix_right s t), htake (commonPrefix_prefix_left s t)]

namespace Rule

/-- The places where one character after another is tried, up to the first that does not agree. -/
def attempts (cs : List Char) (s : Input) : List Frame :=
  (List.range (min cs.length ((commonPrefix cs s).length + 1))).map fun i => (.val, s.drop i)

/-- The places to which a literal comes: where it starts, once for each append, and then where its
characters are tried. -/
def literalFrames (cs : List Char) (s : Input) : List Frame :=
  match cs with
  | [] => [(.empty, s)]
  | _ :: rest => List.replicate rest.length (.append, s) ++ attempts cs s

theorem attempts_of_agreeing (c : Char) (cs s : List Char) :
    attempts (c :: cs) (c :: s) = (.val, c :: s) :: attempts cs s := by
  rw [attempts, commonPrefix, if_pos rfl, List.length_cons, List.length_cons,
    Nat.add_min_add_right, List.range_succ_eq_map, List.map_cons, List.map_map]
  rfl

theorem attempts_of_differing {c : Char} {cs s : List Char} (h : commonPrefix (c :: cs) s = []) :
    attempts (c :: cs) s = [(.val, s)] := by
  simp [attempts, h]

theorem length_literalFrames {cs : List Char} (h : cs ≠ []) (s : Input) :
    (literalFrames cs s).length
      = (cs.length - 1) + min cs.length ((commonPrefix cs s).length + 1) := by
  cases cs with
  | nil => exact absurd rfl h
  | cons c cs => simp [literalFrames, attempts]

theorem yields_literal_iff {cs : List Char} {s : Input} {o : Outcome} :
    (literal cs : Rule σ).Yields s o ↔ ∃ t, s = cs ++ t ∧ o = .rest t := by
  rw [← mem_offers_iff (customFree_literal cs), offers_literal]
  constructor
  · intro ho
    split at ho
    · rename_i hprefix
      obtain ⟨t, rfl⟩ := List.isPrefixOf_iff_prefix.mp hprefix
      exact ⟨t, rfl, by simpa using ho⟩
    · cases ho
  · rintro ⟨t, rfl, rfl⟩
    simp

/-- Each character is tried behind those of the literal before it. -/
theorem mem_offsets_literal {c : Char} {cs s : List Char} {n : Nat} :
    n ∈ (descent (bytes s) 0 (literalFrames (c :: cs) s)).map (·.offset) ↔
      ∃ i ≤ min (commonPrefix (c :: cs) s).length cs.length, n = bytes ((c :: cs).take i) := by
  have hoffset : ∀ i ≤ (commonPrefix (c :: cs) s).length,
      bytes s - bytes (s.drop i) = bytes ((c :: cs).take i) := by
    intro i hi
    have hsplit := bytes_append (s.take i) (s.drop i)
    rw [List.take_append_drop, take_eq_take_of_le hi] at hsplit
    omega
  rw [map_offset_descent, literalFrames, List.map_append, List.mem_append, attempts, List.map_map]
  simp only [List.mem_map, List.mem_range, Function.comp_apply, List.length_cons]
  constructor
  · rintro (⟨frame, hframe, rfl⟩ | ⟨i, hi, rfl⟩)
    · -- an append stands at the start, as does the first character
      rw [List.eq_of_mem_replicate hframe]
      exact ⟨0, Nat.zero_le _, by simp⟩
    · exact ⟨i, by omega, hoffset i (by omega)⟩
  · rintro ⟨i, hi, rfl⟩
    exact .inr ⟨i, by omega, hoffset i (by omega)⟩

theorem consume_of_differing {c : Char} {cs s : List Char} (h : commonPrefix (c :: cs) s = [])
    (κ : Input → SearchTree σ) : SearchTree.consume (· == c) κ s = .leaf false := by
  cases s with
  | nil => rfl
  | cons d s =>
    have hdc : ¬ d = c := by
      rintro rfl
      simp [commonPrefix] at h
    simp [SearchTree.consume, hdc]

section Tree
variable [Inhabited σ]

/-- The tree of rules that are read one after another. -/
def searchTreeInTurn : List (Rule σ) → Input → (Input → SearchTree σ) → SearchTree σ
  | [], s, κ => κ s
  | r :: rs, s, κ => r.searchTree s fun t => searchTreeInTurn rs t κ

theorem searchTree_sequence (first : Rule σ) (rest : List (Rule σ)) (s : Input)
    (κ : Input → SearchTree σ) :
    (sequence first rest).searchTree s κ
      = .nested (List.replicate rest.length (.append, s))
          (searchTreeInTurn (first :: rest) s κ) := by
  -- the fold goes on with `append first r`, so the induction is for every first rule
  induction rest generalizing first with
  | nil => rfl
  | cons r rest ih =>
    have hfold : (sequence first (r :: rest)).searchTree s κ
        = .nested (List.replicate rest.length (.append, s))
            (searchTreeInTurn (append first r :: rest) s κ) := ih (append first r)
    have happend : searchTreeInTurn (append first r :: rest) s κ
        = .nested [(.append, s)] (searchTreeInTurn (first :: r :: rest) s κ) := by
      rw [searchTreeInTurn, searchTree]
      rfl
    rw [hfold, happend, ← SearchTree.nested_append, ← List.replicate_succ', List.length_cons]

theorem searchTreeInTurn_map_val (cs : List Char) (s : Input) (κ : Input → SearchTree σ) :
    searchTreeInTurn (cs.map val) s κ
      = .nested (attempts cs s)
          (if (commonPrefix cs s).length = cs.length then κ (s.drop cs.length)
            else .leaf false) := by
  induction cs generalizing s with
  | nil => rfl
  | cons c cs ih =>
    rw [List.map_cons, searchTreeInTurn, searchTree]
    rcases commonPrefix_cases c cs s with ⟨t, rfl⟩ | hnil
    · simp [SearchTree.consume, ih, attempts_of_agreeing, commonPrefix, SearchTree.nested]
    · simp [consume_of_differing hnil, attempts_of_differing hnil, hnil, SearchTree.nested]

theorem searchTree_literal (cs : List Char) (s : Input) (κ : Input → SearchTree σ) :
    (literal cs).searchTree s κ
      = .nested (literalFrames cs s)
          (if (commonPrefix cs s).length = cs.length then κ (s.drop cs.length)
            else .leaf false) := by
  cases cs with
  | nil => rfl
  | cons c cs =>
    rw [literal_eq_sequence, searchTree_sequence, ← List.map_cons, searchTreeInTurn_map_val,
      ← SearchTree.nested_append, List.length_map]
    rfl

theorem visits_literal (cs : List Char) (s : Input) :
    (literal cs : Rule σ).visits s = descent (bytes s) 0 (literalFrames cs s) := by
  rw [visits, wholeTree, searchTree_literal, SearchTree.visits_nested]
  split <;> exact List.append_nil _

end Tree

theorem matchWith_literal {ω : Type} (cs : List Char) (s : Input) (k : Acceptor ω σ) :
    (literal cs).matchWith s k
      = if (commonPrefix cs s).length = cs.length then k (s.drop cs.length) else return false := by
  rw [matchWith_eq_settle (customFree_literal cs), offers_literal]
  simp only [length_commonPrefix_eq_iff, List.isPrefixOf_iff_prefix]
  split
  · exact k.settle_singleton _
  · rfl

/-- The furthest character that is tried is the first that differs, or the last of the literal. -/
theorem furthestOffset_trace_literal {cs : List Char} (h : cs ≠ []) (s : Input) (shared : σ) :
    ((literal cs).trace s shared).1.furthestOffset
      = bytes (cs.take (min (commonPrefix cs s).length (cs.length - 1))) := by
  have : Inhabited σ := ⟨shared⟩
  obtain ⟨c, rest, rfl⟩ := List.exists_cons_of_ne_nil h
  rw [Trace.furthestOffset, trace_path (customFree_literal _).blind, visits_literal,
    List.length_cons, Nat.add_sub_cancel]
  apply foldl_max_eq_of_mem
  · exact mem_offsets_literal.mpr ⟨_, Nat.le_refl _, rfl⟩
  · intro n hn
    obtain ⟨i, hi, rfl⟩ := mem_offsets_literal.mp hn
    exact bytes_le_of_prefix (List.take_prefix_take_left hi)

/-- A literal asks its continuation once, behind itself, if the input starts with it, and never if
not. It matches nothing longer than itself, and its trace tells how far the input agrees with it. -/
theorem eval_literal (cs : List Char) (s : Input) :
    (∀ {ω : Type} (k : Continuation ω σ), (literal cs).eval s k
      = SearchM.nested (literalFrames cs s)
          (if (commonPrefix cs s).length = cs.length then k (s.drop cs.length)
            else return false)) ∧
    (∀ {ω : Type} (k : Acceptor ω σ), (literal cs).matchWith s k
      = if (commonPrefix cs s).length = cs.length then k (s.drop cs.length) else return false) ∧
    (∀ shared : σ, ((eof (literal cs)).isMatch s shared).1 = true ↔ s = cs) ∧
    (cs ≠ [] → ∀ shared : σ,
      ((literal cs).trace s shared).1.steps
        = (cs.length - 1) + min cs.length ((commonPrefix cs s).length + 1) ∧
      ((literal cs).trace s shared).1.maxDepth
        = (cs.length - 1) + min cs.length ((commonPrefix cs s).length + 1) ∧
      ((literal cs).trace s shared).1.furthestOffset
        = bytes (cs.take (min (commonPrefix cs s).length (cs.length - 1)))) := by
  refine ⟨?_, fun k => matchWith_literal cs s k, ?_, ?_⟩
  · intro ω k
    funext world
    have : Inhabited σ := ⟨world.shared⟩
    rw [eval_eq_run_wholeTree (customFree_literal cs).blind, wholeTree, searchTree_literal,
      SearchTree.run_nested]
    split <;> rfl
  · intro shared
    simp [isMatch_eof_iff (customFree_literal cs), yields_literal_iff]
  · intro hne shared
    have : Inhabited σ := ⟨shared⟩
    have hblind : (literal cs : Rule σ).Blind := (customFree_literal cs).blind
    refine ⟨?_, ?_, furthestOffset_trace_literal hne s shared⟩
    · rw [trace_steps hblind, visits_literal, length_descent, length_literalFrames hne]
    · rw [trace_maxDepth hblind, visits_literal, foldl_max_descent (.inr (Nat.le_refl 0)),
        Nat.zero_max, Nat.zero_add, length_literalFrames hne]

/-- The search fails at the third of three characters, behind one of two bytes. -/
theorem eval_literal_third_character :
    ['h', 'é', '!'] ≠ [] ∧
      (literal ['h', 'é', '!'] : Rule Unit).matchWith ['h', 'é', '?', 'x']
        (fun _ (calls, shared) => (true, calls + 1, shared)) (0, ()) = (false, 0, ()) ∧
      ((literal ['h', 'é', '!'] : Rule Unit).trace ['h', 'é', '?', 'x'] ()).1.steps = 5 ∧
      ((literal ['h', 'é', '!'] : Rule Unit).trace ['h', 'é', '?', 'x'] ()).1.maxDepth = 5 ∧
      ((literal ['h', 'é', '!'] : Rule Unit).trace ['h', 'é', '?', 'x'] ()).1.furthestOffset = 3 := by
  have hne : ['h', 'é', '!'] ≠ [] := List.cons_ne_nil _ _
  obtain ⟨-, hmatch, -, htrace⟩ := eval_literal (σ := Unit) ['h', 'é', '!'] ['h', 'é', '?', 'x']
  obtain ⟨hsteps, hdepth, hfurthest⟩ := htrace hne ()
  refine ⟨hne, ?_, hsteps, hdepth, hfurthest⟩
  rw [hmatch]
  rfl

end Rule

end Backtrack
