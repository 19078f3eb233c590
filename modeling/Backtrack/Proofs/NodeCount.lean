import Backtrack.Proofs.Budget
import Backtrack.Proofs.Compilation
import Backtrack.Proofs.Nesting
import Mathlib.Algebra.GroupWithZero.Nat

/-!
# Counting nodes ahead of compiling

The nodes of a rule are counted on its config, in words that stay at their largest value. The rule is
built by folds that know nothing of this count, and yet has as many nodes, as long as the count fits a
word. Without repetition a search nests no deeper than that, so what compiles without repetition never
meets the nesting limit of bounded matches.
-/

set_option autoImplicit false

namespace Backtrack

variable {σ : Type}

namespace Rule

theorem nodeCount_foldl {join : Rule σ → Rule σ → Rule σ}
    (hjoin : ∀ a b, (join a b).nodeCount = a.nodeCount + b.nodeCount + 1) (first : Rule σ)
    (rest : List (Rule σ)) :
    (rest.foldl join first).nodeCount
      = rest.length + (first.nodeCount + (rest.map nodeCount).sum) := by
  induction rest generalizing first with
  | nil => simp
  | cons r rest ih =>
    rw [List.foldl_cons, ih, hjoin, List.map_cons, List.sum_cons, List.length_cons]
    omega

theorem nodeCount_sequence (first : Rule σ) (rest : List (Rule σ)) :
    (sequence first rest).nodeCount
      = rest.length + (first.nodeCount + (rest.map nodeCount).sum) :=
  nodeCount_foldl (fun _ _ => rfl) first rest

theorem nodeCount_alternative (first : Rule σ) (rest : List (Rule σ)) :
    (alternative first rest).nodeCount
      = rest.length + (first.nodeCount + (rest.map nodeCount).sum) :=
  nodeCount_foldl (fun _ _ => rfl) first rest

theorem sum_nodeCount_map_val (cs : List Char) :
    ((cs.map (val : Char → Rule σ)).map nodeCount).sum = cs.length := by
  induction cs with
  | nil => rfl
  | cons c cs ih =>
    have hone : (val c : Rule σ).nodeCount = 1 := rfl
    rw [List.map_cons, List.map_cons, List.sum_cons, ih, hone, List.length_cons, Nat.add_comm]

theorem nodeCount_literal_cons (c : Char) (cs : List Char) :
    (literal (c :: cs) : Rule σ).nodeCount = 2 * cs.length + 1 := by
  have hone : (val c : Rule σ).nodeCount = 1 := rfl
  rw [literal_eq_sequence, nodeCount_sequence, sum_nodeCount_map_val, List.length_map, hone]
  omega

theorem manyFree_literal (cs : List Char) : (literal cs : Rule σ).ManyFree := by
  cases cs with
  | nil => trivial
  | cons c cs => exact List.foldlRecOn cs _ trivial fun _ hr _ _ => ⟨hr, trivial⟩

theorem ManyFree.sequence {first : Rule σ} {rest : List (Rule σ)} (hfirst : first.ManyFree)
    (hrest : ∀ r ∈ rest, r.ManyFree) : (sequence first rest).ManyFree :=
  List.foldlRecOn rest _ hfirst fun _ ha r hr => ⟨ha, hrest r hr⟩

theorem ManyFree.alternative {first : Rule σ} {rest : List (Rule σ)} (hfirst : first.ManyFree)
    (hrest : ∀ r ∈ rest, r.ManyFree) : (alternative first rest).ManyFree :=
  List.foldlRecOn rest _ hfirst fun _ ha r hr => ⟨ha, hrest r hr⟩

end Rule

namespace Config

/-- A composite has children. -/
def Filled : Config → Prop
  | sequence cs => cs ≠ []
  | alternative cs => cs ≠ []
  | _ => True

/-- The largest size of a text in bytes. -/
def maxTextSize : Nat := 0x7FFFFFFFFFFFFFFF

/-- The text of the node, if it has one, can stand in memory. -/
def Addressable : Config → Prop
  | oneOf set => bytes set.toList ≤ maxTextSize
  | val value => bytes value.toList ≤ maxTextSize
  | _ => True

/-- The node stands for a rule that is entered any number of times. -/
def Repeats : Config → Prop
  | many _ => True
  | oneOrMore _ => True
  | _ => False

section Words

/-- The number before, unless there is none. -/
def pred? : Nat → Option Nat
  | 0 => none
  | n + 1 => some n

/-- A number that is kept as a word, unless it is none. -/
def word? (n : Nat) : Option Nat := if n ≤ Limits.maxWord then some n else none

/-- Nodes of the literal of `n` characters, unless a step of the count leaves the range of words. -/
def literalNodes? (n : Nat) : Option Nat := do
  match ← word? n with
  | 0 => return 1
  | n => pred? (mulCapped n 2)

mutual

/-- The count of nodes step by step, as far as every step stays in the range of words. -/
def nodeCount? : Config → Option Nat
  | val value => literalNodes? value.length
  | optional c => return addCapped (← c.nodeCount?) 1
  | many c => return addCapped (← c.nodeCount?) 1
  | oneOrMore c => return addCapped (mulCapped (← c.nodeCount?) 2) 2
  | eof c => return addCapped (← c.nodeCount?) 2
  | sequence cs => nodeCountAll? (cs.length - 1) cs
  | alternative cs => nodeCountAll? (cs.length - 1) cs
  | _ => some 1

def nodeCountAll? (counted : Nat) : List Config → Option Nat
  | [] => some counted
  | c :: cs => do nodeCountAll? (addCapped counted (← c.nodeCount?)) cs

end

theorem addCapped_min (a b : Nat) :
    addCapped (min a Limits.maxWord) b = min (a + b) Limits.maxWord := by
  unfold addCapped
  omega

theorem addCapped_min_right (a b : Nat) :
    addCapped a (min b Limits.maxWord) = min (a + b) Limits.maxWord := by
  unfold addCapped
  omega

theorem mulCapped_two_min (a : Nat) :
    mulCapped (min a Limits.maxWord) 2 = min (a * 2) Limits.maxWord := by
  unfold mulCapped
  omega

theorem mulCapped_two {n : Nat} (h : n ≤ maxTextSize) : mulCapped n 2 = n * 2 := by
  unfold mulCapped
  unfold maxTextSize at h
  exact Nat.min_eq_left (by unfold Limits.maxWord; omega)

theorem literalNodes?_eq {n : Nat} (h : n ≤ maxTextSize) :
    literalNodes? n = some (literalNodes n) := by
  have hword : word? n = some n := by
    unfold maxTextSize at h
    exact if_pos (by unfold Limits.maxWord; omega)
  unfold literalNodes?
  rw [hword]
  cases n with
  | zero => rfl
  | succ n =>
    show pred? (mulCapped (n + 1) 2) = some (mulCapped (n + 1) 2 - 1)
    rw [mulCapped_two h]
    rfl

end Words

theorem length_toRules (cs : List Config) : (toRules cs : List (Rule σ)).length = cs.length := by
  rw [toRules_eq_map, List.length_map]

theorem Addressable.length_le {value : String} (h : Addressable (val value)) :
    value.length ≤ maxTextSize := by
  rw [← String.length_toList]
  exact Nat.le_trans (length_le_bytes value.toList) h

theorem literalNodes_eq_min {value : String} (h : Addressable (val value)) :
    literalNodes value.length
      = min (Rule.literal value.toList : Rule σ).nodeCount Limits.maxWord := by
  have hlength := h.length_le
  rw [← String.length_toList] at hlength ⊢
  cases hvalue : value.toList with
  | nil => rfl
  | cons c cs =>
    rw [hvalue, List.length_cons] at hlength
    show mulCapped (cs.length + 1) 2 - 1 = min _ _
    rw [Rule.nodeCount_literal_cons, mulCapped_two hlength]
    unfold maxTextSize at hlength
    unfold Limits.maxWord
    omega

mutual

theorem nodeCount_eq_min (c : Config) (h : ∀ d ∈ c.nodes, d.Filled ∧ d.Addressable) :
    c.nodeCount = min (c.toRule : Rule σ).nodeCount Limits.maxWord := by
  cases c with
  | any | oneOf set | empty | «end» => rfl
  | val value => exact literalNodes_eq_min (h _ (self_mem_nodes _)).2
  | optional c | many c | eof c =>
    have hc := nodeCount_eq_min c (List.forall_mem_cons.mp h).2
    rw [nodeCount, hc, addCapped_min]
    rfl
  | oneOrMore c =>
    have hc := nodeCount_eq_min c (List.forall_mem_cons.mp h).2
    rw [nodeCount, hc, mulCapped_two_min, addCapped_min, toRule, Rule.oneOrMore, Rule.nodeCount,
      Rule.nodeCount]
    congr 1
    omega
  | sequence cs =>
    obtain ⟨⟨hne, -⟩, hcs⟩ := List.forall_mem_cons.mp h
    rw [nodeCount, nodeCountAll_eq_min cs hne hcs]
    cases cs with
    | nil => exact absurd rfl hne
    | cons c cs => rw [toRule, Rule.nodeCount_sequence, length_toRules]; rfl
  | alternative cs =>
    obtain ⟨⟨hne, -⟩, hcs⟩ := List.forall_mem_cons.mp h
    rw [nodeCount, nodeCountAll_eq_min cs hne hcs]
    cases cs with
    | nil => exact absurd rfl hne
    | cons c cs => rw [toRule, Rule.nodeCount_alternative, length_toRules]; rfl

theorem nodeCountAll_eq_min (cs : List Config) (hne : cs ≠ [])
    (h : ∀ d ∈ nodesOf cs, d.Filled ∧ d.Addressable) (counted : Nat) :
    nodeCountAll counted cs
      = min (counted + ((toRules cs : List (Rule σ)).map Rule.nodeCount).sum) Limits.maxWord := by
  cases cs with
  | nil => exact absurd rfl hne
  | cons c cs =>
    obtain ⟨hc, hcs⟩ := List.forall_mem_append.mp h
    have hsize := nodeCount_eq_min c hc
    rw [nodeCountAll, hsize, addCapped_min_right, toRules, List.map_cons, List.sum_cons,
      ← Nat.add_assoc]
    by_cases hlast : cs = []
    · subst hlast
      rfl
    · rw [nodeCountAll_eq_min cs hlast hcs]
      exact addCapped_min _ _

end

mutual

theorem nodeCount?_eq (c : Config) (h : ∀ d ∈ c.nodes, d.Addressable) :
    c.nodeCount? = some c.nodeCount := by
  cases c with
  | any | oneOf set | empty | «end» => rfl
  | val value => exact literalNodes?_eq (h _ (self_mem_nodes _)).length_le
  | optional c | many c | oneOrMore c | eof c =>
    have hc := nodeCount?_eq c (List.forall_mem_cons.mp h).2
    rw [nodeCount?, hc]
    rfl
  | sequence cs | alternative cs => exact nodeCountAll?_eq cs (List.forall_mem_cons.mp h).2 _

theorem nodeCountAll?_eq (cs : List Config) (h : ∀ d ∈ nodesOf cs, d.Addressable) (counted : Nat) :
    nodeCountAll? counted cs = some (nodeCountAll counted cs) := by
  cases cs with
  | nil => rfl
  | cons c cs =>
    obtain ⟨hc, hcs⟩ := List.forall_mem_append.mp h
    have hcount := nodeCount?_eq c hc
    rw [nodeCountAll?, hcount]
    exact nodeCountAll?_eq cs hcs _

end

mutual

theorem manyFree_toRule (c : Config) (h : ∀ d ∈ c.nodes, ¬ d.Repeats) :
    (c.toRule : Rule σ).ManyFree := by
  cases c with
  | any | oneOf set | empty | «end» => trivial
  | val value => exact Rule.manyFree_literal value.toList
  | optional c => exact manyFree_toRule c (List.forall_mem_cons.mp h).2
  | many c => exact absurd trivial (h _ (self_mem_nodes _))
  | oneOrMore c => exact absurd trivial (h _ (self_mem_nodes _))
  | eof c => exact ⟨manyFree_toRule c (List.forall_mem_cons.mp h).2, trivial⟩
  | sequence cs =>
    have hcs := manyFree_toRules cs (List.forall_mem_cons.mp h).2
    cases cs with
    | nil => trivial
    | cons c cs =>
      obtain ⟨hc, hcs⟩ := List.forall_mem_cons.mp hcs
      exact hc.sequence hcs
  | alternative cs =>
    have hcs := manyFree_toRules cs (List.forall_mem_cons.mp h).2
    cases cs with
    | nil => trivial
    | cons c cs =>
      obtain ⟨hc, hcs⟩ := List.forall_mem_cons.mp hcs
      exact hc.alternative hcs

theorem manyFree_toRules (cs : List Config) (h : ∀ d ∈ nodesOf cs, ¬ d.Repeats) :
    ∀ r ∈ (toRules cs : List (Rule σ)), r.ManyFree := by
  cases cs with
  | nil => exact List.forall_mem_nil _
  | cons c cs =>
    obtain ⟨hc, hcs⟩ := List.forall_mem_append.mp h
    exact List.forall_mem_cons.mpr ⟨manyFree_toRule c hc, manyFree_toRules cs hcs⟩

end

theorem bytes_le_maxTextSize {s : String} (h : s.length ≤ Limits.maxLiteralLength) :
    bytes s.toList ≤ maxTextSize := by
  have hbytes := bytes_le_four_mul_length s.toList
  have hmax : 4 * Limits.maxLiteralLength ≤ maxTextSize := by decide
  rw [String.length_toList] at hbytes
  omega

theorem InLimits.filled_addressable {d : Config} (h : d.InLimits) : d.Filled ∧ d.Addressable := by
  cases d with
  | oneOf set => exact ⟨trivial, bytes_le_maxTextSize h⟩
  | val value => exact ⟨trivial, bytes_le_maxTextSize h⟩
  | sequence cs => exact ⟨List.ne_nil_of_length_pos h.1, trivial⟩
  | alternative cs => exact ⟨List.ne_nil_of_length_pos h.1, trivial⟩
  | _ => exact ⟨trivial, trivial⟩

theorem nodeCount_of_compile {c : Config} {r : Rule σ} (h : c.compile = .ok r) :
    r.nodeCount = c.nodeCount := by
  obtain ⟨-, hlimits, hnodes, rfl⟩ := of_compile_eq_ok h
  have hcount := nodeCount_eq_min (σ := σ) c fun d hd => (hlimits d hd).filled_addressable
  have hmax : Limits.maxRuleNodes < Limits.maxWord := by decide
  omega

/-- The count of nodes is the size of the rule, capped, and no step of it leaves the range of words.
So what compiles is as large as was counted, and without repetition its searches nest no deeper than
that, and never too deep for a bounded match. -/
theorem nodeCount_bounds_search :
    (∀ c : Config, (∀ d ∈ c.nodes, d.Filled ∧ d.Addressable) →
      c.nodeCount = min (c.toRule : Rule σ).nodeCount Limits.maxWord ∧
        c.nodeCount? = some c.nodeCount) ∧
    ∀ (c : Config) (r : Rule σ), c.compile = .ok r →
      r.nodeCount = c.nodeCount ∧ c.nodeCount ≤ Limits.maxRuleNodes ∧
        ((∀ d ∈ c.nodes, ¬ d.Repeats) → ∀ s shared,
          (r.trace s shared).1.maxDepth ≤ c.nodeCount ∧
            ∀ limit deepest,
              (r.matchBounded s limit shared).1 ≠ .error (.recursionLimitExceeded deepest)) := by
  constructor
  · intro c h
    exact ⟨nodeCount_eq_min c h, nodeCount?_eq c fun d hd => (h d hd).2⟩
  intro c r hr
  have hcount := nodeCount_of_compile hr
  obtain ⟨-, -, hnodes, rfl⟩ := of_compile_eq_ok hr
  refine ⟨hcount, hnodes, ?_⟩
  intro hrepeats s shared
  have : Inhabited σ := ⟨shared⟩
  have hfree : (c.toRule : Rule σ).CustomFree := customFree_toRule c
  have hheight : ((c.toRule : Rule σ).wholeTree s).height ≤ c.nodeCount := by
    rw [← hcount]
    exact Rule.height_wholeTree_le_nodeCount hfree s (manyFree_toRule c hrepeats)
  refine ⟨Nat.le_trans (Rule.trace_maxDepth_le_height hfree s shared) hheight, ?_⟩
  intro limit deepest
  apply Rule.matchBounded_ne_tooDeep hfree.blind
  intro step hstep
  have hdepth := SearchTree.depth_le_of_mem_visits hstep
  have hmax : Limits.maxRuleNodes ≤ Limits.maxNesting := by decide
  omega

/-- The count comes to the nesting of a search that gets through, and the literal of no characters
counts as one node. -/
theorem nodeCount_bounds_search_attained :
    ∃ r : Rule Unit, (sequence [val "ab", optional (val ""), .end]).compile = .ok r ∧
      r.nodeCount = 8 ∧ (r.trace ['a', 'b'] ()).1.maxDepth = 8 ∧
      (r.trace ['a', 'b'] ()).1.maxDepth
        ≤ (sequence [val "ab", optional (val ""), .end]).nodeCount ∧
      (sequence [val "ab", optional (val ""), .end]).nodeCount? = some 8 := by
  have hcompile : (sequence [val "ab", optional (val ""), .end]).compile
      = .ok ((sequence [val "ab", optional (val ""), .end]).toRule : Rule Unit) := rfl
  obtain ⟨hsize, hbounds⟩ := nodeCount_bounds_search (σ := Unit)
  obtain ⟨hnodes, -, hdepth⟩ := hbounds _ _ hcompile
  have hwell : ∀ d ∈ (sequence [val "ab", optional (val ""), .end]).nodes,
      d.Filled ∧ d.Addressable := by
    intro d hd
    exact ((of_compile_eq_ok hcompile).2.1 d hd).filled_addressable
  have hplain : ∀ d ∈ (sequence [val "ab", optional (val ""), .end]).nodes, ¬ d.Repeats := by
    simp [nodes, nodesOf, Repeats]
  refine ⟨_, hcompile, by decide +kernel, by decide +kernel, (hdepth hplain ['a', 'b'] ()).1, ?_⟩
  exact (hsize _ hwell).2

end Config

end Backtrack
