import Backtrack.Proofs.CharSet
import Backtrack.Proofs.JsonStack
import Backtrack.Proofs.SearchOrder
import Mathlib.Data.Finset.Card
import Mathlib.Data.List.Destutter

/-!
# Character sets are canonical

However a set is made, its members are the given characters, sorted, with repetitions dropped. So a
set depends on nothing but which characters were given, and its members written as a string, with or
without the quotes and escapes of JSON, are read back as the same set.
-/

set_option autoImplicit false

namespace Backtrack

theorem Json.Value.stringOfText?_print (s : String) : stringOfText? (string s).print = some s := by
  rw [stringOfText?, ofText?_print (.string s) (Nat.zero_le _)]

namespace CharSet

theorem mem_destutter' {c d : Char} {cs : List Char} :
    d ∈ cs.destutter' (· ≠ ·) c ↔ d ∈ c :: cs := by
  induction cs generalizing c with
  | nil => rfl
  | cons e cs ih =>
    by_cases h : c = e
    · subst h
      rw [List.destutter'_cons_neg _ (not_not.mpr rfl), ih]
      simp
    · rw [List.destutter'_cons_pos _ h, List.mem_cons, ih, ← List.mem_cons]

/-- Dropping repetitions loses no character. -/
theorem mem_destutter {d : Char} {cs : List Char} : d ∈ cs.destutter (· ≠ ·) ↔ d ∈ cs := by
  cases cs with
  | nil => rfl
  | cons c cs =>
    rw [List.destutter_cons']
    exact mem_destutter'

theorem pairwise_destutter {cs : List Char} (h : cs.Pairwise (· ≤ ·)) :
    (cs.destutter (· ≠ ·)).Pairwise (· < ·) := by
  have hle : (cs.destutter (· ≠ ·)).IsChain (· ≤ ·) :=
    (h.sublist (cs.destutter_sublist (· ≠ ·))).isChain
  have hne : (cs.destutter (· ≠ ·)).IsChain (· ≠ ·) := cs.isChain_destutter (· ≠ ·)
  rw [List.isChain_iff_getElem] at hle hne
  rw [← List.isChain_iff_pairwise, List.isChain_iff_getElem]
  intro i hi
  exact Std.lt_of_le_of_ne (hle i hi) (hne i hi)

theorem toList_ofList (cs : List Char) :
    (ofList cs).toList = (cs.mergeSort (· ≤ ·)).destutter (· ≠ ·) := by
  have hsorted : (cs.mergeSort (· ≤ ·)).Pairwise (· ≤ ·) := cs.pairwise_mergeSort' (· ≤ ·)
  apply List.Pairwise.eq_of_mem_iff (ofList cs).ascending (pairwise_destutter hsorted)
  intro c
  rw [mem_destutter, List.mem_mergeSort]
  exact mem_toList_ofList

theorem size_ofList (cs : List Char) : (ofList cs).size = cs.toFinset.card := by
  have hnodup : (ofList cs).toList.Nodup := (ofList cs).ascending.imp Char.ne_of_lt
  have hsame : (ofList cs).toList.toFinset = cs.toFinset := by
    ext c
    rw [List.mem_toFinset, List.mem_toFinset, mem_toList_ofList]
  rw [← hsame, List.toFinset_card_of_nodup hnodup]
  rfl

theorem ofList_eq_iff (cs ds : List Char) : ofList cs = ofList ds ↔ ∀ c, c ∈ cs ↔ c ∈ ds := by
  constructor
  · intro h c
    rw [← mem_toList_ofList, h, mem_toList_ofList]
  · intro h
    apply ext_mem
    intro c
    rw [mem_toList_ofList, mem_toList_ofList]
    exact h c

theorem ofString_toString (set : CharSet) : ofString set.toString = set := by
  rw [ofString, toString, String.toList_ofList, ofList_toList]

theorem ofJson?_toJson {write : String → String} {read : String → Option String}
    (hread : ∀ s, read (write s) = some s) (set : CharSet) : ofJson? read (set.toJson write) = some set := by
  rw [ofJson?, toJson, hread, Option.map_some, ofString_toString]

end CharSet

section Members
variable {ω σ : Type} (cs : List Char) (k : Acceptor ω σ)

theorem Rule.matchWith_oneOf_nil (set : CharSet) :
    (oneOf set).matchWith [] k = fun state => (false, state) := by
  have hfree : (oneOf set : Rule σ).CustomFree := trivial
  exact matchWith_eq_settle hfree [] k

theorem Rule.matchWith_oneOf_cons (c : Char) (rest : Input) :
    (oneOf (.ofList cs)).matchWith (c :: rest) k
      = if c ∈ cs then k rest else fun state => (false, state) := by
  have hfree : (oneOf (.ofList cs) : Rule σ).CustomFree := trivial
  have hmem : (CharSet.ofList cs).contains c = true ↔ c ∈ cs :=
    CharSet.contains_iff.trans CharSet.mem_toList_ofList
  rw [matchWith_eq_settle hfree, offers, Outcome.ofChar]
  by_cases h : c ∈ cs
  · rw [if_pos h, if_pos (hmem.mpr h), Acceptor.settle_singleton]
  · rw [if_neg h, if_neg fun hc => h (hmem.mp hc)]
    rfl

end Members

/-- A set is a function of which characters were given: their order and number, and the container that
they came in, make no difference. So its string, plain or as JSON, gives it back, wherever JSON gives strings back. -/
theorem CharSet.ofList_canonical (cs : List Char) :
    (ofString (String.ofList cs) = ofList cs ∧ ofArray cs.toArray = ofList cs ∧
      ofVector cs.toArray.toVector = ofList cs) ∧
    (ofList cs).toList = (cs.mergeSort (· ≤ ·)).destutter (· ≠ ·) ∧
    ((ofList cs).toList.map Char.toNat).Pairwise (· < ·) ∧
    (∀ c, (ofList cs).contains c = true ↔ c ∈ cs) ∧
    (∀ {ω σ : Type} (k : Acceptor ω σ),
      ((Rule.oneOf (ofList cs)).matchWith [] k = fun state => (false, state)) ∧
      ∀ c rest, (Rule.oneOf (ofList cs)).matchWith (c :: rest) k
        = if c ∈ cs then k rest else fun state => (false, state)) ∧
    (ofList cs).size = cs.toFinset.card ∧
    (∀ ds, ofList cs = ofList ds ↔ ∀ c, c ∈ cs ↔ c ∈ ds) ∧
    (∀ set : CharSet, ofString set.toString = set) ∧
    ∀ (write : String → String) (read : String → Option String), (∀ s, read (write s) = some s) →
      ∀ set : CharSet, ofJson? read (set.toJson write) = some set := by
  refine ⟨⟨?_, rfl, rfl⟩, toList_ofList cs, ?_, ?_, ?_, size_ofList cs, ofList_eq_iff cs, ofString_toString, ?_⟩
  · rw [ofString, String.toList_ofList]
  · rw [List.pairwise_map]
    exact (ofList cs).ascending
  · intro c
    rw [contains_iff, mem_toList_ofList]
  · intro ω σ k
    exact ⟨Rule.matchWith_oneOf_nil k (ofList cs), Rule.matchWith_oneOf_cons cs k⟩
  · intro write read hread set
    exact ofJson?_toJson hread set

/-- Members given twice and out of order, one of them a quote that JSON has to escape. -/
theorem CharSet.ofList_canonical_escaped :
    let set := ofList ['z', '"', 'é', '"']
    let write := fun s => (Json.Value.string s).print
    set.toJson write = "\"\\\"zé\"" ∧ (∀ s, Json.Value.stringOfText? (write s) = some s) ∧
      ofJson? Json.Value.stringOfText? (set.toJson write) = some set := by
  intro set write
  have hread : ∀ s, Json.Value.stringOfText? (write s) = some s := Json.Value.stringOfText?_print
  have hback := (ofList_canonical ['z', '"', 'é', '"']).2.2.2.2.2.2.2.2 write Json.Value.stringOfText? hread set
  exact ⟨by decide +kernel, hread, hback⟩

end Backtrack
