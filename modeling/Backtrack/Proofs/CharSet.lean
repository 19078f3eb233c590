import Backtrack.CharSet
import Mathlib.Data.List.Sort

/-!
# Membership in character sets

The binary search finds a character exactly where it is a member. What carries the proof is that the
search never leaves the character behind: all members before the part it looks at are smaller, all
after it are greater. Two sets with the same members are one, as both lists are in order.
-/

set_option autoImplicit false

namespace Backtrack.CharSet

variable {members : Array Char}

theorem getElem_lt_getElem (h : members.toList.Pairwise (· < ·)) {i j : Nat} (hij : i < j)
    (hj : j < members.size) : members[i] < members[j] := by
  have hlt := List.pairwise_iff_getElem.mp h i j (by simp; omega) (by simpa using hj) hij
  simpa using hlt

theorem search_iff (h : members.toList.Pairwise (· < ·)) (c : Char) (low high : Nat)
    (bound : high ≤ members.size) :
    search members c low high bound = true ↔
      ∃ i, ∃ hi : i < members.size, low ≤ i ∧ i < high ∧ members[i] = c := by
  fun_induction search members c low high bound with
  | case1 low high bound hlh middle d hdc ih =>
    rw [ih]
    refine exists_congr fun i => exists_congr fun hi => ?_
    constructor
    · rintro ⟨hlow, hhigh, hc⟩
      exact ⟨by omega, hhigh, hc⟩
    · rintro ⟨hlow, hhigh, rfl⟩
      refine ⟨Nat.lt_of_not_le fun hle => ?_, hhigh, rfl⟩
      rcases Nat.lt_or_eq_of_le hle with hlt | rfl
      · exact Char.lt_asymm hdc (getElem_lt_getElem h hlt (by omega))
      · exact Char.lt_irrefl _ hdc
  | case2 low high bound hlh middle d hdc hcd ih =>
    rw [ih]
    refine exists_congr fun i => exists_congr fun hi => ?_
    constructor
    · rintro ⟨hlow, hhigh, hc⟩
      exact ⟨hlow, by omega, hc⟩
    · rintro ⟨hlow, hhigh, rfl⟩
      refine ⟨hlow, Nat.lt_of_not_le fun hle => ?_, rfl⟩
      rcases Nat.lt_or_eq_of_le hle with hlt | rfl
      · exact Char.lt_asymm hcd (getElem_lt_getElem h hlt hi)
      · exact Char.lt_irrefl _ hcd
  | case3 low high bound hlh middle d hdc hcd =>
    have heq : d = c := Char.le_antisymm (Char.not_lt.mp hcd) (Char.not_lt.mp hdc)
    exact iff_of_true rfl ⟨middle, by omega, by omega, by omega, heq⟩
  | case4 low high bound hlh =>
    refine iff_of_false (by simp) ?_
    rintro ⟨i, hi, hlow, hhigh, _⟩
    omega

theorem contains_iff {set : CharSet} {c : Char} : set.contains c = true ↔ c ∈ set.toList := by
  rw [contains, search_iff set.ascending, toList, Array.mem_toList_iff, Array.mem_iff_getElem]
  constructor
  · rintro ⟨i, hi, _, _, hc⟩
    exact ⟨i, hi, hc⟩
  · rintro ⟨i, hi, hc⟩
    exact ⟨i, hi, Nat.zero_le i, hi, hc⟩

/-- Sets are equal as soon as they have the same members. -/
theorem ext_mem {set set' : CharSet} (h : ∀ c, c ∈ set.toList ↔ c ∈ set'.toList) : set = set' := by
  have hlists : set.toList = set'.toList :=
    List.Pairwise.eq_of_mem_iff set.ascending set'.ascending (fun {c} => h c)
  rw [CharSet.mk.injEq]
  exact Array.toList_inj.mp hlists

theorem ofList_toList (set : CharSet) : ofList set.toList = set := by
  apply ext_mem
  intro c
  exact mem_toList_ofList

end Backtrack.CharSet
