import Backtrack.Proofs.Visits

/-!
# More visits lose no success

A search that is cut short goes on with a failure where the whole search would have gone on with a
success. It can succeed where the whole search fails only if some branch does better after a failure
than after a success. Trees without such branches are `SearchTree.Monotone`, and `Rule.Positive` is a
condition on custom rules under which all trees of a rule are.
-/

set_option autoImplicit false

namespace Backtrack

variable {σ : Type}

namespace SearchTree

/-- No branch does better after a failure than after a success: a success decides it, or a failure
does, or it goes on the same way after both. -/
def Monotone : SearchTree σ → Prop
  | leaf _ => True
  | ask _ => True
  | visit _ _ body => body.Monotone
  | branch first onSuccess onFailure =>
    (onSuccess = leaf true ∨ onFailure = leaf false ∨ onSuccess = onFailure) ∧
      first.Monotone ∧ onSuccess.Monotone ∧ onFailure.Monotone
  | change _ next => next.Monotone

theorem Monotone.succeedsWithin_mono {tree : SearchTree σ} (h : tree.Monotone) {m n : Nat}
    (hmn : m ≤ n) (hm : tree.succeedsWithin m = true) : tree.succeedsWithin n = true := by
  induction tree generalizing m n with
  | leaf => exact hm
  | ask => rfl
  | visit kind s body ih =>
    cases m with
    | zero => cases hm
    | succ m =>
      obtain ⟨n, rfl⟩ := Nat.exists_eq_succ_of_ne_zero (by omega : n ≠ 0)
      exact ih h (Nat.le_of_succ_le_succ hmn) hm
  | branch first onSuccess onFailure ihfirst ihsuccess ihfailure =>
    obtain ⟨hbranch, hfirst, hsuccess, hfailure⟩ := h
    have hleft : m - first.visitCount ≤ n - first.visitCount := Nat.sub_le_sub_right hmn _
    rw [succeedsWithin] at hm ⊢
    by_cases hmfirst : first.succeedsWithin m = true
    · rw [if_pos hmfirst] at hm
      rw [if_pos (ihfirst hfirst hmn hmfirst)]
      exact ihsuccess hsuccess hleft hm
    · rw [if_neg hmfirst] at hm
      -- the first part may succeed now, and then the other side has to
      rcases hbranch with rfl | rfl | rfl
      · split
        · rfl
        · exact ihfailure hfailure hleft hm
      · cases hm
      · split
        · exact ihsuccess hsuccess hleft hm
        · exact ihsuccess hsuccess hleft hm
  | change f next ih => exact ih h hmn hm

theorem Monotone.succeeds_of_succeedsWithin {tree : SearchTree σ} (h : tree.Monotone) {n : Nat}
    (hn : tree.succeedsWithin n = true) : tree.succeeds = true := by
  rw [← succeedsWithin_of_le (Nat.le_max_right n tree.visitCount)]
  exact h.succeedsWithin_mono (Nat.le_max_left n tree.visitCount) hn

theorem closed_monotone : Closed fun _ (tree : SearchTree σ) => tree.Monotone where
  leaf _ _ := trivial
  atom _ accepts s hκ := consume_of (Q := Monotone) trivial hκ accepts s
  visit _ hbody := hbody
  orElse _ hfirst hsecond := ⟨.inl rfl, hfirst, trivial, hsecond⟩
  change _ _ hnext := hnext

end SearchTree

/-- What follows a verdict does no worse after a success: a success settles the answer, or a failure
does, or the verdict makes no difference. -/
def Dialogue.Favours (next : Bool → Dialogue σ) : Prop :=
  next true = .answer true ∨ next false = .answer false ∨ next true = next false

mutual

/-- No custom rule in the tree holds a success against its own. -/
def Rule.Positive : Rule σ → Prop
  | .append a b => a.Positive ∧ b.Positive
  | .or a b => a.Positive ∧ b.Positive
  | .optional r => r.Positive
  | .many r => r.Positive
  | .custom _ act => ∀ s, (act s).Positive
  | _ => True

def Dialogue.Positive : Dialogue σ → Prop
  | .answer _ => True
  | .offer _ next => Dialogue.Favours next ∧ ∀ accepted, (next accepted).Positive
  | .run rule _ onRest next =>
    rule.Positive ∧ (∀ rest, (onRest rest).Positive) ∧ Dialogue.Favours next ∧
      ∀ matched, (next matched).Positive
  | .apart rule _ onRest next =>
    rule.Positive ∧ (∀ rest, (onRest rest).Positive) ∧ Dialogue.Favours next ∧
      ∀ matched, (next matched).Positive
  | .observe next => ∀ steps depth, (next steps depth).Positive
  | .update _ next => ∀ x, (next x).Positive
  | .remember _ next => ∀ memory, (next memory).Positive

end

section Layout
variable [Inhabited σ]

theorem Dialogue.Favours.searchTree {next : Bool → Dialogue σ} (h : Favours next)
    (κ : Input → SearchTree σ) :
    (next true).searchTree κ = .leaf true ∨ (next false).searchTree κ = .leaf false ∨
      (next true).searchTree κ = (next false).searchTree κ := by
  rcases h with h | h | h
  · exact .inl (by rw [h, Dialogue.searchTree])
  · exact .inr (.inl (by rw [h, Dialogue.searchTree]))
  · exact .inr (.inr (by rw [h]))

/-- The trees of a rule in which no success counts as a failure are monotone. -/
theorem Rule.Positive.monotone {r : Rule σ} (h : r.Positive) (s : Input)
    {κ : Input → SearchTree σ} (hκ : ∀ rest, (κ rest).Monotone) : (r.searchTree s κ).Monotone := by
  have hclosed := SearchTree.closed_monotone (σ := σ)
  induction r using Rule.rec
    (motive_2 := fun d => d.Positive → ∀ κ : Input → SearchTree σ,
      (∀ rest, (κ rest).Monotone) → (d.searchTree κ).Monotone) generalizing s κ with
  | any => exact hclosed.atom .any _ s hκ
  | oneOf set => exact hclosed.atom .oneOf _ s hκ
  | val c => exact hclosed.atom .val _ s hκ
  | empty => exact hκ s
  | «end» => trivial
  | append a b iha ihb =>
    obtain ⟨ha, hb⟩ := h
    apply iha ha s
    intro rest
    exact ihb hb rest hκ
  | or a b iha ihb =>
    obtain ⟨ha, hb⟩ := h
    exact hclosed.orElse s (iha ha s hκ) (ihb hb s hκ)
  | optional r ih => exact hclosed.orElse s (ih h s hκ) (hκ s)
  | many r ih =>
    apply hclosed.repeated ?_ hκ
    intro s κ hκ
    exact ih h s hκ
  | custom label act ih => exact ih s (h s) κ hκ
  | answer verdict => trivial
  | offer rest next ih h κ hκ =>
    obtain ⟨hfavours, hnext⟩ := h
    rw [Dialogue.searchTree]
    exact ⟨hfavours.searchTree κ, hκ rest, ih true (hnext true) κ hκ, ih false (hnext false) κ hκ⟩
  | run rule s onRest next ihrule ihrest ihnext h κ hκ =>
    obtain ⟨hrule, hrest, hfavours, hnext⟩ := h
    rw [Dialogue.searchTree]
    refine ⟨hfavours.searchTree κ, ihrule hrule s ?_, ihnext true (hnext true) κ hκ,
      ihnext false (hnext false) κ hκ⟩
    intro rest
    exact ihrest rest (hrest rest) κ hκ
  | apart => trivial
  | observe => trivial
  | update f next ih h κ hκ =>
    rw [Dialogue.searchTree]
    exact ih default (h default) κ hκ
  | remember => trivial

end Layout

end Backtrack
