import Backtrack.Rule.Build
import Backtrack.Rule.Outcome

/-!
# Laws of outcomes

Taking outcomes further is associative, and handing each remainder on as it is changes nothing. So
what is appended from the left offers what its parts offer when they are read one after another,
and a literal is taken at once or not at all.
-/

set_option autoImplicit false

namespace Backtrack

namespace Outcome

theorem flatMap_followedBy_assoc (f g : Input → List Outcome) (os : List Outcome) :
    (os.flatMap (followedBy f)).flatMap (followedBy g)
      = os.flatMap (followedBy fun t => (f t).flatMap (followedBy g)) := by
  rw [List.flatMap_assoc]
  congr 1
  funext o
  cases o <;> rfl

theorem flatMap_followedBy_rest (os : List Outcome) :
    os.flatMap (followedBy fun t => [rest t]) = os := by
  have hsame : (followedBy fun t => [rest t]) = fun o => [o] := by
    funext o
    cases o <;> rfl
  rw [hsame, List.flatMap_singleton']

end Outcome

namespace Rule

variable {σ : Type}

/-- The outcomes of rules read one after another. -/
def offersInTurn : List (Rule σ) → Input → List Outcome
  | [], s => [.rest s]
  | r :: rs, s => (r.offers s).flatMap (Outcome.followedBy (offersInTurn rs))

theorem offers_sequence (first : Rule σ) (rest : List (Rule σ)) (s : Input) :
    (sequence first rest).offers s = offersInTurn (first :: rest) s := by
  induction rest generalizing first with
  | nil => exact (Outcome.flatMap_followedBy_rest _).symm
  | cons r rest ih =>
    have hfold : (sequence first (r :: rest)).offers s = offersInTurn (first.append r :: rest) s :=
      ih (first.append r)
    rw [hfold]
    exact Outcome.flatMap_followedBy_assoc r.offers (offersInTurn rest) (first.offers s)

theorem offers_alternative (first : Rule σ) (rest : List (Rule σ)) (s : Input) :
    (alternative first rest).offers s = (first :: rest).flatMap (·.offers s) := by
  induction rest generalizing first with
  | nil => exact (List.append_nil _).symm
  | cons r rest ih =>
    have hfold : (alternative first (r :: rest)).offers s
        = (first.or r :: rest).flatMap (·.offers s) := ih (first.or r)
    rw [hfold]
    exact List.append_assoc (first.offers s) (r.offers s) (rest.flatMap (·.offers s))

theorem offersInTurn_map_val (cs : List Char) (s : Input) :
    offersInTurn (cs.map val : List (Rule σ)) s
      = if cs.isPrefixOf s then [.rest (s.drop cs.length)] else [] := by
  induction cs generalizing s with
  | nil => rfl
  | cons c cs ih =>
    cases s with
    | nil => rfl
    | cons d s =>
      by_cases h : d = c
      · subst h
        simpa [offersInTurn, offers, Outcome.ofChar, Outcome.followedBy] using ih s
      · have hcd : ¬ c = d := fun hcd => h hcd.symm
        simp [offersInTurn, offers, Outcome.ofChar, h, hcd]

theorem literal_eq_sequence (c : Char) (cs : List Char) :
    (literal (c :: cs) : Rule σ) = sequence (val c) (cs.map val) := by
  rw [sequence, List.foldl_map]
  rfl

/-- A literal leaves what stands behind it, or nothing is made of the input. -/
theorem offers_literal (cs : List Char) (s : Input) :
    (literal cs : Rule σ).offers s
      = if cs.isPrefixOf s then [.rest (s.drop cs.length)] else [] := by
  cases cs with
  | nil => rfl
  | cons c cs =>
    rw [literal_eq_sequence, offers_sequence]
    exact offersInTurn_map_val (c :: cs) s

theorem CustomFree.foldl {join : Rule σ → Rule σ → Rule σ} {first : Rule σ}
    {rest : List (Rule σ)} (hfirst : first.CustomFree) (hrest : ∀ r ∈ rest, r.CustomFree)
    (hjoin : ∀ a b : Rule σ, a.CustomFree → b.CustomFree → (join a b).CustomFree) :
    (rest.foldl join first).CustomFree := by
  induction rest generalizing first with
  | nil => exact hfirst
  | cons r rest ih =>
    have hboth : (join first r).CustomFree := hjoin first r hfirst (hrest r List.mem_cons_self)
    exact ih hboth fun r' hr' => hrest r' (List.mem_cons_of_mem r hr')

theorem CustomFree.sequence {first : Rule σ} {rest : List (Rule σ)} (hfirst : first.CustomFree)
    (hrest : ∀ r ∈ rest, r.CustomFree) : (sequence first rest).CustomFree :=
  hfirst.foldl hrest fun _ _ ha hb => ⟨ha, hb⟩

theorem CustomFree.alternative {first : Rule σ} {rest : List (Rule σ)} (hfirst : first.CustomFree)
    (hrest : ∀ r ∈ rest, r.CustomFree) : (alternative first rest).CustomFree :=
  hfirst.foldl hrest fun _ _ ha hb => ⟨ha, hb⟩

theorem customFree_literal (cs : List Char) : (literal cs : Rule σ).CustomFree := by
  cases cs with
  | nil => trivial
  | cons c cs =>
    rw [literal_eq_sequence]
    apply CustomFree.sequence
    · trivial
    · intro r hr
      obtain ⟨d, -, rfl⟩ := List.mem_map.mp hr
      trivial

end Rule

end Backtrack
