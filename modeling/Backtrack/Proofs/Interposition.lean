import Backtrack.Proofs.CallTree

/-!
# Observers in a record

An observer notes a visit of its own and runs the rule inside one level deeper, at the same place.
So the record of a rule under observers is the plain one with visits put in, each right before the
visit of what the observer is around.
-/

set_option autoImplicit false

namespace Backtrack

variable {σ : Type}

namespace Step

/-- The second row is the first with visits of observers put in, each right before a visit at the
same place and one level deeper. How deep the others are does not matter. -/
inductive Interposed : List Step → List Step → Prop where
  | nil : Interposed [] []
  | kept {plain step : Step} {plains steps : List Step} : step.rule = plain.rule →
    step.offset = plain.offset → plain.rule ≠ Kind.custom.name → Interposed plains steps →
    Interposed (plain :: plains) (step :: steps)
  | observer {observer inner : Step} {plains steps : List Step} :
    observer.rule = Kind.custom.name → inner.offset = observer.offset →
    inner.depth = observer.depth + 1 → Interposed plains (inner :: steps) →
    Interposed plains (observer :: inner :: steps)

namespace Interposed

variable {plains steps : List Step}

theorem append {plains' steps' : List Step} (h : Interposed plains steps)
    (h' : Interposed plains' steps') : Interposed (plains ++ plains') (steps ++ steps') := by
  induction h with
  | nil => exact h'
  | kept hrule hoffset hplain _ ih => exact .kept hrule hoffset hplain ih
  | observer hrule hoffset hdepth _ ih => exact .observer hrule hoffset hdepth ih

/-- Without the observers the two rows go through the same rules at the same places. -/
theorem without_observers (h : Interposed plains steps) :
    (steps.filter (·.rule ≠ Kind.custom.name)).map (fun step => (step.rule, step.offset))
      = plains.map fun step => (step.rule, step.offset) := by
  induction h with
  | nil => rfl
  | kept hrule hoffset hplain _ ih =>
    rw [← hrule] at hplain
    rw [List.filter_cons_of_pos (by simpa using hplain), List.map_cons, List.map_cons, ih, hrule,
      hoffset]
  | observer hrule _ _ _ ih =>
    rw [List.filter_cons_of_neg (by simpa using hrule)]
    exact ih

theorem after_observer (h : Interposed plains steps) {earlier later : List Step} {observer : Step}
    (hsplit : steps = earlier ++ observer :: later) (hrule : observer.rule = Kind.custom.name) :
    ∃ inner rest, later = inner :: rest ∧ inner.offset = observer.offset ∧
      inner.depth = observer.depth + 1 := by
  induction h generalizing earlier with
  | nil => simp at hsplit
  | kept hsame _ hplain _ ih =>
    cases earlier with
    | nil =>
      injection hsplit with hstep
      subst hstep
      exact absurd (hsame.symm.trans hrule) hplain
    | cons first earlier =>
      injection hsplit with _ hrest
      exact ih hrest
  | @observer first inner _ rest _ hoffset hdepth _ ih =>
    cases earlier with
    | nil =>
      injection hsplit with hstep hrest
      subst hstep
      exact ⟨inner, rest, hrest.symm, hoffset, hdepth⟩
    | cons first earlier =>
      injection hsplit with _ hrest
      exact ih hrest

end Interposed

end Step

namespace SearchTree

/-- The second tree is the first with observers in it. -/
structure Observes (plain tree : SearchTree σ) : Prop where
  succeeds_eq : tree.succeeds = plain.succeeds
  visits : ∀ size depth depth',
    Step.Interposed (plain.visits size depth) (tree.visits size depth')

theorem observes_leaf (verdict : Bool) : Observes (leaf verdict : SearchTree σ) (leaf verdict) :=
  ⟨rfl, fun _ _ _ => .nil⟩

theorem observes_ask (rest : Input) : Observes (ask rest : SearchTree σ) (ask rest) :=
  ⟨rfl, fun _ _ _ => .nil⟩

theorem visits_pass (tree : SearchTree σ) (size depth : Nat) :
    (orElse tree (leaf false)).visits size depth = tree.visits size depth := by
  rw [visits_orElse, visits, ite_self, List.append_nil]

theorem succeeds_pass (tree : SearchTree σ) :
    (orElse tree (leaf false)).succeeds = tree.succeeds := by
  rw [succeeds_orElse, succeeds]
  cases tree.succeeds <;> rfl

namespace Observes

variable {plain tree : SearchTree σ}

theorem visit (h : Observes plain tree) {kind : Kind} (hkind : kind ≠ .custom) (s : Input) :
    Observes (visit kind s plain) (visit kind s tree) where
  succeeds_eq := h.succeeds_eq
  visits size depth depth' := by
    refine .kept rfl rfl ?_ (h.visits size (depth + 1) (depth' + 1))
    intro hname
    exact hkind (Kind.name_injective hname)

theorem orElse {plain' tree' : SearchTree σ} (h : Observes plain tree)
    (h' : Observes plain' tree') : Observes (orElse plain plain') (orElse tree tree') where
  succeeds_eq := by rw [succeeds_orElse, succeeds_orElse, h.succeeds_eq, h'.succeeds_eq]
  visits size depth depth' := by
    rw [visits_orElse, visits_orElse, h.succeeds_eq]
    apply (h.visits size depth depth').append
    split
    · exact .nil
    · exact h'.visits size depth depth'

theorem pass (h : Observes plain tree) : Observes plain (SearchTree.orElse tree (leaf false)) where
  succeeds_eq := by rw [succeeds_pass, h.succeeds_eq]
  visits size depth depth' := by
    rw [visits_pass]
    exact h.visits size depth depth'

theorem change (h : Observes plain tree) (f : σ → σ) : Observes plain (change f tree) :=
  ⟨h.succeeds_eq, h.visits⟩

/-- A visit is observed from one level above. -/
theorem observer {kind : Kind} {s : Input} {body : SearchTree σ}
    (h : Observes plain (SearchTree.visit kind s body)) (hsucceeds : tree.succeeds = body.succeeds)
    (hvisits : ∀ size depth, tree.visits size depth
      = (SearchTree.visit kind s body).visits size depth) :
    Observes plain (SearchTree.visit .custom s tree) where
  succeeds_eq := hsucceeds.trans h.succeeds_eq
  visits size depth depth' := by
    rw [SearchTree.visits, hvisits]
    exact .observer rfl rfl rfl (h.visits size depth (depth' + 1))

variable {κ κ' : Input → SearchTree σ} (hκ : ∀ rest, Observes (κ rest) (κ' rest)) (s : Input)
include hκ

theorem consume (accepts : Char → Bool) :
    Observes (consume accepts κ s) (consume accepts κ' s) := by
  cases s with
  | nil => exact observes_leaf false
  | cons c rest =>
    simp only [SearchTree.consume]
    split
    · exact hκ rest
    · exact observes_leaf false

theorem repeated {layout layout' : Input → (Input → SearchTree σ) → SearchTree σ}
    (hlayout : ∀ s κ κ', (∀ rest, Observes (κ rest) (κ' rest)) →
      Observes (layout s κ) (layout' s κ')) :
    Observes (repeated layout κ s) (repeated layout' κ' s) := by
  fun_induction SearchTree.repeated layout κ s with
  | case1 s ih =>
    rw [SearchTree.repeated]
    refine .visit (.orElse ?_ (hκ s)) (by decide) s
    apply hlayout
    intro rest
    split
    · rename_i hlt
      exact ih rest hlt
    · exact observes_leaf false

end Observes

end SearchTree

theorem Rule.searchTree_counted (handle : Handle) (inner : Rule Gauges) (s : Input)
    (κ : Input → SearchTree Gauges) :
    (counted handle inner).searchTree s κ
      = .visit .custom s (.change (·.bump handle) (.orElse
          (inner.searchTree s fun rest => .orElse (κ rest) (.leaf false))
          (.leaf false))) := rfl

theorem Rule.searchTree_recorded (handle : Handle) (inner : Rule Gauges) (s : Input)
    (κ : Input → SearchTree Gauges) :
    (recorded handle inner).searchTree s κ
      = .visit .custom s (.orElse
          (inner.searchTree s fun rest =>
            .change (·.record handle rest) (.orElse (κ rest) (.leaf false)))
          (.leaf false)) := rfl

/-- The tree of a rule under observers is the plain one with observers in it. -/
theorem Rule.Observed.observes {plain r : Rule Gauges} (h : Observed plain r) (s : Input)
    {κ κ' : Input → SearchTree Gauges} (hκ : ∀ rest, (κ rest).Observes (κ' rest)) :
    (plain.searchTree s κ).Observes (r.searchTree s κ') := by
  induction h generalizing s κ κ' with
  | any => exact .visit (.consume hκ s _) (by decide) s
  | oneOf set => exact .visit (.consume hκ s _) (by decide) s
  | val c => exact .visit (.consume hκ s _) (by decide) s
  | empty => exact .visit (hκ s) (by decide) s
  | «end» => exact .visit (SearchTree.observes_leaf _) (by decide) s
  | append _ _ iha ihb =>
    refine .visit (iha s ?_) (by decide) s
    intro rest
    exact ihb rest hκ
  | or _ _ iha ihb => exact .visit (.orElse (iha s hκ) (ihb s hκ)) (by decide) s
  | optional _ ih => exact .visit (.orElse (ih s hκ) (hκ s)) (by decide) s
  | many _ ih =>
    rw [searchTree, searchTree]
    apply SearchTree.Observes.repeated hκ
    intro s κ κ' hκ
    exact ih s hκ
  | @counted _ inner handle _ ih =>
    have hinner := ih s fun rest => (hκ rest).pass
    obtain ⟨body, hbody⟩ := inner.searchTree_eq_visit s fun rest => (κ' rest).orElse (.leaf false)
    rw [hbody] at hinner
    rw [searchTree_counted, hbody]
    exact hinner.observer (SearchTree.succeeds_pass _) (SearchTree.visits_pass _)
  | @recorded _ inner handle _ ih =>
    have hinner := ih s fun rest => (hκ rest).pass.change (·.record handle rest)
    obtain ⟨body, hbody⟩ := inner.searchTree_eq_visit s
      fun rest => .change (·.record handle rest) ((κ' rest).orElse (.leaf false))
    rw [hbody] at hinner
    rw [searchTree_recorded, hbody]
    exact hinner.observer (SearchTree.succeeds_pass _) (SearchTree.visits_pass _)

end Backtrack
