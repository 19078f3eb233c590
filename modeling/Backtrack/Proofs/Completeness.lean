import Backtrack.Proofs.CharSet
import Backtrack.Proofs.SearchOrder

/-!
# Completeness of the search

Whatever a rule can make of an input by `Rule.Yields`, the search finds. Only repetition needs an
argument: the rule may repeat a round that consumed nothing, the search may not. What is left over
is always an end of the input, so such a round leaves the input itself, and repeating it can add no
outcome.
-/

set_option autoImplicit false

namespace Backtrack

variable {ω σ : Type}

namespace Rule

/-- What is left over is an end of the input. -/
theorem Yields.suffix {r : Rule σ} {s t : Input} (h : r.Yields s (.rest t)) : t <:+ s := by
  generalize ho : Outcome.rest t = o at h
  induction h generalizing t with
  | any c s => cases ho; exact List.suffix_cons c _
  | oneOf s _ => cases ho; exact List.suffix_cons _ _
  | val c s => cases ho; exact List.suffix_cons c _
  | append _ _ iha ihb => exact (ihb ho).trans (iha rfl)
  | orFirst _ ih => exact ih ho
  | orSecond _ ih => exact ih ho
  | optional _ ih => exact ih ho
  | again _ _ ih ihmany => exact (ihmany ho).trans (ih rfl)
  | empty s => cases ho; exact List.suffix_rfl
  | skip s => cases ho; exact List.suffix_rfl
  | stop s => cases ho; exact List.suffix_rfl
  | «end» => cases ho
  | appendDone _ _ => cases ho
  | manyDone _ _ => cases ho

theorem mem_offers_many {r : Rule σ} {s : Input} {o : Outcome} :
    o ∈ (many r).offers s ↔
      (.done ∈ r.offers s ∧ o = .done) ∨
      (∃ t, .rest t ∈ r.offers s ∧ bytes t < bytes s ∧ o ∈ (many r).offers t) ∨ o = .rest s := by
  rw [offers, Outcome.ofRepetition, List.mem_append, Outcome.mem_flatMap_followedBy,
    List.mem_singleton, or_assoc]
  apply or_congr_right
  apply or_congr_left
  apply exists_congr
  intro t
  apply and_congr_right
  intro _
  by_cases hlt : bytes t < bytes s
  · simp [hlt, offers]
  · simp [hlt]

theorem yields_ofChar {accepts : Char → Bool} {s : Input} {o : Outcome} {r : Rule σ}
    (hr : ∀ c t, accepts c = true → r.Yields (c :: t) (.rest t))
    (h : o ∈ Outcome.ofChar accepts s) : r.Yields s o := by
  obtain ⟨c, t, rfl, hc, rfl⟩ := Outcome.mem_ofChar.mp h
  exact hr c t hc

theorem yields_of_mem_offers {r : Rule σ} (h : r.CustomFree) {s : Input} {o : Outcome}
    (ho : o ∈ r.offers s) : r.Yields s o := by
  induction r using Rule.rec (motive_2 := fun _ => True) generalizing s o with
  | any => exact yields_ofChar (fun c t _ => .any c t) ho
  | oneOf set => exact yields_ofChar (fun c t hc => .oneOf t (CharSet.contains_iff.mp hc)) ho
  | val c =>
    apply yields_ofChar ?_ ho
    intro d t hd
    rw [eq_of_beq hd]
    exact .val c t
  | empty =>
    rw [List.mem_singleton.mp ho]
    exact .empty s
  | «end» =>
    cases s with
    | nil =>
      rw [List.mem_singleton.mp ho]
      exact .end
    | cons c s => cases ho
  | append a b iha ihb =>
    obtain ⟨ha, hb⟩ := h
    rcases Outcome.mem_flatMap_followedBy.mp ho with ⟨hdone, rfl⟩ | ⟨t, ht, ho⟩
    · exact .appendDone (iha ha hdone)
    · exact .append (iha ha ht) (ihb hb ho)
  | or a b iha ihb =>
    obtain ⟨ha, hb⟩ := h
    rcases List.mem_append.mp ho with ho | ho
    · exact .orFirst (iha ha ho)
    · exact .orSecond (ihb hb ho)
  | optional r ih =>
    rcases List.mem_append.mp ho with ho | ho
    · exact .optional (ih h ho)
    · rw [List.mem_singleton.mp ho]
      exact .skip s
  | many r ih =>
    -- on the input's length, since each round that is repeated leaves less
    induction hn : bytes s using Nat.strongRecOn generalizing s with
    | ind n ihn =>
      rcases mem_offers_many.mp ho with ⟨hdone, rfl⟩ | ⟨t, ht, hlt, ho⟩ | rfl
      · exact .manyDone (ih h hdone)
      · have hrest : (many r).Yields t o := ihn (bytes t) (hn ▸ hlt) ho rfl
        exact .again (ih h ht) hrest
      · exact .stop s
  | custom => exact h.elim
  | _ => trivial

theorem mem_offers_of_yields {r : Rule σ} {s : Input} {o : Outcome} (h : r.Yields s o) :
    o ∈ r.offers s := by
  induction h with
  | any c s => exact Outcome.mem_ofChar.mpr ⟨c, s, rfl, rfl, rfl⟩
  | oneOf s hc => exact Outcome.mem_ofChar.mpr ⟨_, s, rfl, CharSet.contains_iff.mpr hc, rfl⟩
  | val c s => exact Outcome.mem_ofChar.mpr ⟨c, s, rfl, beq_self_eq_true c, rfl⟩
  | empty s => exact List.mem_singleton.mpr rfl
  | «end» => exact List.mem_singleton.mpr rfl
  | appendDone _ ih => exact Outcome.mem_flatMap_followedBy.mpr (.inl ⟨ih, rfl⟩)
  | append _ _ iha ihb => exact Outcome.mem_flatMap_followedBy.mpr (.inr ⟨_, iha, ihb⟩)
  | orFirst _ ih => exact List.mem_append_left _ ih
  | orSecond _ ih => exact List.mem_append_right _ ih
  | optional _ ih => exact List.mem_append_left _ ih
  | skip s => exact List.mem_append_right _ (List.mem_singleton.mpr rfl)
  | manyDone _ ih => exact mem_offers_many.mpr (.inl ⟨ih, rfl⟩)
  | stop s => exact mem_offers_many.mpr (.inr (.inr rfl))
  | @again r s t o hround _ ih ihmany =>
    by_cases hts : t = s
    · -- a round that consumed nothing: what can follow it could be had without it
      exact hts ▸ ihmany
    · have hlt := bytes_lt_of_suffix hround.suffix hts
      exact mem_offers_many.mpr (.inr (.inl ⟨t, ih, hlt, ihmany⟩))

theorem mem_offers_iff {r : Rule σ} (h : r.CustomFree) {s : Input} {o : Outcome} :
    o ∈ r.offers s ↔ r.Yields s o :=
  ⟨yields_of_mem_offers h, mem_offers_of_yields⟩

/-- A match asks no more and no less than whether an acceptable outcome exists. -/
theorem matchWith_ofPred_iff {r : Rule σ} (h : r.CustomFree) (s : Input) (accepts : Input → Bool)
    (outer : ω) (shared : σ) :
    (r.matchWith s (.ofPred accepts) (outer, shared)).1 = true ↔
      r.Yields s .done ∨ ∃ t, r.Yields s (.rest t) ∧ accepts t = true := by
  rw [matchWith_eq_settle h, Acceptor.settle_ofPred, List.any_eq_true]
  simp only [← mem_offers_iff h]
  constructor
  · rintro ⟨o, ho, hok⟩
    cases o with
    | done => exact .inl ho
    | rest t => exact .inr ⟨t, ho, hok⟩
  · rintro (ho | ⟨t, ho, ht⟩)
    · exact ⟨.done, ho, rfl⟩
    · exact ⟨.rest t, ho, ht⟩

/-- A round that consumes nothing is repeated here, which the search would not do. -/
theorem matchWith_ofPred_idle_round :
    (many (optional (val 'a')) : Rule Unit).CustomFree ∧
      ((many (optional (val 'a')) : Rule Unit).matchWith ['a', 'b'] (.ofPred (· == ['b']))
        ((), ())).1 = true := by
  have hfree : (many (optional (val 'a')) : Rule Unit).CustomFree := trivial
  refine ⟨hfree, (matchWith_ofPred_iff hfree _ _ _ _).mpr (.inr ⟨['b'], ?_, rfl⟩)⟩
  exact .again (.skip _) (.again (.optional (.val 'a' _)) (.stop _))

end Rule

end Backtrack
