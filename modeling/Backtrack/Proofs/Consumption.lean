import Backtrack.Proofs.Completeness
import Backtrack.Rule.Build

/-!
# What a rule consumes

A rule that never asks whether the input has ended cannot notice what stands behind the characters
it consumes. So what it leaves over says which characters it can consume, on this input and on every
other that begins with them, and the shortest such input is these characters alone. Matching a
beginning of the input is then the same as matching all of that beginning.
-/

set_option autoImplicit false

namespace Backtrack

variable {ω σ : Type}

namespace Rule

/-- The rule can consume exactly these characters, whatever stands behind them. -/
def Consumes (r : Rule σ) (p : Input) : Prop := ∀ t, r.Yields (p ++ t) (.rest t)

theorem Consumes.append {a b : Rule σ} {p q : Input} (ha : a.Consumes p) (hb : b.Consumes q) :
    (append a b).Consumes (p ++ q) := by
  intro t
  rw [List.append_assoc]
  exact .append (ha (q ++ t)) (hb t)

theorem Consumes.again {r : Rule σ} {p q : Input} (hround : r.Consumes p)
    (hmany : (many r).Consumes q) : (many r).Consumes (p ++ q) := by
  intro t
  rw [List.append_assoc]
  exact .again (hround (q ++ t)) (hmany t)

/-- What a rule makes of an input it has made of the characters it consumed, if it never asks for
the end. -/
theorem Yields.consumed {r : Rule σ} {s : Input} {o : Outcome} (h : r.Yields s o)
    (hend : r.EndFree) : ∃ p t, s = p ++ t ∧ o = .rest t ∧ r.Consumes p := by
  induction h with
  | any c s => exact ⟨[c], s, rfl, rfl, fun t => .any c t⟩
  | @oneOf set c s hc => exact ⟨[c], s, rfl, rfl, fun t => .oneOf t hc⟩
  | val c s => exact ⟨[c], s, rfl, rfl, fun t => .val c t⟩
  | empty s => exact ⟨[], s, rfl, rfl, fun t => .empty t⟩
  | «end» => exact hend.elim
  | appendDone _ ih =>
    obtain ⟨p, t, -, heq, -⟩ := ih hend.1
    cases heq
  | append _ _ iha ihb =>
    obtain ⟨p, t, rfl, heq, ha⟩ := iha hend.1
    cases heq
    obtain ⟨q, u, rfl, rfl, hb⟩ := ihb hend.2
    exact ⟨p ++ q, u, (List.append_assoc p q u).symm, rfl, ha.append hb⟩
  | orFirst _ ih =>
    obtain ⟨p, t, hs, ho, ha⟩ := ih hend.1
    exact ⟨p, t, hs, ho, fun u => .orFirst (ha u)⟩
  | orSecond _ ih =>
    obtain ⟨p, t, hs, ho, hb⟩ := ih hend.2
    exact ⟨p, t, hs, ho, fun u => .orSecond (hb u)⟩
  | optional _ ih =>
    obtain ⟨p, t, hs, ho, hr⟩ := ih hend
    exact ⟨p, t, hs, ho, fun u => .optional (hr u)⟩
  | skip s => exact ⟨[], s, rfl, rfl, fun t => .skip t⟩
  | manyDone _ ih =>
    obtain ⟨p, t, -, heq, -⟩ := ih hend
    cases heq
  | again _ _ ih ihmany =>
    obtain ⟨p, t, rfl, heq, hround⟩ := ih hend
    cases heq
    obtain ⟨q, u, rfl, rfl, hmany⟩ := ihmany hend
    exact ⟨p ++ q, u, (List.append_assoc p q u).symm, rfl, hround.again hmany⟩
  | stop s => exact ⟨[], s, rfl, rfl, fun t => .stop t⟩

theorem EndFree.not_yields_done {r : Rule σ} (hend : r.EndFree) (s : Input) :
    ¬ r.Yields s .done := by
  intro h
  obtain ⟨p, t, -, heq, -⟩ := h.consumed hend
  cases heq

theorem EndFree.yields_rest_iff {r : Rule σ} (hend : r.EndFree) {s t : Input} :
    r.Yields s (.rest t) ↔ ∃ p, s = p ++ t ∧ r.Consumes p := by
  constructor
  · intro h
    obtain ⟨p, u, hs, heq, hp⟩ := h.consumed hend
    cases heq
    exact ⟨p, hs, hp⟩
  · rintro ⟨p, rfl, hp⟩
    exact hp t

/-- Nothing need stand behind the characters. -/
theorem EndFree.consumes_iff {r : Rule σ} (hend : r.EndFree) {p : Input} :
    r.Consumes p ↔ r.Yields p (.rest []) := by
  rw [hend.yields_rest_iff]
  simp

theorem yields_eof_iff {r : Rule σ} {s : Input} {o : Outcome} :
    (eof r).Yields s o ↔ o = .done ∧ (r.Yields s .done ∨ r.Yields s (.rest [])) := by
  rw [eof, yields_append_iff]
  constructor
  · rintro (⟨rfl, hdone⟩ | ⟨t, hr, hend⟩)
    · exact ⟨rfl, .inl hdone⟩
    · cases hend
      exact ⟨rfl, .inr hr⟩
  · rintro ⟨rfl, hdone | hrest⟩
    · exact .inl ⟨rfl, hdone⟩
    · exact .inr ⟨[], hrest, .end⟩

/-- Some beginning of the input matches if anything can be made of the input. -/
theorem isMatch_iff {r : Rule σ} (h : r.CustomFree) (s : Input) (shared : σ) :
    (r.isMatch s shared).1 = true ↔ ∃ o, r.Yields s o := by
  have hall : (r.isMatch s shared).1 = true ↔
      r.Yields s .done ∨ ∃ t, r.Yields s (.rest t) ∧ true = true :=
    matchWith_ofPred_iff h s (fun _ => true) () shared
  rw [hall]
  constructor
  · rintro (hdone | ⟨t, ht, -⟩)
    · exact ⟨.done, hdone⟩
    · exact ⟨.rest t, ht⟩
  · rintro ⟨o, ho⟩
    cases o with
    | done => exact .inl ho
    | rest t => exact .inr ⟨t, ho, rfl⟩

theorem CustomFree.eof {r : Rule σ} (h : r.CustomFree) : (eof r).CustomFree := ⟨h, trivial⟩

theorem isMatch_eof_iff {r : Rule σ} (h : r.CustomFree) (s : Input) (shared : σ) :
    ((eof r).isMatch s shared).1 = true ↔ r.Yields s .done ∨ r.Yields s (.rest []) := by
  simp [isMatch_iff h.eof, yields_eof_iff]

theorem EndFree.isMatch_eof_iff {r : Rule σ} (hend : r.EndFree) (h : r.CustomFree) (p : Input)
    (shared : σ) : ((Rule.eof r).isMatch p shared).1 = true ↔ r.Consumes p := by
  rw [Rule.isMatch_eof_iff h, hend.consumes_iff]
  simp [hend.not_yields_done]

theorem EndFree.isMatch_iff {r : Rule σ} (hend : r.EndFree) (h : r.CustomFree) (s : Input)
    (shared : σ) : (r.isMatch s shared).1 = true ↔ ∃ p, p <+: s ∧ r.Consumes p := by
  rw [Rule.isMatch_iff h]
  constructor
  · rintro ⟨o, ho⟩
    obtain ⟨p, t, rfl, -, hp⟩ := ho.consumed hend
    exact ⟨p, List.prefix_append p t, hp⟩
  · rintro ⟨p, ⟨t, rfl⟩, hp⟩
    exact ⟨.rest t, hp t⟩

/-- A match takes some beginning of the input as a whole and leaves the rest to the acceptor, and
what takes a beginning of the input takes it from every longer input. -/
theorem matchWith_iff_eof {r : Rule σ} (h : r.CustomFree) (hend : r.EndFree) (s : Input) :
    (∀ {ω : Type} (accepts : Input → Bool) (outer : ω) (shared shared' : σ),
      (r.matchWith s (.ofPred accepts) (outer, shared)).1 = true ↔
        ∃ p t, s = p ++ t ∧ ((eof r).isMatch p shared').1 = true ∧ accepts t = true) ∧
    (∀ shared shared' : σ, (r.isMatch s shared).1 = true ↔
      ∃ p, p <+: s ∧ ((eof r).isMatch p shared').1 = true) ∧
    (∀ shared shared' : σ, (r.isMatch s shared).1 = true →
      ∀ behind, (r.isMatch (s ++ behind) shared').1 = true) := by
  simp only [hend.isMatch_eof_iff h]
  refine ⟨?_, fun shared _ => hend.isMatch_iff h s shared, ?_⟩
  · intro ω accepts outer shared shared'
    rw [matchWith_ofPred_iff h]
    simp only [hend.not_yields_done, hend.yields_rest_iff, false_or]
    constructor
    · rintro ⟨t, ⟨p, hs, hp⟩, ht⟩
      exact ⟨p, t, hs, hp, ht⟩
    · rintro ⟨p, t, hs, hp, ht⟩
      exact ⟨t, ⟨p, hs, hp⟩, ht⟩
  · intro shared shared' hs behind
    obtain ⟨p, hprefix, hp⟩ := (hend.isMatch_iff h s shared).mp hs
    apply (hend.isMatch_iff h (s ++ behind) shared').mpr
    exact ⟨p, hprefix.trans (List.prefix_append s behind), hp⟩

/-- The repetition has to give back a character before the rule takes the beginning `éa`. -/
theorem matchWith_iff_eof_backing_off :
    (append (many (or (val 'é') (val 'a'))) (val 'a') : Rule Unit).CustomFree ∧
      (append (many (or (val 'é') (val 'a'))) (val 'a') : Rule Unit).EndFree ∧
      ((append (many (or (val 'é') (val 'a'))) (val 'a') : Rule Unit).matchWith ['é', 'a', 'b']
        (.ofPred (· == ['b'])) ((), ())).1 = true ∧
      ((append (many (or (val 'é') (val 'a'))) (val 'a') : Rule Unit).isMatch
        (['é', 'a'] ++ ['é']) ()).1 = true := by
  have hfree : (append (many (or (val 'é') (val 'a'))) (val 'a') : Rule Unit).CustomFree :=
    ⟨⟨trivial, trivial⟩, trivial⟩
  have hend : (append (many (or (val 'é') (val 'a'))) (val 'a') : Rule Unit).EndFree :=
    ⟨⟨trivial, trivial⟩, trivial⟩
  have heof : ((eof (append (many (or (val 'é') (val 'a'))) (val 'a')) : Rule Unit).isMatch
      ['é', 'a'] ()).1 = true := by decide +kernel
  refine ⟨hfree, hend, ?_, ?_⟩
  · exact ((matchWith_iff_eof hfree hend _).1 _ () () ()).mpr ⟨['é', 'a'], ['b'], rfl, heof, rfl⟩
  · have hwhole := ((matchWith_iff_eof hfree hend ['é', 'a']).2.1 () ()).mpr
      ⟨['é', 'a'], List.prefix_refl _, heof⟩
    exact (matchWith_iff_eof hfree hend _).2.2 () () hwhole ['é']

end Rule

end Backtrack
