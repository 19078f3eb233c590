import Backtrack.Rule.Basic

/-!
# Outcomes

What a rule can make of an input, said without a search: it can leave a remainder, or it can succeed outright at the
end of the input. `Rule.Yields` says which outcomes are possible, with no word about order or progress.
`Rule.offers` lists them in the order of preference; there a repetition goes on only after progress in bytes, as it
must to be finite.

Custom rules have no meaning apart from a search, and so no outcomes here.
-/

set_option autoImplicit false

namespace Backtrack

inductive Outcome where
  | rest (t : Input)
  /-- Success at the end of the input, whatever is asked of a remainder. -/
  | done
  deriving DecidableEq, Repr

namespace Rule

variable {σ : Type}

/-- The rule has the outcome on the input. -/
inductive Yields : Rule σ → Input → Outcome → Prop where
  | any (c : Char) (s : Input) : Yields any (c :: s) (.rest s)
  | oneOf {set : CharSet} {c : Char} (s : Input) : c ∈ set.toList → Yields (oneOf set) (c :: s) (.rest s)
  | val (c : Char) (s : Input) : Yields (val c) (c :: s) (.rest s)
  | empty (s : Input) : Yields empty s (.rest s)
  | end : Yields .end [] .done
  | appendDone {a b : Rule σ} {s : Input} : Yields a s .done → Yields (append a b) s .done
  | append {a b : Rule σ} {s t : Input} {o : Outcome} :
    Yields a s (.rest t) → Yields b t o → Yields (append a b) s o
  | orFirst {a b : Rule σ} {s : Input} {o : Outcome} : Yields a s o → Yields (or a b) s o
  | orSecond {a b : Rule σ} {s : Input} {o : Outcome} : Yields b s o → Yields (or a b) s o
  | optional {r : Rule σ} {s : Input} {o : Outcome} : Yields r s o → Yields (optional r) s o
  | skip {r : Rule σ} (s : Input) : Yields (optional r) s (.rest s)
  | manyDone {r : Rule σ} {s : Input} : Yields r s .done → Yields (many r) s .done
  | again {r : Rule σ} {s t : Input} {o : Outcome} :
    Yields r s (.rest t) → Yields (many r) t o → Yields (many r) s o
  | stop {r : Rule σ} (s : Input) : Yields (many r) s (.rest s)

section Inversion
variable {a b r : Rule σ} {s : Input} {o : Outcome}

theorem yields_append_iff : (append a b).Yields s o ↔
    (o = .done ∧ a.Yields s .done) ∨ ∃ t, a.Yields s (.rest t) ∧ b.Yields t o := by
  constructor
  · intro h
    cases h with
    | appendDone h => exact .inl ⟨rfl, h⟩
    | append ha hb => exact .inr ⟨_, ha, hb⟩
  · rintro (⟨rfl, h⟩ | ⟨t, ha, hb⟩)
    · exact .appendDone h
    · exact .append ha hb

theorem yields_or_iff : (or a b).Yields s o ↔ a.Yields s o ∨ b.Yields s o := by
  constructor
  · intro h
    cases h with
    | orFirst h => exact .inl h
    | orSecond h => exact .inr h
  · rintro (h | h)
    · exact .orFirst h
    · exact .orSecond h

theorem yields_optional_iff : (optional r).Yields s o ↔ r.Yields s o ∨ o = .rest s := by
  constructor
  · intro h
    cases h with
    | optional h => exact .inl h
    | skip => exact .inr rfl
  · rintro (h | rfl)
    · exact .optional h
    · exact .skip s

/-- A repetition goes on with a round and then itself, or stops. -/
theorem yields_many_iff :
    (many r).Yields s o ↔ (append r (many r)).Yields s o ∨ o = .rest s := by
  rw [yields_append_iff]
  constructor
  · intro h
    cases h with
    | manyDone h => exact .inl (.inl ⟨rfl, h⟩)
    | again h hmany => exact .inl (.inr ⟨_, h, hmany⟩)
    | stop => exact .inr rfl
  · rintro ((⟨rfl, h⟩ | ⟨t, h, hmany⟩) | rfl)
    · exact .manyDone h
    · exact .again h hmany
    · exact .stop s

end Inversion

end Rule

namespace Outcome

/-- What becomes of an outcome when each remainder is taken further. -/
def followedBy (next : Input → List Outcome) : Outcome → List Outcome
  | rest t => next t
  | done => [done]

/-- The outcomes of repeating a round, longest first. A round without progress is not repeated. -/
def ofRepetition (round : Input → List Outcome) (s : Input) : List Outcome :=
  (round s).flatMap (followedBy fun t => if bytes t < bytes s then ofRepetition round t else []) ++ [rest s]
termination_by bytes s

def ofChar (accepts : Char → Bool) : Input → List Outcome
  | [] => []
  | c :: t => if accepts c then [rest t] else []

theorem mem_ofChar {accepts : Char → Bool} {s : Input} {o : Outcome} :
    o ∈ ofChar accepts s ↔ ∃ c t, s = c :: t ∧ accepts c = true ∧ o = rest t := by
  cases s with
  | nil => simp [ofChar]
  | cons c t =>
    by_cases h : accepts c = true
    · simp only [ofChar, h, if_true, List.mem_singleton]
      exact ⟨fun ho => ⟨c, t, rfl, h, ho⟩, by rintro ⟨_, _, hs, _, rfl⟩; cases hs; rfl⟩
    · rw [ofChar, if_neg h]
      refine iff_of_false List.not_mem_nil ?_
      rintro ⟨_, _, hs, hd, _⟩
      cases hs
      exact h hd

theorem mem_flatMap_followedBy {next : Input → List Outcome} {os : List Outcome} {o : Outcome} :
    o ∈ os.flatMap (followedBy next) ↔ (done ∈ os ∧ o = done) ∨ ∃ t, rest t ∈ os ∧ o ∈ next t := by
  rw [List.mem_flatMap]
  constructor
  · rintro ⟨p, hp, ho⟩
    cases p with
    | rest t => exact .inr ⟨t, hp, ho⟩
    | done => exact .inl ⟨hp, List.mem_singleton.mp ho⟩
  · rintro (⟨h, rfl⟩ | ⟨t, ht, ho⟩)
    · exact ⟨done, h, List.mem_singleton.mpr rfl⟩
    · exact ⟨rest t, ht, ho⟩

end Outcome

namespace Rule

variable {σ : Type}

/-- The outcomes in the order in which they are preferred, each as often as it comes about. -/
def offers : Rule σ → Input → List Outcome
  | any, s => Outcome.ofChar (fun _ => true) s
  | oneOf set, s => Outcome.ofChar set.contains s
  | val c, s => Outcome.ofChar (· == c) s
  | empty, s => [.rest s]
  | .end, s => if s.isEmpty then [.done] else []
  | append a b, s => (a.offers s).flatMap (Outcome.followedBy b.offers)
  | or a b, s => a.offers s ++ b.offers s
  | optional r, s => r.offers s ++ [.rest s]
  | many r, s => Outcome.ofRepetition r.offers s
  | custom _ _, _ => []

end Rule

end Backtrack
