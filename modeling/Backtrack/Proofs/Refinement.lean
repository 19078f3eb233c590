import Backtrack.Proofs.Algebra
import Backtrack.Proofs.Completeness

/-!
# Rules compared by their outcomes

One rule refines another if the other can make of every input whatever the first can. Repetition is
the least rule that may stop at once and keeps what one more round makes of it, so a law of
repetition takes two refinements, and neither the order of the search nor the rounds that consume
nothing come into it. Rules that refine each other give every acceptor the same verdict.
-/

set_option autoImplicit false

namespace Backtrack.Rule

variable {σ : Type}

/-- Every outcome of the first rule is one of the second. -/
def Refines (a b : Rule σ) : Prop := ∀ s o, a.Yields s o → b.Yields s o

def Equivalent (a b : Rule σ) : Prop := ∀ s o, a.Yields s o ↔ b.Yields s o

/-- The rule may consume nothing. -/
def Nullable (r : Rule σ) : Prop := ∀ s, r.Yields s (.rest s)

/-- No acceptor that always answers the same about a remainder tells the rules apart. -/
def SameVerdict (a b : Rule σ) : Prop :=
  ∀ {ω : Type} (s : Input) (accepts : Input → Bool) (outer : ω) (shared : σ),
    (a.matchWith s (.ofPred accepts) (outer, shared)).1
      = (b.matchWith s (.ofPred accepts) (outer, shared)).1

section Order
variable {a b c : Rule σ}

theorem Refines.refl (a : Rule σ) : a.Refines a := fun _ _ h => h

theorem Refines.trans (hab : a.Refines b) (hbc : b.Refines c) : a.Refines c :=
  fun s o h => hbc s o (hab s o h)

theorem Refines.antisymm (hab : a.Refines b) (hba : b.Refines a) : a.Equivalent b :=
  fun s o => ⟨hab s o, hba s o⟩

theorem Equivalent.sameVerdict (h : a.Equivalent b) (ha : a.CustomFree) (hb : b.CustomFree) :
    a.SameVerdict b := by
  intro ω s accepts outer shared
  apply Bool.eq_iff_iff.mpr
  rw [matchWith_ofPred_iff ha, matchWith_ofPred_iff hb, h s .done]
  simp only [h s (.rest _)]

end Order

section Repetition
variable {a b r x : Rule σ}

theorem nullable_many (r : Rule σ) : (many r).Nullable := fun s => .stop s

theorem refines_optional (r : Rule σ) : r.Refines (optional r) := fun _ _ h => .optional h

theorem Nullable.refines_append (hb : b.Nullable) (a : Rule σ) : a.Refines (append a b) := by
  intro s o h
  cases o with
  | rest t => exact .append h (hb t)
  | done => exact .appendDone h

theorem append_many_refines (r : Rule σ) : (append r (many r)).Refines (many r) :=
  fun _ _ h => yields_many_iff.mpr (.inl h)

theorem refines_many (r : Rule σ) : r.Refines (many r) :=
  ((nullable_many r).refines_append r).trans (append_many_refines r)

/-- A repetition refines whatever may stop at once and keeps what one more round makes of it. -/
theorem many_refines (hstop : x.Nullable) (hround : (append r x).Refines x) :
    (many r).Refines x := by
  intro s o h
  -- on the rounds of the repetition, whichever rule they are rounds of
  generalize hmany : many r = m at h
  induction h with
  | manyDone hdone =>
    cases hmany
    exact hround _ _ (.appendDone hdone)
  | again h _ _ ih =>
    cases hmany
    exact hround _ _ (.append h (ih rfl))
  | stop s => exact hstop s
  | _ => cases hmany

theorem Refines.append_left (h : a.Refines b) (r : Rule σ) :
    (append a r).Refines (append b r) := by
  intro s o hyields
  rcases yields_append_iff.mp hyields with ⟨rfl, hdone⟩ | ⟨t, ht, ho⟩
  · exact .appendDone (h s .done hdone)
  · exact .append (h s (.rest t) ht) ho

theorem Refines.many (h : a.Refines b) : (many a).Refines (many b) :=
  many_refines (nullable_many b) ((h.append_left _).trans (append_many_refines b))

theorem Yields.many_trans {s t : Input} {o : Outcome} (h : (Rule.many r).Yields s (.rest t))
    (ho : (Rule.many r).Yields t o) : (Rule.many r).Yields s o := by
  generalize hmany : Rule.many r = m at h ho ⊢
  generalize hrest : Outcome.rest t = p at h
  induction h with
  | again h _ _ ih =>
    cases hmany
    exact .again h (ih rfl ho hrest)
  | stop s =>
    cases hrest
    exact ho
  | manyDone => cases hrest
  | _ => cases hmany

theorem append_many_many_refines (r : Rule σ) :
    (append (many r) (many r)).Refines (many r) := by
  intro s o h
  rcases yields_append_iff.mp h with ⟨rfl, hdone⟩ | ⟨t, ht, ho⟩
  · exact hdone
  · exact ht.many_trans ho

/-- What lies between a rule and its repetition repeats to the same. -/
theorem many_equivalent_of_between (hlow : r.Refines x) (hhigh : x.Refines (many r)) :
    (many x).Equivalent (many r) := by
  apply Refines.antisymm
  · apply many_refines (nullable_many r)
    exact (hhigh.append_left _).trans (append_many_many_refines r)
  · exact hlow.many

theorem many_many (r : Rule σ) : (many (many r)).Equivalent (many r) :=
  many_equivalent_of_between (refines_many r) (.refl _)

theorem many_optional (r : Rule σ) : (many (optional r)).Equivalent (many r) := by
  apply many_equivalent_of_between (refines_optional r)
  intro s o h
  rcases yields_optional_iff.mp h with h | rfl
  · exact refines_many r s o h
  · exact .stop s

theorem many_oneOrMore (r : Rule σ) : (many (oneOrMore r)).Equivalent (many r) :=
  many_equivalent_of_between ((nullable_many r).refines_append r) (append_many_refines r)

theorem optional_many (r : Rule σ) : (optional (many r)).Equivalent (many r) := by
  intro s o
  rw [yields_optional_iff]
  exact ⟨fun h => h.elim id (fun heq => heq ▸ .stop s), .inl⟩

theorem optional_oneOrMore (r : Rule σ) : (optional (oneOrMore r)).Equivalent (many r) := by
  intro s o
  rw [yields_optional_iff, yields_many_iff, oneOrMore]

theorem append_many_many (r : Rule σ) : (append (many r) (many r)).Equivalent (many r) :=
  (append_many_many_refines r).antisymm ((nullable_many r).refines_append (many r))

theorem optional_optional (r : Rule σ) : (optional (optional r)).Equivalent (optional r) := by
  intro s o
  simp only [yields_optional_iff, or_assoc, or_self]

end Repetition

section Alternation

theorem yields_alternative_iff {first : Rule σ} {rest : List (Rule σ)} {s : Input} {o : Outcome} :
    (alternative first rest).Yields s o ↔ ∃ r ∈ first :: rest, r.Yields s o := by
  induction rest generalizing first with
  | nil => simp [alternative]
  | cons r rest ih =>
    have hfold : (alternative first (r :: rest)).Yields s o
        ↔ (alternative (first.or r) rest).Yields s o := Iff.rfl
    simp [hfold, ih, yields_or_iff, or_assoc]

/-- An alternative depends on which rules it joins, not on their order or number. -/
theorem alternative_equivalent {first first' : Rule σ} {rest rest' : List (Rule σ)}
    (h : ∀ r, r ∈ first :: rest ↔ r ∈ first' :: rest') :
    (alternative first rest).Equivalent (alternative first' rest') := by
  intro s o
  rw [yields_alternative_iff, yields_alternative_iff]
  simp only [h]

theorem append_or (a b c : Rule σ) :
    (append a (or b c)).Equivalent (or (append a b) (append a c)) := by
  intro s o
  simp only [yields_append_iff, yields_or_iff, and_or_left, exists_or]
  exact or_or_distrib_left

theorem or_append (a b c : Rule σ) :
    (append (or a b) c).Equivalent (or (append a c) (append b c)) := by
  intro s o
  simp only [yields_append_iff, yields_or_iff, and_or_left, or_and_right, exists_or]
  exact or_or_or_comm

end Alternation

/-- The laws of repetition and alternation, for rules that may consume nothing or ask for the end
of the input as for all others. -/
theorem sameVerdict_laws {r a b c : Rule σ} (hr : r.CustomFree) (ha : a.CustomFree)
    (hb : b.CustomFree) (hc : c.CustomFree) :
    (∀ q ∈ [many (many r), many (optional r), many (oneOrMore r), optional (many r),
        optional (oneOrMore r), append (many r) (many r)], q.SameVerdict (many r)) ∧
    (optional (optional r)).SameVerdict (optional r) ∧
    (∀ (first first' : Rule σ) (rest rest' : List (Rule σ)),
      (∀ q ∈ first :: rest, q.CustomFree) → (∀ q, q ∈ first :: rest ↔ q ∈ first' :: rest') →
        (alternative first rest).SameVerdict (alternative first' rest')) ∧
    (append a (or b c)).SameVerdict (or (append a b) (append a c)) ∧
    (append (or a b) c).SameVerdict (or (append a c) (append b c)) := by
  have hmore : (oneOrMore r).CustomFree := ⟨hr, hr⟩
  refine ⟨?_, (optional_optional r).sameVerdict hr hr, ?_, ?_, ?_⟩
  · simp only [List.forall_mem_cons, List.not_mem_nil, false_implies, implies_true, and_true]
    exact ⟨(many_many r).sameVerdict hr hr, (many_optional r).sameVerdict hr hr,
      (many_oneOrMore r).sameVerdict hmore hr, (optional_many r).sameVerdict hr hr,
      (optional_oneOrMore r).sameVerdict hmore hr, (append_many_many r).sameVerdict ⟨hr, hr⟩ hr⟩
  · intro first first' rest rest' hfree hsame
    have hfree' : ∀ q ∈ first' :: rest', q.CustomFree := fun q hq => hfree q ((hsame q).mpr hq)
    apply (alternative_equivalent hsame).sameVerdict
    · exact .alternative (hfree first List.mem_cons_self)
        fun q hq => hfree q (List.mem_cons_of_mem first hq)
    · exact .alternative (hfree' first' List.mem_cons_self)
        fun q hq => hfree' q (List.mem_cons_of_mem first' hq)
  · exact (append_or a b c).sameVerdict ⟨ha, hb, hc⟩ ⟨⟨ha, hb⟩, ha, hc⟩
  · exact (or_append a b c).sameVerdict ⟨⟨ha, hb⟩, hc⟩ ⟨⟨ha, hc⟩, hb, hc⟩

/-- A nullable rule that asks for the end succeeds outright behind its repetitions, however often
these are nested, and a choice does not mind its order. -/
theorem sameVerdict_laws_nullable_with_end :
    (or .end (optional (val 'a')) : Rule Unit).CustomFree ∧
      (val 'b' : Rule Unit).CustomFree ∧
      ((many (or .end (optional (val 'a'))) : Rule Unit).matchWith ['a', 'a']
        (.ofPred fun _ => false) ((), ())).1 = true ∧
      ((many (many (or .end (optional (val 'a')))) : Rule Unit).matchWith ['a', 'a']
        (.ofPred fun _ => false) ((), ())).1 = true ∧
      (alternative (val 'b') [.end, any, .end] : Rule Unit).SameVerdict
        (alternative any [val 'b', .end]) ∧
      (append (or .end (optional (val 'a'))) (val 'b') : Rule Unit).SameVerdict
        (or (append .end (val 'b')) (append (optional (val 'a')) (val 'b'))) := by
  have hr : (or .end (optional (val 'a')) : Rule Unit).CustomFree := ⟨trivial, trivial⟩
  have hb : (val 'b' : Rule Unit).CustomFree := trivial
  have hend : (Rule.end : Rule Unit).CustomFree := trivial
  have ha : (optional (val 'a') : Rule Unit).CustomFree := trivial
  obtain ⟨hmany, -, halternative, -, hor⟩ := sameVerdict_laws hr hend ha hb
  have hverdict : ((many (or .end (optional (val 'a'))) : Rule Unit).matchWith ['a', 'a']
      (.ofPred fun _ => false) ((), ())).1 = true := by decide +kernel
  refine ⟨hr, hb, hverdict, ?_, ?_, hor⟩
  · rw [hmany _ List.mem_cons_self]
    exact hverdict
  · apply halternative
    · simp [CustomFree]
    · intro q
      simp only [List.mem_cons, List.not_mem_nil, or_false]
      tauto

end Backtrack.Rule
