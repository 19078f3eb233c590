import Backtrack.Config.Offers
import Backtrack.Proofs.Algebra
import Backtrack.Proofs.CharSet
import Backtrack.Proofs.SearchOrder
import Backtrack.Proofs.Validation

/-!
# Compilation preserves meaning

A config that compiles breaks no limit at any of its nodes, and the rule it compiles to offers on
every input exactly what the config means. The limits matter: an alternative of no children means
nothing, and has no rule that offers nothing.
-/

set_option autoImplicit false

namespace Backtrack.Config

variable {ω σ : Type}

theorem decide_mem_eq_contains (set : String) (c : Char) :
    decide (c ∈ set.toList) = (CharSet.ofString set).contains c := by
  rw [Bool.eq_iff_iff, decide_eq_true_iff, CharSet.contains_iff]
  exact CharSet.mem_toList_ofList.symm

mutual

/-- The rule of a config offers what the config means, however wide its composites are. -/
theorem offers_toRule (c : Config) (h : ∀ d ∈ c.nodes, d.InLimits) :
    (c.toRule : Rule σ).offers = c.offers := by
  funext s
  cases c with
  | any => rfl
  | oneOf set =>
    rw [toRule, Rule.offers, offers]
    congr 1
    funext c
    exact (decide_mem_eq_contains set c).symm
  | val value => exact Rule.offers_literal value.toList s
  | empty => rfl
  | «end» => rfl
  | optional c =>
    have hc := offers_toRule c (List.forall_mem_cons.mp h).2
    rw [toRule, Rule.offers, offers, hc]
  | many c =>
    have hc := offers_toRule c (List.forall_mem_cons.mp h).2
    rw [toRule, Rule.offers, offers, hc]
  | oneOrMore c =>
    have hc := offers_toRule c (List.forall_mem_cons.mp h).2
    have hmany : (c.toRule : Rule σ).many.offers = Outcome.ofRepetition c.offers := by
      funext t
      rw [Rule.offers, hc]
    rw [toRule, Rule.oneOrMore, Rule.offers, offers, hc, hmany]
  | eof c =>
    have hc := offers_toRule c (List.forall_mem_cons.mp h).2
    rw [toRule, Rule.eof, Rule.offers, offers, hc]
    rfl
  | sequence cs =>
    have hcs := offersInTurn_toRules cs (List.forall_mem_cons.mp h).2
    cases cs with
    | nil => rfl
    | cons c cs =>
      rw [toRule, Rule.offers_sequence, offers]
      exact congrFun hcs s
  | alternative cs =>
    obtain ⟨hwidth, hnodes⟩ := List.forall_mem_cons.mp h
    have hcs := flatMap_offers_toRules cs hnodes s
    cases cs with
    | nil => exact absurd hwidth.1 (by decide)
    | cons c cs =>
      rw [toRule, Rule.offers_alternative, offers]
      exact hcs

theorem offersInTurn_toRules (cs : List Config) (h : ∀ d ∈ nodesOf cs, d.InLimits) :
    Rule.offersInTurn (toRules cs : List (Rule σ)) = offersInTurn cs := by
  funext s
  cases cs with
  | nil => rfl
  | cons c cs =>
    obtain ⟨hc, hcs⟩ := List.forall_mem_append.mp h
    rw [toRules, Rule.offersInTurn, offersInTurn, offers_toRule c hc, offersInTurn_toRules cs hcs]

theorem flatMap_offers_toRules (cs : List Config) (h : ∀ d ∈ nodesOf cs, d.InLimits)
    (s : Input) : (toRules cs : List (Rule σ)).flatMap (·.offers s) = offersOfAny cs s := by
  cases cs with
  | nil => rfl
  | cons c cs =>
    obtain ⟨hc, hcs⟩ := List.forall_mem_append.mp h
    rw [toRules, List.flatMap_cons, offersOfAny, offers_toRule c hc, flatMap_offers_toRules cs hcs]

end

mutual

theorem customFree_toRule (c : Config) : (c.toRule : Rule σ).CustomFree := by
  cases c with
  | val value => exact Rule.customFree_literal value.toList
  | optional c => exact customFree_toRule c
  | many c => exact customFree_toRule c
  | oneOrMore c => exact ⟨customFree_toRule c, customFree_toRule c⟩
  | eof c => exact ⟨customFree_toRule c, trivial⟩
  | sequence cs =>
    cases cs with
    | nil => trivial
    | cons c cs => exact (customFree_toRule c).sequence (customFree_toRules cs)
  | alternative cs =>
    cases cs with
    | nil => trivial
    | cons c cs => exact (customFree_toRule c).alternative (customFree_toRules cs)
  | _ => trivial

theorem customFree_toRules (cs : List Config) :
    ∀ r ∈ (toRules cs : List (Rule σ)), r.CustomFree := by
  cases cs with
  | nil => exact List.forall_mem_nil _
  | cons c cs => exact List.forall_mem_cons.mpr ⟨customFree_toRule c, customFree_toRules cs⟩

end

/-- The rule a config compiles to does to an acceptor what the meaning of the config does: one call
for each remainder, in order, up to the first success and no further. -/
theorem compile_settles_offers {c : Config} {r : Rule σ} (h : c.compile = .ok r) (s : Input)
    (k : Acceptor ω σ) :
    r.matchWith s k = k.settle (c.offers s) ∧
      ∀ outer before shared, ∃ calls,
        Outcome.Settled (c.offers s) calls (r.matchWith s k (outer, shared)).1 ∧
        r.matchWith s k.logged ((outer, before), shared)
          = ((r.matchWith s k (outer, shared)).1,
             ((r.matchWith s k (outer, shared)).2.1, before ++ calls),
             (r.matchWith s k (outer, shared)).2.2) := by
  obtain ⟨-, hlimits, -, rfl⟩ := of_compile_eq_ok h
  have hfree : (c.toRule : Rule σ).CustomFree := customFree_toRule c
  have hoffers : (c.toRule : Rule σ).offers s = c.offers s :=
    congrFun (offers_toRule c hlimits) s
  have hsettle : ∀ {ω'} (k' : Acceptor ω' σ),
      (c.toRule : Rule σ).matchWith s k' = k'.settle (c.offers s) := by
    intro ω' k'
    rw [Rule.matchWith_eq_settle hfree, hoffers]
  refine ⟨hsettle k, ?_⟩
  intro outer before shared
  rw [hsettle k, hsettle k.logged]
  exact k.settle_logged (c.offers s) outer before shared

/-- Two refused remainders, and then the last choice is at the end of the input. -/
theorem compile_settles_refusals :
    ∃ r : Rule Unit,
      (alternative [val "ab", oneOf "ba", eof (oneOrMore any)]).compile = .ok r ∧
        r.matchWith ['a', 'b'] (fun _ (calls, shared) => (false, calls + 1, shared)) (0, ())
          = (true, 2, ()) := by
  have hcompile : (alternative [val "ab", oneOf "ba", eof (oneOrMore any)]).compile
      = .ok ((alternative [val "ab", oneOf "ba", eof (oneOrMore any)]).toRule : Rule Unit) := rfl
  have hoffers : (alternative [val "ab", oneOf "ba", eof (oneOrMore any)]).offers ['a', 'b']
      = [.rest [], .rest ['b'], .done] := by decide +kernel
  refine ⟨_, hcompile, ?_⟩
  rw [(compile_settles_offers hcompile _ _).1, hoffers]
  rfl

end Backtrack.Config
