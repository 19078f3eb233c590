import Backtrack.Config.Basic
import Backtrack.Error

/-!
# Violations

Which limits a config breaks, said node by node. The nodes stand in the order in which they are written: each before
its children, and children from left to right.
-/

set_option autoImplicit false

namespace Backtrack.Config

mutual

/-- The nodes of a config, each before its children. -/
def nodes : Config → List Config
  | optional c => optional c :: c.nodes
  | many c => many c :: c.nodes
  | oneOrMore c => oneOrMore c :: c.nodes
  | eof c => eof c :: c.nodes
  | sequence cs => sequence cs :: nodesOf cs
  | alternative cs => alternative cs :: nodesOf cs
  | c => [c]

def nodesOf : List Config → List Config
  | [] => []
  | c :: cs => c.nodes ++ nodesOf cs

end

theorem self_mem_nodes (c : Config) : c ∈ c.nodes := by
  cases c <;> simp [nodes]

/-- The node itself breaks a limit, whatever its children do. -/
inductive Violates : Config → RuleError → Prop where
  | set {set : String} : Limits.maxLiteralLength < set.length →
    Violates (oneOf set) (.literalTooLong set.length Limits.maxLiteralLength)
  | literal {value : String} : Limits.maxLiteralLength < value.length →
    Violates (val value) (.literalTooLong value.length Limits.maxLiteralLength)
  | noParts : Violates (sequence []) (.emptyComposite "sequence")
  | parts {cs : List Config} : Limits.maxChildren < cs.length →
    Violates (sequence cs) (.tooManyRules cs.length Limits.maxChildren)
  | noChoices : Violates (alternative []) (.emptyComposite "alternative")
  | choices {cs : List Config} : Limits.maxChildren < cs.length →
    Violates (alternative cs) (.tooManyRules cs.length Limits.maxChildren)

/-- A node breaks no more than one limit. -/
theorem Violates.unique {c : Config} {e f : RuleError} (he : Violates c e) (hf : Violates c f) : e = f := by
  cases he <;> cases hf <;> simp_all

/-- The literal is short enough, or the children are neither none nor too many. -/
def InLimits : Config → Prop
  | oneOf set => set.length ≤ Limits.maxLiteralLength
  | val value => value.length ≤ Limits.maxLiteralLength
  | sequence cs => 1 ≤ cs.length ∧ cs.length ≤ Limits.maxChildren
  | alternative cs => 1 ≤ cs.length ∧ cs.length ≤ Limits.maxChildren
  | _ => True

theorem inLimits_iff (c : Config) : c.InLimits ↔ ∀ e, ¬ Violates c e := by
  constructor
  · intro h e he
    cases he <;> simp [InLimits] at h <;> omega
  · intro h
    cases c with
    | oneOf set => exact Nat.not_lt.mp fun hlt => h _ (.set hlt)
    | val value => exact Nat.not_lt.mp fun hlt => h _ (.literal hlt)
    | sequence cs =>
      refine ⟨?_, Nat.not_lt.mp fun hlt => h _ (.parts hlt)⟩
      cases cs with
      | nil => exact absurd .noParts (h _)
      | cons => simp
    | alternative cs =>
      refine ⟨?_, Nat.not_lt.mp fun hlt => h _ (.choices hlt)⟩
      cases cs with
      | nil => exact absurd .noChoices (h _)
      | cons => simp
    | _ => trivial

/-- The first of the nodes that breaks a limit breaks this one. -/
def FirstViolation (ds : List Config) (e : RuleError) : Prop :=
  ∃ before d after, ds = before ++ d :: after ∧ (∀ b ∈ before, b.InLimits) ∧ Violates d e

theorem not_firstViolation_nil (e : RuleError) : ¬ FirstViolation [] e := by
  rintro ⟨before, d, after, hsplit, -, -⟩
  exact absurd hsplit.symm (List.append_ne_nil_of_right_ne_nil before (List.cons_ne_nil d after))

theorem firstViolation_cons {d : Config} {ds : List Config} {e : RuleError} :
    FirstViolation (d :: ds) e ↔ Violates d e ∨ d.InLimits ∧ FirstViolation ds e := by
  constructor
  · rintro ⟨before, d', after, hsplit, hbefore, hd'⟩
    cases before with
    | nil =>
      injection hsplit with hd
      exact .inl (hd ▸ hd')
    | cons b before =>
      injection hsplit with hb hds
      obtain ⟨hlimits, hbefore⟩ := List.forall_mem_cons.mp hbefore
      exact .inr ⟨hb ▸ hlimits, before, d', after, hds, hbefore, hd'⟩
  · rintro (hd | ⟨hlimits, before, d', after, rfl, hbefore, hd'⟩)
    · exact ⟨[], d, ds, rfl, List.forall_mem_nil _, hd⟩
    · exact ⟨d :: before, d', after, rfl, List.forall_mem_cons.mpr ⟨hlimits, hbefore⟩, hd'⟩

theorem firstViolation_cons_of_inLimits {d : Config} {ds : List Config} {e : RuleError} (h : d.InLimits) :
    FirstViolation (d :: ds) e ↔ FirstViolation ds e := by
  rw [firstViolation_cons, or_iff_right ((inLimits_iff d).mp h e), and_iff_right h]

theorem not_firstViolation {ds : List Config} (h : ∀ d ∈ ds, d.InLimits) (e : RuleError) : ¬ FirstViolation ds e := by
  rintro ⟨before, d, after, rfl, -, hd⟩
  exact (inLimits_iff d).mp (h d (List.mem_append_right _ List.mem_cons_self)) e hd

theorem FirstViolation.unique {ds : List Config} {e f : RuleError} (he : FirstViolation ds e)
    (hf : FirstViolation ds f) : e = f := by
  induction ds with
  | nil => exact absurd he (not_firstViolation_nil e)
  | cons d ds ih =>
    rcases firstViolation_cons.mp he with hd | ⟨hlimits, he⟩
    · rcases firstViolation_cons.mp hf with hd' | ⟨hlimits, -⟩
      · exact hd.unique hd'
      · exact absurd hd ((inLimits_iff d).mp hlimits e)
    · exact ih he ((firstViolation_cons_of_inLimits hlimits).mp hf)

theorem firstViolation_append {ds ds' : List Config} {e : RuleError} :
    FirstViolation (ds ++ ds') e ↔
      FirstViolation ds e ∨ (∀ d ∈ ds, d.InLimits) ∧ FirstViolation ds' e := by
  induction ds with
  | nil => simp [not_firstViolation_nil]
  | cons d ds ih =>
    rw [List.cons_append, firstViolation_cons, firstViolation_cons, ih, List.forall_mem_cons, and_assoc,
      and_or_left, or_assoc]

/-- Why a config is refused: its nesting comes before all else, then the first node that breaks a limit, and its size
last. -/
inductive Refused (c : Config) : RuleError → Prop where
  | tooDeep : Limits.maxConfigDepth < c.depth → Refused c (.depthExceeded c.depth Limits.maxConfigDepth)
  | node {e : RuleError} : c.depth ≤ Limits.maxConfigDepth → FirstViolation c.nodes e → Refused c e
  | tooLarge : c.depth ≤ Limits.maxConfigDepth → (∀ d ∈ c.nodes, d.InLimits) →
    Limits.maxRuleNodes < c.nodeCount → Refused c (.tooManyNodes c.nodeCount Limits.maxRuleNodes)

end Backtrack.Config
