import Backtrack.Config.Compile
import Backtrack.Config.Violation

/-!
# Validation of configs

What compiling a config comes to: its nesting is looked at first, then the nodes, and its size last.
A rule is built exactly where no node breaks a limit, and otherwise the first node that does is
reported. What is built can be said without any error in view: `Config.toRule`.
-/

set_option autoImplicit false

namespace Backtrack.Config

variable {σ : Type}

mutual

/-- The rule that a config stands for as far as it has one. A composite without children has none, and
what stands here for it is never built. -/
def toRule : Config → Rule σ
  | any => .any
  | oneOf set => .oneOf (.ofString set)
  | val value => .literal value.toList
  | empty => .empty
  | .end => .end
  | optional c => .optional c.toRule
  | many c => .many c.toRule
  | oneOrMore c => c.toRule.oneOrMore
  | eof c => c.toRule.eof
  | sequence [] => .empty
  | sequence (c :: cs) => .sequence c.toRule (toRules cs)
  | alternative [] => .empty
  | alternative (c :: cs) => .alternative c.toRule (toRules cs)

def toRules : List Config → List (Rule σ)
  | [] => []
  | c :: cs => c.toRule :: toRules cs

end

theorem toRules_eq_map (cs : List Config) : (toRules cs : List (Rule σ)) = cs.map toRule := by
  induction cs with
  | nil => rfl
  | cons c cs ih => simp [toRules, ih]

/-- None of the nodes breaks a limit and the value was built, or the first that does was reported. -/
def Builds {α : Type} (ds : List Config) (value : α) (built : Except RuleError α) : Prop :=
  (∀ d ∈ ds, d.InLimits) ∧ built = .ok value ∨ ∃ e, FirstViolation ds e ∧ built = .error e

namespace Builds

variable {α β γ : Type} {d : Config} {ds ds' : List Config} {value : α} {built : Except RuleError α}

theorem leaf (hd : d.InLimits) : Builds [d] value (.ok value) :=
  .inl ⟨List.forall_mem_cons.mpr ⟨hd, List.forall_mem_nil _⟩, rfl⟩

theorem of_violates {e : RuleError} (h : Violates d e) : Builds (d :: ds) value (.error e) :=
  .inr ⟨e, firstViolation_cons.mpr (.inl h), rfl⟩

/-- What goes on from what was built, behind a node that breaks no limit. -/
theorem cons (h : Builds ds value built) (hd : d.InLimits) {f : α → Except RuleError β} {b : β}
    (hf : f value = .ok b) : Builds (d :: ds) b (built >>= f) := by
  rcases h with ⟨hlimits, rfl⟩ | ⟨e, hfirst, rfl⟩
  · exact .inl ⟨List.forall_mem_cons.mpr ⟨hd, hlimits⟩, hf⟩
  · exact .inr ⟨e, (firstViolation_cons_of_inLimits hd).mpr hfirst, rfl⟩

/-- What is put together from what was built one after another. -/
theorem append {more : Except RuleError β} {other : β} (h : Builds ds value built)
    (hmore : Builds ds' other more) (f : α → β → γ) :
    Builds (ds ++ ds') (f value other) (do return f (← built) (← more)) := by
  rcases h with ⟨hlimits, rfl⟩ | ⟨e, hfirst, rfl⟩
  · rcases hmore with ⟨hlimits', rfl⟩ | ⟨e, hfirst, rfl⟩
    · exact .inl ⟨List.forall_mem_append.mpr ⟨hlimits, hlimits'⟩, rfl⟩
    · exact .inr ⟨e, firstViolation_append.mpr (.inr ⟨hlimits, hfirst⟩), rfl⟩
  · exact .inr ⟨e, firstViolation_append.mpr (.inl hfirst), rfl⟩

end Builds

/-- A text is short enough or is reported. -/
theorem checkLiteral_cases (s : String) :
    s.length ≤ Limits.maxLiteralLength ∧ checkLiteral s = .ok () ∨
      Limits.maxLiteralLength < s.length ∧
        checkLiteral s = .error (.literalTooLong s.length Limits.maxLiteralLength) := by
  rw [checkLiteral]
  split
  · rename_i hover
    exact .inr ⟨hover, rfl⟩
  · rename_i hle
    exact .inl ⟨Nat.le_of_not_lt hle, rfl⟩

theorem checkWidth_cases (cs : List Config) :
    cs.length ≤ Limits.maxChildren ∧ checkWidth cs = .ok () ∨
      Limits.maxChildren < cs.length ∧
        checkWidth cs = .error (.tooManyRules cs.length Limits.maxChildren) := by
  rw [checkWidth]
  split
  · rename_i hover
    exact .inr ⟨hover, rfl⟩
  · rename_i hle
    exact .inl ⟨Nat.le_of_not_lt hle, rfl⟩

/-- A node with a text is built as soon as its text is short enough. -/
theorem builds_text {d : Config} {text : String} {r : Rule σ}
    (hd : text.length ≤ Limits.maxLiteralLength → d.InLimits)
    (hover : Limits.maxLiteralLength < text.length →
      Violates d (.literalTooLong text.length Limits.maxLiteralLength)) :
    Builds [d] r (do checkLiteral text; return r) := by
  rcases checkLiteral_cases text with ⟨hle, heq⟩ | ⟨hlong, heq⟩
  · rw [heq]
    exact .leaf (hd hle)
  · rw [heq]
    exact .of_violates (hover hlong)

/-- A node with children is put together from what was built of them. -/
theorem Builds.composite {d : Config} {cs : List Config} {r : Rule σ}
    {combine : List (Rule σ) → Except RuleError (Rule σ)}
    (h : Builds (nodesOf cs) (toRules cs : List (Rule σ)) (buildAll cs))
    (hover : Limits.maxChildren < cs.length → Violates d (.tooManyRules cs.length Limits.maxChildren))
    (hnone : cs = [] → ∃ e, combine [] = .error e ∧ Violates d e)
    (hsome : cs ≠ [] → cs.length ≤ Limits.maxChildren → d.InLimits ∧ combine (toRules cs) = .ok r) :
    Builds (d :: nodesOf cs) r (do checkWidth cs; combine (← buildAll cs)) := by
  rcases checkWidth_cases cs with ⟨hle, heq⟩ | ⟨hwide, heq⟩
  · rw [heq]
    by_cases hcs : cs = []
    · obtain ⟨e, he, hviolates⟩ := hnone hcs
      subst hcs
      show Builds _ r (combine [])
      rw [he]
      exact .of_violates hviolates
    · obtain ⟨hd, hr⟩ := hsome hcs hle
      exact h.cons hd hr
  · rw [heq]
    exact .of_violates (hover hwide)

mutual

/-- Building a config comes to its rule or to the first node that breaks a limit. -/
theorem builds_toRule (c : Config) : Builds c.nodes (c.toRule : Rule σ) c.build := by
  cases c with
  | any => exact .leaf (d := any) trivial
  | empty => exact .leaf (d := empty) trivial
  | «end» => exact .leaf (d := .end) trivial
  | oneOf set =>
    rw [build]
    exact builds_text (d := oneOf set) id .set
  | val value =>
    rw [build]
    exact builds_text (d := val value) id .literal
  | optional c => exact (builds_toRule c).cons (d := optional c) trivial rfl
  | many c => exact (builds_toRule c).cons (d := many c) trivial rfl
  | oneOrMore c => exact (builds_toRule c).cons (d := oneOrMore c) trivial rfl
  | eof c => exact (builds_toRule c).cons (d := eof c) trivial rfl
  | sequence cs =>
    rw [build]
    apply (buildsAll_toRules cs).composite (d := sequence cs) .parts
    · rintro rfl
      exact ⟨_, rfl, .noParts⟩
    · intro hcs hle
      obtain ⟨c, cs, rfl⟩ := List.exists_cons_of_ne_nil hcs
      exact ⟨⟨Nat.le_add_left 1 cs.length, hle⟩, rfl⟩
  | alternative cs =>
    rw [build]
    apply (buildsAll_toRules cs).composite (d := alternative cs) .choices
    · rintro rfl
      exact ⟨_, rfl, .noChoices⟩
    · intro hcs hle
      obtain ⟨c, cs, rfl⟩ := List.exists_cons_of_ne_nil hcs
      exact ⟨⟨Nat.le_add_left 1 cs.length, hle⟩, rfl⟩

theorem buildsAll_toRules (cs : List Config) :
    Builds (nodesOf cs) (toRules cs : List (Rule σ)) (buildAll cs) := by
  cases cs with
  | nil => exact .inl ⟨List.forall_mem_nil _, rfl⟩
  | cons c cs =>
    rw [buildAll]
    exact (builds_toRule c).append (buildsAll_toRules cs) List.cons

end

theorem build_of_inLimits {c : Config} (h : ∀ d ∈ c.nodes, d.InLimits) :
    c.build = .ok (c.toRule : Rule σ) := by
  rcases builds_toRule (σ := σ) c with ⟨-, hbuild⟩ | ⟨e, hfirst, -⟩
  · exact hbuild
  · exact absurd hfirst (not_firstViolation h e)

theorem build_of_firstViolation {c : Config} {e : RuleError} (h : FirstViolation c.nodes e) :
    (c.build : Except RuleError (Rule σ)) = .error e := by
  rcases builds_toRule (σ := σ) c with ⟨hlimits, -⟩ | ⟨f, hfirst, hbuild⟩
  · exact absurd h (not_firstViolation hlimits e)
  · rw [hbuild, h.unique hfirst]

theorem compile_of_tooDeep {c : Config} (h : Limits.maxConfigDepth < c.depth) :
    (c.compile : Except RuleError (Rule σ))
      = .error (.depthExceeded c.depth Limits.maxConfigDepth) := by
  rw [compile, if_pos h]
  rfl

theorem compile_of_violation {c : Config} {e : RuleError}
    (hdepth : c.depth ≤ Limits.maxConfigDepth)
    (hbuild : (c.build : Except RuleError (Rule σ)) = .error e) :
    (c.compile : Except RuleError (Rule σ)) = .error e := by
  rw [compile, if_neg (Nat.not_lt.mpr hdepth), hbuild]
  rfl

theorem compile_of_built {c : Config} {r : Rule σ} (hdepth : c.depth ≤ Limits.maxConfigDepth)
    (hbuild : c.build = .ok r) :
    c.compile = if c.nodeCount > Limits.maxRuleNodes
      then .error (.tooManyNodes c.nodeCount Limits.maxRuleNodes) else .ok r := by
  rw [compile, if_neg (Nat.not_lt.mpr hdepth), hbuild]
  simp only [bind, Except.bind]
  split <;> rfl

/-- A config within the limits compiles to its rule, and any other is refused. -/
theorem compile_cases (c : Config) :
    ((c.depth ≤ Limits.maxConfigDepth ∧ (∀ d ∈ c.nodes, d.InLimits) ∧
        c.nodeCount ≤ Limits.maxRuleNodes) ∧ c.compile = .ok (c.toRule : Rule σ)) ∨
      ∃ e, c.Refused e ∧ (c.compile : Except RuleError (Rule σ)) = .error e := by
  by_cases hdepth : Limits.maxConfigDepth < c.depth
  · exact .inr ⟨_, .tooDeep hdepth, compile_of_tooDeep hdepth⟩
  have hdepth := Nat.le_of_not_lt hdepth
  rcases builds_toRule (σ := σ) c with ⟨hlimits, hbuild⟩ | ⟨e, hfirst, hbuild⟩
  · have hcompile := compile_of_built hdepth hbuild
    by_cases hnodes : Limits.maxRuleNodes < c.nodeCount
    · rw [if_pos hnodes] at hcompile
      exact .inr ⟨_, .tooLarge hdepth hlimits hnodes, hcompile⟩
    · rw [if_neg hnodes] at hcompile
      exact .inl ⟨⟨hdepth, hlimits, Nat.le_of_not_lt hnodes⟩, hcompile⟩
  · exact .inr ⟨e, .node hdepth hfirst, compile_of_violation hdepth hbuild⟩

/-- What compiles is within every limit, and compiles to its rule. -/
theorem of_compile_eq_ok {c : Config} {r : Rule σ} (h : c.compile = .ok r) :
    c.depth ≤ Limits.maxConfigDepth ∧ (∀ d ∈ c.nodes, d.InLimits) ∧
      c.nodeCount ≤ Limits.maxRuleNodes ∧ c.toRule = r := by
  rcases compile_cases (σ := σ) c with ⟨⟨hdepth, hlimits, hnodes⟩, hcompile⟩ | ⟨e, -, hcompile⟩
  · rw [h] at hcompile
    injection hcompile with hrule
    exact ⟨hdepth, hlimits, hnodes, hrule.symm⟩
  · rw [h] at hcompile
    cases hcompile

theorem compile_of_refusal {c : Config} {e : RuleError} (h : c.Refused e) :
    (c.compile : Except RuleError (Rule σ)) = .error e := by
  cases h with
  | tooDeep hdepth => exact compile_of_tooDeep hdepth
  | node hdepth hfirst => exact compile_of_violation hdepth (build_of_firstViolation hfirst)
  | tooLarge hdepth hlimits hnodes =>
    rw [compile_of_built hdepth (build_of_inLimits hlimits), if_pos hnodes]

/-- A config compiles exactly where it keeps within every limit, and otherwise the first limit it
breaks is reported. -/
theorem compile_reports_first (c : Config) :
    ((∃ r : Rule σ, c.compile = .ok r) ↔ c.depth ≤ Limits.maxConfigDepth ∧
      (∀ d ∈ c.nodes, d.InLimits) ∧ c.nodeCount ≤ Limits.maxRuleNodes) ∧
    ∀ e, (c.compile : Except RuleError (Rule σ)) = .error e ↔ c.Refused e := by
  constructor
  · constructor
    · rintro ⟨r, hr⟩
      obtain ⟨hdepth, hlimits, hnodes, -⟩ := of_compile_eq_ok hr
      exact ⟨hdepth, hlimits, hnodes⟩
    · rintro ⟨hdepth, hlimits, hnodes⟩
      refine ⟨c.toRule, ?_⟩
      rw [compile_of_built hdepth (build_of_inLimits hlimits), if_neg (Nat.not_lt.mpr hnodes)]
  · refine fun e => ⟨?_, compile_of_refusal⟩
    intro herror
    rcases compile_cases (σ := σ) c with ⟨-, hcompile⟩ | ⟨f, hrefused, hcompile⟩
    · exact absurd (herror.symm.trans hcompile) nofun
    · have heq := herror.symm.trans hcompile
      injection heq with heq
      exact heq ▸ hrefused

end Backtrack.Config
