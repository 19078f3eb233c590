import Backtrack.Custom.Combinators
import Backtrack.Proofs.Unlimited
import Backtrack.Proofs.Visits
import Mathlib.Algebra.BigOperators.Group.List.Basic
import Mathlib.Algebra.GroupWithZero.Nat

/-!
# The call tree of a trace

A trace lists evaluations in the order in which they were entered. Each one but the first stands
inside an earlier one, the last that is one level higher, and starts where that one started or
further on. What carries the proof is the evaluation that is still open: all that was noted since is
deeper, so whatever comes next one level deeper stands inside it.
-/

set_option autoImplicit false

namespace Backtrack

variable {σ : Type}

/-- An evaluation of the kind can go on from one input to another, which is an end of it, and a
shorter one behind a single character. -/
def Kind.LeadsTo (kind : Kind) (s t : Input) : Prop := t <:+ s ∧ (kind ∈ atoms → t ≠ s)

namespace SearchTree

/-- The outer visits start at allowed inputs, and each other visit where the one around it leads. -/
def Onward : SearchTree σ → (allowed : Input → Prop) → Prop
  | leaf _, _ => True
  | ask _, _ => True
  | visit kind s body, allowed => allowed s ∧ body.Onward (kind.LeadsTo s)
  | branch first onSuccess onFailure, allowed =>
    first.Onward allowed ∧ onSuccess.Onward allowed ∧ onFailure.Onward allowed
  | change _ next, allowed => next.Onward allowed

theorem Onward.mono {tree : SearchTree σ} {p q : Input → Prop} (h : tree.Onward p)
    (hpq : ∀ s, p s → q s) : tree.Onward q := by
  induction tree with
  | leaf => trivial
  | ask => trivial
  | visit kind s body _ => exact ⟨hpq s h.1, h.2⟩
  | branch first onSuccess onFailure ihfirst ihsuccess ihfailure =>
    obtain ⟨hfirst, hsuccess, hfailure⟩ := h
    exact ⟨ihfirst hfirst, ihsuccess hsuccess, ihfailure hfailure⟩
  | change f next ih => exact ih h

/-- What starts at an input goes on to ends of it only. -/
theorem closed_onward : Closed fun s (tree : SearchTree σ) => tree.Onward (· <:+ s) where
  leaf _ _ := trivial
  atom {κ} kind accepts s hκ := by
    refine ⟨List.suffix_rfl, ?_⟩
    rcases consume_cases accepts κ s with heq | ⟨c, rest, rfl, heq⟩
    · rw [heq]
      trivial
    · rw [heq]
      apply (hκ rest).mono
      intro t ht
      refine ⟨ht.trans (List.suffix_cons c rest), ?_⟩
      rintro - rfl
      have hle := ht.length_le
      rw [List.length_cons] at hle
      omega
  visit {kind s body} hkind hbody := by
    refine ⟨List.suffix_rfl, ?_⟩
    apply hbody.mono
    intro t ht
    exact ⟨ht, fun hatom => absurd hatom hkind⟩
  orElse _ hfirst hsecond := ⟨hfirst, trivial, hsecond⟩
  change _ _ hnext := hnext

end SearchTree

namespace Step

/-- The step stands in the row, and all that come after it there are deeper. -/
def OpenAfter (step : Step) (row : List Step) : Prop :=
  ∃ before inside, row = before ++ step :: inside ∧ ∀ inner ∈ inside, step.depth < inner.depth

/-- The second step is one level inside the first, and has not gone back. -/
structure Calls (outer inner : Step) : Prop where
  depth_eq : inner.depth = outer.depth + 1
  offset_le : outer.offset ≤ inner.offset
  offset_lt : outer.rule ∈ Kind.atoms.map Kind.name → outer.offset < inner.offset

/-- The step goes on from the row as the pre-order of a call tree does: it was called by the last
step of the row that is one level higher. -/
structure Follows (step : Step) (row : List Step) : Prop where
  nested : 2 ≤ step.depth
  gradual : ∀ last, row.getLast? = some last → step.depth ≤ last.depth + 1
  called : ∃ outer : Step, outer.OpenAfter row ∧ outer.Calls step

/-- The steps go on from the row one after another. -/
def InOrder : (row : List Step) → List Step → Prop
  | _, [] => True
  | row, step :: steps => step.Follows row ∧ InOrder (row ++ [step]) steps

theorem openAfter_newest (row : List Step) (step : Step) : step.OpenAfter (row ++ [step]) :=
  ⟨row, [], rfl, fun _ hinner => absurd hinner List.not_mem_nil⟩

theorem OpenAfter.append {step : Step} {row steps : List Step} (h : step.OpenAfter row)
    (hsteps : ∀ inner ∈ steps, step.depth < inner.depth) : step.OpenAfter (row ++ steps) := by
  obtain ⟨before, inside, rfl, hinside⟩ := h
  refine ⟨before, inside ++ steps, by simp, ?_⟩
  intro inner hinner
  rcases List.mem_append.mp hinner with hinner | hinner
  · exact hinside inner hinner
  · exact hsteps inner hinner

theorem OpenAfter.depth_le_getLast {step last : Step} {row : List Step} (h : step.OpenAfter row)
    (hlast : row.getLast? = some last) : step.depth ≤ last.depth := by
  obtain ⟨before, inside, rfl, hinside⟩ := h
  rw [List.getLast?_append, List.getLast?_cons, Option.some_or] at hlast
  obtain rfl := Option.some.inj hlast
  cases h : inside.getLast? with
  | none => exact Nat.le_refl _
  | some inner => exact Nat.le_of_lt (hinside inner (List.mem_of_getLast? h))

theorem OpenAfter.follows {outer step : Step} {row : List Step} (h : outer.OpenAfter row)
    (hdepth : 1 ≤ outer.depth) (hcalls : outer.Calls step) : step.Follows row where
  nested := by
    rw [hcalls.depth_eq]
    omega
  gradual last hlast := by
    have hle := h.depth_le_getLast hlast
    rw [hcalls.depth_eq]
    omega
  called := ⟨outer, h, hcalls⟩

theorem InOrder.append {row first second : List Step} (hfirst : InOrder row first)
    (hsecond : InOrder (row ++ first) second) : InOrder row (first ++ second) := by
  induction first generalizing row with
  | nil => simpa using hsecond
  | cons step first ih =>
    refine ⟨hfirst.1, ?_⟩
    apply ih hfirst.2
    simpa using hsecond

theorem InOrder.follows {row before after : List Step} {step : Step}
    (h : InOrder row (before ++ step :: after)) : step.Follows (row ++ before) := by
  induction before generalizing row with
  | nil => simpa using h.1
  | cons first before ih => simpa using ih h.2

end Step

theorem Kind.LeadsTo.calls {outer : Kind} {s t u : Input} (h : outer.LeadsTo t u) (ht : t <:+ s)
    (inner : Kind) (depth : Nat) :
    (Step.mk outer.name (bytes s - bytes t) depth).Calls
      ⟨inner.name, bytes s - bytes u, depth + 1⟩ := by
  have hle : bytes t ≤ bytes s := bytes_le_of_suffix ht
  refine ⟨rfl, Nat.sub_le_sub_left (bytes_le_of_suffix h.1) (bytes s), ?_⟩
  intro hrule
  obtain ⟨atom, hatom, hname⟩ := List.mem_map.mp hrule
  obtain rfl := Kind.name_injective hname
  have hlt : bytes u < bytes t := bytes_lt_of_suffix h.1 (h.2 hatom)
  show bytes s - bytes t < bytes s - bytes u
  omega

namespace SearchTree

theorem depth_lt_visits (tree : SearchTree σ) (size depth : Nat) :
    ∀ step ∈ tree.visits size depth, depth < step.depth := by
  intro step hstep
  induction tree generalizing depth with
  | leaf => cases hstep
  | ask => cases hstep
  | visit kind s body ih =>
    rcases List.mem_cons.mp hstep with rfl | hstep
    · exact Nat.lt_succ_self depth
    · exact Nat.lt_of_succ_lt (ih (depth + 1) hstep)
  | branch first onSuccess onFailure ihfirst ihsuccess ihfailure =>
    rcases List.mem_append.mp hstep with hstep | hstep
    · exact ihfirst depth hstep
    · split at hstep
      · exact ihsuccess depth hstep
      · exact ihfailure depth hstep
  | change f next ih => exact ih depth hstep

/-- Inside an open evaluation the visits of a tree go on in pre-order. -/
theorem Onward.inOrder {tree : SearchTree σ} {kind : Kind} {s t : Input} {depth : Nat}
    {row : List Step} (h : tree.Onward (kind.LeadsTo t)) (ht : t <:+ s) (hdepth : 1 ≤ depth)
    (hopen : (Step.mk kind.name (bytes s - bytes t) depth).OpenAfter row) :
    Step.InOrder row (tree.visits (bytes s) depth) := by
  induction tree generalizing kind t depth row with
  | leaf => trivial
  | ask => trivial
  | visit inner u body ih =>
    obtain ⟨hleads, hbody⟩ := h
    have hu : u <:+ s := hleads.1.trans ht
    refine ⟨hopen.follows hdepth (hleads.calls ht inner depth), ?_⟩
    -- inside the visit it is the visit itself that is open
    exact ih hbody hu (Nat.le_add_left 1 depth) (Step.openAfter_newest row _)
  | branch first onSuccess onFailure ihfirst ihsuccess ihfailure =>
    obtain ⟨hfirst, hsuccess, hfailure⟩ := h
    -- all that the first part entered was left again
    have hopen' := hopen.append (first.depth_lt_visits (bytes s) depth)
    apply (ihfirst hfirst ht hdepth hopen).append
    split
    · exact ihsuccess hsuccess ht hdepth hopen'
    · exact ihfailure hfailure ht hdepth hopen'
  | change f next ih => exact ih h ht hdepth hopen

theorem Onward.of_mem_visits {tree : SearchTree σ} {allowed : Input → Prop} {s : Input}
    {depth : Nat} {step : Step} (h : tree.Onward allowed) (hallowed : ∀ t, allowed t → t <:+ s)
    (hstep : step ∈ tree.visits (bytes s) depth) :
    ∃ kind : Kind, ∃ t, step.rule = kind.name ∧ t <:+ s ∧ step.offset = bytes s - bytes t := by
  induction tree generalizing allowed depth with
  | leaf => cases hstep
  | ask => cases hstep
  | visit kind t body ih =>
    obtain ⟨ht, hbody⟩ := h
    rcases List.mem_cons.mp hstep with rfl | hstep
    · exact ⟨kind, t, rfl, hallowed t ht, rfl⟩
    · exact ih hbody (fun u hu => hu.1.trans (hallowed t ht)) hstep
  | branch first onSuccess onFailure ihfirst ihsuccess ihfailure =>
    obtain ⟨hfirst, hsuccess, hfailure⟩ := h
    rcases List.mem_append.mp hstep with hstep | hstep
    · exact ihfirst hfirst hallowed hstep
    · split at hstep
      · exact ihsuccess hsuccess hallowed hstep
      · exact ihfailure hfailure hallowed hstep
  | change f next ih => exact ih h hallowed hstep

end SearchTree

theorem Rule.searchTree_eq_visit [Inhabited σ] (r : Rule σ) (s : Input)
    (κ : Input → SearchTree σ) : ∃ body, r.searchTree s κ = .visit r.kind s body := by
  cases r with
  | many r =>
    rw [Rule.searchTree, SearchTree.repeated]
    exact ⟨_, rfl⟩
  | _ => exact ⟨_, rfl⟩

namespace Trace

/-- The record is the pre-order of a call tree of the root, in which places only advance. -/
structure Shaped (trace : Trace) (root : Kind) (s : Input) : Prop where
  steps_eq_length : trace.steps = trace.path.length
  steps_pos : 1 ≤ trace.steps
  steps_eq_sum : trace.steps = (Kind.all.map fun kind => trace.count kind.name).sum
  maxDepth_eq : (trace.path.map (·.depth)).max? = some trace.maxDepth
  root_eq : trace.path.head? = some ⟨root.name, 0, 1⟩
  aligned : ∀ step ∈ trace.path, ∃ consumed, consumed <+: s ∧ step.offset = bytes consumed
  later : ∀ earlier step after, trace.path = earlier ++ step :: after → earlier ≠ [] →
    step.Follows earlier

/-- The counts by kind add up, as every step is of one kind. -/
theorem sum_count (path : List Step) (h : ∀ step ∈ path, ∃ kind : Kind, step.rule = kind.name) :
    (Kind.all.map fun kind => path.countP (·.rule == kind.name)).sum = path.length := by
  induction path with
  | nil => rfl
  | cons step path ih =>
    obtain ⟨⟨kind, hkind⟩, hpath⟩ := List.forall_mem_cons.mp h
    have hone : (Kind.all.map fun k => if step.rule == k.name then 1 else 0).sum = 1 := by
      rw [hkind]
      cases kind <;> decide
    simp only [List.countP_cons]
    rw [List.sum_map_add, ih hpath, hone, List.length_cons]

end Trace

namespace Rule

section Root
variable {plain r : Rule Gauges} (h : Observed plain r) (s : Input)
include h

/-- The visits of a rule under observers are a root and what follows it. -/
theorem Observed.visits_eq_cons :
    ∃ later, r.visits s = ⟨r.kind.name, 0, 1⟩ :: later ∧
      Step.InOrder [⟨r.kind.name, 0, 1⟩] later := by
  have honward : (r.wholeTree s).Onward (· <:+ s) := h.closed SearchTree.closed_onward s fun _ => trivial
  obtain ⟨body, hbody⟩ := r.searchTree_eq_visit s .ask
  rw [wholeTree, hbody] at honward
  have hroot : Step.mk r.kind.name (bytes s - bytes s) 1 = ⟨r.kind.name, 0, 1⟩ := by
    rw [Nat.sub_self]
  have hvisits : r.visits s
      = ⟨r.kind.name, bytes s - bytes s, 1⟩ :: body.visits (bytes s) 1 := by
    rw [visits, wholeTree, hbody]
    rfl
  rw [hroot] at hvisits
  refine ⟨_, hvisits, ?_⟩
  apply honward.2.inOrder List.suffix_rfl (Nat.le_refl 1)
  rw [hroot]
  exact Step.openAfter_newest [] _

theorem Observed.shaped_trace (g : Gauges) : (r.trace s g).1.Shaped r.kind s := by
  have honward : (r.wholeTree s).Onward (· <:+ s) := h.closed SearchTree.closed_onward s fun _ => trivial
  have hmem : ∀ step ∈ r.visits s, ∃ kind : Kind, ∃ t,
      step.rule = kind.name ∧ t <:+ s ∧ step.offset = bytes s - bytes t := by
    intro step hstep
    exact honward.of_mem_visits (fun _ ht => ht) hstep
  have hpath := trace_path h.blind s g
  have hsteps := trace_steps h.blind s g
  obtain ⟨later, hvisits, horder⟩ := h.visits_eq_cons s
  constructor
  · rw [hsteps, hpath]
  · rw [hsteps, hvisits, List.length_cons]
    omega
  · have hkinds : ∀ step ∈ r.visits s, ∃ kind : Kind, step.rule = kind.name := by
      intro step hstep
      obtain ⟨kind, -, hkind, -⟩ := hmem step hstep
      exact ⟨kind, hkind⟩
    simp only [Trace.count]
    rw [hsteps, hpath, Trace.sum_count (r.visits s) hkinds]
  · rw [hpath, trace_maxDepth h.blind, hvisits]
    rfl
  · rw [hpath, hvisits]
    rfl
  · rw [hpath]
    intro step hstep
    obtain ⟨-, t, -, ht, hoffset⟩ := hmem step hstep
    rw [hoffset]
    exact bytes_sub_of_suffix ht
  · intro earlier step after hsplit hne
    rw [hpath, hvisits] at hsplit
    cases earlier with
    | nil => exact absurd rfl hne
    | cons root earlier =>
      injection hsplit with hroot hlater
      subst hroot
      rw [hlater] at horder
      exact horder.follows

end Root

theorem stateless_withinSteps (most : Nat) : (withinSteps most : Rule σ).Stateless := by
  intro s steps depth
  dsimp only
  split
  · exact fun _ => trivial
  · trivial

/-- What one call keeps for itself is no state: the next call finds nothing of it. -/
theorem stateless_atomic {inner : Rule σ} (h : inner.Stateless) : (atomic inner).Stateless := by
  intro s
  refine ⟨h, fun rest memory => trivial, ?_⟩
  rintro found (_ | ⟨rest, memory⟩)
  · trivial
  · dsimp only
    split
    · exact fun _ => trivial
    · trivial

/-- Custom rules that share nothing do not notice that a record is kept, whatever each call keeps for
itself, and under observers the record is the pre-order of a call tree in which places only advance. -/
theorem trace_callTree :
    (∀ {σ : Type} (r : Rule σ), r.Stateless → ∀ s shared shared',
      (r.trace s shared).1.matched = (r.isMatch s shared').1) ∧
    ∀ plain r : Rule Gauges, Observed plain r → ∀ s g,
      (∀ g', (r.trace s g).1.matched = (r.isMatch s g').1) ∧
        (r.trace s g).1.Shaped r.kind s := by
  constructor
  · intro σ r hr s shared shared'
    exact matched_trace hr s shared shared'
  · intro plain r h s g
    refine ⟨?_, h.shaped_trace s g⟩
    intro g'
    rw [trace_matched h.blind, isMatch_eq h.blind]

/-- A rule that asks for the number of steps behind one that keeps what was left over, and a repetition
under observers. -/
theorem trace_callTree_counted :
    ((append (atomic (many (val 'a'))) (withinSteps 6) : Rule Unit).trace ['a'] ()).1.matched
        = ((append (atomic (many (val 'a'))) (withinSteps 6) : Rule Unit).isMatch ['a'] ()).1 ∧
      ((append (atomic (many (val 'a'))) (val 'a') : Rule Unit).trace ['a'] ()).1.matched = false ∧
      ((append (counted 0 (many (val 'é'))) (recorded 1 any)).trace ['é', 'a'] .empty).1.path
        = [⟨"append", 0, 1⟩, ⟨"custom", 0, 2⟩, ⟨"many", 0, 3⟩, ⟨"val", 0, 4⟩, ⟨"many", 2, 5⟩,
            ⟨"val", 2, 6⟩, ⟨"custom", 2, 6⟩, ⟨"any", 2, 7⟩] ∧
      ((append (counted 0 (many (val 'é'))) (recorded 1 any)).trace ['é', 'a'] .empty).1.Shaped
        .append ['é', 'a'] := by
  have hstateless : (append (atomic (many (val 'a'))) (withinSteps 6) : Rule Unit).Stateless :=
    ⟨stateless_atomic trivial, stateless_withinSteps 6⟩
  have hobserved : Observed (append (many (val 'é')) any)
      (append (counted 0 (many (val 'é'))) (recorded 1 any)) :=
    .append (.counted 0 (.many (.val 'é'))) (.recorded 1 .any)
  refine ⟨trace_callTree.1 _ hstateless ['a'] () (), by decide +kernel, by decide +kernel, ?_⟩
  exact (trace_callTree.2 _ _ hobserved ['é', 'a'] .empty).2

end Rule

end Backtrack
