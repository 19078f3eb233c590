import Backtrack.Proofs.Admission
import Backtrack.Proofs.Congruence
import Backtrack.Search.Match

/-!
# The counters of a search

A search changes only by entering an evaluation, refusing one, and leaving one. A `Walk` is a row of
such changes with the number of evaluations entered on it, and it leaves nothing that was not
entered. What holds of the counters after every walk from a fresh search is `Search.Consistent`.

An evaluation walks from wherever it starts and comes back to the depth it started from, whatever its
custom rules do and however its continuation goes on in the same search.
-/

set_option autoImplicit false

namespace Backtrack

variable {ω σ : Type} {α : Type}

namespace Search

/-- From one state of a search to another, with so many evaluations entered on the way. -/
inductive Walk (first : Search) : Nat → Search → Prop where
  | refl : Walk first 0 first
  | enter {n : Nat} {search : Search} {kind : Kind} {s : Input} : Walk first n search →
    (search.enter kind s).1 = true → Walk first (n + 1) (search.enter kind s).2
  | refuse {n : Nat} {search : Search} {kind : Kind} {s : Input} : Walk first n search →
    (search.enter kind s).1 = false → Walk first n (search.enter kind s).2
  | leave {n : Nat} {search : Search} : Walk first n search → 0 < search.depth →
    Walk first n search.leave

/-- A state in which a search with these limits can be, after so many evaluations entered. -/
def Reachable (stepLimit nestingLimit : Option Nat) (entered : Nat) (search : Search) : Prop :=
  ∃ s recording, (start s stepLimit nestingLimit recording).Walk entered search

/-- What the counters of a search with these limits say about each other. -/
structure Consistent (stepLimit nestingLimit : Option Nat) (entered : Nat) (search : Search) :
    Prop where
  one_limit : ¬ (search.exhausted = true ∧ search.tooDeep = true)
  exhausted_iff : ∀ limit, stepLimit = some limit →
    (search.exhausted = true ↔ search.steps = limit + 1)
  steps_le : ∀ limit, stepLimit = some limit → search.exhausted = false → search.steps ≤ limit
  not_exhausted : stepLimit = none → search.exhausted = false
  not_tooDeep : nestingLimit = none → search.tooDeep = false
  depth_le : search.depth ≤ search.maxDepth
  maxDepth_le : ∀ limit, nestingLimit = some limit → search.maxDepth ≤ limit
  entered_le : ∀ limit, stepLimit = some limit → entered ≤ limit
  /-- The refused evaluation at which a search stops is the only one counted but not entered. -/
  steps_eq : search.steps = entered + if search.stopped then 1 else 0
  recorded : ∀ path, search.path = some path → path.length = entered

section Enter
variable {search : Search} {kind : Kind} {s : Input}

/-- A search refuses an evaluation because it has stopped, or stops by the refusal. -/
theorem enter_of_refusal (h : (search.enter kind s).1 = false) :
    search.stopped = true ∧ (search.enter kind s).2 = search ∨
      ∃ halt, search.stopped = false ∧ (search.enter kind s).2 = search.refuse halt := by
  rcases enter_cases search kind s with
    ⟨hstopped, heq⟩ | ⟨halt, hrunning, -, heq⟩ | ⟨-, -, heq⟩
  · exact .inl ⟨hstopped, by rw [heq]⟩
  · exact .inr ⟨halt, hrunning, by rw [heq]⟩
  · rw [heq] at h
    cases h

theorem enter_of_entered (h : (search.enter kind s).1 = true) :
    search.stopped = false ∧ (search.enter kind s).2 = search.descend kind s := by
  rcases enter_cases search kind s with ⟨-, heq⟩ | ⟨halt, -, -, heq⟩ | ⟨hrunning, -, heq⟩
  · rw [heq] at h
    cases h
  · rw [heq] at h
    cases h
  · exact ⟨hrunning, by rw [heq]⟩

theorem depth_of_refused (h : (search.enter kind s).1 = false) :
    (search.enter kind s).2.depth = search.depth := by
  rcases enter_of_refusal h with ⟨-, heq⟩ | ⟨halt, -, heq⟩
  · rw [heq]
  · rw [heq, depth_refuse]

theorem depth_of_entered (h : (search.enter kind s).1 = true) :
    (search.enter kind s).2.depth = search.depth + 1 := by
  rw [(enter_of_entered h).2]
  rfl

theorem path_of_refused (h : (search.enter kind s).1 = false) :
    (search.enter kind s).2.path = search.path := by
  rcases enter_of_refusal h with ⟨-, heq⟩ | ⟨halt, -, heq⟩
  · rw [heq]
  · rw [heq, path_refuse]

theorem path_of_entered (h : (search.enter kind s).1 = true) :
    (search.enter kind s).2.path = search.path.map (search.stepAt kind s :: ·) := by
  rw [(enter_of_entered h).2]
  rfl

end Enter

namespace Walk

variable {first middle last : Search} {m n : Nat}

theorem trans (h : first.Walk m middle) (h' : middle.Walk n last) : first.Walk (m + n) last := by
  induction h' with
  | refl => exact h
  | enter _ henter ih => exact .enter ih henter
  | refuse _ henter ih => exact .refuse ih henter
  | leave _ hdepth ih => exact .leave ih hdepth

/-- What no single change of a search spoils holds after every walk. -/
theorem preserves {I : Search → Prop}
    (henter : ∀ search kind s, I search → I (search.enter kind s).2)
    (hleave : ∀ search, I search → I search.leave) (h : first.Walk n last) (hfirst : I first) :
    I last := by
  induction h with
  | refl => exact hfirst
  | enter _ _ ih => exact henter _ _ _ ih
  | refuse _ _ ih => exact henter _ _ _ ih
  | leave _ _ ih => exact hleave _ ih

theorem steps_le (h : first.Walk n last) : first.steps ≤ last.steps := by
  refine h.preserves (I := fun search => first.steps ≤ search.steps) ?_ (fun _ hle => hle)
    (Nat.le_refl _)
  intro search kind s hle
  rcases enter_cases search kind s with ⟨-, heq⟩ | ⟨halt, -, -, heq⟩ | ⟨-, -, heq⟩
  · rwa [heq]
  · rw [heq, steps_refuse]
    exact Nat.le_succ_of_le hle
  · rw [heq]
    exact Nat.le_succ_of_le hle

/-- A search that stopped stays as it is, but for the evaluations that it still leaves. -/
theorem flags (h : first.Walk n last) :
    (first.exhausted = true → last.exhausted = true) ∧
      (first.tooDeep = true → last.tooDeep = true) := by
  refine h.preserves (I := fun search => (first.exhausted = true → search.exhausted = true) ∧
    (first.tooDeep = true → search.tooDeep = true)) ?_ (fun _ hflags => hflags) ⟨id, id⟩
  intro search kind s hflags
  rcases enter_cases search kind s with ⟨-, heq⟩ | ⟨halt, -, -, heq⟩ | ⟨-, -, heq⟩
  · rwa [heq]
  · rw [heq]
    cases halt with
    | steps => exact ⟨fun _ => rfl, hflags.2⟩
    | nesting => exact ⟨hflags.1, fun _ => rfl⟩
  · rw [heq]
    exact hflags

theorem limits (h : first.Walk n last) :
    last.stepLimit = first.stepLimit ∧ last.nestingLimit = first.nestingLimit := by
  refine h.preserves (I := fun search =>
    search.stepLimit = first.stepLimit ∧ search.nestingLimit = first.nestingLimit) ?_
    (fun _ heq => heq) ⟨rfl, rfl⟩
  intro search kind s hlimits
  rcases enter_cases search kind s with ⟨-, heq⟩ | ⟨_ | _, -, -, heq⟩ | ⟨-, -, heq⟩ <;>
    · rw [heq]
      exact hlimits

theorem sound (h : first.Walk n last) (hfirst : first.Sound) : last.Sound :=
  h.preserves (fun _ kind s hsound => hsound.enter kind s) (fun _ hsound => hsound.leave) hfirst

theorem free (h : first.Walk n last) (hfirst : first.Free) : last.Free := by
  refine h.preserves (fun search kind s hfree => ?_) (fun _ hfree => hfree.leave) hfirst
  rw [hfree.enter]
  exact hfree.descend kind s

theorem path_suffix (h : first.Walk n last)
    {before : List Step} (hpath : first.path = some before) :
    ∃ later, last.path = some (later ++ before) := by
  refine h.preserves (I := fun search => ∃ later, search.path = some (later ++ before)) ?_
    (fun _ hpath => hpath) ⟨[], hpath⟩
  rintro search kind s ⟨later, hlater⟩
  rcases search.enter_cases kind s with ⟨-, heq⟩ | ⟨halt, -, -, heq⟩ | ⟨-, -, heq⟩
  · rw [heq]
    exact ⟨later, hlater⟩
  · rw [heq, path_refuse]
    exact ⟨later, hlater⟩
  · rw [heq]
    refine ⟨⟨kind.name, search.inputSize - bytes s, search.depth + 1⟩ :: later, ?_⟩
    simp [Search.descend, hlater]

end Walk

namespace Reachable

variable {stepLimit nestingLimit : Option Nat} {entered n : Nat} {search last : Search}

theorem walk (h : Reachable stepLimit nestingLimit entered search) (hwalk : search.Walk n last) :
    Reachable stepLimit nestingLimit (entered + n) last := by
  obtain ⟨s, recording, hstart⟩ := h
  exact ⟨s, recording, hstart.trans hwalk⟩

theorem limits (h : Reachable stepLimit nestingLimit entered search) :
    search.stepLimit = stepLimit ∧ search.nestingLimit = nestingLimit := by
  obtain ⟨s, recording, hstart⟩ := h
  exact hstart.limits

theorem sound (h : Reachable stepLimit nestingLimit entered search) : search.Sound := by
  obtain ⟨s, recording, hstart⟩ := h
  exact hstart.sound (sound_start s stepLimit nestingLimit recording)

theorem steps_eq (h : Reachable stepLimit nestingLimit entered search) :
    search.steps = entered + if search.stopped then 1 else 0 := by
  obtain ⟨s, recording, hstart⟩ := h
  induction hstart with
  | refl => rfl
  | @enter n search kind s _ henter ih =>
    obtain ⟨hrunning, heq⟩ := enter_of_entered henter
    have hstill : (search.descend kind s).stopped = false := hrunning
    have hsteps : (search.descend kind s).steps = search.steps + 1 := rfl
    rw [hrunning] at ih
    rw [heq, hstill, hsteps, ih]
    rfl
  | @refuse n search kind s _ henter ih =>
    rcases enter_of_refusal henter with ⟨-, heq⟩ | ⟨halt, hrunning, heq⟩
    · rwa [heq]
    · rw [hrunning] at ih
      rw [heq, stopped_refuse, steps_refuse, ih]
      rfl
  | leave _ _ ih => exact ih

theorem recorded (h : Reachable stepLimit nestingLimit entered search) {path : List Step}
    (hpath : search.path = some path) : path.length = entered := by
  obtain ⟨s, recording, hstart⟩ := h
  induction hstart generalizing path with
  | refl => cases recording <;> cases hpath; rfl
  | enter _ henter ih =>
    rw [path_of_entered henter] at hpath
    obtain ⟨before, hbefore, rfl⟩ := Option.map_eq_some_iff.mp hpath
    exact congrArg (· + 1) (ih hbefore)
  | refuse _ henter ih =>
    rw [path_of_refused henter] at hpath
    exact ih hpath
  | leave _ _ ih => exact ih hpath

theorem consistent (h : Reachable stepLimit nestingLimit entered search) :
    search.Consistent stepLimit nestingLimit entered := by
  have hsound := h.sound
  have hsteps := h.steps_eq
  obtain ⟨rfl, rfl⟩ := h.limits
  have hexhausted : ∀ limit, search.stepLimit = some limit →
      (search.exhausted = true ↔ search.steps = limit + 1) := by
    intro limit hlimit
    constructor
    · intro hout
      obtain ⟨limit', hlimit', heq⟩ := hsound.exhausted_steps hout
      rw [hlimit] at hlimit'
      cases hlimit'
      exact heq
    · intro heq
      cases hout : search.exhausted with
      | true => rfl
      | false =>
        have hle := hsound.steps_le limit hlimit hout
        omega
  exact {
    one_limit := hsound.one_limit
    exhausted_iff := hexhausted
    steps_le := hsound.steps_le
    not_exhausted := by
      intro hnone
      apply Bool.eq_false_iff.mpr
      intro hout
      obtain ⟨limit, hlimit, -⟩ := hsound.exhausted_steps hout
      rw [hlimit] at hnone
      cases hnone
    not_tooDeep := by
      intro hnone
      apply Bool.eq_false_iff.mpr
      intro hdeep
      exact hsound.tooDeep_limit hdeep hnone
    depth_le := hsound.depth_le
    maxDepth_le := hsound.maxDepth_le
    entered_le := by
      intro limit hlimit
      cases hout : search.exhausted with
      | true =>
        have heq := (hexhausted limit hlimit).mp hout
        have hstopped : search.stopped = true := stopped_eq_true.mpr (.inl hout)
        rw [hstopped, if_pos rfl] at hsteps
        omega
      | false =>
        have hle := hsound.steps_le limit hlimit hout
        omega
    steps_eq := hsteps
    recorded := fun path hpath => h.recorded hpath }

end Reachable

end Search

namespace SearchM

/-- From every state the computation walks through its search and back to the same depth. -/
def Balanced (m : SearchM ω σ α) : Prop :=
  ∀ world, (∃ n, world.search.Walk n (m world).2.search) ∧
    (m world).2.search.depth = world.search.depth

theorem Balanced.bind {β : Type} {m : SearchM ω σ α} {f : α → SearchM ω σ β} (hm : m.Balanced)
    (hf : ∀ a, (f a).Balanced) : (m >>= f).Balanced := by
  intro world
  obtain ⟨⟨n, hwalk⟩, hdepth⟩ := hm world
  obtain ⟨⟨n', hwalk'⟩, hdepth'⟩ := hf (m world).1 (m world).2
  exact ⟨⟨n + n', hwalk.trans hwalk'⟩, hdepth'.trans hdepth⟩

theorem Balanced.visit {body : SearchM ω σ α} (h : body.Balanced) (refused : α) (kind : Kind)
    (s : Input) : (visitOr refused kind s body).Balanced := by
  intro world
  cases henter : (world.search.enter kind s).1 with
  | false =>
    rw [visitOr_of_refused henter]
    exact ⟨⟨0, .refuse .refl henter⟩, Search.depth_of_refused henter⟩
  | true =>
    rw [visitOr_of_entered henter]
    obtain ⟨⟨n, hbody⟩, hdepth⟩ := h { world with search := (world.search.enter kind s).2 }
    have hdeeper := hdepth.trans (Search.depth_of_entered henter)
    refine ⟨⟨_, .leave ((Search.Walk.enter .refl henter).trans hbody) ?_⟩, ?_⟩
    · rw [hdeeper]
      exact Nat.succ_pos _
    · exact congrArg (· - 1) hdeeper

theorem congruence_balanced :
    Congruence Eq fun {α} (m _ : SearchM ω σ α) => m.Balanced where
  answer _ _ := ⟨⟨0, .refl⟩, rfl⟩
  bind hm hf := hm.bind hf
  visit refused kind s hm := hm.visit refused kind s
  look hf world := hf world.search.steps world.search.depth world
  change g _ _ hf world := hf (g world.shared) _ rfl { world with shared := g world.shared }

theorem Balanced.orElse {m n : SearchM ω σ Bool} (hm : m.Balanced) (hn : n.Balanced) :
    (orElse m n).Balanced := by
  apply hm.bind
  intro matched
  cases matched with
  | true => exact fun world => ⟨⟨0, .refl⟩, rfl⟩
  | false => exact hn

theorem balanced_consume {k : Continuation ω σ} (hk : ∀ rest, (k rest).Balanced)
    (accepts : Char → Bool) (s : Input) : (consume accepts k s).Balanced :=
  @Sequencing.consume _ _ _ _ _ congruence_balanced.toSequencing accepts k k hk s

/-- A computation that comes to its search only through evaluations, and otherwise works outside it.
A continuation of a custom rule's making is of this kind. -/
inductive Tame : {α : Type} → SearchM ω σ α → Prop where
  | outer {α : Type} (f : StateM (ω × σ) α) :
    Tame fun world =>
      let (a, outer, shared) := f (world.outer, world.shared)
      (a, { world with outer := outer, shared := shared })
  | look {α : Type} (f : Nat → Nat → α) :
    Tame fun world => (f world.search.steps world.search.depth, world)
  | bind {α β : Type} {m : SearchM ω σ α} {f : α → SearchM ω σ β} :
    Tame m → (∀ a, Tame (f a)) → Tame (m >>= f)
  | eval (r : Rule σ) (s : Input) {k : Continuation ω σ} :
    (∀ rest, Tame (k rest)) → Tame (r.eval s k)
  | play (d : Dialogue σ) {k : Continuation ω σ} :
    (∀ rest, Tame (k rest)) → Tame (d.play k)

theorem Tame.balanced {m : SearchM ω σ α} (h : Tame m) : m.Balanced := by
  induction h with
  | outer f => exact fun world => ⟨⟨0, .refl⟩, rfl⟩
  | look f => exact fun world => ⟨⟨0, .refl⟩, rfl⟩
  | bind _ _ ihm ihf => exact ihm.bind ihf
  | @eval r s k _ ih => exact Rule.eval_congr congruence_balanced r.respects_eq (l := k) ih s
  | @play d k _ ih =>
    exact Dialogue.play_congr congruence_balanced d.respects_eq (l := k) ih

end SearchM

namespace Rule

/-- An evaluation is a visit, whatever is evaluated. -/
theorem eval_eq_visit (r : Rule σ) (s : Input) (k : Continuation ω σ) :
    ∃ body, r.eval s k = SearchM.visit r.kind s body := by
  cases r <;> rw [Rule.eval]
  case many r =>
    rw [repeated]
    exact ⟨_, rfl⟩
  all_goals exact ⟨_, rfl⟩

section Notes
variable {k : Continuation ω σ} (hk : ∀ rest, (k rest).Balanced) (s : Input)
include hk

theorem balanced_eval (r : Rule σ) : (r.eval s k).Balanced :=
  eval_congr SearchM.congruence_balanced r.respects_eq (l := k) hk s

/-- An evaluation is a visit around what leaves the search as deep as it was. -/
theorem eval_eq_visit_balanced (r : Rule σ) :
    ∃ body : SearchM ω σ Bool, body.Balanced ∧ r.eval s k = SearchM.visit r.kind s body := by
  have hP : Congruence Eq fun {α} (m _ : SearchM ω σ α) => m.Balanced := SearchM.congruence_balanced
  cases r with
  | any => exact ⟨_, SearchM.balanced_consume hk _ s, by rw [eval, kind]⟩
  | oneOf set => exact ⟨_, SearchM.balanced_consume hk _ s, by rw [eval, kind]⟩
  | val c => exact ⟨_, SearchM.balanced_consume hk _ s, by rw [eval, kind]⟩
  | empty => exact ⟨_, hk s, by rw [eval, kind]⟩
  | «end» => exact ⟨_, hP.answer s.isEmpty, by rw [eval, kind]⟩
  | append a b =>
    have hafter : ∀ rest, (b.eval rest k).Balanced := fun rest => balanced_eval hk rest b
    exact ⟨_, balanced_eval hafter s a, by rw [eval, kind]⟩
  | or a b =>
    exact ⟨_, (balanced_eval hk s a).orElse (balanced_eval hk s b), by rw [eval, kind]⟩
  | optional r => exact ⟨_, (balanced_eval hk s r).orElse (hk s), by rw [eval, kind]⟩
  | many r =>
    refine ⟨_, ?_, by rw [eval, repeated, kind]⟩
    refine (balanced_eval ?_ s r).orElse (hk s)
    intro rest
    split
    · have hmany := balanced_eval hk rest (many r)
      rwa [eval] at hmany
    · exact hP.answer false
  | custom label act =>
    exact ⟨_, Dialogue.play_congr hP (act s).respects_eq (l := k) hk, by rw [eval_custom, kind]⟩

/-- What an evaluation notes first is itself. -/
theorem eval_notes (r : Rule σ) (world : World ω σ) (hfree : world.search.Free)
    {before : List Step} (hpath : world.search.path = some before) :
    ∃ later, (r.eval s k world).2.search.path = some (later ++
      ⟨r.kind.name, world.search.inputSize - bytes s, world.search.depth + 1⟩ :: before) := by
  obtain ⟨body, hbody, heval⟩ := eval_eq_visit_balanced hk s r
  have henter := hfree.enter r.kind s
  obtain ⟨⟨n, hwalk⟩, -⟩ := hbody { world with search := world.search.descend r.kind s }
  rw [heval, SearchM.visit_of_entered (by rw [henter]), henter]
  apply hwalk.path_suffix
  simp [Search.descend, hpath]

end Notes

/-- An evaluation that is refused does nothing else: nobody is asked, and no custom rule is run. -/
theorem eval_of_refused (r : Rule σ) (s : Input) (k : Continuation ω σ) {world : World ω σ}
    (h : (world.search.enter r.kind s).1 = false) :
    r.eval s k world = (false, { world with search := (world.search.enter r.kind s).2 }) := by
  obtain ⟨body, hbody⟩ := r.eval_eq_visit s k
  rw [hbody, SearchM.visit_of_refused h]

/-- Once a limit was hit nothing is done any more. -/
theorem eval_of_stopped (r : Rule σ) (s : Input) (k : Continuation ω σ) {world : World ω σ}
    (h : world.search.stopped = true) : r.eval s k world = (false, world) := by
  have henter := Search.enter_of_stopped h r.kind s
  rw [r.eval_of_refused s k (by rw [henter]), henter]

end Rule

end Backtrack
