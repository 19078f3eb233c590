import Backtrack.Custom.Observed
import Backtrack.Proofs.Congruence

/-!
# Search trees

What a search may do about a rule, laid out before any of it is done. A tree says which evaluations
nest in which, where a remainder is handed on, and how the search goes on after a success or a
failure. It does not depend on limits, on records, or on what the continuation answers:
`SearchTree.run` brings these in.

Not every custom rule has a tree. One that looks at the search, runs another rule apart, keeps a
memory or decides on what is shared does not, and stands as a failure; `Rule.Blind` rules these out,
and every rule that is left runs as its tree.
-/

set_option autoImplicit false

namespace Backtrack

variable {ω σ : Type}

inductive SearchTree (σ : Type) where
  | leaf (verdict : Bool)
  /-- Hands a remainder to the continuation. -/
  | ask (rest : Input)
  | visit (kind : Kind) (input : Input) (body : SearchTree σ)
  | branch (first onSuccess onFailure : SearchTree σ)
  | change (f : σ → σ) (next : SearchTree σ)

namespace SearchTree

/-- The search through the tree, depth first. -/
def run (k : Continuation ω σ) : SearchTree σ → SearchM ω σ Bool
  | leaf verdict => return verdict
  | ask rest => k rest
  | visit kind s body => SearchM.visit kind s (body.run k)
  | branch first onSuccess onFailure => do
    if ← first.run k then onSuccess.run k else onFailure.run k
  | change f next => do
    modify fun world => { world with shared := f world.shared }
    next.run k

/-- To search beside something is to search, beside it. -/
theorem run_beside {β : Type} (k : Continuation ω σ) (tree : SearchTree σ) :
    tree.run (fun rest => (SearchM.beside (k rest) : SearchM (ω × β) σ Bool))
      = SearchM.beside (tree.run k) := by
  induction tree with
  | leaf verdict => rfl
  | ask rest => rfl
  | visit kind s body ih =>
    rw [run, run, ih]
    exact SearchM.beside_visitOr false kind s _
  | branch first onSuccess onFailure ihfirst ihsuccess ihfailure =>
    rw [run, run, ihfirst, ihsuccess, ihfailure]
    funext world
    simp only [SearchM.beside, bind, StateT.bind]
    rcases first.run k world.inner with ⟨_ | _, after⟩ <;> rfl
  | change f next ih =>
    rw [run, run, ih]
    rfl

/-- The second tree is tried only where the first one fails. -/
def orElse (first second : SearchTree σ) : SearchTree σ := branch first (leaf true) second

def consume (accepts : Char → Bool) (κ : Input → SearchTree σ) : Input → SearchTree σ
  | [] => leaf false
  | c :: rest => if accepts c then κ rest else leaf false

def repeated (round : Input → (Input → SearchTree σ) → SearchTree σ) (κ : Input → SearchTree σ)
    (s : Input) : SearchTree σ :=
  visit .many s <|
    orElse
      (round s fun rest => if bytes rest < bytes s then repeated round κ rest else leaf false)
      (κ s)
termination_by bytes s

theorem run_orElse (k : Continuation ω σ) (first second : SearchTree σ) :
    (orElse first second).run k = SearchM.orElse (first.run k) (second.run k) := rfl

theorem run_consume (k : Continuation ω σ) (accepts : Char → Bool) (κ : Input → SearchTree σ)
    (s : Input) :
    (consume accepts κ s).run k = Backtrack.consume accepts (fun rest => (κ rest).run k) s := by
  cases s with
  | nil => rfl
  | cons c rest =>
    simp only [consume, Backtrack.consume]
    split <;> rfl

theorem run_repeated {round : Input → Continuation ω σ → SearchM ω σ Bool}
    {layout : Input → (Input → SearchTree σ) → SearchTree σ} (k : Continuation ω σ)
    (hround : ∀ s κ, round s (fun rest => (κ rest).run k) = (layout s κ).run k)
    (κ : Input → SearchTree σ) (s : Input) :
    Backtrack.repeated round (fun rest => (κ rest).run k) s = (repeated layout κ s).run k := by
  fun_induction repeated layout κ s with
  | case1 s ih =>
    rw [Backtrack.repeated, run, run_orElse, ← hround]
    congr 3
    funext rest
    split
    · rename_i hlt
      exact ih rest hlt
    · rfl

end SearchTree

section Layout
variable [Inhabited σ]

mutual

/-- The tree of a rule on an input, with a tree for each remainder. -/
def Rule.searchTree : Rule σ → Input → (Input → SearchTree σ) → SearchTree σ
  | .any, s, κ => .visit .any s (.consume (fun _ => true) κ s)
  | .oneOf set, s, κ => .visit .oneOf s (.consume set.contains κ s)
  | .val c, s, κ => .visit .val s (.consume (· == c) κ s)
  | .empty, s, κ => .visit .empty s (κ s)
  | .end, s, _ => .visit .end s (.leaf s.isEmpty)
  | .append first second, s, κ =>
    .visit .append s (first.searchTree s fun rest => second.searchTree rest κ)
  | .or first second, s, κ =>
    .visit .or s (.orElse (first.searchTree s κ) (second.searchTree s κ))
  | .optional inner, s, κ => .visit .optional s (.orElse (inner.searchTree s κ) (κ s))
  | .many inner, s, κ => .repeated inner.searchTree κ s
  | .custom _ act, s, κ => .visit .custom s ((act s).searchTree κ)

def Dialogue.searchTree : Dialogue σ → (Input → SearchTree σ) → SearchTree σ
  | .answer verdict, _ => .leaf verdict
  | .offer rest next, κ =>
    .branch (κ rest) ((next true).searchTree κ) ((next false).searchTree κ)
  | .run rule s onRest next, κ =>
    .branch (rule.searchTree s fun rest => (onRest rest).searchTree κ)
      ((next true).searchTree κ) ((next false).searchTree κ)
  | .apart _ _ _ _, _ => .leaf false
  | .observe _, _ => .leaf false
  | .update f next, κ => .change f ((next default).searchTree κ)
  | .remember _ _, _ => .leaf false

end

end Layout

mutual

/-- No custom rule in the tree decides on anything but the verdicts it is given. -/
def Rule.Blind : Rule σ → Prop
  | .append a b => a.Blind ∧ b.Blind
  | .or a b => a.Blind ∧ b.Blind
  | .optional r => r.Blind
  | .many r => r.Blind
  | .custom _ act => ∀ s, (act s).Blind
  | _ => True

def Dialogue.Blind : Dialogue σ → Prop
  | .answer _ => True
  | .offer _ next => ∀ accepted, (next accepted).Blind
  | .run rule _ onRest next =>
    rule.Blind ∧ (∀ rest, (onRest rest).Blind) ∧ ∀ matched, (next matched).Blind
  | .apart _ _ _ _ => False
  | .observe _ => False
  | .update _ next => (∀ x y, next x = next y) ∧ ∀ x, (next x).Blind
  | .remember _ _ => False

end

theorem Rule.CustomFree.blind {r : Rule σ} (h : r.CustomFree) : r.Blind := by
  induction r using Rule.rec (motive_2 := fun _ => True) with
  | append a b iha ihb =>
    obtain ⟨ha, hb⟩ := h
    exact ⟨iha ha, ihb hb⟩
  | or a b iha ihb =>
    obtain ⟨ha, hb⟩ := h
    exact ⟨iha ha, ihb hb⟩
  | optional r ih => exact ih h
  | many r ih => exact ih h
  | custom => exact h.elim
  | _ => trivial

instance : Inhabited Gauges := ⟨.empty⟩

theorem Rule.Observed.blind {plain r : Rule Gauges} (h : Observed plain r) : r.Blind := by
  induction h with
  | append _ _ iha ihb => exact ⟨iha, ihb⟩
  | or _ _ iha ihb => exact ⟨iha, ihb⟩
  | optional _ ih => exact ih
  | many _ ih => exact ih
  | counted _ _ ih =>
    intro s
    constructor
    · intro x y
      rfl
    · intro x
      exact ⟨ih, fun _ _ => trivial, fun _ => trivial⟩
  | recorded _ _ ih =>
    intro s
    refine ⟨ih, ?_, fun _ => trivial⟩
    intro rest
    constructor
    · intro x y
      rfl
    · intro x accepted
      trivial
  | _ => trivial

theorem run_branch {k : Continuation ω σ} {m : SearchM ω σ Bool} {next : Bool → SearchM ω σ Bool}
    {first onSuccess onFailure : SearchTree σ} (hfirst : m = first.run k)
    (hsuccess : next true = onSuccess.run k) (hfailure : next false = onFailure.run k) :
    m >>= next = (SearchTree.branch first onSuccess onFailure).run k := by
  subst hfirst
  rw [SearchTree.run]
  congr 1
  funext matched
  cases matched
  · simpa using hfailure
  · simpa using hsuccess

/-- A rule runs as its tree, whatever the limits and the continuation. -/
theorem Rule.eval_eq_run [Inhabited σ] {r : Rule σ} (h : r.Blind) (k : Continuation ω σ)
    (s : Input) (κ : Input → SearchTree σ) :
    r.eval s (fun rest => (κ rest).run k) = (r.searchTree s κ).run k := by
  induction r using Rule.rec
    (motive_2 := fun d => d.Blind → ∀ {ω : Type} (k : Continuation (ω × Memory) σ)
      (κ : Input → SearchTree σ),
      d.perform (fun rest => (κ rest).run k) = (d.searchTree κ).run k) generalizing ω s κ with
  | any => rw [Rule.eval, Rule.searchTree, SearchTree.run, SearchTree.run_consume]
  | oneOf set => rw [Rule.eval, Rule.searchTree, SearchTree.run, SearchTree.run_consume]
  | val c => rw [Rule.eval, Rule.searchTree, SearchTree.run, SearchTree.run_consume]
  | empty => rw [Rule.eval, Rule.searchTree, SearchTree.run]
  | «end» => rw [Rule.eval, Rule.searchTree, SearchTree.run, SearchTree.run]
  | append a b iha ihb =>
    obtain ⟨ha, hb⟩ := h
    rw [Rule.eval, Rule.searchTree, SearchTree.run, ← iha ha]
    simp only [ihb hb]
  | or a b iha ihb =>
    obtain ⟨ha, hb⟩ := h
    rw [Rule.eval, Rule.searchTree, SearchTree.run, SearchTree.run_orElse, iha ha, ihb hb]
  | optional r ih => rw [Rule.eval, Rule.searchTree, SearchTree.run, SearchTree.run_orElse, ih h]
  | many r ih =>
    rw [Rule.eval, Rule.searchTree]
    apply SearchTree.run_repeated
    intro s κ
    exact ih h k s κ
  | custom label act ih =>
    rw [Rule.eval, Rule.searchTree, SearchTree.run]
    simp only [← SearchTree.run_beside]
    rw [ih s (h s), SearchTree.run_beside]
    rfl
  | answer verdict h k κ => rw [Dialogue.perform, Dialogue.searchTree, SearchTree.run]
  | offer rest next ih h k κ =>
    rw [Dialogue.perform, Dialogue.searchTree]
    apply run_branch rfl
    · exact ih true (h true) k κ
    · exact ih false (h false) k κ
  | run rule s onRest next ihrule ihrest ihnext h k κ =>
    obtain ⟨hrule, hrest, hnext⟩ := h
    rw [Dialogue.perform, Dialogue.searchTree]
    apply run_branch
    · rw [← ihrule hrule]
      simp only [ihrest _ (hrest _)]
    · exact ihnext true (hnext true) k κ
    · exact ihnext false (hnext false) k κ
  | apart rule s onRest next _ _ _ h => exact h.elim
  | observe next _ h => exact h.elim
  | update f next ih h k κ =>
    obtain ⟨hsame, hnext⟩ := h
    rw [Dialogue.perform, Dialogue.searchTree, SearchTree.run, ← ih default (hnext default)]
    congr 1
    funext _
    simp only [hsame _ default]
    rfl
  | remember g next _ h => exact h.elim

def Rule.wholeTree [Inhabited σ] (r : Rule σ) (s : Input) : SearchTree σ := r.searchTree s .ask

theorem Rule.eval_eq_run_wholeTree [Inhabited σ] {r : Rule σ} (h : r.Blind)
    (k : Continuation ω σ) (s : Input) : r.eval s k = (r.wholeTree s).run k :=
  eval_eq_run h k s .ask

/-- The kinds that consume a single character. -/
def Kind.atoms : List Kind := [any, oneOf, val]

namespace SearchTree

/-- A property of trees and the inputs they start from that is kept by the ways in which observed
rules put trees together. -/
structure Closed (P : Input → SearchTree σ → Prop) : Prop where
  leaf (s : Input) (verdict : Bool) : P s (leaf verdict)
  atom {κ : Input → SearchTree σ} (kind : Kind) (accepts : Char → Bool) (s : Input) :
    (∀ rest, P rest (κ rest)) → P s (visit kind s (consume accepts κ s))
  visit {kind : Kind} {s : Input} {body : SearchTree σ} :
    kind ∉ Kind.atoms → P s body → P s (visit kind s body)
  orElse {first second : SearchTree σ} (s : Input) :
    P s first → P s second → P s (orElse first second)
  change {next : SearchTree σ} (s : Input) (f : σ → σ) : P s next → P s (change f next)

/-- A character is consumed, or the tree fails. -/
theorem consume_cases (accepts : Char → Bool) (κ : Input → SearchTree σ) (s : Input) :
    consume accepts κ s = leaf false ∨
      ∃ c rest, s = c :: rest ∧ consume accepts κ s = κ rest := by
  cases s with
  | nil => exact .inl rfl
  | cons c rest =>
    rw [consume]
    split
    · exact .inr ⟨c, rest, rfl, rfl⟩
    · exact .inl rfl

theorem consume_of {Q : SearchTree σ → Prop} {κ : Input → SearchTree σ} (hleaf : Q (leaf false))
    (hκ : ∀ rest, Q (κ rest)) (accepts : Char → Bool) (s : Input) : Q (consume accepts κ s) := by
  rcases consume_cases accepts κ s with heq | ⟨c, rest, -, heq⟩
  · rwa [heq]
  · rw [heq]
    exact hκ rest

theorem Closed.repeated {P : Input → SearchTree σ → Prop} (hP : Closed P)
    {layout : Input → (Input → SearchTree σ) → SearchTree σ} {κ : Input → SearchTree σ}
    (hlayout : ∀ s κ, (∀ rest, P rest (κ rest)) → P s (layout s κ))
    (hκ : ∀ rest, P rest (κ rest)) (s : Input) : P s (repeated layout κ s) := by
  fun_induction SearchTree.repeated layout κ s with
  | case1 s ih =>
    apply hP.visit (by decide)
    apply hP.orElse s ?_ (hκ s)
    apply hlayout
    intro rest
    split
    · rename_i hlt
      exact ih rest hlt
    · exact hP.leaf rest false

end SearchTree

/-- Such a property passes from what follows a rule under observers to the rule. -/
theorem Rule.Observed.closed {plain r : Rule Gauges} (h : Observed plain r)
    {P : Input → SearchTree Gauges → Prop} (hP : SearchTree.Closed P) (s : Input)
    {κ : Input → SearchTree Gauges} (hκ : ∀ rest, P rest (κ rest)) :
    P s (r.searchTree s κ) := by
  induction h generalizing s κ with
  | any => exact hP.atom .any _ s hκ
  | oneOf set => exact hP.atom .oneOf _ s hκ
  | val c => exact hP.atom .val _ s hκ
  | empty => exact hP.visit (by decide) (hκ s)
  | «end» => exact hP.visit (by decide) (hP.leaf s _)
  | append _ _ iha ihb =>
    apply hP.visit (by decide)
    apply iha s
    intro rest
    exact ihb rest hκ
  | or _ _ iha ihb => exact hP.visit (by decide) (hP.orElse s (iha s hκ) (ihb s hκ))
  | optional _ ih => exact hP.visit (by decide) (hP.orElse s (ih s hκ) (hκ s))
  | many _ ih =>
    apply hP.repeated ?_ hκ
    intro s κ hκ
    exact ih s hκ
  | counted handle _ ih =>
    -- to hand on a remainder is to fail only where it is refused
    have hpass : ∀ rest, P rest (.orElse (κ rest) (.leaf false)) :=
      fun rest => hP.orElse rest (hκ rest) (hP.leaf rest false)
    apply hP.visit (by decide)
    apply hP.change
    exact hP.orElse s (ih s hpass) (hP.leaf s false)
  | recorded handle _ ih =>
    have hpass : ∀ rest,
        P rest (.change (·.record handle rest) (.orElse (κ rest) (.leaf false))) :=
      fun rest => hP.change rest _ (hP.orElse rest (hκ rest) (hP.leaf rest false))
    apply hP.visit (by decide)
    exact hP.orElse s (ih s hpass) (hP.leaf s false)

end Backtrack
