import Backtrack.Proofs.Visits
import Mathlib.Algebra.Group.Nat.Defs

/-!
# How deeply a search nests

What was matched so far stays open until the rest has matched, so a search nests deeper the further it
gets. Two measures bound it together: how high a rule stands on an input by itself, and how many of its
levels are open where it hands on a remainder. Both grow with the characters consumed and with the nodes
of the rule, and without repetition with the nodes alone.
-/

set_option autoImplicit false

namespace Backtrack

variable {σ : Type}

namespace SearchTree

/-- The levels of visits, along the highest way through the tree. -/
def height : SearchTree σ → Nat
  | leaf _ => 0
  | ask _ => 0
  | visit _ _ body => body.height + 1
  | branch first onSuccess onFailure => max first.height (max onSuccess.height onFailure.height)
  | change _ next => next.height

theorem height_orElse (first second : SearchTree σ) :
    (orElse first second).height = max first.height second.height := by
  rw [orElse, height, height]
  omega

theorem depth_le_of_mem_visits {tree : SearchTree σ} {size depth : Nat} {step : Step}
    (h : step ∈ tree.visits size depth) : step.depth ≤ depth + tree.height := by
  induction tree generalizing depth with
  | leaf => cases h
  | ask => cases h
  | visit kind s body ih =>
    rw [height]
    rcases List.mem_cons.mp h with rfl | h
    · show depth + 1 ≤ depth + (body.height + 1)
      omega
    · have hle := ih h
      omega
  | branch first onSuccess onFailure ihfirst ihsuccess ihfailure =>
    rw [height]
    rcases List.mem_append.mp h with h | h
    · have hle := ihfirst h
      omega
    · split at h
      · have hle := ihsuccess h
        omega
      · have hle := ihfailure h
        omega
  | change f next ih => exact ih h

/-- A property of trees that is kept by the ways in which rules without custom nodes put trees together:
a visit goes on in one way or in two. -/
structure Grown (P : SearchTree σ → Prop) : Prop where
  leaf (verdict : Bool) : P (leaf verdict)
  single {body : SearchTree σ} (kind : Kind) (s : Input) : P body → P (visit kind s body)
  fork {first second : SearchTree σ} (kind : Kind) (s : Input) :
    P first → P second → P (visit kind s (orElse first second))

section Growth
variable {P : SearchTree σ → Prop} (hP : Grown P) {κ : Input → SearchTree σ} (hκ : ∀ rest, P (κ rest))
include hP hκ

theorem Grown.atom (kind : Kind) (accepts : Char → Bool) (s : Input) :
    P (visit kind s (consume accepts κ s)) :=
  hP.single kind s (consume_of (hP.leaf false) hκ accepts s)

theorem Grown.repeated {layout : Input → (Input → SearchTree σ) → SearchTree σ}
    (hlayout : ∀ s κ, (∀ rest, P (κ rest)) → P (layout s κ)) (s : Input) :
    P (repeated layout κ s) := by
  fun_induction SearchTree.repeated layout κ s with
  | case1 s ih =>
    apply hP.fork .many s ?_ (hκ s)
    apply hlayout
    intro rest
    split
    · rename_i hlt
      exact ih rest hlt
    · exact hP.leaf false

end Growth

theorem grown_visitCount_lt : Grown fun tree : SearchTree σ => tree.visitCount < 2 ^ tree.height where
  leaf _ := Nat.one_pos
  single {body} kind s hbody := by
    rw [visitCount, height, Nat.pow_succ]
    omega
  fork {first second} kind s hfirst hsecond := by
    have hle : 2 ^ first.height ≤ 2 ^ max first.height second.height :=
      Nat.pow_le_pow_right Nat.two_pos (Nat.le_max_left _ _)
    have hle' : 2 ^ second.height ≤ 2 ^ max first.height second.height :=
      Nat.pow_le_pow_right Nat.two_pos (Nat.le_max_right _ _)
    rw [visitCount, height, height_orElse, Nat.pow_succ, orElse, visitCount, visitCount]
    split <;> omega

end SearchTree

namespace Rule

variable [Inhabited σ]

theorem CustomFree.grown {r : Rule σ} (h : r.CustomFree) {P : SearchTree σ → Prop}
    (hP : SearchTree.Grown P) (s : Input) {κ : Input → SearchTree σ} (hκ : ∀ rest, P (κ rest)) :
    P (r.searchTree s κ) := by
  induction r using Rule.rec (motive_2 := fun _ => True) generalizing s κ with
  | any => exact hP.atom hκ .any _ s
  | oneOf set => exact hP.atom hκ .oneOf _ s
  | val c => exact hP.atom hκ .val _ s
  | empty => exact hP.single .empty s (hκ s)
  | «end» => exact hP.single .end s (hP.leaf _)
  | append a b iha ihb =>
    obtain ⟨ha, hb⟩ := h
    apply hP.single .append s
    apply iha ha s
    intro rest
    exact ihb hb rest hκ
  | or a b iha ihb =>
    obtain ⟨ha, hb⟩ := h
    exact hP.fork .or s (iha ha s hκ) (ihb hb s hκ)
  | optional r ih => exact hP.fork .optional s (ih h s hκ) (hκ s)
  | many r ih =>
    apply hP.repeated hκ
    intro s κ hκ
    exact ih h s hκ
  | custom => exact h.elim
  | _ => trivial

omit [Inhabited σ] in
theorem nodeCount_pos (r : Rule σ) : 0 < r.nodeCount := by
  cases r <;> simp [nodeCount]

/-- By itself the rule stands at most `inner n` levels high on an input of `n` characters, and where it
hands on what is left behind `c` characters, at most `held c` of its levels are open. -/
def Nests (r : Rule σ) (inner held : Nat → Nat) : Prop :=
  ∀ s κ limit, inner s.length ≤ limit →
    (∀ consumed rest, s = consumed ++ rest → held consumed.length + (κ rest).height ≤ limit) →
    (r.searchTree s κ).height ≤ limit

namespace Nests

variable {a b : Rule σ} {inner held innerA heldA innerB heldB : Nat → Nat}

theorem mono (h : a.Nests innerA heldA) (hinner : ∀ n, innerA n ≤ inner n)
    (hheld : ∀ c, heldA c ≤ held c) : a.Nests inner held := by
  intro s κ limit hlimit hκ
  apply h s κ limit (Nat.le_trans (hinner s.length) hlimit)
  intro consumed rest hs
  have hle := hκ consumed rest hs
  have hle' := hheld consumed.length
  omega

/-- The bound counts from wherever the rule stands. -/
theorem above (h : a.Nests inner held) {s : Input} {κ : Input → SearchTree σ} {below limit : Nat}
    (hlimit : inner s.length + below ≤ limit)
    (hκ : ∀ consumed rest, s = consumed ++ rest →
      held consumed.length + (κ rest).height + below ≤ limit) :
    (a.searchTree s κ).height + below ≤ limit := by
  have hle : (a.searchTree s κ).height ≤ limit - below := by
    apply h
    · omega
    · intro consumed rest hs
      have hle := hκ consumed rest hs
      omega
  omega

theorem append (ha : a.Nests innerA heldA) (hb : b.Nests innerB heldB)
    (hfirst : ∀ n, innerA n + 1 ≤ inner n)
    (hsecond : ∀ c n, heldA c + innerB n + 1 ≤ inner (c + n))
    (hheld : ∀ c d, heldA c + heldB d + 1 ≤ held (c + d)) : (Rule.append a b).Nests inner held := by
  intro s κ limit hlimit hκ
  rw [searchTree, SearchTree.height]
  apply ha.above (Nat.le_trans (hfirst s.length) hlimit)
  rintro consumed rest rfl
  -- the levels of the first rule that are open carry the second
  suffices (b.searchTree rest κ).height + (heldA consumed.length + 1) ≤ limit by omega
  apply hb.above
  · have hle := hsecond consumed.length rest.length
    rw [List.length_append] at hlimit
    omega
  · rintro consumed' rest' rfl
    have hle := hκ (consumed ++ consumed') rest' (List.append_assoc ..).symm
    have hopen := hheld consumed.length consumed'.length
    rw [List.length_append] at hle
    omega

theorem or (ha : a.Nests innerA heldA) (hb : b.Nests innerB heldB)
    (hfirst : ∀ n, innerA n + 1 ≤ inner n) (hsecond : ∀ n, innerB n + 1 ≤ inner n)
    (hheld : ∀ c, heldA c + 1 ≤ held c) (hheld' : ∀ c, heldB c + 1 ≤ held c) :
    (Rule.or a b).Nests inner held := by
  intro s κ limit hlimit hκ
  rw [searchTree, SearchTree.height, SearchTree.height_orElse, ← Nat.add_max_add_right, Nat.max_le]
  constructor
  · apply ha.above (Nat.le_trans (hfirst s.length) hlimit)
    intro consumed rest hs
    have hle := hκ consumed rest hs
    have hopen := hheld consumed.length
    omega
  · apply hb.above (Nat.le_trans (hsecond s.length) hlimit)
    intro consumed rest hs
    have hle := hκ consumed rest hs
    have hopen := hheld' consumed.length
    omega

theorem optional (ha : a.Nests innerA heldA) (hinner : ∀ n, innerA n + 1 ≤ inner n)
    (hheld : ∀ c, heldA c + 1 ≤ held c) : (Rule.optional a).Nests inner held := by
  intro s κ limit hlimit hκ
  rw [searchTree, SearchTree.height, SearchTree.height_orElse, ← Nat.add_max_add_right, Nat.max_le]
  constructor
  · apply ha.above (Nat.le_trans (hinner s.length) hlimit)
    intro consumed rest hs
    have hle := hκ consumed rest hs
    have hopen := hheld consumed.length
    omega
  · have hle := hκ [] s rfl
    have hopen := hheld ([] : Input).length
    omega

/-- Only a round that consumed something is followed by another. -/
theorem many (ha : a.Nests innerA heldA) (hround : ∀ n, innerA n + 1 ≤ inner n)
    (hidle : ∀ n, heldA 0 + 1 ≤ inner n)
    (hagain : ∀ c n, 0 < c → heldA c + inner n + 1 ≤ inner (c + n)) (hstop : 1 ≤ held 0)
    (hheld : ∀ c d, 0 < c → heldA c + held d + 1 ≤ held (c + d)) : (Rule.many a).Nests inner held := by
  intro s κ limit hlimit hκ
  rw [searchTree]
  fun_induction SearchTree.repeated a.searchTree κ s generalizing limit with
  | case1 s ih =>
    rw [SearchTree.height, SearchTree.height_orElse, ← Nat.add_max_add_right, Nat.max_le]
    constructor
    · apply ha.above (Nat.le_trans (hround s.length) hlimit)
      rintro consumed rest rfl
      split
      · rename_i hlt
        have hpos : 0 < consumed.length := List.length_pos_iff.mpr (bytes_lt_append_iff.mp hlt)
        suffices (SearchTree.repeated a.searchTree κ rest).height
            ≤ limit - (heldA consumed.length + 1) by
          have hle := hagain consumed.length rest.length hpos
          rw [List.length_append] at hlimit
          omega
        apply ih rest hlt
        · have hle := hagain consumed.length rest.length hpos
          rw [List.length_append] at hlimit
          omega
        · rintro consumed' rest' rfl
          have hle := hκ (consumed ++ consumed') rest' (List.append_assoc ..).symm
          have hopen := hheld consumed.length consumed'.length hpos
          rw [List.length_append] at hle
          omega
      · rename_i hle
        obtain rfl := Decidable.not_not.mp (mt bytes_lt_append_iff.mpr hle)
        exact Nat.le_trans (hidle rest.length) hlimit
    · have hle := hκ [] s rfl
      rw [List.length_nil] at hle
      omega

/-- A rule of one node. -/
theorem leaf {r : Rule σ} (h : r.CustomFree) (hone : r.nodeCount = 1) :
    r.Nests (fun _ => 1) (fun _ => 1) := by
  intro s κ limit hlimit hκ
  have hatom : ∀ kind accepts, (SearchTree.visit kind s (.consume accepts κ s)).height ≤ limit := by
    intro kind accepts
    rw [SearchTree.height]
    rcases SearchTree.consume_cases accepts κ s with heq | ⟨c, rest, hs, heq⟩
    · rw [heq, SearchTree.height]
      exact hlimit
    · rw [heq, Nat.add_comm]
      exact hκ [c] rest hs
  cases r with
  | any => exact hatom .any _
  | oneOf set => exact hatom .oneOf _
  | val c => exact hatom .val _
  | empty =>
    rw [searchTree, SearchTree.height, Nat.add_comm]
    exact hκ [] s rfl
  | «end» =>
    rw [searchTree, SearchTree.height, SearchTree.height]
    exact hlimit
  | append a b | or a b =>
    have hpos := a.nodeCount_pos
    rw [nodeCount] at hone
    omega
  | optional a | many a =>
    have hpos := a.nodeCount_pos
    rw [nodeCount] at hone
    omega
  | custom => exact h.elim

end Nests

/-- Without repetition a rule nests no more levels than it has nodes. -/
theorem nests_of_manyFree {r : Rule σ} (h : r.CustomFree) (hmany : r.ManyFree) :
    r.Nests (fun _ => r.nodeCount) (fun _ => r.nodeCount) := by
  induction r using Rule.rec (motive_2 := fun _ => True) with
  | append a b iha ihb =>
    obtain ⟨ha, hb⟩ := h
    obtain ⟨hma, hmb⟩ := hmany
    rw [nodeCount]
    apply (iha ha hma).append (ihb hb hmb) <;> intros <;> omega
  | or a b iha ihb =>
    obtain ⟨ha, hb⟩ := h
    obtain ⟨hma, hmb⟩ := hmany
    rw [nodeCount]
    apply (iha ha hma).or (ihb hb hmb) <;> intros <;> omega
  | optional r ih =>
    rw [nodeCount]
    exact (ih h hmany).optional (fun _ => Nat.le_refl _) (fun _ => Nat.le_refl _)
  | many r => exact hmany.elim
  | custom => exact h.elim
  | any | oneOf | val | empty | «end» => exact .leaf h rfl
  | _ => trivial

omit [Inhabited σ]

/-- How high so many nodes stand by themselves on an input of `n` characters. -/
def levels (nodes n : Nat) : Nat := (2 * nodes - 2) * n + nodes

/-- How many levels of so many nodes are open behind `c` characters. -/
def openLevels (nodes c : Nat) : Nat := if c = 0 then nodes else (2 * nodes - 2) * c + 1

theorem levels_succ_le {m nodes : Nat} (h : m < nodes) (n : Nat) : levels m n + 1 ≤ levels nodes n := by
  have hle : (2 * m - 2) * n ≤ (2 * nodes - 2) * n := Nat.mul_le_mul_right n (by omega)
  unfold levels
  omega

theorem openLevels_succ_le {m nodes : Nat} (hpos : 0 < m) (h : m < nodes) (c : Nat) :
    openLevels m c + 1 ≤ openLevels nodes c := by
  unfold openLevels
  split
  · omega
  · rename_i hc
    have hle : (2 * m - 2) * c + 2 * c ≤ (2 * nodes - 2) * c := by
      rw [← Nat.add_mul]
      exact Nat.mul_le_mul_right c (by omega)
    omega

theorem rate_add {m k : Nat} (hm : 0 < m) (hk : 0 < k) :
    2 * (m + k + 1) - 2 = (2 * m - 2) + (2 * k - 2) + 4 := by
  omega

theorem openLevels_add_levels_le {m k : Nat} (hm : 0 < m) (hk : 0 < k) (c n : Nat) :
    openLevels m c + levels k n + 1 ≤ levels (m + k + 1) (c + n) := by
  unfold openLevels levels
  rw [rate_add hm hk]
  simp only [Nat.add_mul, Nat.mul_add]
  split <;> omega

theorem le_rate_mul (m : Nat) {c : Nat} (hc : 0 < c) : m ≤ (2 * m - 2) * c + 1 := by
  have hle : (2 * m - 2) * 1 ≤ (2 * m - 2) * c := Nat.mul_le_mul_left (2 * m - 2) hc
  omega

theorem openLevels_add_openLevels_le {m k : Nat} (hm : 0 < m) (hk : 0 < k) (c d : Nat) :
    openLevels m c + openLevels k d + 1 ≤ openLevels (m + k + 1) (c + d) := by
  unfold openLevels
  rw [rate_add hm hk]
  simp only [Nat.add_mul, Nat.mul_add]
  rcases Nat.eq_zero_or_pos c with rfl | hc <;> rcases Nat.eq_zero_or_pos d with rfl | hd
  · simp
  · have hle := le_rate_mul m hd
    simp only [if_pos, if_neg (Nat.ne_of_gt hd), Nat.zero_add]
    omega
  · have hle := le_rate_mul k hc
    simp only [if_pos, if_neg (Nat.ne_of_gt hc), Nat.add_zero]
    omega
  · rw [if_neg (Nat.ne_of_gt hc), if_neg (Nat.ne_of_gt hd), if_neg (by omega)]
    omega

/-- What a round that consumed something leaves open, with its repetition, is within the rate of the
repetition. -/
theorem openLevels_succ_le_rate {m c : Nat} (hm : 0 < m) (hc : 0 < c) :
    openLevels m c + 1 ≤ 2 * m * c := by
  have hrate : 2 * m = (2 * m - 2) + 2 := by omega
  rw [openLevels, if_neg (Nat.ne_of_gt hc), hrate, Nat.add_mul]
  simp only [Nat.add_sub_cancel]
  omega

section Tree
variable [Inhabited σ]

theorem nests {r : Rule σ} (h : r.CustomFree) :
    r.Nests (levels r.nodeCount) (openLevels r.nodeCount) := by
  induction r using Rule.rec (motive_2 := fun _ => True) with
  | append a b iha ihb =>
    obtain ⟨ha, hb⟩ := h
    have hposA := a.nodeCount_pos
    have hposB := b.nodeCount_pos
    apply (iha ha).append (ihb hb)
    · exact levels_succ_le (by rw [nodeCount]; omega)
    · exact openLevels_add_levels_le hposA hposB
    · exact openLevels_add_openLevels_le hposA hposB
  | or a b iha ihb =>
    obtain ⟨ha, hb⟩ := h
    have hltA : a.nodeCount < (Rule.or a b).nodeCount := by rw [nodeCount]; omega
    have hltB : b.nodeCount < (Rule.or a b).nodeCount := by rw [nodeCount]; omega
    apply (iha ha).or (ihb hb)
    · exact levels_succ_le hltA
    · exact levels_succ_le hltB
    · exact openLevels_succ_le a.nodeCount_pos hltA
    · exact openLevels_succ_le b.nodeCount_pos hltB
  | optional r ih =>
    have hlt : r.nodeCount < (Rule.optional r).nodeCount := Nat.lt_succ_self _
    apply (ih h).optional
    · exact levels_succ_le hlt
    · exact openLevels_succ_le r.nodeCount_pos hlt
  | many r ih =>
    have hpos := r.nodeCount_pos
    have hlt : r.nodeCount < (Rule.many r).nodeCount := Nat.lt_succ_self _
    -- a repetition that consumed nothing has only its own level open
    have hmany : (Rule.many r).Nests (levels (r.nodeCount + 1)) (fun c => 2 * r.nodeCount * c + 1) := by
      apply (ih h).many
      · exact levels_succ_le hlt
      · intro n
        exact Nat.le_add_left (r.nodeCount + 1) _
      · intro c n hc
        have hround := openLevels_succ_le_rate hpos hc
        have hrate : 2 * (r.nodeCount + 1) - 2 = 2 * r.nodeCount := by omega
        rw [levels, levels, hrate, Nat.mul_add]
        omega
      · exact Nat.le_add_left 1 _
      · intro c d hc
        have hround := openLevels_succ_le_rate hpos hc
        rw [Nat.mul_add]
        omega
    apply hmany.mono
    · intro n
      exact Nat.le_refl _
    · intro c
      have hrate : 2 * (Rule.many r).nodeCount - 2 = 2 * r.nodeCount := by rw [nodeCount]; omega
      rw [openLevels, hrate]
      split
      · subst c
        exact (Rule.many r).nodeCount_pos
      · exact Nat.le_refl _
  | custom => exact h.elim
  | any | oneOf | val | empty | «end» =>
    apply (Nests.leaf h rfl).mono
    · intro n
      exact Nat.le_add_left 1 _
    · intro c
      unfold openLevels
      split <;> simp [nodeCount]
  | _ => trivial

theorem Nests.height_wholeTree_le {r : Rule σ} {inner held : Nat → Nat} (h : r.Nests inner held)
    {s : Input} {bound : Nat} (hinner : inner s.length ≤ bound)
    (hheld : ∀ c, c ≤ s.length → held c ≤ bound) : (r.wholeTree s).height ≤ bound := by
  apply h s .ask bound hinner
  rintro consumed rest rfl
  apply hheld
  rw [List.length_append]
  exact Nat.le_add_right _ _

variable {r : Rule σ} (h : r.CustomFree) (s : Input) (shared : σ)
include h

theorem height_wholeTree_le_nodeCount (hmany : r.ManyFree) : (r.wholeTree s).height ≤ r.nodeCount :=
  (nests_of_manyFree h hmany).height_wholeTree_le (Nat.le_refl _) fun _ _ => Nat.le_refl _

theorem trace_maxDepth_le_height : (r.trace s shared).1.maxDepth ≤ (r.wholeTree s).height := by
  rw [trace_maxDepth h.blind, foldl_max_le_iff, List.forall_mem_map]
  refine ⟨Nat.zero_le _, ?_⟩
  intro step hstep
  have hle := SearchTree.depth_le_of_mem_visits hstep
  omega

theorem trace_steps_lt_height : (r.trace s shared).1.steps < 2 ^ (r.wholeTree s).height := by
  rw [trace_steps h.blind, visits, SearchTree.length_visits]
  exact h.grown SearchTree.grown_visitCount_lt s fun _ => Nat.one_pos

end Tree

theorem openLevels_le_levels (nodes : Nat) {c n : Nat} (hc : c ≤ n) (hpos : 0 < nodes) :
    openLevels nodes c ≤ levels nodes n := by
  have hle : (2 * nodes - 2) * c ≤ (2 * nodes - 2) * n := Nat.mul_le_mul_left _ hc
  unfold openLevels levels
  split <;> omega

/-- A search ends, after a number of evaluations that the rule and the input bound, and it nests no
deeper than linearly in the characters of the input; without repetition the input does not matter. -/
theorem trace_nests_linearly {r : Rule σ} (h : r.CustomFree) (s : Input) (shared : σ) :
    (r.trace s shared).1.steps < 2 ^ ((2 * r.nodeCount - 2) * s.length + r.nodeCount) ∧
      (r.trace s shared).1.maxDepth ≤ (2 * r.nodeCount - 2) * s.length + r.nodeCount ∧
      (r.ManyFree → (r.trace s shared).1.maxDepth ≤ r.nodeCount) := by
  have : Inhabited σ := ⟨shared⟩
  have hheight : (r.wholeTree s).height ≤ levels r.nodeCount s.length :=
    (nests h).height_wholeTree_le (Nat.le_refl _)
      fun c hc => openLevels_le_levels r.nodeCount hc r.nodeCount_pos
  refine ⟨?_, Nat.le_trans (trace_maxDepth_le_height h s shared) hheight, ?_⟩
  · apply Nat.lt_of_lt_of_le (trace_steps_lt_height h s shared)
    exact Nat.pow_le_pow_right Nat.two_pos hheight
  · intro hmany
    apply Nat.le_trans (trace_maxDepth_le_height h s shared)
    exact height_wholeTree_le_nodeCount h s hmany

/-- Nested repetitions reach the bound, and so does a sequence without repetition. -/
theorem trace_nests_linearly_attained :
    ((many (many any) : Rule Unit).trace ['é'] ()).1.maxDepth = 7 ∧
      ((many (many any) : Rule Unit).trace ['é'] ()).1.maxDepth ≤ (2 * 3 - 2) * 1 + 3 ∧
      ((append (val 'a') (append empty any) : Rule Unit).trace ['a', 'b'] ()).1.maxDepth = 5 ∧
      ((append (val 'a') (append empty any) : Rule Unit).trace ['a', 'b'] ()).1.maxDepth ≤ 5 := by
  have hnested : (many (many any) : Rule Unit).CustomFree := trivial
  have hplain : (append (val 'a') (append empty any) : Rule Unit).CustomFree :=
    ⟨trivial, trivial, trivial⟩
  refine ⟨by decide +kernel, (trace_nests_linearly hnested ['é'] ()).2.1, by decide +kernel, ?_⟩
  exact (trace_nests_linearly hplain ['a', 'b'] ()).2.2 ⟨trivial, trivial, trivial⟩

end Rule

end Backtrack
