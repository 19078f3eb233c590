import Backtrack.Proofs.CallTree
import Backtrack.Rule.Build

/-!
# What a search leaves unread

A search looks at the character in front of it and at nothing beyond, and it weighs what is left over only
against what was left before. So what stands behind the furthest place it came to may be anything. Two
inputs that agree up to there are gone through side by side: either both searches stand before the last
character that they share, at the same place, or right behind it, and there neither of them goes on.
-/

set_option autoImplicit false

namespace Backtrack

variable {σ : Type}

/-- The same place in two inputs that end in `c :: t` and in `c :: t'`, up to right behind the `c`. -/
inductive Input.Abreast (c : Char) (t t' : Input) : Input → Input → Prop where
  | before (ahead : Input) : Abreast c t t' (ahead ++ c :: t) (ahead ++ c :: t')
  | behind : Abreast c t t' t t'

namespace SearchTree

/-- Unless the first tree visits a place beyond the bound, both make the same visits and succeed alike. -/
def AlikeUpTo (bound size size' : Nat) (tree tree' : SearchTree σ) : Prop :=
  ∀ depth, (∀ step ∈ tree.visits size depth, step.offset ≤ bound) →
    tree'.visits size' depth = tree.visits size depth ∧ tree'.succeeds = tree.succeeds

section Alike
variable {bound size size' : Nat} {first first' second second' body body' : SearchTree σ}

theorem alikeUpTo_leaf (verdict : Bool) :
    AlikeUpTo bound size size' (leaf verdict : SearchTree σ) (leaf verdict) :=
  fun _ _ => ⟨rfl, rfl⟩

theorem alikeUpTo_ask (s s' : Input) :
    AlikeUpTo bound size size' (ask s : SearchTree σ) (ask s') :=
  fun _ _ => ⟨rfl, rfl⟩

theorem AlikeUpTo.visit (h : AlikeUpTo bound size size' body body') (kind : Kind) {s s' : Input}
    (hoffset : size' - bytes s' = size - bytes s) :
    AlikeUpTo bound size size' (visit kind s body) (visit kind s' body') := by
  intro depth hbound
  obtain ⟨hvisits, hsucceeds⟩ := h (depth + 1) (List.forall_mem_cons.mp hbound).2
  refine ⟨?_, hsucceeds⟩
  rw [visits, visits, hvisits, hoffset]

theorem alikeUpTo_visit_beyond (kind : Kind) {s : Input} (hbeyond : bound < size - bytes s)
    (tree' : SearchTree σ) : AlikeUpTo bound size size' (visit kind s body) tree' := by
  intro depth hbound
  have hle : size - bytes s ≤ bound := (List.forall_mem_cons.mp hbound).1
  omega

theorem AlikeUpTo.orElse (hfirst : AlikeUpTo bound size size' first first')
    (hsecond : AlikeUpTo bound size size' second second') :
    AlikeUpTo bound size size' (orElse first second) (orElse first' second') := by
  intro depth hbound
  rw [visits_orElse] at hbound
  obtain ⟨hboundFirst, hboundSecond⟩ := List.forall_mem_append.mp hbound
  obtain ⟨hvisits, hsucceeds⟩ := hfirst depth hboundFirst
  rw [visits_orElse, visits_orElse, succeeds_orElse, succeeds_orElse, hvisits, hsucceeds]
  split
  · exact ⟨rfl, rfl⟩
  · rename_i hfails
    rw [if_neg hfails] at hboundSecond
    obtain ⟨hvisits', hsucceeds'⟩ := hsecond depth hboundSecond
    rw [hvisits', hsucceeds']
    exact ⟨rfl, rfl⟩

end Alike

section Abreast
variable {p : Input} {c : Char} {t t' : Input}

/-- Alike as far as the searches through `p ++ c :: t` and `p ++ c :: t'` do not go beyond the `c`. -/
abbrev Alike (p : Input) (c : Char) (t t' : Input) : SearchTree σ → SearchTree σ → Prop :=
  AlikeUpTo (bytes p) (bytes (p ++ c :: t)) (bytes (p ++ c :: t'))

variable {κ κ' : Input → SearchTree σ}
variable (hκ : ∀ s s', Input.Abreast c t t' s s' → Alike p c t t' (κ s) (κ' s'))

theorem Alike.visit_before {body body' : SearchTree σ} (h : Alike p c t t' body body') (kind : Kind)
    (ahead : Input) :
    Alike p c t t' (visit kind (ahead ++ c :: t) body) (visit kind (ahead ++ c :: t') body') := by
  apply AlikeUpTo.visit h
  simp only [bytes_append, bytes_cons]
  omega

theorem alike_visit_behind (kind : Kind) (body tree' : SearchTree σ) :
    Alike p c t t' (visit kind t body) tree' := by
  apply alikeUpTo_visit_beyond
  have hpos := c.utf8Size_pos
  rw [bytes_append, bytes_cons]
  omega

include hκ

theorem alike_consume (accepts : Char → Bool) (ahead : Input) :
    Alike p c t t' (consume accepts κ (ahead ++ c :: t)) (consume accepts κ' (ahead ++ c :: t')) := by
  cases ahead with
  | nil =>
    rw [List.nil_append, List.nil_append, consume, consume]
    split
    · exact hκ t t' .behind
    · exact alikeUpTo_leaf false
  | cons d ahead =>
    rw [List.cons_append, List.cons_append, consume, consume]
    split
    · exact hκ _ _ (.before ahead)
    · exact alikeUpTo_leaf false

theorem alike_repeated {layout : Input → (Input → SearchTree σ) → SearchTree σ}
    (hlayout : ∀ ahead κ κ', (∀ s s', Input.Abreast c t t' s s' → Alike p c t t' (κ s) (κ' s')) →
      Alike p c t t' (layout (ahead ++ c :: t) κ) (layout (ahead ++ c :: t') κ'))
    (ahead : Input) :
    Alike p c t t' (repeated layout κ (ahead ++ c :: t)) (repeated layout κ' (ahead ++ c :: t')) := by
  induction hn : bytes ahead using Nat.strongRecOn generalizing ahead with
  | ind n ih =>
    rw [repeated, repeated]
    apply Alike.visit_before
    apply AlikeUpTo.orElse ?_ (hκ _ _ (.before ahead))
    apply hlayout
    rintro s s' (ahead' | _)
    · -- both rounds made progress, or neither did
      have hiff : ∀ t, bytes (ahead' ++ c :: t) < bytes (ahead ++ c :: t) ↔
          bytes ahead' < bytes ahead := by
        intro t
        rw [bytes_append, bytes_append]
        omega
      simp only [hiff]
      split
      · rename_i hlt
        exact ih (bytes ahead') (hn ▸ hlt) ahead' rfl
      · exact alikeUpTo_leaf false
    · have hlt : ∀ t, bytes t < bytes (ahead ++ c :: t) := by
        intro t
        have hlt := bytes_lt_cons c t
        rw [bytes_append]
        omega
      rw [if_pos (hlt t), if_pos (hlt t'), repeated]
      exact alike_visit_behind .many _ _

end Abreast

end SearchTree

namespace Rule

open SearchTree

/-- Side by side a rule does the same on both inputs, if what follows it does. -/
theorem alike_searchTree [Inhabited σ] {r : Rule σ} (h : r.CustomFree) {p : Input} {c : Char}
    {t t' : Input} (ahead : Input) {κ κ' : Input → SearchTree σ}
    (hκ : ∀ s s', Input.Abreast c t t' s s' → Alike p c t t' (κ s) (κ' s')) :
    Alike p c t t' (r.searchTree (ahead ++ c :: t) κ) (r.searchTree (ahead ++ c :: t') κ') := by
  induction r using Rule.rec (motive_2 := fun _ => True) generalizing ahead κ κ' with
  | any => exact (alike_consume hκ _ ahead).visit_before .any ahead
  | oneOf set => exact (alike_consume hκ _ ahead).visit_before .oneOf ahead
  | val c => exact (alike_consume hκ _ ahead).visit_before .val ahead
  | empty => exact Alike.visit_before (hκ _ _ (.before ahead)) .empty ahead
  | «end» =>
    have hempty : ∀ t, (ahead ++ c :: t).isEmpty = false := by simp
    rw [searchTree, searchTree, hempty, hempty]
    exact Alike.visit_before (alikeUpTo_leaf false) .end ahead
  | append a b iha ihb =>
    obtain ⟨ha, hb⟩ := h
    apply Alike.visit_before
    apply iha ha
    rintro s s' (ahead' | _)
    · exact ihb hb ahead' hκ
    · obtain ⟨body, hbody⟩ := b.searchTree_eq_visit t κ
      rw [hbody]
      exact alike_visit_behind b.kind body _
  | or a b iha ihb =>
    obtain ⟨ha, hb⟩ := h
    apply Alike.visit_before
    exact (iha ha ahead hκ).orElse (ihb hb ahead hκ)
  | optional r ih =>
    apply Alike.visit_before
    exact (ih h ahead hκ).orElse (hκ _ _ (.before ahead))
  | many r ih =>
    rw [searchTree, searchTree]
    apply alike_repeated hκ
    intro ahead κ κ' hκ
    exact ih h ahead hκ
  | custom => exact h.elim
  | _ => trivial

theorem trace_eq_mk [Inhabited σ] {r : Rule σ} (h : r.Blind) (s : Input) (shared : σ) :
    (r.trace s shared).1
      = ⟨(r.wholeTree s).succeeds, (r.visits s).length, ((r.visits s).map (·.depth)).foldl max 0,
          r.visits s⟩ := by
  rw [← trace_matched h s shared, ← trace_maxDepth h s shared, ← trace_steps h s shared,
    ← trace_path h s shared]

/-- What stands behind the first character that the search did not get past may be anything: the record
of the search stays the same. -/
theorem trace_eq_of_unread {r : Rule σ} (h : r.CustomFree) {p : Input} {c : Char} {t : Input}
    {shared : σ} (hfurthest : (r.trace (p ++ c :: t) shared).1.furthestOffset ≤ bytes p) (t' : Input)
    (shared' : σ) : (r.trace (p ++ c :: t') shared').1 = (r.trace (p ++ c :: t) shared).1 := by
  have : Inhabited σ := ⟨shared⟩
  have halike : Alike p c t t' (r.wholeTree (p ++ c :: t)) (r.wholeTree (p ++ c :: t')) :=
    alike_searchTree h p fun s s' _ => alikeUpTo_ask s s'
  rw [Trace.furthestOffset_le_iff, trace_path h.blind] at hfurthest
  obtain ⟨hvisits, hsucceeds⟩ := halike 0 hfurthest
  have hvisits' : r.visits (p ++ c :: t') = r.visits (p ++ c :: t) := hvisits
  rw [trace_eq_mk h.blind, trace_eq_mk h.blind, hvisits', hsucceeds]

/-- A literal that fails at its third character, behind one of two bytes. -/
theorem trace_eq_of_unread_literal :
    ((eof (literal ['h', 'é', 'l']) : Rule Unit).trace (['h', 'é'] ++ 'p' :: []) ()).1.furthestOffset
        ≤ bytes ['h', 'é'] ∧
      ((eof (literal ['h', 'é', 'l']) : Rule Unit).trace (['h', 'é'] ++ 'p' :: ['a', 'h']) ()).1
        = ((eof (literal ['h', 'é', 'l']) : Rule Unit).trace (['h', 'é'] ++ 'p' :: []) ()).1 := by
  have hfree : (eof (literal ['h', 'é', 'l']) : Rule Unit).CustomFree :=
    ⟨⟨⟨trivial, trivial⟩, trivial⟩, trivial⟩
  have hfurthest : ((eof (literal ['h', 'é', 'l']) : Rule Unit).trace (['h', 'é'] ++ 'p' :: [])
      ()).1.furthestOffset ≤ bytes ['h', 'é'] := by decide +kernel
  exact ⟨hfurthest, trace_eq_of_unread hfree hfurthest ['a', 'h'] ()⟩

end Rule

end Backtrack
