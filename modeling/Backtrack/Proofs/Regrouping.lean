import Backtrack.Proofs.Algebra
import Backtrack.Rule.Outline

/-!
# Regrouping

How the links of a chain are grouped makes no difference to what a rule offers, nor to its outline.
The outline forgets nothing else: a rule without custom nodes can be built again from it, grouped to
the right, so rules with one outline differ in grouping only.
-/

set_option autoImplicit false

namespace Backtrack

variable {σ : Type}

/-- The rules differ in how their chains of appends and of alternatives are grouped. -/
inductive Rule.Regrouped : Rule σ → Rule σ → Prop where
  | refl (r : Rule σ) : Regrouped r r
  | symm {r r' : Rule σ} : Regrouped r r' → Regrouped r' r
  | trans {r r' r'' : Rule σ} : Regrouped r r' → Regrouped r' r'' → Regrouped r r''
  | appendAssoc (a b c : Rule σ) : Regrouped ((a.append b).append c) (a.append (b.append c))
  | orAssoc (a b c : Rule σ) : Regrouped ((a.or b).or c) (a.or (b.or c))
  | append {a a' b b' : Rule σ} :
    Regrouped a a' → Regrouped b b' → Regrouped (append a b) (append a' b')
  | or {a a' b b' : Rule σ} : Regrouped a a' → Regrouped b b' → Regrouped (or a b) (or a' b')
  | optional {r r' : Rule σ} : Regrouped r r' → Regrouped (optional r) (optional r')
  | many {r r' : Rule σ} : Regrouped r r' → Regrouped (many r) (many r')

namespace Outline

mutual

/-- A rule with the outline, grouped to the right. What custom rules do is lost. -/
def rule : Outline → Rule σ
  | any => .any
  | oneOf set => .oneOf set
  | val c => .val c
  | empty => .empty
  | .end => .end
  | seq parts => chain .append parts
  | alt parts => chain .or parts
  | optional o => .optional o.rule
  | many o => .many o.rule
  | custom _ => .empty

def chain (join : Rule σ → Rule σ → Rule σ) : List Outline → Rule σ
  | [] => .empty
  | [o] => o.rule
  | o :: o' :: os => join o.rule (chain join (o' :: os))

end

theorem chain_seqParts (o : Outline) : (chain .append o.seqParts : Rule σ) = o.rule := by
  cases o <;> simp [seqParts, rule, chain]

theorem chain_altParts (o : Outline) : (chain .or o.altParts : Rule σ) = o.rule := by
  cases o <;> simp [altParts, rule, chain]

/-- Two chains joined are one chain. -/
theorem regrouped_chain_append {join : Rule σ → Rule σ → Rule σ}
    (hassoc : ∀ a b c, (join (join a b) c).Regrouped (join a (join b c)))
    (hjoin : ∀ a {b b'}, b.Regrouped b' → (join a b).Regrouped (join a b'))
    {os os' : List Outline} (h : os ≠ []) (h' : os' ≠ []) :
    (join (chain join os) (chain join os')).Regrouped (chain join (os ++ os')) := by
  induction os with
  | nil => exact absurd rfl h
  | cons o os ih =>
    cases os with
    | nil =>
      obtain ⟨o', later, rfl⟩ := List.exists_cons_of_ne_nil h'
      exact .refl _
    | cons o₂ os =>
      have hrest := ih (List.cons_ne_nil o₂ os)
      exact .trans (hassoc o.rule _ _) (hjoin o.rule hrest)

end Outline

namespace Rule

theorem seqParts_outline_ne_nil (r : Rule σ) (shared : σ) : (r.outline shared).seqParts ≠ [] := by
  induction r using Rule.rec (motive_2 := fun _ => True) with
  | append a b iha _ =>
    intro h
    exact iha (List.append_eq_nil_iff.mp h).1
  | _ => first | exact List.cons_ne_nil _ _ | trivial

theorem altParts_outline_ne_nil (r : Rule σ) (shared : σ) : (r.outline shared).altParts ≠ [] := by
  induction r using Rule.rec (motive_2 := fun _ => True) with
  | or a b iha _ =>
    intro h
    exact iha (List.append_eq_nil_iff.mp h).1
  | _ => first | exact List.cons_ne_nil _ _ | trivial

/-- A rule differs from what is built from its outline in grouping only. -/
theorem CustomFree.regrouped_outline {r : Rule σ} (h : r.CustomFree) (shared : σ) :
    r.Regrouped (r.outline shared).rule := by
  induction r using Rule.rec (motive_2 := fun _ => True) with
  | any => exact .refl any
  | oneOf set => exact .refl (oneOf set)
  | val c => exact .refl (val c)
  | empty => exact .refl empty
  | «end» => exact .refl .end
  | append a b iha ihb =>
    obtain ⟨ha, hb⟩ := h
    have hparts := Regrouped.append (iha ha) (ihb hb)
    rw [← Outline.chain_seqParts, ← Outline.chain_seqParts (b.outline shared)] at hparts
    apply hparts.trans
    apply Outline.regrouped_chain_append .appendAssoc (fun a {_ _} => .append (.refl a))
    · exact a.seqParts_outline_ne_nil shared
    · exact b.seqParts_outline_ne_nil shared
  | or a b iha ihb =>
    obtain ⟨ha, hb⟩ := h
    have hparts := Regrouped.or (iha ha) (ihb hb)
    rw [← Outline.chain_altParts, ← Outline.chain_altParts (b.outline shared)] at hparts
    apply hparts.trans
    apply Outline.regrouped_chain_append .orAssoc (fun a {_ _} => .or (.refl a))
    · exact a.altParts_outline_ne_nil shared
    · exact b.altParts_outline_ne_nil shared
  | optional r ih => exact .optional (ih h)
  | many r ih => exact .many (ih h)
  | custom => exact h.elim
  | _ => trivial

theorem Regrouped.outline_eq {r r' : Rule σ} (h : r.Regrouped r') (shared : σ) :
    r.outline shared = r'.outline shared := by
  induction h with
  | refl r => rfl
  | symm _ ih => exact ih.symm
  | trans _ _ ih ih' => exact ih.trans ih'
  | appendAssoc a b c => exact congrArg Outline.seq (List.append_assoc _ _ _)
  | orAssoc a b c => exact congrArg Outline.alt (List.append_assoc _ _ _)
  | append _ _ iha ihb => rw [outline, outline, iha, ihb]
  | or _ _ iha ihb => rw [outline, outline, iha, ihb]
  | optional _ ih => rw [outline, outline, ih]
  | many _ ih => rw [outline, outline, ih]

/-- Rules without custom nodes have one outline exactly when they differ in grouping only. -/
theorem outline_eq_iff_regrouped {r r' : Rule σ} (h : r.CustomFree) (h' : r'.CustomFree)
    (shared : σ) : r.outline shared = r'.outline shared ↔ r.Regrouped r' := by
  constructor
  · intro heq
    have hrule := h.regrouped_outline shared
    rw [heq] at hrule
    exact hrule.trans (h'.regrouped_outline shared).symm
  · intro hregrouped
    exact hregrouped.outline_eq shared

/-- Grouping makes no difference to what a rule offers. -/
theorem Regrouped.offers_eq {r r' : Rule σ} (h : r.Regrouped r') : r.offers = r'.offers := by
  induction h with
  | refl r => rfl
  | symm _ ih => exact ih.symm
  | trans _ _ ih ih' => exact ih.trans ih'
  | appendAssoc a b c =>
    funext s
    exact Outcome.flatMap_followedBy_assoc b.offers c.offers (a.offers s)
  | orAssoc a b c =>
    funext s
    exact List.append_assoc (a.offers s) (b.offers s) (c.offers s)
  | append _ _ iha ihb =>
    funext s
    rw [offers, offers, iha, ihb]
  | or _ _ iha ihb =>
    funext s
    rw [offers, offers, iha, ihb]
  | optional _ ih =>
    funext s
    rw [offers, offers, ih]
  | many _ ih =>
    funext s
    rw [offers, offers, ih]

end Rule

end Backtrack
