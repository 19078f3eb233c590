import Backtrack.Custom.Gauges

/-!
# Observed rules

A rule may have counters and recorders put around any of its nodes, also several around one. `Rule.Observed` relates
the plain rule to the rule with its observers.
-/

set_option autoImplicit false

namespace Backtrack.Rule

/-- The second rule is the first with counters and recorders around some of its nodes. -/
inductive Observed : Rule Gauges → Rule Gauges → Prop where
  | any : Observed any any
  | oneOf (set : CharSet) : Observed (oneOf set) (oneOf set)
  | val (c : Char) : Observed (val c) (val c)
  | empty : Observed empty empty
  | end : Observed .end .end
  | append {a a' b b' : Rule Gauges} : Observed a a' → Observed b b' → Observed (append a b) (append a' b')
  | or {a a' b b' : Rule Gauges} : Observed a a' → Observed b b' → Observed (or a b) (or a' b')
  | optional {r r' : Rule Gauges} : Observed r r' → Observed (optional r) (optional r')
  | many {r r' : Rule Gauges} : Observed r r' → Observed (many r) (many r')
  | counted {r r' : Rule Gauges} (h : Handle) : Observed r r' → Observed r (counted h r')
  | recorded {r r' : Rule Gauges} (h : Handle) : Observed r r' → Observed r (recorded h r')

/-- All observers are counters, and they share one handle. -/
inductive CountedBy (h : Handle) : Rule Gauges → Prop where
  | any : CountedBy h any
  | oneOf (set : CharSet) : CountedBy h (oneOf set)
  | val (c : Char) : CountedBy h (val c)
  | empty : CountedBy h empty
  | end : CountedBy h .end
  | append {a b : Rule Gauges} : CountedBy h a → CountedBy h b → CountedBy h (append a b)
  | or {a b : Rule Gauges} : CountedBy h a → CountedBy h b → CountedBy h (or a b)
  | optional {r : Rule Gauges} : CountedBy h r → CountedBy h (optional r)
  | many {r : Rule Gauges} : CountedBy h r → CountedBy h (many r)
  | counted {r : Rule Gauges} : CountedBy h r → CountedBy h (counted h r)

theorem Observed.refl {r : Rule Gauges} (h : r.CustomFree) : Observed r r := by
  induction r using Rule.rec (motive_2 := fun _ => True) with
  | any => exact .any
  | oneOf set => exact .oneOf set
  | val c => exact .val c
  | empty => exact .empty
  | «end» => exact .end
  | append a b iha ihb => exact .append (iha h.1) (ihb h.2)
  | or a b iha ihb => exact .or (iha h.1) (ihb h.2)
  | optional r ih => exact .optional (ih h)
  | many r ih => exact .many (ih h)
  | custom label act _ => exact h.elim
  | _ => trivial

theorem Observed.customFree {r r' : Rule Gauges} (h : Observed r r') : r.CustomFree := by
  induction h with
  | append _ _ iha ihb => exact ⟨iha, ihb⟩
  | or _ _ iha ihb => exact ⟨iha, ihb⟩
  | optional _ ih => exact ih
  | many _ ih => exact ih
  | counted _ _ ih => exact ih
  | recorded _ _ ih => exact ih
  | _ => trivial

theorem CountedBy.observed {h : Handle} {r : Rule Gauges} (hr : CountedBy h r) :
    ∃ plain, Observed plain r := by
  induction hr with
  | any => exact ⟨_, .any⟩
  | oneOf set => exact ⟨_, .oneOf set⟩
  | val c => exact ⟨_, .val c⟩
  | empty => exact ⟨_, .empty⟩
  | «end» => exact ⟨_, .end⟩
  | append _ _ iha ihb =>
    obtain ⟨a, ha⟩ := iha
    obtain ⟨b, hb⟩ := ihb
    exact ⟨_, .append ha hb⟩
  | or _ _ iha ihb =>
    obtain ⟨a, ha⟩ := iha
    obtain ⟨b, hb⟩ := ihb
    exact ⟨_, .or ha hb⟩
  | optional _ ih =>
    obtain ⟨plain, hplain⟩ := ih
    exact ⟨_, .optional hplain⟩
  | many _ ih =>
    obtain ⟨plain, hplain⟩ := ih
    exact ⟨_, .many hplain⟩
  | counted _ ih =>
    obtain ⟨plain, hplain⟩ := ih
    exact ⟨_, .counted h hplain⟩

end Backtrack.Rule
