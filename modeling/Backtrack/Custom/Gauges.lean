import Std.Data.HashMap
import Backtrack.Rule.Outline
import Backtrack.Search.Match

/-!
# Gauges

Rules that observe how a search drives another rule. A gauge is read and set back through a handle, and the same
handle may stand at many places: a counter counts how often the wrapped rule is invoked, a recorder keeps the
remainders that it offers onward, and a probe notes how far the search has come.
-/

set_option autoImplicit false

namespace Backtrack

abbrev Handle := Nat

/-- The readings of all gauges. A handle that was never used reads as zero or as nothing. -/
structure Gauges where
  counts : Std.HashMap Handle Nat
  /-- Newest first. -/
  records : Std.HashMap Handle (List Input)
  /-- Newest first. -/
  notes : Std.HashMap Handle (List String)

namespace Gauges

def empty : Gauges := ⟨∅, ∅, ∅⟩

def calls (g : Gauges) (h : Handle) : Nat := g.counts.getD h 0

def bump (h : Handle) (g : Gauges) : Gauges := { g with counts := g.counts.insert h (g.calls h + 1) }

def reset (h : Handle) (g : Gauges) : Gauges := { g with counts := g.counts.insert h 0 }

/-- Remainders so far, in the order in which they were offered. -/
def remainders (g : Gauges) (h : Handle) : List Input := (g.records.getD h []).reverse

def record (h : Handle) (rest : Input) (g : Gauges) : Gauges :=
  { g with records := g.records.insert h (rest :: g.records.getD h []) }

def clear (h : Handle) (g : Gauges) : Gauges := { g with records := g.records.insert h [] }

def noted (g : Gauges) (h : Handle) : List String := (g.notes.getD h []).reverse

def note (h : Handle) (text : String) (g : Gauges) : Gauges :=
  { g with notes := g.notes.insert h (text :: g.notes.getD h []) }

section Readings

variable (g : Gauges) (h i : Handle) (rest : Input) (text : String)

@[simp] theorem calls_empty : empty.calls h = 0 := by
  simp [empty, calls]

@[simp] theorem remainders_empty : empty.remainders h = [] := by
  simp [empty, remainders]

@[simp] theorem calls_bump : (g.bump h).calls i = if h = i then g.calls h + 1 else g.calls i := by
  simp [bump, calls, Std.HashMap.getD_insert]

@[simp] theorem calls_reset : (g.reset h).calls i = if h = i then 0 else g.calls i := by
  simp [reset, calls, Std.HashMap.getD_insert]

@[simp] theorem calls_record : (g.record h rest).calls i = g.calls i := rfl

@[simp] theorem calls_note : (g.note h text).calls i = g.calls i := rfl

@[simp] theorem remainders_record :
    (g.record h rest).remainders i = if h = i then g.remainders h ++ [rest] else g.remainders i := by
  by_cases hi : h = i <;> simp [record, remainders, Std.HashMap.getD_insert, hi]

@[simp] theorem remainders_clear : (g.clear h).remainders i = if h = i then [] else g.remainders i := by
  by_cases hi : h = i <;> simp [clear, remainders, Std.HashMap.getD_insert, hi]

@[simp] theorem remainders_bump : (g.bump h).remainders i = g.remainders i := rfl

@[simp] theorem remainders_note : (g.note h text).remainders i = g.remainders i := rfl

end Readings

end Gauges

namespace Rule

/-- Counts each invocation and passes it on. -/
def counted (h : Handle) (inner : Rule Gauges) : Rule Gauges :=
  custom
    (fun g => Text.record "CountingRule" [("inner", inner.debug g), ("calls", toString (g.calls h))])
    fun s => .update (·.bump h) fun _ => .pass inner s

/-- Keeps each remainder before it is offered onward. -/
def recorded (h : Handle) (inner : Rule Gauges) : Rule Gauges :=
  custom
    (fun g =>
      let seen := Text.list ((g.remainders h).map fun rest => Text.quoteString (String.ofList rest))
      Text.record "Recorder"
        [("inner", inner.debug g), ("seen", Text.openRecord "Mutex" [("data", seen), ("poisoned", "false")])])
    fun s => .run inner s (fun rest => .update (·.record h rest) fun _ => .offer rest .answer) .answer

/-- Consumes nothing and notes where the search stands. -/
def probe (h : Handle) : Rule Gauges :=
  custom (fun _ => "Probe") fun s =>
    .observe fun steps depth =>
      .update (·.note h (Text.record "Scope" [("steps", toString steps), ("depth", toString depth)])) fun _ =>
        .offer s .answer

/-- The counting wrapper asked directly, with the rule inside in a search of its own. -/
def matchCounted {ω : Type} (h : Handle) (inner : Rule Gauges) (s : Input) (k : Acceptor ω Gauges) :
    StateM (ω × Gauges) Bool := do
  modify fun (outer, g) => (outer, g.bump h)
  inner.matchWith s k

/-- The recording wrapper asked directly, with the rule inside in a search of its own. -/
def matchRecorded {ω : Type} (h : Handle) (inner : Rule Gauges) (s : Input) (k : Acceptor ω Gauges) :
    StateM (ω × Gauges) Bool :=
  inner.matchWith s fun rest => do
    modify fun (outer, g) => (outer, g.record h rest)
    k rest

end Rule

end Backtrack
