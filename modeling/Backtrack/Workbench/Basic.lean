import Backtrack.Config.Compile
import Backtrack.Config.Json
import Backtrack.Custom.Gauges
import Backtrack.Workbench.Blueprint

/-!
# Workbenches

A workbench keeps rules under names and gauges under names of their own, and builds blueprints. What a blueprint
registers on the way stays registered even if the building fails later.
-/

set_option autoImplicit false

namespace Backtrack

structure Workbench where
  rules : List (String × Rule Gauges)
  counters : List (String × Handle)
  recorders : List (String × Handle)
  probes : List (String × Handle)
  gauges : Gauges
  /-- No handle from this one on is in use. -/
  nextHandle : Handle

namespace Workbench

def empty : Workbench := ⟨[], [], [], [], .empty, 0⟩

/-- Binds a name, in place of what it named before. -/
def bind {α : Type} (name : String) (a : α) (table : List (String × α)) : List (String × α) :=
  (name, a) :: table.filter (·.1 != name)

/-- Building needs a workbench, and the workbench outlives a failure. -/
abbrev BuildM := ExceptT RuleError (StateM Workbench)

def freshHandle : BuildM Handle := modifyGet fun bench =>
  (bench.nextHandle, { bench with nextHandle := bench.nextHandle + 1 })

def newCounter (id : Option String) : BuildM Handle := do
  let h ← freshHandle
  modify fun bench => { bench with counters := id.elim bench.counters (bind · h bench.counters) }
  return h

def newRecorder (id : Option String) : BuildM Handle := do
  let h ← freshHandle
  modify fun bench => { bench with recorders := id.elim bench.recorders (bind · h bench.recorders) }
  return h

/-- The notes of a name, which start empty when the name is first used. -/
def probeNotes (id : String) : BuildM Handle := do
  match (← get).probes.lookup id with
  | some h => return h
  | none =>
    let h ← freshHandle
    modify fun bench => { bench with probes := bind id h bench.probes }
    return h

mutual

/-- Builds a rule, its parts in order. A name that is not bound builds the rule that consumes nothing. -/
def build : Blueprint → BuildM (Rule Gauges)
  | .any => return .any
  | .empty => return .empty
  | .end => return .end
  | .oneOf members => return .oneOf (.ofString members)
  | .val c => return .val c
  | .literal text => return .literal text.toList
  | .append first second => return .append (← build first) (← build second)
  | .or first second => return .or (← build first) (← build second)
  | .sequence parts => do Rule.trySequence (← buildAll parts)
  | .alternative parts => do Rule.tryAlternative (← buildAll parts)
  | .wrapped wrapper times inner => return Rule.nest wrapper.wrap times (← build inner)
  | .closure name => return Closure.rule ⟨name, Closure.behaviour name⟩
  | .withinSteps most => return .withinSteps most
  | .config json => do
    let c ← Config.fromJson Config.ownCodec json
    c.compile
  | .named name => return ((← get).rules.lookup name).getD .empty
  | .counted id inner => do
    let inner ← build inner
    return inner.counted (← newCounter id)
  | .recorded id inner => do
    let inner ← build inner
    return inner.recorded (← newRecorder id)
  | .probe id => return .probe (← probeNotes id)

def buildAll : List Blueprint → BuildM (List (Rule Gauges))
  | [] => return []
  | b :: bs => return (← build b) :: (← buildAll bs)

end

def define (name : String) (b : Blueprint) : BuildM Unit := do
  let r ← build b
  modify fun bench => { bench with rules := bind name r bench.rules }

/-- Forgets a name, and says whether it was bound. -/
def forget (name : String) : StateM Workbench Bool := modifyGet fun bench =>
  ((bench.rules.lookup name).isSome, { bench with rules := bench.rules.filter (·.1 != name) })

def onGauges {α : Type} (m : StateM Gauges α) : StateM Workbench α := modifyGet fun bench =>
  let (a, gauges) := m bench.gauges
  (a, { bench with gauges := gauges })

def resetCounter (id : String) : StateM Workbench Unit := do
  if let some h := (← get).counters.lookup id then onGauges (modify (·.reset h))

def clearRecorder (id : String) : StateM Workbench Unit := do
  if let some h := (← get).recorders.lookup id then onGauges (modify (·.clear h))

def counts (bench : Workbench) : List (String × Nat) :=
  bench.counters.map fun (id, h) => (id, bench.gauges.calls h)

def remainders (bench : Workbench) : List (String × List Input) :=
  bench.recorders.map fun (id, h) => (id, bench.gauges.remainders h)

def notes (bench : Workbench) : List (String × List String) :=
  bench.probes.map fun (id, h) => (id, bench.gauges.noted h)

end Workbench

end Backtrack
