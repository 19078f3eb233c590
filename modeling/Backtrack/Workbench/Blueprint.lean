import Backtrack.Custom.Closure
import Backtrack.Custom.Combinators
import Backtrack.Rule.Build

/-!
# Blueprints

Descriptions of rules that are built when they are needed. A blueprint may name a rule that was built before, and
may ask for gauges, whose handles exist only once it is built.
-/

set_option autoImplicit false

namespace Backtrack

inductive Wrapper where
  | optional | many | oneOrMore | eof
  | nested | isolated | nonEmpty | lookahead | notAhead
  | appendAny | appendEmpty | emptyAppend | orAny | endOr
  deriving DecidableEq, Repr

namespace Wrapper

variable {σ : Type}

def wrap (r : Rule σ) : Wrapper → Rule σ
  | optional => .optional r
  | many => .many r
  | oneOrMore => r.oneOrMore
  | eof => r.eof
  | nested => r.nested
  | isolated => r.isolated
  | nonEmpty => r.nonEmpty
  | lookahead => r.lookahead
  | notAhead => r.notAhead
  | appendAny => r.append .any
  | appendEmpty => r.append .empty
  | emptyAppend => Rule.empty.append r
  | orAny => r.or .any
  | endOr => Rule.end.or r

end Wrapper

inductive Blueprint where
  | any
  | empty
  | end
  | oneOf (members : String)
  | val (c : Char)
  | literal (text : String)
  | append (first second : Blueprint)
  | or (first second : Blueprint)
  | sequence (parts : List Blueprint)
  | alternative (parts : List Blueprint)
  /-- The inner rule, wrapped a number of times. -/
  | wrapped (wrapper : Wrapper) (times : Nat) (inner : Blueprint)
  | closure (name : String)
  | withinSteps (most : Nat)
  | config (json : String)
  | named (name : String)
  /-- A counter around a rule, listed under a name where it has one. -/
  | counted (id : Option String) (inner : Blueprint)
  | recorded (id : Option String) (inner : Blueprint)
  /-- A probe. All probes of one name write the same notes. -/
  | probe (id : String)

end Backtrack
