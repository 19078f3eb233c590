import Backtrack.Rule.Basic
import Backtrack.Text.Structured

/-!
# Outlines and the shown form of rules

The outline of a rule forgets how its chains are grouped: nested appends become one sequence of parts and nested
alternatives one list. The shown form is the text of the outline, where runs of single characters in a sequence
read as one literal.
-/

namespace Backtrack

/-- A rule with its chains flattened. Custom rules keep their label. -/
inductive Outline where
  | any
  | oneOf (set : CharSet)
  | val (c : Char)
  | empty
  | end
  | seq (parts : List Outline)
  | alt (parts : List Outline)
  | optional (inner : Outline)
  | many (inner : Outline)
  | custom (label : String)

namespace Outline

/-- The parts of a sequence. Anything else is its own only part. -/
def seqParts : Outline → List Outline
  | seq parts => parts
  | o => [o]

def altParts : Outline → List Outline
  | alt parts => parts
  | o => [o]

def isVal : Outline → Bool
  | val _ => true
  | _ => false

/-- A run of single characters as one literal, or nothing where the run is empty. -/
def literalRun (run : List Char) : List String :=
  if run.isEmpty then [] else [Text.quoteString (String.ofList run)]

mutual

def display : Outline → String
  | any => "any"
  | oneOf set => Text.tuple "one_of" [set.display]
  | val c => String.ofList (Text.quotedChar c)
  | empty => "empty"
  | .end => "end"
  | seq parts =>
    if parts.all isVal then Text.commaSeparated (displayParts parts []) else Text.tuple "seq" (displayParts parts [])
  | alt parts => Text.tuple "alt" (displayAll parts)
  | optional o => Text.tuple "optional" [o.display]
  | many o => Text.tuple "many" [o.display]
  | custom label => Text.tuple "custom" [label]

def displayAll : List Outline → List String
  | [] => []
  | o :: os => o.display :: displayAll os

/-- The texts of the parts of a sequence, given the run of single characters just before them. -/
def displayParts : List Outline → (run : List Char) → List String
  | [], run => literalRun run
  | val c :: os, run => displayParts os (run ++ [c])
  | o :: os, run => literalRun run ++ o.display :: displayParts os []

end

end Outline

namespace Rule

variable {σ : Type}

def outline (shared : σ) : Rule σ → Outline
  | any => .any
  | oneOf set => .oneOf set
  | val c => .val c
  | empty => .empty
  | .end => .end
  | append a b => .seq ((a.outline shared).seqParts ++ (b.outline shared).seqParts)
  | or a b => .alt ((a.outline shared).altParts ++ (b.outline shared).altParts)
  | optional r => .optional (r.outline shared)
  | many r => .many (r.outline shared)
  | custom label _ => .custom (label shared)

/-- The rule as its users read it. -/
def display (r : Rule σ) (shared : σ) : String := (r.outline shared).display

def debug (shared : σ) : Rule σ → String
  | any => "Any"
  | oneOf set => Text.tuple "OneOf" [set.debug]
  | val c => Text.tuple "Val" [String.ofList (Text.quotedChar c)]
  | empty => "Empty"
  | .end => "End"
  | append a b => Text.tuple "Append" [a.debug shared, b.debug shared]
  | or a b => Text.tuple "Or" [a.debug shared, b.debug shared]
  | optional r => Text.tuple "Optional" [r.debug shared]
  | many r => Text.tuple "Many" [r.debug shared]
  | custom label _ => Text.tuple "Custom" [label shared]

end Rule

end Backtrack
