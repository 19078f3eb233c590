import Backtrack.Config.Basic

/-!
# Tags

The tag of a config says which constructor it is, and the form of a tag says which one field it needs, what the
field holds, and how the config is made from it.
-/

set_option autoImplicit false

namespace Backtrack.Config

inductive Tag where
  | any | oneOf | val | empty | end | optional | many | oneOrMore | eof | sequence | alternative
  deriving DecidableEq, Repr

inductive Role where
  | text
  | rule
  | rules
  deriving DecidableEq, Repr

abbrev Role.Carrier : Role → Type
  | text => String
  | rule => Config
  | rules => List Config

/-- What a tag needs: nothing, or one field. -/
inductive Form where
  | bare (config : Config)
  | filled (field : String) (role : Role) (make : role.Carrier → Config)

namespace Tag

/-- All tags, in the order in which they are numbered. -/
def all : List Tag := [any, oneOf, val, empty, .end, optional, many, oneOrMore, eof, sequence, alternative]

/-- The tag as configs write it. -/
def name : Tag → String
  | any => "any"
  | oneOf => "one_of"
  | val => "val"
  | empty => "empty"
  | .end => "end"
  | optional => "optional"
  | many => "many"
  | oneOrMore => "one_or_more"
  | eof => "eof"
  | sequence => "sequence"
  | alternative => "alternative"

/-- The tag as messages name it. -/
def title : Tag → String
  | any => "Any"
  | oneOf => "OneOf"
  | val => "Val"
  | empty => "Empty"
  | .end => "End"
  | optional => "Optional"
  | many => "Many"
  | oneOrMore => "OneOrMore"
  | eof => "Eof"
  | sequence => "Sequence"
  | alternative => "Alternative"

def ofName? (name : String) : Option Tag := all.find? (·.name == name)

def form : Tag → Form
  | any => .bare .any
  | oneOf => .filled "set" .text .oneOf
  | val => .filled "value" .text .val
  | empty => .bare .empty
  | .end => .bare .end
  | optional => .filled "rule" .rule .optional
  | many => .filled "rule" .rule .many
  | oneOrMore => .filled "rule" .rule .oneOrMore
  | eof => .filled "rule" .rule .eof
  | sequence => .filled "rules" .rules .sequence
  | alternative => .filled "rules" .rules .alternative

end Tag

end Backtrack.Config
