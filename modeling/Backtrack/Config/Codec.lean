import Backtrack.Config.Tag
import Backtrack.Error
import Backtrack.Json.Value

/-!
# Codecs

Configs are written and read by a JSON library, and by the code that it derives for them from the format: the tags,
the field that each of them needs, and what the field holds. All of that is a parameter here. The laws are what
configs rely on: one for each thing that the library promises about values and texts, and about one tag at a time.
-/

set_option autoImplicit false

namespace Backtrack.Config

open Json (Value)

def tagField : String := "type"

/-- An object of a tag and, where it has one, its field. -/
def tagged (tag : Tag) (fields : List (String × Value)) : Value :=
  .object ((tagField, .string tag.name) :: fields)

structure Codec where
  /-- A value as text. -/
  print : Value → String
  /-- The value of a text that holds one and nothing else. -/
  parse : String → Option Value
  /-- What is written where something plays a role. -/
  encode : (role : Role) → role.Carrier → Value
  /-- What a value holds where it plays a role inside another. -/
  decode : (role : Role) → Value → Option role.Carrier
  write : Config → String
  /-- The config of a text, or what is wrong with the text. -/
  read : String → Except String Config

/-- A config has a form, and what its field holds, if there is one, was read from one of some values. -/
def Form.ReadFrom (decode : (role : Role) → Value → Option role.Carrier) (vs : List Value) (c : Config) : Form → Prop
  | .bare d => c = d
  | .filled _ role make => ∃ x, c = make x ∧ ∃ v ∈ vs, decode role v = some x

def fromJson (codec : Codec) (t : String) : Except RuleError Config := (codec.read t).mapError .invalidConfig

structure Codec.Lawful (codec : Codec) : Prop where
  /-- Numbers are left out, which need not survive. -/
  parse_print : ∀ {v : Value}, v.Textual → v.nesting ≤ Value.maxNesting → codec.parse (codec.print v) = some v
  nesting_of_parse : ∀ {t : String} {v : Value}, codec.parse t = some v → v.nesting ≤ Value.maxNesting
  write_eq : ∀ c : Config, codec.write c = codec.print (codec.encode .rule c)
  encode_text : ∀ s : String, codec.encode .text s = .string s
  encode_rules : ∀ cs : List Config, codec.encode .rules cs = .array (cs.map (codec.encode .rule))
  encode_bare : ∀ {tag : Tag} {c : Config}, tag.form = .bare c → codec.encode .rule c = tagged tag []
  /-- The tag is written first. -/
  encode_filled : ∀ {tag : Tag} {field : String} {role : Role} {make : role.Carrier → Config},
    tag.form = .filled field role make →
      ∀ x, codec.encode .rule (make x) = tagged tag [(field, codec.encode role x)]
  decode_text : ∀ s : String, codec.decode .text (.string s) = some s
  decode_rules : ∀ vs : List Value, codec.decode .rules (.array vs) = vs.mapM (codec.decode .rule)
  decode_bare : ∀ {tag : Tag} {c : Config}, tag.form = .bare c → codec.decode .rule (tagged tag []) = some c
  decode_filled : ∀ {tag : Tag} {field : String} {role : Role} {make : role.Carrier → Config} {v : Value}
    {x : role.Carrier}, tag.form = .filled field role make → codec.decode role v = some x →
      codec.decode .rule (tagged tag [(field, v)]) = some (make x)
  array_of_decode : ∀ {v : Value} {cs : List Config}, codec.decode .rules v = some cs → ∃ vs, v = .array vs
  /-- In whatever order and with whatever else, a rule is read from an object or an array, and what its field holds
  from a part of that. -/
  of_decode : ∀ {v : Value} {c : Config}, codec.decode .rule v = some c →
    v.isContainer = true ∧ ∃ tag : Tag, tag.form.ReadFrom codec.decode v.parts c
  /-- The outermost rule is read as one inside another would be. -/
  decode_of_read : ∀ {t : String} {c : Config}, codec.read t = .ok c →
    ∃ v, codec.parse t = some v ∧ codec.decode .rule v = some c
  /-- The other way round this is promised where its tag comes first and by name. -/
  read_of_parse : ∀ {t : String} {tag : Tag} {fields : List (String × Value)} {c : Config},
    codec.parse t = some (tagged tag fields) → codec.decode .rule (tagged tag fields) = some c →
      codec.read t = .ok c

end Backtrack.Config
