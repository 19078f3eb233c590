import Backtrack.Config.Codec

/-!
# A codec in full

The codec that is used where no other is given. A config is written as an object with its tag under `type` and its
one field beside it. It may also be read from an array of the tag and the field's value. Other members are ignored.

What is wrong with a text is found in this order: the tag of the outermost rule is checked as soon as it is read,
and so is a second one; then the text has to be well formed up to the end of that rule; then the members are
decoded in the order in which they are written; and what follows the rule is looked at last.
-/

set_option autoImplicit false

namespace Backtrack.Config

open Json (Value Frame Token Number)

/-- What stands where something else was expected. -/
inductive Found where
  | null
  | truth (b : Bool)
  | number (n : Number)
  | string (s : String)
  | sequence
  | map
  deriving DecidableEq, Repr

inductive Wanted where
  | tag
  | rule
  | text
  | rules
  deriving DecidableEq, Repr

/-- Why a well-formed value is no config. -/
inductive Fault where
  | wrongType (found : Found) (wanted : Wanted)
  | unknownTag (name : String)
  /-- A tag given by a number that no tag has. -/
  | tagNumber (n : Nat)
  | duplicateField (field : String)
  | missingField (field : String)
  /-- An array with no value for the field of its tag. -/
  | tooFew (tag : Tag)
  /-- An array with more values after its tag than the tag has fields. -/
  | tooMany (given wanted : Nat)
  deriving DecidableEq, Repr

/-- Why a text is no config. -/
inductive ReadError where
  /-- The text is not JSON, or ends too early. -/
  | malformed
  | fault (f : Fault)
  deriving DecidableEq, Repr

namespace Found

def describe : Found → String
  | null => "null"
  | truth b => s!"boolean `{b}`"
  | number n =>
    let sort := if n.isInteger then "integer" else "floating point"
    s!"{sort} `{String.ofList n.text}`"
  | string s => s!"string {Text.quoteString s}"
  | sequence => "sequence"
  | map => "map"

def ofValue : Value → Found
  | .null => null
  | .truth b => truth b
  | .number n => number n
  | .string s => string s
  | .array _ => sequence
  | .object _ => map

/-- What begins with a token, if anything does. -/
def ofToken? : Token → Option Found
  | .null => some null
  | .truth b => some (truth b)
  | .number n => some (number n)
  | .string s => some (string s)
  | .openBracket => some sequence
  | .openBrace => some map
  | _ => none

end Found

def Wanted.describe : Wanted → String
  | tag => "variant identifier"
  | rule => "internally tagged enum RuleConfig"
  | text => "a string"
  | rules => "a sequence"

def Fault.message : Fault → String
  | wrongType found wanted => s!"invalid type: {found.describe}, expected {wanted.describe}"
  | unknownTag name =>
    let names := Text.commaSeparated (Tag.all.map fun tag => s!"`{tag.name}`")
    s!"unknown variant `{name}`, expected one of {names}"
  | tagNumber n => s!"invalid value: integer `{n}`, expected variant index 0 <= i < {Tag.all.length}"
  | duplicateField field => s!"duplicate field `{field}`"
  | missingField field => s!"missing field `{field}`"
  | tooFew tag => s!"invalid length 0, expected struct variant RuleConfig::{tag.title} with 1 element"
  | tooMany given wanted =>
    let elements := if wanted = 1 then "element" else "elements"
    s!"invalid length {given}, expected {wanted} {elements} in sequence"

/-! ## Reading -/

def Tag.ofString (s : String) : Except Fault Tag :=
  match ofName? s with
  | some tag => .ok tag
  | none => .error (.unknownTag s)

/-- The tag of a rule inside another: by its name, or by its number. -/
def Tag.ofValue : Value → Except Fault Tag
  | .string s => ofString s
  | .number (.natural n) =>
    match all[n]? with
    | some tag => .ok tag
    | none => .error (.tagNumber n)
  | v => .error (.wrongType (.ofValue v) .tag)

/-- The tag among the members of an object, which must be there once. -/
def Tag.ofMembers (members : List (String × Value)) : Except Fault Tag := do
  match members.filter (·.1 == tagField) with
  | [] => throw (.missingField tagField)
  | [(_, v)] => ofValue v
  | (_, v) :: _ =>
    let _ ← ofValue v
    throw (.duplicateField tagField)

mutual

/-- What a value holds, where it plays a role. -/
def decode : (role : Role) → Value → Except Fault role.Carrier
  | .text, .string s => .ok s
  | .rules, .array vs => decodeAll vs
  | .rule, .object members => do decodeMembers (← Tag.ofMembers members).form none members
  | .rule, .array [] => .error (.missingField tagField)
  | .rule, .array (v :: vs) => do
    let tag ← Tag.ofValue v
    decodeItems tag vs
  | .text, v => .error (.wrongType (.ofValue v) .text)
  | .rule, v => .error (.wrongType (.ofValue v) .rule)
  | .rules, v => .error (.wrongType (.ofValue v) .rules)

def decodeAll : List Value → Except Fault (List Config)
  | [] => .ok []
  | v :: vs => do
    let c ← decode .rule v
    return c :: (← decodeAll vs)

/-- The config that has been found so far among the members of an object, completed from those that follow. -/
def decodeMembers (form : Form) (found : Option Config) : List (String × Value) → Except Fault Config
  | [] =>
    match form, found with
    | .bare c, _ => .ok c
    | .filled _ _ _, some c => .ok c
    | .filled field _ _, none => .error (.missingField field)
  | (name, v) :: members =>
    match form with
    | .bare c => .ok c
    | .filled field role make =>
      if name = field then
        if found.isSome then .error (.duplicateField field)
        else do
          let x ← decode role v
          decodeMembers form (some (make x)) members
      else decodeMembers form found members

/-- The config of a tag and the values after it in an array. -/
def decodeItems (tag : Tag) : List Value → Except Fault Config
  | [] =>
    match tag.form with
    | .bare c => .ok c
    | .filled _ _ _ => .error (.tooFew tag)
  | v :: vs =>
    match tag.form with
    | .bare _ => .error (.tooMany (vs.length + 1) 0)
    | .filled _ role make => do
      let x ← decode role v
      if vs.isEmpty then return make x else throw (.tooMany (vs.length + 1) 1)

end

/-- What is wrong with the tag of the outermost rule, as far as a token shows it. Here a tag is always named. -/
def earlyFault? (frames : List Frame) (t : Token) : Option Fault :=
  match frames, t with
  | [.objectName members], .string name =>
    if name = tagField ∧ members.any (·.1 == tagField) then some (.duplicateField tagField) else none
  | [.objectValue _ name], t => if name = tagField then tagFault? t else none
  | [.arrayStart], t => tagFault? t
  | _, _ => none
where
  tagFault? : Token → Option Fault
    | .string s => if (Tag.ofName? s).isSome then none else some (.unknownTag s)
    | t => (Found.ofToken? t).map (.wrongType · .tag)

/-- Reads the outermost value, with an eye on its tag. -/
def readOutermost (frames : List Frame) : List Token → Except ReadError (Value × List Token)
  | [] => .error .malformed
  | t :: ts =>
    match earlyFault? frames t with
    | some fault => .error (.fault fault)
    | none =>
      match Value.step frames t with
      | .stuck => .error .malformed
      | .more frames => readOutermost frames ts
      | .done v => .ok (v, ts)

def ofTokens (ts : List Token) : Except ReadError Config := do
  let (v, rest) ← readOutermost [] ts
  let c ← (decode .rule v).mapError ReadError.fault
  if rest.isEmpty then return c else throw .malformed

def ofText (t : String) : Except ReadError Config := ofTokens (Token.scan t.toList)

def ReadError.cause : ReadError → String
  | malformed => "malformed JSON"
  | fault f => f.message

/-! ## Writing -/

mutual

def toValue : Config → Value
  | any => tagged .any []
  | oneOf set => tagged .oneOf [("set", .string set)]
  | val value => tagged .val [("value", .string value)]
  | empty => tagged .empty []
  | .end => tagged .end []
  | optional c => tagged .optional [("rule", c.toValue)]
  | many c => tagged .many [("rule", c.toValue)]
  | oneOrMore c => tagged .oneOrMore [("rule", c.toValue)]
  | eof c => tagged .eof [("rule", c.toValue)]
  | sequence cs => tagged .sequence [("rules", .array (toValues cs))]
  | alternative cs => tagged .alternative [("rules", .array (toValues cs))]

def toValues : List Config → List Value
  | [] => []
  | c :: cs => c.toValue :: toValues cs

end

/-- What a field holds, as it is written. -/
def Role.write : (role : Role) → role.Carrier → Value
  | .text, s => .string s
  | .rule, c => c.toValue
  | .rules, cs => .array (toValues cs)

def ownCodec : Codec where
  print := Value.print
  parse := Value.ofText?
  encode := Role.write
  decode role v := (decode role v).toOption
  write c := c.toValue.print
  read t := (ofText t).mapError ReadError.cause

end Backtrack.Config
