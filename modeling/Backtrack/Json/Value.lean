import Backtrack.Json.Token

/-!
# JSON values

Objects keep their members in order, and a name may occur in them more than once.

A value is read token by token over a stack of the containers that are still open. The stack says what may come
next, and its height is the nesting, which is limited.
-/

set_option autoImplicit false

namespace Backtrack.Json

inductive Value where
  | null
  | truth (b : Bool)
  | number (n : Number)
  | string (s : String)
  | array (items : List Value)
  | object (members : List (String × Value))

/-- A container that is still open: what it holds so far, newest first, and what it waits for. -/
inductive Frame where
  /-- An array just opened: an item, or its end. -/
  | arrayStart
  /-- After a comma: an item. -/
  | arrayItem (items : List Value)
  /-- After an item: a comma, or the end. -/
  | arrayNext (items : List Value)
  /-- An object just opened: a name, or its end. -/
  | objectStart
  /-- After a comma: a name. -/
  | objectName (members : List (String × Value))
  /-- After a name: the colon. -/
  | objectColon (members : List (String × Value)) (name : String)
  /-- After the colon: the value of the name. -/
  | objectValue (members : List (String × Value)) (name : String)
  /-- After a member: a comma, or the end. -/
  | objectNext (members : List (String × Value))

/-- What one token does to a value that is being read. -/
inductive Progress where
  /-- The token has no place here. -/
  | stuck
  | more (frames : List Frame)
  | done (v : Value)

namespace Value

/-- Arrays and objects nest at most this deeply. -/
def maxNesting : Nat := 127

/-- Puts a finished value where the innermost open container waits for one. -/
def deliver (v : Value) : List Frame → Progress
  | [] => .done v
  | .arrayStart :: frames => .more (.arrayNext [v] :: frames)
  | .arrayItem items :: frames => .more (.arrayNext (v :: items) :: frames)
  | .objectValue members name :: frames => .more (.objectNext ((name, v) :: members) :: frames)
  | _ => .stuck

/-- Opens a container where one may stand and nest. -/
def open? (frame : Frame) (frames : List Frame) : Progress :=
  if frames.length < maxNesting then
    match frames with
    | [] | .arrayStart :: _ | .arrayItem _ :: _ | .objectValue _ _ :: _ => .more (frame :: frames)
    | _ => .stuck
  else .stuck

def step : List Frame → Token → Progress
  | .arrayNext items :: frames, .comma => .more (.arrayItem items :: frames)
  | .objectNext members :: frames, .comma => .more (.objectName members :: frames)
  | .objectColon members name :: frames, .colon => .more (.objectValue members name :: frames)
  | .objectStart :: frames, .string name => .more (.objectColon [] name :: frames)
  | .objectName members :: frames, .string name => .more (.objectColon members name :: frames)
  | .arrayStart :: frames, .closeBracket => deliver (.array []) frames
  | .arrayNext items :: frames, .closeBracket => deliver (.array items.reverse) frames
  | .objectStart :: frames, .closeBrace => deliver (.object []) frames
  | .objectNext members :: frames, .closeBrace => deliver (.object members.reverse) frames
  | frames, .openBracket => open? .arrayStart frames
  | frames, .openBrace => open? .objectStart frames
  | frames, .null => deliver .null frames
  | frames, .truth b => deliver (.truth b) frames
  | frames, .number n => deliver (.number n) frames
  | frames, .string s => deliver (.string s) frames
  | _, _ => .stuck

/-- What stands directly in a value. -/
def parts : Value → List Value
  | array vs => vs
  | object members => members.map Prod.snd
  | _ => []

def isContainer : Value → Bool
  | array _ | object _ => true
  | _ => false

/-- Made of strings, arrays and objects alone. -/
inductive Textual : Value → Prop where
  | string (s : String) : Textual (string s)
  | array {vs : List Value} (h : ∀ v ∈ vs, Textual v) : Textual (array vs)
  | object {members : List (String × Value)} (h : ∀ m ∈ members, Textual m.2) : Textual (object members)

mutual

def nesting : Value → Nat
  | array vs => 1 + nestingOf vs
  | object members => 1 + nestingOfMembers members
  | _ => 0

def nestingOf : List Value → Nat
  | [] => 0
  | v :: vs => max v.nesting (nestingOf vs)

def nestingOfMembers : List (String × Value) → Nat
  | [] => 0
  | (_, v) :: members => max v.nesting (nestingOfMembers members)

end

mutual

def tokens : Value → List Token
  | null => [.null]
  | truth b => [.truth b]
  | number n => [.number n]
  | string s => [.string s]
  | array [] => [.openBracket, .closeBracket]
  | array (v :: vs) => .openBracket :: v.tokens ++ itemTokens vs
  | object [] => [.openBrace, .closeBrace]
  | object ((name, v) :: members) => .openBrace :: .string name :: .colon :: v.tokens ++ memberTokens members

/-- The items of an array after the first, and its end. -/
def itemTokens : List Value → List Token
  | [] => [.closeBracket]
  | v :: vs => .comma :: v.tokens ++ itemTokens vs

/-- The members of an object after the first, and its end. -/
def memberTokens : List (String × Value) → List Token
  | [] => [.closeBrace]
  | (name, v) :: members => .comma :: .string name :: .colon :: v.tokens ++ memberTokens members

end

/-- The value as text, without blanks. -/
def text (v : Value) : List Char := v.tokens.flatMap Token.text

def print (v : Value) : String := String.ofList v.text

/-- Reads tokens up to the end of the value that they begin. -/
def read (frames : List Frame) : List Token → Option (Value × List Token)
  | [] => none
  | t :: ts =>
    match step frames t with
    | .stuck => none
    | .more frames => read frames ts
    | .done v => some (v, ts)

/-- Reads a text that holds one value and nothing else. -/
def ofText? (s : String) : Option Value :=
  match read [] (Token.scan s.toList) with
  | some (v, []) => some v
  | _ => none

/-- Reads a text that holds one string and nothing else. -/
def stringOfText? (s : String) : Option String :=
  match ofText? s with
  | some (.string s) => some s
  | _ => none

end Value

end Backtrack.Json
