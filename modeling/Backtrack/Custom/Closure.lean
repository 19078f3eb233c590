import Backtrack.Rule.Outline

/-!
# Named closures

A custom rule made of a name and a behaviour that runs no other rules. The behaviours gathered here consume, offer
several remainders, or break the usual expectations on purpose: they answer without offering, lengthen the
remainder, or offer the same one twice.
-/

set_option autoImplicit false

namespace Backtrack

/-- A behaviour under a name that is only shown. -/
structure Closure (σ : Type) where
  name : String
  act : Input → Dialogue σ

namespace Closure

variable {σ : Type}

def debug (f : Closure σ) : String := Text.tuple "FnRule" [Text.quoteString f.name]

def rule (f : Closure σ) : Rule σ := .custom (fun _ => f.debug) f.act

def one (accepts : Char → Bool) : Input → Dialogue σ
  | [] => .answer false
  | c :: rest => if accepts c then .offer rest .answer else .answer false

def isVowel (c : Char) : Bool := ['a', 'e', 'i', 'o', 'u'].contains c

/-- Two characters or one, preferring two. -/
def oneOrTwo : Input → Dialogue σ
  | [] => .answer false
  | [_] => .offer [] .answer
  | _ :: d :: rest => .offerFirst [rest, d :: rest]

/-- Takes an accented e for a plain one that is still to be matched. -/
def unaccent : Input → Dialogue σ
  | [] => .answer false
  | c :: rest => if c = 'é' then .offer ('e' :: rest) .answer else .answer false

/-- The whole input, then what is left after each further character. -/
def suffixes : Input → List Input
  | [] => [[]]
  | c :: rest => (c :: rest) :: suffixes rest

/-- The behaviours, by the names under which they are asked for. -/
def catalogue : List (String × (Input → Dialogue σ)) :=
  [("digit", one Char.isDigit),
   ("vowel", one isVowel),
   ("upper", one Char.isUpper),
   ("one_or_two", oneOrTwo),
   ("noop", fun s => .offer s .answer),
   ("never", fun _ => .answer false),
   ("accept", fun _ => .answer true),
   ("twice", fun s => .offerFirst [s, s]),
   ("swallow", fun _ => .offer [] .answer),
   ("prepend_x", fun s => .offer ('x' :: s) .answer),
   ("unaccent", unaccent),
   ("shortest", fun s => .offerFirst (suffixes s)),
   ("longest", fun s => .offerFirst (suffixes s).reverse)]

/-- The behaviour of a name. An unknown name never matches. -/
def behaviour (name : String) : Input → Dialogue σ :=
  (catalogue.lookup name).getD fun _ => .answer false

end Closure

end Backtrack
