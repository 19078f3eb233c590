import Backtrack.Json.Value

/-!
# Documents

A document is a value written as JSON on one line of a plain text. The plain text knows more line breaks than JSON
does: where a string holds one, the spaces around it are layout and are dropped. Such a break must not stand in the
name of a member, and the line after it must not look like the end of the document.
-/

set_option autoImplicit false

namespace Backtrack.Document

open Json (Value)

/-- A control, a byte-order mark or a code point that is no character cannot stand in a plain text. The controls
below the space are escaped in JSON and do not stand in it. -/
def isReadable (c : Char) : Bool :=
  let n := c.toNat
  n < 0x7F || n = 0x85 || (0xA0 ≤ n && n ≠ 0xFEFF && n ≠ 0xFFFE && n ≠ 0xFFFF)

/-- The line break that has no look of its own and is read as a space. -/
def nextLine : Char := '\u0085'

def isLineBreak (c : Char) : Bool := c = nextLine || c = '\u2028' || c = '\u2029'

def isGap (c : Char) : Bool := c = ' ' || isLineBreak c

/-- What becomes of spaces and line breaks that stand together. -/
def settleGap (gap : List Char) : List Char :=
  match gap.filter isLineBreak with
  | [] => gap
  | first :: more =>
    let more := more.map fun c => if c = nextLine then '\n' else c
    if first ≠ nextLine then first :: more
    else if more.isEmpty then [' ']
    else more

/-- Settles the gaps of a text from its end: the gap at its beginning, and what follows that gap. -/
def splitGap (s : List Char) : List Char × List Char :=
  s.foldr (fun c (gap, rest) => if isGap c then (c :: gap, rest) else ([], c :: (settleGap gap ++ rest))) ([], [])

def folded (s : List Char) : List Char := settleGap (splitGap s).1 ++ (splitGap s).2

/-- Three dashes or three dots, set off from what follows. -/
def beginsWithMark : List Char → Bool
  | a :: b :: c :: d :: _ => (a = '-' || a = '.') && b = a && c = a && isGap d
  | _ => false

/-- Some line after the first begins with a mark between documents. -/
def hasMark : List Char → Bool
  | [] => false
  | c :: s => (isLineBreak c && beginsWithMark s) || hasMark s

def text? (s : String) : Option String :=
  if s.toList.all isReadable && !hasMark s.toList then some (String.ofList (folded s.toList)) else none

/-- The most characters of a member's name with its quotes and escapes. -/
def maxNameLength : Nat := 1024

def isName (name : String) : Bool :=
  name.toList.all (fun c => isReadable c && !isLineBreak c) && (Json.quote name.toList).length ≤ maxNameLength

mutual

def value? : Value → Option Value
  | .string s => (text? s).map .string
  | .array vs => (values? vs).map .array
  | .object members => (members? members).map .object
  | v => some v

def values? : List Value → Option (List Value)
  | [] => some []
  | v :: vs => do return (← value? v) :: (← values? vs)

def members? : List (String × Value) → Option (List (String × Value))
  | [] => some []
  | (name, v) :: members => do
    if !isName name then none
    return (name, ← value? v) :: (← members? members)

end

end Backtrack.Document
