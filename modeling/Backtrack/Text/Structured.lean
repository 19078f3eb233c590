/-!
# Structured values as text

The inspection form of a value: a name alone, a name with its parts in parentheses, a name with its named parts
in braces, or a list in brackets.
-/

namespace Backtrack.Text

def commaSeparated (parts : List String) : String := ", ".intercalate parts

/-- A name with its parts, as `Pair(a, b)`. -/
def tuple (name : String) (parts : List String) : String := name ++ "(" ++ commaSeparated parts ++ ")"

/-- A name with its named parts, as `Point { x: 1, y: 2 }`. -/
def record (name : String) (fields : List (String × String)) : String :=
  name ++ " \x7b " ++ commaSeparated (fields.map fun (field, text) => field ++ ": " ++ text) ++ " \x7d"

/-- A name with some of its named parts, as `Point { x: 1, .. }`. -/
def openRecord (name : String) (fields : List (String × String)) : String :=
  name ++ " \x7b " ++ String.join (fields.map fun (field, text) => field ++ ": " ++ text ++ ", ") ++ ".. \x7d"

def list (parts : List String) : String := "[" ++ commaSeparated parts ++ "]"

end Backtrack.Text
