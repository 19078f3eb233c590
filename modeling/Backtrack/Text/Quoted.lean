import Backtrack.Text.Hidden

/-!
# Quoted characters and strings

A quoted text stands between two quote marks. Inside, the mark itself and the backslash are escaped by a
backslash, common controls have a letter, and a hidden character is written by its code point, as `\u{200b}`.
Everything else stands for itself.
-/

namespace Backtrack.Text

/-- Lower-case hexadecimal digits without leading zeros. -/
def hex (n : Nat) : List Char := Nat.toDigits 16 n

/-- One character as it stands between two marks. -/
def escape (mark c : Char) : List Char :=
  if c = '\t' then ['\\', 't']
  else if c = '\r' then ['\\', 'r']
  else if c = '\n' then ['\\', 'n']
  else if c.toNat = 0 then ['\\', '0']
  else if c = '\\' || c = mark then ['\\', c]
  else if isHidden c then ['\\', 'u', '\x7b'] ++ hex c.toNat ++ ['\x7d']
  else [c]

def quoted (cs : List Char) : List Char := '"' :: cs.flatMap (escape '"') ++ ['"']

def quoteString (s : String) : String := String.ofList (quoted s.toList)

def quotedChar (c : Char) : List Char := '\'' :: escape '\'' c ++ ['\'']

end Backtrack.Text
