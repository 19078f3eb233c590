import Backtrack.Json.Number
import Backtrack.Json.Quoted

/-!
# JSON tokens

A text is cut into tokens from its beginning. Where no token can be read, the mark `bad` ends the list, so that a
reader of tokens notices the fault only when it gets there.
-/

set_option autoImplicit false

namespace Backtrack.Json

inductive Token where
  | openBrace
  | closeBrace
  | openBracket
  | closeBracket
  | comma
  | colon
  | null
  | truth (b : Bool)
  | number (n : Number)
  | string (s : String)
  /-- No token can be read here. -/
  | bad
  deriving DecidableEq, Repr

namespace Token

def isBlank (c : Char) : Bool := c = ' ' || c = '\t' || c = '\n' || c = '\r'

def scan : List Char → List Token
  | [] => []
  | '\x7b' :: s => openBrace :: scan s
  | '\x7d' :: s => closeBrace :: scan s
  | '[' :: s => openBracket :: scan s
  | ']' :: s => closeBracket :: scan s
  | ',' :: s => comma :: scan s
  | ':' :: s => colon :: scan s
  | '"' :: s =>
    match h : readString s with
    | some (cs, rest) =>
      have := length_of_readString h
      string (String.ofList cs) :: scan rest
    | none => [bad]
  | 'n' :: 'u' :: 'l' :: 'l' :: s => null :: scan s
  | 't' :: 'r' :: 'u' :: 'e' :: s => truth true :: scan s
  | 'f' :: 'a' :: 'l' :: 's' :: 'e' :: s => truth false :: scan s
  | c :: s =>
    if isBlank c then scan s
    else match h : readNumber (c :: s) with
      | some (n, rest) =>
        have : rest.length < s.length + 1 := length_of_readNumber h
        number n :: scan rest
      | none => [bad]
termination_by s => s.length

/-- A token as it is written, without blanks. -/
def text : Token → List Char
  | openBrace => ['\x7b']
  | closeBrace => ['\x7d']
  | openBracket => ['[']
  | closeBracket => [']']
  | comma => [',']
  | colon => [':']
  | null => "null".toList
  | truth true => "true".toList
  | truth false => "false".toList
  | number n => n.text
  | string s => quote s.toList
  | bad => []

end Token

end Backtrack.Json
