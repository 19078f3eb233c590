import Backtrack.Decimal.Binary64
import Backtrack.Limits

/-!
# JSON numbers

A number without fraction and exponent is an integer if it fits into 64 bits. Every other number, and minus zero,
is read as a number of double precision; one that is too large for that is no number at all.

Digits are read into one word. Once a digit does not fit, it is dropped with all that follow it before the point, or
after it.
-/

set_option autoImplicit false

namespace Backtrack.Json

inductive Number where
  /-- An integer from zero to the largest word. -/
  | natural (n : Nat)
  /-- The integer `-n`, down to the least signed word. -/
  | negative (n : Nat)
  | double (minus : Bool) (value : Binary64)
  deriving DecidableEq, Repr

namespace Number

/-- A number by its sign and a word, where no fraction or exponent was written. -/
def ofInteger (minus : Bool) (n : Nat) : Number :=
  if !minus then natural n
  else if 0 < n && n ≤ Limits.maxWord / 2 + 1 then negative n
  else double true (.ofNat n)

def ofDecimal? (minus : Bool) (d : Decimal) : Option Number := (Binary64.ofDecimal? d).map (double minus)

/-- Digits with a point and, from ten to the sixteenth upward and below one hundred-thousandth, an exponent with its
sign. -/
def layOut (d : Decimal) : List Char :=
  let digits := Nat.toDigits 10 d.digits
  let magnitude := digits.length + d.exponent
  let zeros (n : Int) : List Char := List.replicate n.toNat '0'
  if 0 ≤ d.exponent && magnitude ≤ 16 then digits ++ zeros d.exponent ++ ['.', '0']
  else if 0 < magnitude && magnitude ≤ 16 then
    digits.take magnitude.toNat ++ '.' :: digits.drop magnitude.toNat
  else if -5 < magnitude && magnitude ≤ 0 then ['0', '.'] ++ zeros (-magnitude) ++ digits
  else
    let fraction := if digits.length = 1 then [] else '.' :: digits.drop 1
    let sign := if 0 < magnitude then '+' else '-'
    digits.take 1 ++ fraction ++ 'e' :: sign :: Nat.toDigits 10 (magnitude - 1).natAbs

def text : Number → List Char
  | natural n => Nat.toDigits 10 n
  | negative n => '-' :: Nat.toDigits 10 n
  | double minus value => (if minus then ['-'] else []) ++ layOut value.shortest

def isInteger : Number → Bool
  | double .. => false
  | _ => true

end Number

/-- The longest beginning of a text that consists of digits, and the rest. -/
def splitDigits (s : List Char) : List Char × List Char := (s.takeWhile Char.isDigit, s.dropWhile Char.isDigit)

def digitValue (d : Char) : Nat := d.toNat - '0'.toNat

def digitsValue (digits : List Char) : Nat := digits.foldl (fun n d => 10 * n + digitValue d) 0

/-- The fraction after a number's first digits: its digits and the rest, or nothing where a point is not followed
by a digit. -/
def readFraction : List Char → Option (List Char × List Char)
  | '.' :: s => match splitDigits s with
    | ([], _) => none
    | (digits, rest) => some (digits, rest)
  | s => some ([], s)

/-- The digits of an exponent, with a sign before them. -/
def readExponentDigits (minus : Bool) (s : List Char) : Option (Int × List Char) :=
  match splitDigits s with
  | ([], _) => none
  | (digits, rest) => some (if minus then -(digitsValue digits : Int) else digitsValue digits, rest)

/-- The exponent of a number, where there is one. -/
def readExponent? : List Char → Option (Option Int × List Char)
  | [] => some (none, [])
  | c :: s =>
    if c = 'e' || c = 'E' then
      let exponent := match s with
        | '-' :: s => readExponentDigits true s
        | '+' :: s => readExponentDigits false s
        | s => readExponentDigits false s
      exponent.map fun (n, rest) => (some n, rest)
    else some (none, c :: s)

/-- Appends digits to a word up to the first that does not fit. Returns the digits left over beside the word. -/
def appendDigits (word : Nat) : List Char → Nat × List Char
  | [] => (word, [])
  | d :: ds =>
    let longer := 10 * word + digitValue d
    if longer ≤ Limits.maxWord then appendDigits longer ds else (word, d :: ds)

/-- The number of given digits before and after the point. -/
def ofParts? (minus : Bool) (whole fraction : List Char) (exponent : Option Int) : Option Number :=
  let (word, dropped) := appendDigits 0 whole
  if dropped.isEmpty && fraction.isEmpty && exponent.isNone then some (.ofInteger minus word)
  else
    let (word, ignored) := appendDigits word fraction
    let places : Int := fraction.length - ignored.length
    Number.ofDecimal? minus ⟨word, exponent.getD 0 + dropped.length - places⟩

/-- Reads a number whose sign has been read. No digit may follow a leading zero. -/
def readUnsigned (minus : Bool) (s : List Char) : Option (Number × List Char) :=
  let (whole, rest) := splitDigits s
  if whole.isEmpty || (whole.head? = some '0' && whole.length ≠ 1) then none
  else do
    let (fraction, rest) ← readFraction rest
    let (exponent, rest) ← readExponent? rest
    let number ← ofParts? minus whole fraction exponent
    return (number, rest)

def readNumber : List Char → Option (Number × List Char)
  | '-' :: s => readUnsigned true s
  | s => readUnsigned false s

section Lengths

variable {s rest : List Char} {minus : Bool}

theorem length_splitDigits (s : List Char) : (splitDigits s).1.length + (splitDigits s).2.length = s.length := by
  rw [← List.length_append, splitDigits, List.takeWhile_append_dropWhile]

theorem length_of_readFraction {digits : List Char} (h : readFraction s = some (digits, rest)) :
    rest.length ≤ s.length := by
  unfold readFraction at h
  split at h
  · rename_i t
    have := length_splitDigits t
    split at h <;> simp_all
    omega
  · simp_all

theorem length_of_readExponentDigits {n : Int} (h : readExponentDigits minus s = some (n, rest)) :
    rest.length ≤ s.length := by
  have := length_splitDigits s
  unfold readExponentDigits at h
  split at h <;> simp_all
  omega

theorem length_of_readExponent? {n : Option Int} (h : readExponent? s = some (n, rest)) :
    rest.length ≤ s.length := by
  unfold readExponent? at h
  split at h
  · simp_all
  · split at h
    · simp only [Option.map_eq_some_iff, Prod.mk.injEq, Prod.exists] at h
      obtain ⟨m, r, hm, _, rfl⟩ := h
      split at hm <;> have := length_of_readExponentDigits hm <;> simp_all <;> omega
    · simp_all

theorem length_of_readUnsigned {number : Number} (h : readUnsigned minus s = some (number, rest)) :
    rest.length < s.length := by
  have hs := length_splitDigits s
  rcases hp : splitDigits s with ⟨whole, tail⟩
  simp only [readUnsigned, hp] at h hs
  split at h
  · simp at h
  · rename_i hne
    simp only [Option.bind_eq_bind, Option.bind_eq_some_iff, Option.pure_def, Option.some.injEq,
      Prod.mk.injEq] at h
    obtain ⟨⟨_, r⟩, hr, ⟨_, r'⟩, hr', _, _, _, rfl⟩ := h
    have := length_of_readFraction hr
    have := length_of_readExponent? hr'
    have : 0 < whole.length := by cases whole <;> simp_all
    simp_all
    omega

theorem length_of_readNumber {number : Number} (h : readNumber s = some (number, rest)) :
    rest.length < s.length := by
  unfold readNumber at h
  split at h <;> have := length_of_readUnsigned h
  · simp; omega
  · exact this

end Lengths

end Backtrack.Json
