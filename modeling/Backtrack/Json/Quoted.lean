/-!
# JSON strings

A string stands between double quotes. The quote, the backslash and the controls below the space are written with
a backslash; any other character may stand for itself. A reader also takes characters by the four digits of their
UTF-16 units, where the two halves of a pair must stand together.
-/

set_option autoImplicit false

namespace Backtrack.Json

def hexDigit (n : Nat) : Char := if n < 10 then Char.ofNat ('0'.toNat + n) else Char.ofNat ('a'.toNat + (n - 10))

/-- One character as it stands between the quotes. -/
def escape (c : Char) : List Char :=
  if c = '"' || c = '\\' then ['\\', c]
  else if c = '\x08' then ['\\', 'b']
  else if c = '\t' then ['\\', 't']
  else if c = '\n' then ['\\', 'n']
  else if c = '\x0c' then ['\\', 'f']
  else if c = '\r' then ['\\', 'r']
  else if c.toNat < 0x20 then ['\\', 'u', '0', '0', hexDigit (c.toNat / 16), hexDigit (c.toNat % 16)]
  else [c]

def quote (s : List Char) : List Char := '"' :: s.flatMap escape ++ ['"']

def hexValue? (c : Char) : Option Nat :=
  if '0' ≤ c && c ≤ '9' then some (c.toNat - '0'.toNat)
  else if 'a' ≤ c && c ≤ 'f' then some (c.toNat - 'a'.toNat + 10)
  else if 'A' ≤ c && c ≤ 'F' then some (c.toNat - 'A'.toNat + 10)
  else none

/-- Reads a unit of four hexadecimal digits. -/
def readUnit : List Char → Option (Nat × List Char)
  | a :: b :: c :: d :: rest => do
    let n := (← hexValue? a) * 4096 + (← hexValue? b) * 256 + (← hexValue? c) * 16 + (← hexValue? d)
    return (n, rest)
  | _ => none

/-- Reads the second half of a pair, which is escaped like the first. -/
def readSecondHalf (first : Nat) : List Char → Option (Char × List Char)
  | '\\' :: 'u' :: s => do
    let (second, rest) ← readUnit s
    if 0xDC00 ≤ second ∧ second < 0xE000 then
      some (Char.ofNat (0x10000 + (first - 0xD800) * 0x400 + (second - 0xDC00)), rest)
    else none
  | _ => none

def readByUnits (s : List Char) : Option (Char × List Char) := do
  let (n, rest) ← readUnit s
  if n < 0xD800 ∨ 0xE000 ≤ n then some (Char.ofNat n, rest)
  else if n < 0xDC00 then readSecondHalf n rest
  else none

def unescape : List Char → Option (Char × List Char)
  | '"' :: rest => some ('"', rest)
  | '\\' :: rest => some ('\\', rest)
  | '/' :: rest => some ('/', rest)
  | 'b' :: rest => some ('\x08', rest)
  | 'f' :: rest => some ('\x0c', rest)
  | 'n' :: rest => some ('\n', rest)
  | 'r' :: rest => some ('\r', rest)
  | 't' :: rest => some ('\t', rest)
  | 'u' :: rest => readByUnits rest
  | _ => none

section Lengths

variable {s rest : List Char} {c : Char} {n : Nat}

theorem length_of_readUnit (h : readUnit s = some (n, rest)) : rest.length < s.length := by
  unfold readUnit at h
  split at h
  · simp only [Option.bind_eq_bind, Option.bind_eq_some_iff, Option.pure_def, Option.some.injEq, Prod.mk.injEq] at h
    obtain ⟨_, _, _, _, _, _, _, _, _, rfl⟩ := h
    simp; omega
  · simp at h

theorem length_of_readSecondHalf (h : readSecondHalf n s = some (c, rest)) : rest.length < s.length := by
  unfold readSecondHalf at h
  split at h
  · simp only [Option.bind_eq_bind, Option.bind_eq_some_iff] at h
    obtain ⟨⟨_, r⟩, hr, h⟩ := h
    have := length_of_readUnit hr
    split at h <;> simp_all
    omega
  · simp at h

theorem length_of_readByUnits (h : readByUnits s = some (c, rest)) : rest.length < s.length := by
  simp only [readByUnits, Option.bind_eq_bind, Option.bind_eq_some_iff] at h
  obtain ⟨⟨_, r⟩, hr, h⟩ := h
  have := length_of_readUnit hr
  split at h
  · simp_all
  · split at h
    · have := length_of_readSecondHalf h
      simp_all; omega
    · simp at h

theorem length_of_unescape (h : unescape s = some (c, rest)) : rest.length < s.length := by
  unfold unescape at h
  split at h <;> try (simp at h; obtain ⟨_, rfl⟩ := h; simp)
  · have := length_of_readByUnits h
    simp; omega
  · simp at h

end Lengths

/-- Reads the characters of a string up to the closing quote. -/
def readString : List Char → Option (List Char × List Char)
  | [] => none
  | '"' :: rest => some ([], rest)
  | '\\' :: s =>
    match h : unescape s with
    | some (c, rest) =>
      have := length_of_unescape h
      (readString rest).map fun (cs, rest) => (c :: cs, rest)
    | none => none
  | c :: s => if c.toNat < 0x20 then none else (readString s).map fun (cs, rest) => (c :: cs, rest)
termination_by s => s.length

theorem length_of_readString {s rest : List Char} {cs : List Char} (h : readString s = some (cs, rest)) :
    rest.length < s.length := by
  fun_induction readString s generalizing cs with
  | case1 => simp at h
  | case2 => simp_all
  | case3 s c r hc this ih =>
    obtain ⟨⟨ds, t⟩, ht, he⟩ := Option.map_eq_some_iff.mp h
    simp only [Prod.mk.injEq] at he
    have := ih (he.2 ▸ ht)
    simp; omega
  | case4 => simp at h
  | case5 => simp at h
  | case6 c s _ _ _ ih =>
    obtain ⟨⟨ds, t⟩, ht, he⟩ := Option.map_eq_some_iff.mp h
    simp only [Prod.mk.injEq] at he
    have := ih (he.2 ▸ ht)
    simp; omega

end Backtrack.Json
