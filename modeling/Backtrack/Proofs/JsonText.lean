import Backtrack.Json.Token

/-!
# Written JSON

What the writer of strings escapes the reader takes back, character by character, so a written string is
read up to its closing quote and no further. A row of tokens written without blanks is cut into the same
tokens again. Numbers are left out: no config has any.
-/

set_option autoImplicit false

namespace Backtrack.Json

theorem hexValue?_hexDigit {n : Nat} (h : n < 16) : hexValue? (hexDigit n) = some n := by
  have hall : ∀ n < 16, hexValue? (hexDigit n) = some n := by decide
  exact hall n h

/-- The four digits of a character below 256 give its number back. -/
theorem readUnit_hexDigits {n : Nat} (h : n < 256) (rest : List Char) :
    readUnit ('0' :: '0' :: hexDigit (n / 16) :: hexDigit (n % 16) :: rest) = some (n, rest) := by
  have hzero : hexValue? '0' = some 0 := by decide
  have hhigh := hexValue?_hexDigit (n := n / 16) (by omega)
  have hlow := hexValue?_hexDigit (n := n % 16) (by omega)
  have hsum : 0 * 4096 + 0 * 256 + n / 16 * 16 + n % 16 = n := by omega
  simp only [readUnit, hzero, hhigh, hlow, Option.bind_eq_bind, Option.bind_some, hsum]
  rfl

theorem readByUnits_hexDigits {c : Char} (h : c.toNat < 256) (rest : List Char) :
    readByUnits ('0' :: '0' :: hexDigit (c.toNat / 16) :: hexDigit (c.toNat % 16) :: rest)
      = some (c, rest) := by
  have hlow : c.toNat < 0xD800 ∨ 0xE000 ≤ c.toNat := .inl (by omega)
  rw [readByUnits, readUnit_hexDigits h]
  simp only [Option.bind_eq_bind, Option.bind_some, if_pos hlow, Char.ofNat_toNat]

/-- A character stands for itself, or a backslash comes before something that reads as the character. -/
theorem escape_cases (c : Char) :
    (escape c = [c] ∧ c ≠ '"' ∧ c ≠ '\\' ∧ ¬ c.toNat < 0x20) ∨
      ∃ code, escape c = '\\' :: code ∧ ∀ rest, unescape (code ++ rest) = some (c, rest) := by
  by_cases hquote : c = '"'
  · exact .inr ⟨['"'], by rw [hquote]; rfl, by rw [hquote]; exact fun _ => rfl⟩
  by_cases hslash : c = '\\'
  · exact .inr ⟨['\\'], by rw [hslash]; rfl, by rw [hslash]; exact fun _ => rfl⟩
  have hself : (c = '"' || c = '\\') = false := by simp [hquote, hslash]
  rw [escape, hself, if_neg Bool.false_ne_true]
  split
  · subst c
    exact .inr ⟨['b'], rfl, fun _ => rfl⟩
  split
  · subst c
    exact .inr ⟨['t'], rfl, fun _ => rfl⟩
  split
  · subst c
    exact .inr ⟨['n'], rfl, fun _ => rfl⟩
  split
  · subst c
    exact .inr ⟨['f'], rfl, fun _ => rfl⟩
  split
  · subst c
    exact .inr ⟨['r'], rfl, fun _ => rfl⟩
  split
  · rename_i hcontrol
    exact .inr ⟨_, rfl, fun rest => readByUnits_hexDigits (by omega) rest⟩
  · rename_i hprinted
    exact .inl ⟨rfl, hquote, hslash, hprinted⟩

theorem readString_escaped {s rest : List Char} {c : Char} (h : unescape s = some (c, rest)) :
    readString ('\\' :: s) = (readString rest).map fun (cs, rest) => (c :: cs, rest) := by
  rw [readString]
  split
  · rename_i c' rest' h'
    rw [h] at h'
    cases h'
    rfl
  · rename_i h'
    rw [h] at h'
    cases h'

theorem readString_plain {c : Char} (hquote : c ≠ '"') (hslash : c ≠ '\\') (h : ¬ c.toNat < 0x20)
    (s : List Char) :
    readString (c :: s) = (readString s).map fun (cs, rest) => (c :: cs, rest) := by
  rw [readString, if_neg h]
  · exact hquote
  · exact hslash

/-- What was written between the quotes is read back. -/
theorem readString_flatMap_escape (cs rest : List Char) :
    readString (cs.flatMap escape ++ '"' :: rest) = some (cs, rest) := by
  induction cs with
  | nil => rw [List.flatMap_nil, List.nil_append, readString]
  | cons c cs ih =>
    rw [List.flatMap_cons, List.append_assoc]
    rcases escape_cases c with ⟨heq, hquote, hslash, hprinted⟩ | ⟨code, heq, hcode⟩
    · rw [heq, List.singleton_append, readString_plain hquote hslash hprinted, ih]
      rfl
    · rw [heq, List.cons_append, readString_escaped (hcode _), ih]
      rfl

namespace Token

/-- A token that is written as it is read, whatever its place. -/
def Plain : Token → Prop
  | number _ => False
  | bad => False
  | _ => True

theorem scan_quote {s rest : List Char} {cs : List Char} (h : readString s = some (cs, rest)) :
    scan ('"' :: s) = string (String.ofList cs) :: scan rest := by
  rw [scan]
  split
  · rename_i cs' rest' h'
    rw [h] at h'
    cases h'
    rfl
  · rename_i h'
    rw [h] at h'
    cases h'

theorem scan_text_append {t : Token} (h : t.Plain) (rest : List Char) :
    scan (t.text ++ rest) = t :: scan rest := by
  cases t with
  | string s =>
    rw [text, quote, List.cons_append, List.cons_append, List.append_assoc, List.singleton_append,
      scan_quote (readString_flatMap_escape s.toList rest), String.ofList_toList]
  | truth b => cases b <;> exact scan.eq_def ..
  | number n => exact h.elim
  | bad => exact h.elim
  | _ => exact scan.eq_def ..

theorem scan_flatMap_text {ts : List Token} (h : ∀ t ∈ ts, t.Plain) : scan (ts.flatMap text) = ts := by
  induction ts with
  | nil => rw [List.flatMap_nil, scan]
  | cons t ts ih =>
    obtain ⟨ht, hts⟩ := List.forall_mem_cons.mp h
    rw [List.flatMap_cons, scan_text_append ht, ih hts]

end Token

end Backtrack.Json
