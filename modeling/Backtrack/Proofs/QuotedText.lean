import Backtrack.Text.Quoted

/-!
# Reading quoted text

Where a quoted text ends, and what it says, can be told from the text alone. Each character is
written so that no other is written the same way or begins like it, and none begins with the mark.
Behind a code point there is a closing brace, which is no digit.
-/

set_option autoImplicit false

namespace Backtrack.Text

/-- Two texts of one sort of characters, each followed by nothing or by a character of another sort,
cannot be told apart only if both halves are the same. -/
theorem append_unique {p : Char → Prop} {xs ys rest rest' : List Char} (hxs : ∀ c ∈ xs, p c)
    (hys : ∀ c ∈ ys, p c) (hrest : ∀ c ∈ rest.head?, ¬ p c) (hrest' : ∀ c ∈ rest'.head?, ¬ p c)
    (h : xs ++ rest = ys ++ rest') : xs = ys ∧ rest = rest' := by
  induction xs generalizing ys with
  | nil =>
    cases ys with
    | nil => exact ⟨rfl, h⟩
    | cons d ys =>
      obtain rfl : rest = d :: (ys ++ rest') := h
      exact absurd (hys d List.mem_cons_self) (hrest d rfl)
  | cons c xs ih =>
    cases ys with
    | nil =>
      obtain rfl : c :: (xs ++ rest) = rest' := h
      exact absurd (hxs c List.mem_cons_self) (hrest' c rfl)
    | cons d ys =>
      injection h with hcd h
      obtain ⟨heq, hrests⟩ := ih (fun c hc => hxs c (List.mem_cons_of_mem _ hc))
        (fun c hc => hys c (List.mem_cons_of_mem _ hc)) h
      exact ⟨by rw [hcd, heq], hrests⟩

theorem hex_of_lt {n : Nat} (h : n < 16) : hex n = [n.digitChar] := Nat.toDigits_of_lt_base h

theorem hex_of_le {n : Nat} (h : 16 ≤ n) : hex n = hex (n / 16) ++ [(n % 16).digitChar] :=
  Nat.toDigits_of_base_le (by decide) h

theorem digitChar_injective {m n : Nat} (hm : m < 16) (hn : n < 16)
    (h : m.digitChar = n.digitChar) : m = n := by
  have hall : ∀ m < 16, ∀ n < 16, m.digitChar = n.digitChar → m = n := by decide
  exact hall m hm n hn h

theorem digitChar_ne_brace {n : Nat} (hn : n < 16) : n.digitChar ≠ '\x7d' := by
  have hall : ∀ n < 16, n.digitChar ≠ '\x7d' := by decide
  exact hall n hn

theorem hex_ne_nil (n : Nat) : hex n ≠ [] := by
  by_cases h : n < 16
  · rw [hex_of_lt h]
    exact List.cons_ne_nil _ _
  · rw [hex_of_le (by omega)]
    simp

theorem hex_ne_brace (n : Nat) : ∀ c ∈ hex n, c ≠ '\x7d' := by
  induction n using Nat.strongRecOn with
  | ind n ih =>
    intro c hc
    by_cases h : n < 16
    · rw [hex_of_lt h] at hc
      rw [List.mem_singleton.mp hc]
      exact digitChar_ne_brace h
    · rw [hex_of_le (by omega)] at hc
      rcases List.mem_append.mp hc with hc | hc
      · exact ih (n / 16) (by omega) c hc
      · rw [List.mem_singleton.mp hc]
        exact digitChar_ne_brace (Nat.mod_lt n (by decide))

theorem hex_injective {m n : Nat} (h : hex m = hex n) : m = n := by
  induction m using Nat.strongRecOn generalizing n with
  | ind m ih =>
    by_cases hm : m < 16
    · rw [hex_of_lt hm] at h
      by_cases hn : n < 16
      · rw [hex_of_lt hn] at h
        exact digitChar_injective hm hn (List.cons.inj h).1
      · rw [hex_of_le (by omega)] at h
        exact absurd (List.append_eq_singleton_iff.mp h.symm) (by simp [hex_ne_nil])
    · rw [hex_of_le (by omega)] at h
      by_cases hn : n < 16
      · rw [hex_of_lt hn] at h
        exact absurd (List.append_eq_singleton_iff.mp h) (by simp [hex_ne_nil])
      · rw [hex_of_le (by omega : 16 ≤ n)] at h
        obtain ⟨hhigh, hlow⟩ := List.append_inj' h rfl
        have hquot := ih (m / 16) (by omega) hhigh
        have hrem := digitChar_injective (Nat.mod_lt m (by decide)) (Nat.mod_lt n (by decide))
          (List.cons.inj hlow).1
        omega

/-- The character that a letter behind a backslash stands for. -/
def lettered : Char → Char
  | 't' => '\t'
  | 'r' => '\r'
  | 'n' => '\n'
  | '0' => '\x00'
  | c => c

/-- What may stand behind a backslash for a character: a letter, or the code point in braces. -/
inductive Coded : Char → List Char → Prop where
  | letter {c letter : Char} : letter ≠ 'u' → c = lettered letter → Coded c [letter]
  | codePoint (c : Char) : Coded c ('u' :: '\x7b' :: (hex c.toNat ++ ['\x7d']))

theorem Coded.unique {c d : Char} {xs ys rest rest' : List Char} (hc : Coded c xs)
    (hd : Coded d ys) (h : xs ++ rest = ys ++ rest') : c = d ∧ rest = rest' := by
  cases hc with
  | letter hc hmeaning =>
    cases hd with
    | letter _ hmeaning' =>
      obtain ⟨rfl, hrest⟩ := List.cons.inj h
      exact ⟨hmeaning.trans hmeaning'.symm, hrest⟩
    | codePoint => exact absurd (List.cons.inj h).1 hc
  | codePoint =>
    cases hd with
    | letter hd _ => exact absurd (List.cons.inj h).1.symm hd
    | codePoint =>
      have hdigits : hex c.toNat ++ ['\x7d'] ++ rest = hex d.toNat ++ ['\x7d'] ++ rest' :=
        (List.cons.inj (List.cons.inj h).2).2
      rw [List.append_assoc, List.append_assoc] at hdigits
      obtain ⟨hhex, hrest⟩ := append_unique (hex_ne_brace c.toNat) (hex_ne_brace d.toNat)
        (by simp) (by simp) hdigits
      exact ⟨Char.toNat_inj.mp (hex_injective hhex), (List.cons.inj hrest).2⟩

section Escape
variable {mark : Char} (hmark : mark = '"' ∨ mark = '\'')
include hmark

/-- A character stands for itself, or a backslash and a code stand for it. -/
theorem escape_cases (c : Char) :
    (escape mark c = [c] ∧ c ≠ '\\' ∧ c ≠ mark) ∨
    ∃ code, escape mark c = '\\' :: code ∧ Coded c code := by
  unfold escape
  split
  · rename_i h
    subst h
    exact .inr ⟨['t'], rfl, .letter (by decide) rfl⟩
  split
  · rename_i h
    subst h
    exact .inr ⟨['r'], rfl, .letter (by decide) rfl⟩
  split
  · rename_i h
    subst h
    exact .inr ⟨['n'], rfl, .letter (by decide) rfl⟩
  split
  · rename_i h
    obtain rfl : c = '\x00' := Char.toNat_inj.mp h
    exact .inr ⟨['0'], rfl, .letter (by decide) rfl⟩
  split
  · rename_i h
    refine .inr ⟨[c], rfl, ?_⟩
    simp only [Bool.or_eq_true, decide_eq_true_eq] at h
    rcases h with rfl | rfl
    · exact .letter (by decide) rfl
    · rcases hmark with rfl | rfl
      · exact .letter (by decide) rfl
      · exact .letter (by decide) rfl
  rename_i h
  split
  · exact .inr ⟨_, rfl, .codePoint c⟩
  · exact .inl ⟨rfl, by simpa using h⟩

theorem escape_unique {c d : Char} {rest rest' : List Char}
    (h : escape mark c ++ rest = escape mark d ++ rest') : c = d ∧ rest = rest' := by
  rcases escape_cases hmark c with ⟨hc, hplain, -⟩ | ⟨code, hc, hcode⟩
  · rcases escape_cases hmark d with ⟨hd, -, -⟩ | ⟨code', hd, -⟩
    · rw [hc, hd] at h
      exact List.cons.inj h
    · rw [hc, hd] at h
      exact absurd (List.cons.inj h).1 hplain
  · rcases escape_cases hmark d with ⟨hd, hplain, -⟩ | ⟨code', hd, hcode'⟩
    · rw [hc, hd] at h
      exact absurd (List.cons.inj h).1.symm hplain
    · rw [hc, hd] at h
      exact hcode.unique hcode' (List.cons.inj h).2

theorem escape_ne_mark (c : Char) (rest rest' : List Char) :
    escape mark c ++ rest ≠ mark :: rest' := by
  have hslash : mark ≠ '\\' := by rcases hmark with rfl | rfl <;> decide
  intro h
  rcases escape_cases hmark c with ⟨hc, -, hne⟩ | ⟨code, hc, -⟩
  · rw [hc] at h
    exact hne (List.cons.inj h).1
  · rw [hc] at h
    exact hslash (List.cons.inj h).1.symm

/-- What stands before the closing mark, and what behind it, can be told from the text. -/
theorem escaped_unique {cs ds rest rest' : List Char}
    (h : cs.flatMap (escape mark) ++ mark :: rest = ds.flatMap (escape mark) ++ mark :: rest') :
    cs = ds ∧ rest = rest' := by
  induction cs generalizing ds with
  | nil =>
    cases ds with
    | nil => exact ⟨rfl, (List.cons.inj h).2⟩
    | cons d ds =>
      rw [List.flatMap_cons, List.append_assoc] at h
      exact absurd h.symm (escape_ne_mark hmark d _ _)
  | cons c cs ih =>
    rw [List.flatMap_cons, List.append_assoc] at h
    cases ds with
    | nil => exact absurd h (escape_ne_mark hmark c _ _)
    | cons d ds =>
      rw [List.flatMap_cons, List.append_assoc] at h
      obtain ⟨hcd, hlater⟩ := escape_unique hmark h
      obtain ⟨hcds, hrest⟩ := ih hlater
      exact ⟨by rw [hcd, hcds], hrest⟩

end Escape

end Backtrack.Text
