import Backtrack.Proofs.QuotedText

/-!
# Phrases

The texts by which rules are shown are words, quoted text, and words with phrases in parentheses. A
phrase can be told from its text: where it ends there is a comma, a closing parenthesis or nothing,
and none of these can be part of a word.
-/

set_option autoImplicit false

namespace Backtrack

/-- The words of shown rules. -/
inductive Keyword where
  | any | oneOf | empty | end | seq | alt | optional | many
  deriving DecidableEq

namespace Keyword

def name : Keyword → List Char
  | any => ['a', 'n', 'y']
  | oneOf => ['o', 'n', 'e', '_', 'o', 'f']
  | empty => ['e', 'm', 'p', 't', 'y']
  | .end => ['e', 'n', 'd']
  | seq => ['s', 'e', 'q']
  | alt => ['a', 'l', 't']
  | optional => ['o', 'p', 't', 'i', 'o', 'n', 'a', 'l']
  | many => ['m', 'a', 'n', 'y']

/-- What a word can be made of. -/
def isLetter (c : Char) : Bool := c.isLower || c == '_'

theorem name_injective {k l : Keyword} (h : k.name = l.name) : k = l := by
  cases k <;> cases l <;> first | rfl | exact absurd h (by decide)

theorem isLetter_of_mem_name (k : Keyword) : ∀ c ∈ k.name, isLetter c = true := by
  have hall : k.name.all isLetter = true := by cases k <;> rfl
  exact List.all_eq_true.mp hall

theorem name_append_ne (k : Keyword) {c : Char} (hc : isLetter c = false) (xs ys : List Char) :
    k.name ++ xs ≠ c :: ys := by
  intro h
  obtain ⟨d, ds, hname⟩ : ∃ d ds, k.name = d :: ds := by cases k <;> exact ⟨_, _, rfl⟩
  have hd : isLetter d = true := k.isLetter_of_mem_name d (by rw [hname]; exact List.mem_cons_self)
  rw [hname] at h
  rw [(List.cons.inj h).1, hc] at hd
  cases hd

end Keyword

inductive Phrase where
  | word (k : Keyword)
  | char (c : Char)
  | string (cs : List Char)
  | call (k : Keyword) (args : List Phrase)

namespace Phrase

mutual

def text : Phrase → List Char
  | word k => k.name
  | char c => Text.quotedChar c
  | string cs => Text.quoted cs
  | call k args => k.name ++ '(' :: textArgs args

/-- What stands behind an opening parenthesis. -/
def textArgs : List Phrase → List Char
  | [] => [')']
  | p :: ps => p.text ++ textMore ps

def textMore : List Phrase → List Char
  | [] => [')']
  | p :: ps => ',' :: ' ' :: (p.text ++ textMore ps)

end

/-- What can stand behind a phrase. -/
def Closes (rest : List Char) : Prop := ∀ c ∈ rest.head?, c = ',' ∨ c = ')'

theorem Closes.not_isLetter {rest : List Char} (h : Closes rest) :
    ∀ c ∈ rest.head?, ¬ Keyword.isLetter c = true := by
  intro c hc
  rcases h c hc with rfl | rfl <;> decide

theorem closes_textMore (ps : List Phrase) (rest : List Char) : Closes (textMore ps ++ rest) := by
  intro c hc
  cases ps with
  | nil =>
    rw [textMore] at hc
    exact .inr (Option.some.inj hc).symm
  | cons p ps =>
    rw [textMore] at hc
    exact .inl (Option.some.inj hc).symm

theorem not_isLetter_paren (rest : List Char) :
    ∀ c ∈ ('(' :: rest).head?, ¬ Keyword.isLetter c = true := by
  intro c hc
  rw [← Option.some.inj hc]
  decide

/-- A word alone does not read like a word with a parenthesis behind it. -/
theorem name_ne_call {rest : List Char} (h : Closes rest) (k l : Keyword) (xs : List Char) :
    k.name ++ rest ≠ l.name ++ '(' :: xs := by
  intro heq
  obtain ⟨-, rfl⟩ := Text.append_unique k.isLetter_of_mem_name l.isLetter_of_mem_name
    h.not_isLetter (not_isLetter_paren xs) heq
  rcases h '(' rfl with h | h <;> exact absurd h (by decide)

theorem text_ne_paren (p : Phrase) (xs ys : List Char) : p.text ++ xs ≠ ')' :: ys := by
  cases p with
  | word k => exact k.name_append_ne rfl xs ys
  | char c => exact fun h => absurd (List.cons.inj h).1 (by decide)
  | string cs => exact fun h => absurd (List.cons.inj h).1 (by decide)
  | call k args =>
    rw [text, List.append_assoc]
    exact k.name_append_ne rfl _ ys

/-- The phrase begins with a word, and not with a quote mark. -/
def isNamed : Phrase → Bool
  | word _ => true
  | call _ _ => true
  | _ => false

theorem named_ne_quoted {p q : Phrase} (hp : p.isNamed = true) (hq : q.isNamed = false)
    (xs ys : List Char) : p.text ++ xs ≠ q.text ++ ys := by
  obtain ⟨k, later, hname⟩ : ∃ (k : Keyword) (later : List Char),
      p.text ++ xs = k.name ++ later := by
    cases p with
    | word k => exact ⟨k, xs, rfl⟩
    | call k args => exact ⟨k, _, List.append_assoc k.name _ xs⟩
    | _ => cases hp
  obtain ⟨mark, later', hmark, hquoted⟩ : ∃ mark later',
      Keyword.isLetter mark = false ∧ q.text ++ ys = mark :: later' := by
    cases q with
    | char c => exact ⟨'\'', _, rfl, rfl⟩
    | string cs => exact ⟨'"', _, rfl, rfl⟩
    | _ => cases hq
  rw [hname, hquoted]
  exact k.name_append_ne hmark later later'

theorem char_unique {c d : Char} {rest rest' : List Char}
    (h : (char c).text ++ rest = (char d).text ++ rest') : c = d ∧ rest = rest' := by
  have hescaped : Text.escape '\'' c ++ ['\''] ++ rest = Text.escape '\'' d ++ ['\''] ++ rest' :=
    (List.cons.inj h).2
  rw [List.append_assoc, List.append_assoc] at hescaped
  obtain ⟨hcd, hrest⟩ := Text.escape_unique (.inr rfl) hescaped
  exact ⟨hcd, (List.cons.inj hrest).2⟩

theorem string_unique {cs ds rest rest' : List Char}
    (h : (string cs).text ++ rest = (string ds).text ++ rest') : cs = ds ∧ rest = rest' := by
  have hescaped : cs.flatMap (Text.escape '"') ++ ['"'] ++ rest
      = ds.flatMap (Text.escape '"') ++ ['"'] ++ rest' := (List.cons.inj h).2
  rw [List.append_assoc, List.append_assoc] at hescaped
  exact Text.escaped_unique (.inl rfl) hescaped

mutual

/-- A phrase can be told from its text, and so can what stands behind it. -/
theorem text_unique (p q : Phrase) {rest rest' : List Char} (hrest : Closes rest)
    (hrest' : Closes rest') (h : p.text ++ rest = q.text ++ rest') : p = q ∧ rest = rest' := by
  cases p with
  | word k =>
    cases q with
    | word l =>
      obtain ⟨hname, hrests⟩ := Text.append_unique k.isLetter_of_mem_name l.isLetter_of_mem_name
        hrest.not_isLetter hrest'.not_isLetter h
      exact ⟨by rw [Keyword.name_injective hname], hrests⟩
    | call l args =>
      rw [text, text, List.append_assoc] at h
      exact absurd h (name_ne_call hrest k l _)
    | char d => exact absurd h (named_ne_quoted rfl rfl _ _)
    | string ds => exact absurd h (named_ne_quoted rfl rfl _ _)
  | call k args =>
    cases q with
    | word l =>
      rw [text, text, List.append_assoc] at h
      exact absurd h.symm (name_ne_call hrest' l k _)
    | call l args' =>
      rw [text, text, List.append_assoc, List.append_assoc] at h
      obtain ⟨hname, hargs⟩ := Text.append_unique k.isLetter_of_mem_name l.isLetter_of_mem_name
        (not_isLetter_paren _) (not_isLetter_paren _) h
      obtain ⟨hsame, hrests⟩ := textArgs_unique args args' (List.cons.inj hargs).2
      exact ⟨by rw [Keyword.name_injective hname, hsame], hrests⟩
    | char d => exact absurd h (named_ne_quoted rfl rfl _ _)
    | string ds => exact absurd h (named_ne_quoted rfl rfl _ _)
  | char c =>
    cases q with
    | char d =>
      obtain ⟨hcd, hrests⟩ := char_unique h
      exact ⟨by rw [hcd], hrests⟩
    | string ds => exact absurd (List.cons.inj h).1 (by decide)
    | word l => exact absurd h.symm (named_ne_quoted rfl rfl _ _)
    | call l args => exact absurd h.symm (named_ne_quoted rfl rfl _ _)
  | string cs =>
    cases q with
    | char d => exact absurd (List.cons.inj h).1 (by decide)
    | string ds =>
      obtain ⟨hcds, hrests⟩ := string_unique h
      exact ⟨by rw [hcds], hrests⟩
    | word l => exact absurd h.symm (named_ne_quoted rfl rfl _ _)
    | call l args => exact absurd h.symm (named_ne_quoted rfl rfl _ _)

theorem textArgs_unique (ps qs : List Phrase) {rest rest' : List Char}
    (h : textArgs ps ++ rest = textArgs qs ++ rest') : ps = qs ∧ rest = rest' := by
  cases ps with
  | nil =>
    cases qs with
    | nil => exact ⟨rfl, (List.cons.inj h).2⟩
    | cons q qs =>
      rw [textArgs, textArgs, List.append_assoc] at h
      exact absurd h.symm (q.text_ne_paren _ _)
  | cons p ps =>
    rw [textArgs, List.append_assoc] at h
    cases qs with
    | nil => exact absurd h (p.text_ne_paren _ _)
    | cons q qs =>
      rw [textArgs, List.append_assoc] at h
      obtain ⟨hpq, hmore⟩ := text_unique p q (closes_textMore ps _) (closes_textMore qs _) h
      obtain ⟨hsame, hrests⟩ := textMore_unique ps qs hmore
      exact ⟨by rw [hpq, hsame], hrests⟩

theorem textMore_unique (ps qs : List Phrase) {rest rest' : List Char}
    (h : textMore ps ++ rest = textMore qs ++ rest') : ps = qs ∧ rest = rest' := by
  cases ps with
  | nil =>
    cases qs with
    | nil => exact ⟨rfl, (List.cons.inj h).2⟩
    | cons q qs => exact absurd (List.cons.inj h).1 (by decide)
  | cons p ps =>
    cases qs with
    | nil => exact absurd (List.cons.inj h).1 (by decide)
    | cons q qs =>
      have hfirst : p.text ++ textMore ps ++ rest = q.text ++ textMore qs ++ rest' :=
        (List.cons.inj (List.cons.inj h).2).2
      rw [List.append_assoc, List.append_assoc] at hfirst
      obtain ⟨hpq, hmore⟩ := text_unique p q (closes_textMore ps _) (closes_textMore qs _) hfirst
      obtain ⟨hsame, hrests⟩ := textMore_unique ps qs hmore
      exact ⟨by rw [hpq, hsame], hrests⟩

end

theorem text_injective {p q : Phrase} (h : p.text = q.text) : p = q := by
  have hend : Closes [] := fun c hc => by cases hc
  have happend : p.text ++ [] = q.text ++ [] := by rw [h]
  exact (text_unique p q hend hend happend).1

end Phrase

end Backtrack
