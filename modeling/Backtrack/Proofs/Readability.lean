import Backtrack.Proofs.CharSet
import Backtrack.Proofs.Phrase
import Backtrack.Proofs.Regrouping
import Backtrack.Proofs.SearchOrder

/-!
# What the shown form tells

The shown form of a rule without custom nodes is a phrase, and from the phrase the outline can be
read: a quoted text is a sequence of single characters, and where it stands in a longer sequence its
characters are parts of that. So rules that are shown alike have one outline, differ in grouping
only, and match alike.
-/

set_option autoImplicit false

namespace Backtrack

variable {ω σ : Type}

namespace Phrase

mutual

/-- The outline that is shown as the phrase. Phrases that show none are read as anything. -/
def outline : Phrase → Outline
  | word .any => .any
  | word .empty => .empty
  | word _ => .end
  | char c => .val c
  | string cs => .seq (cs.map .val)
  | call .oneOf [string cs] => .oneOf (.ofList cs)
  | call .seq args => .seq ((outlines args).flatMap Outline.seqParts)
  | call .alt args => .alt (outlines args)
  | call .optional [p] => .optional p.outline
  | call .many [p] => .many p.outline
  | call _ _ => .empty

def outlines : List Phrase → List Outline
  | [] => []
  | p :: ps => p.outline :: outlines ps

end

theorem outlines_eq_map (ps : List Phrase) : outlines ps = ps.map outline := by
  induction ps with
  | nil => rfl
  | cons p ps ih => rw [outlines, ih, List.map_cons]

theorem textArgs_eq_intercalate (ps : List Phrase) :
    textArgs ps = [',', ' '].intercalate (ps.map text) ++ [')'] := by
  induction ps with
  | nil => rfl
  | cons p ps ih =>
    cases ps with
    | nil => simp [textArgs, textMore]
    | cons q qs =>
      rw [List.map_cons, List.map_cons, List.intercalate_cons_cons, ← List.map_cons,
        List.append_assoc, ← ih, textArgs, textMore, textArgs]
      simp

/-- A name with parts in parentheses reads as a call. -/
theorem text_tuple {name : String} {k : Keyword} (hname : name.toList = k.name)
    {parts : List String} {ps : List Phrase} (hparts : parts.map String.toList = ps.map text) :
    (Text.tuple name parts).toList = (call k ps).text := by
  rw [Text.tuple, Text.commaSeparated, text, textArgs_eq_intercalate, ← hparts, ← hname]
  simp only [String.toList_append, String.toList_intercalate]
  simp

end Phrase

namespace Outline

/-- The outline is shown as a phrase from which it can be read. -/
def Shown (o : Outline) : Prop := ∃ p : Phrase, o.display.toList = p.text ∧ p.outline = o

theorem eq_of_shown {o o' : Outline} (h : o.Shown) (h' : o'.Shown)
    (hdisplay : o.display = o'.display) : o = o' := by
  obtain ⟨p, htext, rfl⟩ := h
  obtain ⟨q, htext', rfl⟩ := h'
  rw [hdisplay, htext'] at htext
  rw [Phrase.text_injective htext]

theorem shown_word {o : Outline} {k : Keyword} (hdisplay : o.display.toList = k.name)
    (ho : (Phrase.word k).outline = o) : o.Shown := ⟨.word k, hdisplay, ho⟩

theorem shown_val (c : Char) : (val c).Shown := by
  refine ⟨.char c, ?_, rfl⟩
  rw [display, String.toList_ofList, Phrase.text]

theorem toList_quoteString (cs : List Char) :
    (Text.quoteString (String.ofList cs)).toList = (Phrase.string cs).text := by
  rw [Text.quoteString, String.toList_ofList, String.toList_ofList, Phrase.text]

theorem shown_oneOf (set : CharSet) : (oneOf set).Shown := by
  refine ⟨.call .oneOf [.string set.toList], ?_, ?_⟩
  · apply Phrase.text_tuple (by decide)
    rw [List.map_singleton, List.map_singleton, CharSet.display, CharSet.toString,
      toList_quoteString]
  · rw [Phrase.outline, CharSet.ofList_toList]

theorem Shown.optional {o : Outline} (h : o.Shown) : (optional o).Shown := by
  obtain ⟨p, htext, rfl⟩ := h
  refine ⟨.call .optional [p], ?_, rfl⟩
  apply Phrase.text_tuple (by decide)
  rw [List.map_singleton, List.map_singleton, htext]

theorem Shown.many {o : Outline} (h : o.Shown) : (many o).Shown := by
  obtain ⟨p, htext, rfl⟩ := h
  refine ⟨.call .many [p], ?_, rfl⟩
  apply Phrase.text_tuple (by decide)
  rw [List.map_singleton, List.map_singleton, htext]

theorem displayAll_shown {os : List Outline} (h : ∀ o ∈ os, o.Shown) :
    ∃ ps : List Phrase, (displayAll os).map String.toList = ps.map Phrase.text ∧
      Phrase.outlines ps = os := by
  induction os with
  | nil => exact ⟨[], rfl, rfl⟩
  | cons o os ih =>
    obtain ⟨p, htext, houtline⟩ := h o List.mem_cons_self
    obtain ⟨ps, htexts, houtlines⟩ := ih fun o' ho' => h o' (List.mem_cons_of_mem o ho')
    refine ⟨p :: ps, ?_, ?_⟩
    · rw [displayAll, List.map_cons, List.map_cons, htext, htexts]
    · rw [Phrase.outlines, houtline, houtlines]

theorem shown_alt {parts : List Outline} (h : ∀ part ∈ parts, part.Shown) : (alt parts).Shown := by
  obtain ⟨ps, htexts, houtlines⟩ := displayAll_shown h
  refine ⟨.call .alt ps, ?_, ?_⟩
  · exact Phrase.text_tuple (by decide) htexts
  · rw [Phrase.outline, houtlines]

/-- A run of single characters is shown as one quoted text, which reads as these characters. -/
theorem literalRun_shown (run : List Char) :
    ∃ ps : List Phrase, (literalRun run).map String.toList = ps.map Phrase.text ∧
      (Phrase.outlines ps).flatMap seqParts = run.map val := by
  cases run with
  | nil => exact ⟨[], rfl, rfl⟩
  | cons c run =>
    refine ⟨[.string (c :: run)], ?_, ?_⟩
    · rw [List.map_singleton, ← toList_quoteString]
      rfl
    · rw [Phrase.outlines, Phrase.outlines, Phrase.outline, List.flatMap_singleton, seqParts]

theorem displayParts_cons {part : Outline} (h : part.isVal = false) (parts : List Outline)
    (run : List Char) :
    displayParts (part :: parts) run = literalRun run ++ part.display :: displayParts parts [] := by
  cases part with
  | val c => cases h
  | _ => rw [displayParts]; simp

theorem displayParts_shown {parts : List Outline}
    (h : ∀ part ∈ parts, part.Shown ∧ part.seqParts = [part]) (run : List Char) :
    ∃ ps : List Phrase, (displayParts parts run).map String.toList = ps.map Phrase.text ∧
      (Phrase.outlines ps).flatMap seqParts = run.map val ++ parts := by
  induction parts generalizing run with
  | nil =>
    rw [displayParts, List.append_nil]
    exact literalRun_shown run
  | cons part parts ih =>
    have hparts : ∀ other ∈ parts, other.Shown ∧ other.seqParts = [other] :=
      fun other hother => h other (List.mem_cons_of_mem part hother)
    cases hval : part.isVal with
    | true =>
      obtain ⟨c, rfl⟩ : ∃ c, part = val c := by
        cases part with
        | val c => exact ⟨c, rfl⟩
        | _ => cases hval
      obtain ⟨ps, htexts, houtlines⟩ := ih hparts (run ++ [c])
      refine ⟨ps, ?_, ?_⟩
      · rw [displayParts, htexts]
      · rw [houtlines, List.map_append, List.append_assoc]
        rfl
    | false =>
      obtain ⟨⟨p, htext, houtline⟩, hsingle⟩ := h part List.mem_cons_self
      obtain ⟨before, htexts, houtlines⟩ := literalRun_shown run
      obtain ⟨after, htexts', houtlines'⟩ := ih hparts []
      refine ⟨before ++ p :: after, ?_, ?_⟩
      · rw [displayParts_cons hval, List.map_append, List.map_cons, htexts, htext, htexts',
          List.map_append, List.map_cons]
      · rw [Phrase.outlines_eq_map] at houtlines houtlines' ⊢
        rw [List.map_append, List.map_cons, List.flatMap_append, List.flatMap_cons, houtlines,
          houtline, hsingle, houtlines']
        rfl

theorem displayParts_map_val (cs run : List Char) :
    displayParts (cs.map val) run = literalRun (run ++ cs) := by
  induction cs generalizing run with
  | nil => rw [List.map_nil, displayParts, List.append_nil]
  | cons c cs ih =>
    rw [List.map_cons, displayParts, ih, List.append_assoc]
    rfl

theorem eq_map_val_of_all {parts : List Outline} (h : parts.all isVal = true) :
    ∃ cs : List Char, parts = cs.map val := by
  induction parts with
  | nil => exact ⟨[], rfl⟩
  | cons part parts ih =>
    rw [List.all_cons, Bool.and_eq_true] at h
    obtain ⟨cs, rfl⟩ := ih h.2
    cases part with
    | val c => exact ⟨c :: cs, rfl⟩
    | _ => cases h.1

theorem shown_seq {parts : List Outline} (hne : parts ≠ [])
    (h : ∀ part ∈ parts, part.Shown ∧ part.seqParts = [part]) : (seq parts).Shown := by
  cases hall : parts.all isVal with
  | true =>
    obtain ⟨cs, rfl⟩ := eq_map_val_of_all hall
    refine ⟨.string cs, ?_, rfl⟩
    rw [display, if_pos hall, displayParts_map_val, List.nil_append, literalRun]
    cases cs with
    | nil => exact absurd rfl hne
    | cons c cs => exact toList_quoteString (c :: cs)
  | false =>
    obtain ⟨ps, htexts, houtlines⟩ := displayParts_shown h []
    refine ⟨.call .seq ps, ?_, ?_⟩
    · rw [display, if_neg (by simp [hall])]
      exact Phrase.text_tuple (by decide) htexts
    · rw [Phrase.outline, houtlines]
      rfl

/-- The outline can be read from its display, and so can its parts, none of which is a sequence in a
sequence. -/
structure Legible (o : Outline) : Prop where
  shown : o.Shown
  seqParts_shown : ∀ part ∈ o.seqParts, part.Shown ∧ part.seqParts = [part]
  altParts_shown : ∀ part ∈ o.altParts, part.Shown

theorem Shown.legible {o : Outline} (h : o.Shown) (hseq : o.seqParts = [o])
    (halt : o.altParts = [o]) : o.Legible where
  shown := h
  seqParts_shown part hpart := by
    rw [hseq] at hpart
    rw [List.mem_singleton.mp hpart]
    exact ⟨h, hseq⟩
  altParts_shown part hpart := by
    rw [halt] at hpart
    rw [List.mem_singleton.mp hpart]
    exact h

theorem Legible.seq {o o' : Outline} (h : o.Legible) (h' : o'.Legible) (hne : o.seqParts ≠ []) :
    (seq (o.seqParts ++ o'.seqParts)).Legible := by
  have hparts : ∀ part ∈ o.seqParts ++ o'.seqParts, part.Shown ∧ part.seqParts = [part] := by
    intro part hpart
    rcases List.mem_append.mp hpart with hpart | hpart
    · exact h.seqParts_shown part hpart
    · exact h'.seqParts_shown part hpart
  have hshown : (Outline.seq (o.seqParts ++ o'.seqParts)).Shown :=
    shown_seq (List.append_ne_nil_of_left_ne_nil hne _) hparts
  refine ⟨hshown, hparts, ?_⟩
  intro part hpart
  rw [List.mem_singleton.mp hpart]
  exact hshown

theorem Legible.alt {o o' : Outline} (h : o.Legible) (h' : o'.Legible) :
    (alt (o.altParts ++ o'.altParts)).Legible := by
  have hparts : ∀ part ∈ o.altParts ++ o'.altParts, part.Shown := by
    intro part hpart
    rcases List.mem_append.mp hpart with hpart | hpart
    · exact h.altParts_shown part hpart
    · exact h'.altParts_shown part hpart
  refine ⟨shown_alt hparts, ?_, hparts⟩
  intro part hpart
  rw [List.mem_singleton.mp hpart]
  exact ⟨shown_alt hparts, rfl⟩

end Outline

theorem Rule.CustomFree.legible {r : Rule σ} (h : r.CustomFree) (shared : σ) :
    (r.outline shared).Legible := by
  induction r using Rule.rec (motive_2 := fun _ => True) with
  | any => exact (Outline.shown_word (k := .any) (by decide) rfl).legible rfl rfl
  | oneOf set => exact (Outline.shown_oneOf set).legible rfl rfl
  | val c => exact (Outline.shown_val c).legible rfl rfl
  | empty => exact (Outline.shown_word (k := .empty) (by decide) rfl).legible rfl rfl
  | «end» => exact (Outline.shown_word (k := .end) (by decide) rfl).legible rfl rfl
  | append a b iha ihb => exact (iha h.1).seq (ihb h.2) (a.seqParts_outline_ne_nil shared)
  | or a b iha ihb => exact (iha h.1).alt (ihb h.2)
  | optional r ih => exact (ih h).shown.optional.legible rfl rfl
  | many r ih => exact (ih h).shown.many.legible rfl rfl
  | custom => exact h.elim
  | _ => trivial

namespace Rule

theorem display_eq_iff_outline {r r' : Rule σ} (h : r.CustomFree) (h' : r'.CustomFree)
    (shared : σ) : r.display shared = r'.display shared ↔ r.outline shared = r'.outline shared := by
  constructor
  · intro hdisplay
    exact Outline.eq_of_shown (h.legible shared).shown (h'.legible shared).shown hdisplay
  · intro houtline
    rw [display, display, houtline]

/-- Rules without custom nodes are shown alike exactly when they have one outline, which is when
they differ in grouping only, and then they offer every acceptor the same. -/
theorem display_determines {r r' : Rule σ} (h : r.CustomFree) (h' : r'.CustomFree) (shared : σ) :
    (r.display shared = r'.display shared ↔ r.outline shared = r'.outline shared) ∧
    (r.display shared = r'.display shared ↔ r.Regrouped r') ∧
    (r.display shared = r'.display shared →
      ∀ s, r.offers s = r'.offers s ∧
        ∀ {ω : Type} (k : Acceptor ω σ), r.matchWith s k = r'.matchWith s k) ∧
    ∀ set set' : CharSet, set = set' ↔ ∀ c, c ∈ set.toList ↔ c ∈ set'.toList := by
  have houtline := display_eq_iff_outline h h' shared
  have hregrouped := houtline.trans (outline_eq_iff_regrouped h h' shared)
  refine ⟨houtline, hregrouped, ?_, ?_⟩
  · intro hdisplay s
    have hoffers : r.offers = r'.offers := (hregrouped.mp hdisplay).offers_eq
    refine ⟨congrFun hoffers s, ?_⟩
    intro ω k
    rw [matchWith_eq_settle h, matchWith_eq_settle h', hoffers]
  · intro set set'
    constructor
    · rintro rfl c
      exact Iff.rfl
    · exact CharSet.ext_mem

/-- A sequence grouped in two ways, with a run of characters across the groups. -/
theorem display_determines_run :
    ((append (append (val '"') (val 'é')) (append any (val 'c')) : Rule Unit).display ()
        = "seq(\"\\\"é\", any, \"c\")") ∧
      ∀ s, (append (append (val '"') (val 'é')) (append any (val 'c')) : Rule Unit).offers s
        = (append (val '"') (append (append (val 'é') any) (val 'c')) : Rule Unit).offers s := by
  have hfree : (append (append (val '"') (val 'é')) (append any (val 'c'))
      : Rule Unit).CustomFree := ⟨⟨trivial, trivial⟩, ⟨trivial, trivial⟩⟩
  have hfree' : (append (val '"') (append (append (val 'é') any) (val 'c'))
      : Rule Unit).CustomFree := ⟨trivial, ⟨⟨trivial, trivial⟩, trivial⟩⟩
  obtain ⟨houtline, -, halike, -⟩ := display_determines hfree hfree' ()
  refine ⟨by decide +kernel, ?_⟩
  intro s
  exact (halike (houtline.mpr rfl) s).1

end Rule

end Backtrack
