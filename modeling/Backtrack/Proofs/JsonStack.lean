import Backtrack.Json.Value
import Backtrack.Proofs.JsonText

/-!
# JSON over a stack

The height of the stack bounds the nesting of what is read: with every value that an open container holds there is
room left for the containers around it, and each token keeps it so. The tokens that are read up to the end of a value
are those that the value is written as, so there is one value for them. In the other direction, the tokens of a value
are taken wherever a value is waited for and there is room above the stack for its containers.
-/

set_option autoImplicit false

namespace Backtrack.Json

namespace Value

/-! ## Nesting -/

theorem nestingOf_le_iff {vs : List Value} {n : Nat} : nestingOf vs ≤ n ↔ ∀ v ∈ vs, v.nesting ≤ n := by
  induction vs with
  | nil => simp [nestingOf]
  | cons v vs ih => rw [nestingOf, Nat.max_le, ih, List.forall_mem_cons]

theorem nestingOfMembers_le_iff {members : List (String × Value)} {n : Nat} :
    nestingOfMembers members ≤ n ↔ ∀ v ∈ members.map Prod.snd, v.nesting ≤ n := by
  induction members with
  | nil => simp [nestingOfMembers]
  | cons m members ih => rw [nestingOfMembers, Nat.max_le, ih, List.map_cons, List.forall_mem_cons]

theorem nesting_pos {v : Value} (h : v.isContainer = true) : 0 < v.nesting := by
  cases v with
  | array vs =>
    rw [nesting]
    omega
  | object members =>
    rw [nesting]
    omega
  | null | truth b | number n | string s => cases h

theorem nesting_lt_of_mem_parts {v w : Value} (h : w ∈ v.parts) : w.nesting < v.nesting := by
  cases v with
  | array vs =>
    have hw : w.nesting ≤ nestingOf vs := nestingOf_le_iff.mp (Nat.le_refl _) w h
    rw [nesting]
    omega
  | object members =>
    have hw : w.nesting ≤ nestingOfMembers members := nestingOfMembers_le_iff.mp (Nat.le_refl _) w h
    rw [nesting]
    omega
  | null | truth b | number n | string s => cases h

end Value

/-! ## Open containers -/

namespace Frame

/-- The values that an open container holds so far. -/
def held : Frame → List Value
  | arrayStart => []
  | arrayItem items => items
  | arrayNext items => items
  | objectStart => []
  | objectName members => members.map Prod.snd
  | objectColon members _ => members.map Prod.snd
  | objectValue members _ => members.map Prod.snd
  | objectNext members => members.map Prod.snd

/-- Within the open containers there is room for what each of them holds. -/
def Fits : List Frame → Prop
  | [] => True
  | f :: fs => fs.length < Value.maxNesting ∧
      (∀ v ∈ f.held, v.nesting + fs.length < Value.maxNesting) ∧ Fits fs

variable {f f' : Frame} {fs : List Frame}

theorem fits_nil : Fits [] := trivial

theorem Fits.length_le (h : Fits fs) : fs.length ≤ Value.maxNesting := by
  cases fs with
  | nil => exact Nat.zero_le _
  | cons f fs => exact h.1

theorem Fits.head (h : Fits (f :: fs)) (hheld : ∀ v ∈ f'.held, v ∈ f.held) : Fits (f' :: fs) :=
  ⟨h.1, fun v hv => h.2.1 v (hheld v hv), h.2.2⟩

theorem Fits.head_cons {v : Value} (h : Fits (f :: fs)) (hheld : f'.held = v :: f.held)
    (hv : v.nesting + fs.length < Value.maxNesting) : Fits (f' :: fs) := by
  refine ⟨h.1, ?_, h.2.2⟩
  rw [hheld, List.forall_mem_cons]
  exact ⟨hv, h.2.1⟩

/-- The innermost open container, or the outside, waits for a value. -/
inductive Waits : List Frame → Prop where
  | outside : Waits []
  | arrayStart (fs : List Frame) : Waits (arrayStart :: fs)
  | arrayItem (items : List Value) (fs : List Frame) : Waits (arrayItem items :: fs)
  | objectValue (members : List (String × Value)) (name : String) (fs : List Frame) :
    Waits (objectValue members name :: fs)

/-- The tokens read in an open container: whatever comes after them, they begin what the container is written as. -/
def Spells : Frame → List Token → Prop
  | arrayStart, ts => ts = [.openBracket]
  | arrayItem items, ts => ∀ v vs,
      (Value.array (items.reverse ++ v :: vs)).tokens = ts ++ v.tokens ++ Value.itemTokens vs
  | arrayNext items, ts => ∀ vs, (Value.array (items.reverse ++ vs)).tokens = ts ++ Value.itemTokens vs
  | objectStart, ts => ts = [.openBrace]
  | objectName before, ts => ∀ name v members, (Value.object (before.reverse ++ (name, v) :: members)).tokens
      = ts ++ .string name :: .colon :: v.tokens ++ Value.memberTokens members
  | objectColon before name, ts => ∀ v members, (Value.object (before.reverse ++ (name, v) :: members)).tokens
      = ts ++ .colon :: v.tokens ++ Value.memberTokens members
  | objectValue before name, ts => ∀ v members, (Value.object (before.reverse ++ (name, v) :: members)).tokens
      = ts ++ v.tokens ++ Value.memberTokens members
  | objectNext before, ts => ∀ members,
      (Value.object (before.reverse ++ members)).tokens = ts ++ Value.memberTokens members

/-- The tokens read in a stack of open containers, from the outermost on. -/
def SpellsAll : List Frame → List Token → Prop
  | [], ts => ts = []
  | f :: fs, ts => ∃ before inner, ts = before ++ inner ∧ SpellsAll fs before ∧ f.Spells inner

theorem SpellsAll.head {ts : List Token} {t : Token} (h : SpellsAll (f :: fs) ts)
    (hf : ∀ inner, f.Spells inner → f'.Spells (inner ++ [t])) : SpellsAll (f' :: fs) (ts ++ [t]) := by
  obtain ⟨before, inner, rfl, hfs, hinner⟩ := h
  exact ⟨before, inner ++ [t], List.append_assoc .., hfs, hf inner hinner⟩

end Frame

def Progress.Spells : Progress → List Token → Prop
  | stuck, _ => True
  | more frames, ts => Frame.SpellsAll frames ts
  | done v, ts => v.tokens = ts

def Progress.Fits : Progress → Prop
  | stuck => True
  | more frames => Frame.Fits frames
  | done v => v.nesting ≤ Value.maxNesting

namespace Value

open Backtrack.Json.Frame (Fits)

variable {fs : List Frame} {f f' : Frame} {v : Value}

/-! ## What is read nests within the limit -/

theorem deliver_fits (h : Fits fs) (hv : v.nesting + fs.length ≤ maxNesting) : (deliver v fs).Fits := by
  unfold deliver
  split
  · exact hv
  · exact h.head_cons rfl hv
  · exact h.head_cons rfl hv
  · exact h.head_cons rfl hv
  · trivial

/-- A container is closed over what it held. -/
theorem deliver_closed_fits (h : Fits (f :: fs)) {n : Nat} (hv : v.nesting = 1 + n)
    (hn : ∀ m, (∀ w ∈ f.held, w.nesting ≤ m) → n ≤ m) : (deliver v fs).Fits := by
  obtain ⟨hlength, hheld, hfits⟩ := h
  refine deliver_fits hfits ?_
  have hle : n ≤ maxNesting - fs.length - 1 := hn _ fun w hw => by
    have := hheld w hw
    omega
  omega

theorem open?_fits (h : Fits fs) (hempty : f.held = []) : (open? f fs).Fits := by
  unfold open?
  split
  · rename_i hroom
    have hfits : Fits (f :: fs) := ⟨hroom, by rw [hempty]; exact List.forall_mem_nil _, h⟩
    split <;> first | exact hfits | trivial
  · trivial

theorem deliver_scalar_fits (h : Fits fs) (hv : v.nesting = 0) : (deliver v fs).Fits := by
  refine deliver_fits h ?_
  rw [hv, Nat.zero_add]
  exact h.length_le

theorem step_fits (h : Fits fs) (t : Token) : (step fs t).Fits := by
  unfold step
  split
  -- The innermost container waits for something else and holds what it held.
  · exact h.head fun _ => id
  · exact h.head fun _ => id
  · exact h.head fun _ => id
  · exact h.head fun _ => id
  · exact h.head fun _ => id
  -- It is closed.
  · exact deliver_closed_fits h (nesting.eq_def _) fun _ _ => Nat.zero_le _
  · exact deliver_closed_fits h (nesting.eq_def _) fun _ hheld =>
      nestingOf_le_iff.mpr fun v hv => hheld v (List.mem_reverse.mp hv)
  · exact deliver_closed_fits h (nesting.eq_def _) fun _ _ => Nat.zero_le _
  · refine deliver_closed_fits h (nesting.eq_def _) fun _ hheld => nestingOfMembers_le_iff.mpr fun v hv => ?_
    rw [List.map_reverse] at hv
    exact hheld v (List.mem_reverse.mp hv)
  -- Another one is opened.
  · exact open?_fits h rfl
  · exact open?_fits h rfl
  -- A value without nesting is delivered.
  · exact deliver_scalar_fits h (nesting.eq_def _)
  · exact deliver_scalar_fits h (nesting.eq_def _)
  · exact deliver_scalar_fits h (nesting.eq_def _)
  · exact deliver_scalar_fits h (nesting.eq_def _)
  · trivial

theorem nesting_le_of_read {ts rest : List Token} (h : Fits fs) (hread : read fs ts = some (v, rest)) :
    v.nesting ≤ maxNesting := by
  induction ts generalizing fs with
  | nil => cases hread
  | cons t ts ih =>
    have hstep := step_fits h t
    rw [read] at hread
    split at hread
    · cases hread
    · rename_i heq
      rw [heq] at hstep
      exact ih hstep hread
    · rename_i heq
      rw [heq] at hstep
      cases hread
      exact hstep

/-! ## What is read is what is written -/

theorem deliver_spells {ts : List Token} (h : Frame.SpellsAll fs ts) (v : Value) :
    (deliver v fs).Spells (ts ++ v.tokens) := by
  unfold deliver
  split
  · cases h
    rfl
  · obtain ⟨before, inner, rfl, hfs, rfl⟩ := h
    refine ⟨before, .openBracket :: v.tokens, by simp, hfs, fun vs => ?_⟩
    exact tokens.eq_def _
  · obtain ⟨before, inner, rfl, hfs, hinner⟩ := h
    refine ⟨before, inner ++ v.tokens, List.append_assoc .., hfs, fun vs => ?_⟩
    rw [List.reverse_cons, List.append_assoc]
    exact hinner v vs
  · obtain ⟨before, inner, rfl, hfs, hinner⟩ := h
    refine ⟨before, inner ++ v.tokens, List.append_assoc .., hfs, fun members => ?_⟩
    rw [List.reverse_cons, List.append_assoc]
    exact hinner v members
  · trivial

/-- A container is closed over what it held. -/
theorem deliver_closed_spells {ts : List Token} {t : Token} (h : Frame.SpellsAll (f :: fs) ts)
    (hv : ∀ inner, f.Spells inner → v.tokens = inner ++ [t]) : (deliver v fs).Spells (ts ++ [t]) := by
  obtain ⟨before, inner, rfl, hfs, hinner⟩ := h
  rw [List.append_assoc, ← hv inner hinner]
  exact deliver_spells hfs v

theorem open?_spells {ts : List Token} {t : Token} (h : Frame.SpellsAll fs ts) (hf : f.Spells [t]) :
    (open? f fs).Spells (ts ++ [t]) := by
  unfold open?
  split
  · have hopened : Frame.SpellsAll (f :: fs) (ts ++ [t]) := ⟨ts, [t], rfl, h, hf⟩
    split <;> first | exact hopened | trivial
  · trivial

theorem step_spells {ts : List Token} (h : Frame.SpellsAll fs ts) (t : Token) : (step fs t).Spells (ts ++ [t]) := by
  unfold step
  split
  -- The innermost container waits for something else.
  · refine h.head fun inner hinner v vs => ?_
    rw [hinner (v :: vs), itemTokens]
    simp
  · refine h.head fun inner hinner name v members => ?_
    rw [hinner ((name, v) :: members), memberTokens]
    simp
  · refine h.head fun inner hinner v members => ?_
    rw [hinner v members]
    simp
  · refine h.head fun inner hinner v members => ?_
    cases hinner
    exact tokens.eq_def _
  · refine h.head fun inner hinner v members => ?_
    rw [hinner _ v members]
    simp
  -- It is closed.
  · refine deliver_closed_spells h fun inner hinner => ?_
    cases hinner
    exact tokens.eq_def _
  · refine deliver_closed_spells h fun inner hinner => ?_
    rw [← List.append_nil (List.reverse _), hinner [], itemTokens]
  · refine deliver_closed_spells h fun inner hinner => ?_
    cases hinner
    exact tokens.eq_def _
  · refine deliver_closed_spells h fun inner hinner => ?_
    rw [← List.append_nil (List.reverse _), hinner [], memberTokens]
  -- Another one is opened.
  · exact open?_spells h rfl
  · exact open?_spells h rfl
  -- A value of one token is delivered.
  · exact deliver_spells h .null
  · exact deliver_spells h (.truth _)
  · exact deliver_spells h (.number _)
  · exact deliver_spells h (.string _)
  · trivial

theorem tokens_of_read {before ts rest : List Token} (h : Frame.SpellsAll fs before)
    (hread : read fs ts = some (v, rest)) : before ++ ts = v.tokens ++ rest := by
  induction ts generalizing fs before with
  | nil => cases hread
  | cons t ts ih =>
    have hstep := step_spells h t
    rw [List.append_cons]
    rw [read] at hread
    split at hread
    · cases hread
    · rename_i heq
      rw [heq] at hstep
      exact ih hstep hread
    · rename_i heq
      rw [heq] at hstep
      cases hread
      rw [← show v.tokens = before ++ [t] from hstep]

/-! ## What is written is read -/

variable {Q : List Frame → Prop}

/-- A row of tokens does that to a stack, and every stack on the way has a property. -/
inductive Passes (Q : List Frame → Prop) : List Frame → List Token → Progress → Prop where
  | last {fs : List Frame} {t : Token} {p : Progress} (hQ : Q fs) (hstep : step fs t = p) : Passes Q fs [t] p
  | cons {fs gs : List Frame} {t : Token} {ts : List Token} {p : Progress} (hQ : Q fs)
    (hstep : step fs t = .more gs) (h : Passes Q gs ts p) : Passes Q fs (t :: ts) p

theorem Passes.append {gs : List Frame} {ts us : List Token} {p q : Progress} (h : Passes Q fs ts p)
    (hp : p = .more gs) (hrest : Passes Q gs us q) : Passes Q fs (ts ++ us) q := by
  induction h with
  | last hQ hstep => exact .cons hQ (hstep.trans hp) hrest
  | cons hQ hstep _ ih => exact .cons hQ hstep (ih hp)

theorem step_openBracket (h : Frame.Waits fs) (hroom : fs.length < maxNesting) :
    step fs .openBracket = .more (.arrayStart :: fs) := by
  cases h <;> rw [step, open?, if_pos hroom]

theorem step_openBrace (h : Frame.Waits fs) (hroom : fs.length < maxNesting) :
    step fs .openBrace = .more (.objectStart :: fs) := by
  cases h <;> rw [step, open?, if_pos hroom]

section
variable (hup : ∀ f fs, Q fs → Q (f :: fs))
include hup

mutual

-- By induction on the value. The room above the stack shrinks by a container where the nesting does.
theorem passes_tokens (v : Value) {fs : List Frame} (hwaits : Frame.Waits fs) (hQ : Q fs)
    (hroom : v.nesting + fs.length ≤ maxNesting) : Passes Q fs v.tokens (deliver v fs) := by
  match v with
  | .null | .truth b | .number n | .string s =>
    rw [tokens]
    exact .last hQ (by cases hwaits <;> rfl)
  | .array [] =>
    rw [nesting, nestingOf] at hroom
    rw [tokens]
    exact .cons hQ (step_openBracket hwaits (by omega)) (.last (hup _ _ hQ) rfl)
  | .array (v :: vs) =>
    rw [nesting, nestingOf] at hroom
    rw [tokens]
    refine .cons hQ (step_openBracket hwaits (by omega)) (.append ?_ rfl (passes_itemTokens vs [v] hQ (by omega)))
    exact passes_tokens v (.arrayStart fs) (hup _ _ hQ) (by rw [List.length_cons]; omega)
  | .object [] =>
    rw [nesting, nestingOfMembers] at hroom
    rw [tokens]
    exact .cons hQ (step_openBrace hwaits (by omega)) (.last (hup _ _ hQ) rfl)
  | .object ((name, v) :: members) =>
    rw [nesting, nestingOfMembers] at hroom
    rw [tokens]
    refine .cons hQ (step_openBrace hwaits (by omega)) (.cons (hup _ _ hQ) rfl (.cons (hup _ _ hQ) rfl ?_))
    refine .append ?_ rfl (passes_memberTokens members [(name, v)] hQ (by omega))
    exact passes_tokens v (.objectValue [] name fs) (hup _ _ hQ) (by rw [List.length_cons]; omega)

theorem passes_itemTokens (vs items : List Value) {fs : List Frame} (hQ : Q fs)
    (hroom : 1 + nestingOf vs + fs.length ≤ maxNesting) :
    Passes Q (.arrayNext items :: fs) (itemTokens vs) (deliver (array (items.reverse ++ vs)) fs) := by
  match vs with
  | [] =>
    rw [itemTokens, List.append_nil]
    exact .last (hup _ _ hQ) rfl
  | v :: vs =>
    rw [nestingOf] at hroom
    rw [itemTokens, List.append_cons, ← List.reverse_cons]
    refine .cons (hup _ _ hQ) rfl (.append ?_ rfl (passes_itemTokens vs (v :: items) hQ (by omega)))
    exact passes_tokens v (.arrayItem items fs) (hup _ _ hQ) (by rw [List.length_cons]; omega)

theorem passes_memberTokens (members before : List (String × Value)) {fs : List Frame} (hQ : Q fs)
    (hroom : 1 + nestingOfMembers members + fs.length ≤ maxNesting) :
    Passes Q (.objectNext before :: fs) (memberTokens members)
      (deliver (object (before.reverse ++ members)) fs) := by
  match members with
  | [] =>
    rw [memberTokens, List.append_nil]
    exact .last (hup _ _ hQ) rfl
  | (name, v) :: members =>
    rw [nestingOfMembers] at hroom
    rw [memberTokens, List.append_cons, ← List.reverse_cons]
    refine .cons (hup _ _ hQ) rfl (.cons (hup _ _ hQ) rfl (.cons (hup _ _ hQ) rfl ?_))
    refine .append ?_ rfl (passes_memberTokens members ((name, v) :: before) hQ (by omega))
    exact passes_tokens v (.objectValue before name fs) (hup _ _ hQ) (by rw [List.length_cons]; omega)

end

end

theorem read_of_passes {ts : List Token} {p : Progress} (h : Passes Q fs ts p) (hp : p = .done v)
    (rest : List Token) : read fs (ts ++ rest) = some (v, rest) := by
  induction h with
  | last _ hstep =>
    rw [List.singleton_append, read, hstep, hp]
  | cons _ hstep _ ih =>
    rw [List.cons_append, read, hstep]
    exact ih hp

theorem read_tokens (hroom : v.nesting ≤ maxNesting) (rest : List Token) :
    read [] (v.tokens ++ rest) = some (v, rest) := by
  have hpasses : Passes (fun _ => True) [] v.tokens (.done v) :=
    passes_tokens (fun _ _ => id) v .outside trivial hroom
  exact read_of_passes hpasses rfl rest

/-! ## Texts -/

theorem plain_itemTokens {vs : List Value} (h : ∀ v ∈ vs, ∀ t ∈ v.tokens, t.Plain) :
    ∀ t ∈ itemTokens vs, t.Plain := by
  induction vs with
  | nil => simp [itemTokens, Token.Plain]
  | cons v vs ih =>
    obtain ⟨hv, hvs⟩ := List.forall_mem_cons.mp h
    rw [itemTokens, List.cons_append, List.forall_mem_cons, List.forall_mem_append]
    exact ⟨trivial, hv, ih hvs⟩

theorem plain_memberTokens {members : List (String × Value)}
    (h : ∀ m ∈ members, ∀ t ∈ m.2.tokens, t.Plain) : ∀ t ∈ memberTokens members, t.Plain := by
  induction members with
  | nil => simp [memberTokens, Token.Plain]
  | cons m members ih =>
    obtain ⟨hm, hmembers⟩ := List.forall_mem_cons.mp h
    simp only [memberTokens, List.cons_append, List.forall_mem_cons, List.forall_mem_append]
    exact ⟨trivial, trivial, trivial, hm, ih hmembers⟩

theorem Textual.plain (h : v.Textual) : ∀ t ∈ v.tokens, t.Plain := by
  induction h with
  | string s => simp [tokens, Token.Plain]
  | @array vs _ ih =>
    cases vs with
    | nil => simp [tokens, Token.Plain]
    | cons v vs =>
      obtain ⟨hv, hvs⟩ := List.forall_mem_cons.mp ih
      rw [tokens, List.cons_append, List.forall_mem_cons, List.forall_mem_append]
      exact ⟨trivial, hv, plain_itemTokens hvs⟩
  | @object members _ ih =>
    cases members with
    | nil => simp [tokens, Token.Plain]
    | cons m members =>
      obtain ⟨hm, hmembers⟩ := List.forall_mem_cons.mp ih
      simp only [tokens, List.cons_append, List.forall_mem_cons, List.forall_mem_append]
      exact ⟨trivial, trivial, trivial, hm, plain_memberTokens hmembers⟩

theorem ofText?_print (htextual : v.Textual) (hroom : v.nesting ≤ maxNesting) : ofText? v.print = some v := by
  have hread : read [] v.tokens = some (v, []) := by
    have := read_tokens hroom []
    rwa [List.append_nil] at this
  rw [ofText?, print, String.toList_ofList, text, Token.scan_flatMap_text htextual.plain, hread]

theorem ofText?_eq_some {t : String} (h : ofText? t = some v) :
    Token.scan t.toList = v.tokens ∧ v.nesting ≤ maxNesting := by
  rw [ofText?] at h
  split at h
  · rename_i hread
    cases h
    have hspells : Frame.SpellsAll [] [] := rfl
    have htokens := tokens_of_read hspells hread
    rw [List.nil_append, List.append_nil] at htokens
    exact ⟨htokens, nesting_le_of_read Frame.fits_nil hread⟩
  · cases h

end Value

end Backtrack.Json
