import Backtrack.Config.Json
import Backtrack.Proofs.JsonStack

/-!
# The codec is lawful

Reading looks at the tag of the outermost rule as soon as it comes, before it is known that the text is well formed.
That only decides which fault is reported: it passes over a tag that comes first and by name, and what it lets through
is the value that the text holds. The other laws are about one step of decoding.
-/

set_option autoImplicit false

namespace Backtrack.Config

open Json (Value Frame Token)

theorem bind_eq_ok {ε α β : Type} {first : Except ε α} {rest : α → Except ε β} {b : β} :
    (first >>= rest) = .ok b ↔ ∃ a, first = .ok a ∧ rest a = .ok b := by
  cases first <;> simp [bind, Except.bind]

theorem toOption_eq_some {ε α : Type} {x : Except ε α} {a : α} : x.toOption = some a ↔ x = .ok a := by
  cases x <;> simp [Except.toOption]

theorem mapError_eq_ok {ε ε' α : Type} {f : ε → ε'} {x : Except ε α} {a : α} :
    x.mapError f = .ok a ↔ x = .ok a := by
  cases x with
  | error e => exact iff_of_false nofun nofun
  | ok b => exact ⟨fun h => congrArg Except.ok (Except.ok.inj h), fun h => congrArg Except.ok (Except.ok.inj h)⟩

/-! ## Tags -/

theorem Tag.ofName?_name (tag : Tag) : ofName? tag.name = some tag := by
  cases tag <;> decide

theorem Tag.ofValue_name (tag : Tag) : ofValue (.string tag.name) = .ok tag := by
  rw [ofValue, ofString, ofName?_name]

variable {tag : Tag} {field : String} {role : Role} {make : role.Carrier → Config} {c : Config}

theorem field_ne_tagField (h : tag.form = .filled field role make) : field ≠ tagField := by
  cases tag <;> cases h <;> decide

theorem Tag.ofMembers_tagged {fields : List (String × Value)} (h : ∀ m ∈ fields, m.1 ≠ tagField) :
    ofMembers ((tagField, .string tag.name) :: fields) = .ok tag := by
  have hfields : fields.filter (·.1 == tagField) = [] :=
    List.filter_eq_nil_iff.mpr fun m hm => by simpa using h m hm
  rw [ofMembers, List.filter_cons_of_pos (by exact beq_self_eq_true _), hfields]
  exact ofValue_name tag

/-- A tag that comes first is the only one. -/
theorem ne_tagField_of_decode {fields : List (String × Value)} (h : decode .rule (tagged tag fields) = .ok c) :
    ∀ m ∈ fields, m.1 ≠ tagField := by
  rw [tagged, decode, bind_eq_ok] at h
  obtain ⟨tag', htag, -⟩ := h
  rw [Tag.ofMembers, List.filter_cons_of_pos (by exact beq_self_eq_true _)] at htag
  have hfields : fields.filter (·.1 == tagField) = [] := by
    cases hfilter : fields.filter (·.1 == tagField) with
    | nil => rfl
    | cons m ms =>
      rw [hfilter] at htag
      obtain ⟨-, -, hthrow⟩ := bind_eq_ok.mp htag
      cases hthrow
  intro m hm
  simpa using List.filter_eq_nil_iff.mp hfields m hm

/-! ## One step of encoding and decoding -/

theorem toValue_bare (h : tag.form = .bare c) : c.toValue = tagged tag [] := by
  cases tag <;> cases h <;> rfl

theorem toValue_make (h : tag.form = .filled field role make) (x : role.Carrier) :
    (make x).toValue = tagged tag [(field, role.write x)] := by
  cases tag <;> cases h <;> rfl

theorem toValues_eq_map (cs : List Config) : toValues cs = cs.map toValue := by
  induction cs with
  | nil => rfl
  | cons c cs ih => rw [toValues, ih, List.map_cons]

theorem decode_tagged_bare (h : tag.form = .bare c) : decode .rule (tagged tag []) = .ok c := by
  rw [tagged, decode, Tag.ofMembers_tagged (List.forall_mem_nil _)]
  simp only [bind, Except.bind, h, decodeMembers]

theorem decode_tagged_filled (h : tag.form = .filled field role make) {v : Value} {x : role.Carrier}
    (hv : decode role v = .ok x) : decode .rule (tagged tag [(field, v)]) = .ok (make x) := by
  have hother := field_ne_tagField h
  rw [tagged, decode, Tag.ofMembers_tagged (by simpa using hother)]
  simp only [bind, Except.bind, h, decodeMembers, if_neg hother.symm, if_true, Option.isSome_none,
    Bool.false_eq_true, if_false, hv]

theorem decodeAll_toOption (vs : List Value) :
    (decodeAll vs).toOption = vs.mapM fun v => (decode .rule v).toOption := by
  induction vs with
  | nil => rfl
  | cons v vs ih =>
    rw [decodeAll, List.mapM_cons, ← ih]
    cases decode .rule v with
    | error e => rfl
    | ok c => cases decodeAll vs <;> rfl

theorem Form.ReadFrom.mono {read : (role : Role) → Value → Option role.Carrier} {form : Form} {vs ws : List Value}
    (h : form.ReadFrom read vs c) (hsub : vs ⊆ ws) : form.ReadFrom read ws c := by
  cases form with
  | bare d => exact h
  | filled field role make =>
    obtain ⟨x, hx, v, hv, hdecode⟩ := h
    exact ⟨x, hx, v, hsub hv, hdecode⟩

theorem of_decodeMembers {form : Form} {found : Option Config} {members : List (String × Value)}
    (h : decodeMembers form found members = .ok c) :
    found = some c ∨ form.ReadFrom ownCodec.decode (members.map Prod.snd) c := by
  cases form with
  | bare d => cases members <;> cases h <;> exact .inr rfl
  | filled field role make =>
    induction members generalizing found with
    | nil =>
      cases found with
      | none => cases h
      | some d =>
        cases h
        exact .inl rfl
    | cons m members ih =>
      have hlater {found' : Option Config} (h : decodeMembers (.filled field role make) found' members = .ok c) :
          found' = some c ∨
            Form.ReadFrom ownCodec.decode ((m :: members).map Prod.snd) c (.filled field role make) :=
        (ih h).imp_right fun hread => hread.mono (List.subset_cons_self _ _)
      rw [decodeMembers] at h
      split at h
      · split at h
        · cases h
        · obtain ⟨x, hx, h⟩ := bind_eq_ok.mp h
          refine .inr ((hlater h).elim (fun hmade => ?_) id)
          exact ⟨x, (Option.some.inj hmade).symm, m.2, List.mem_cons_self, toOption_eq_some.mpr hx⟩
      · exact hlater h

theorem of_decodeItems {vs : List Value} (h : decodeItems tag vs = .ok c) :
    tag.form.ReadFrom ownCodec.decode vs c := by
  cases hform : tag.form with
  | bare d =>
    cases vs <;> simp only [decodeItems, hform] at h <;> cases h
    rfl
  | filled field role make =>
    cases vs with
    | nil =>
      simp only [decodeItems, hform] at h
      cases h
    | cons v vs =>
      simp only [decodeItems, hform] at h
      obtain ⟨x, hx, h⟩ := bind_eq_ok.mp h
      split at h
      · cases h
        exact ⟨x, rfl, v, List.mem_cons_self, toOption_eq_some.mpr hx⟩
      · cases h

theorem of_decode {v : Value} (h : decode .rule v = .ok c) :
    v.isContainer = true ∧ ∃ tag : Tag, tag.form.ReadFrom ownCodec.decode v.parts c := by
  cases v with
  | object members =>
    rw [decode, bind_eq_ok] at h
    obtain ⟨tag, -, h⟩ := h
    exact ⟨rfl, tag, (of_decodeMembers h).resolve_left nofun⟩
  | array vs =>
    cases vs with
    | nil => cases h
    | cons v vs =>
      rw [decode, bind_eq_ok] at h
      obtain ⟨tag, -, h⟩ := h
      exact ⟨rfl, tag, (of_decodeItems h).mono (List.subset_cons_self _ _)⟩
  | null | truth b | number n | string s => cases h

/-! ## The outermost value -/

/-- No token shows a fault of the outermost tag here. -/
def Quiet (fs : List Frame) : Prop := ∀ t, earlyFault? fs t = none

theorem quiet_of_two (f g : Frame) (fs : List Frame) : Quiet (f :: g :: fs) := by
  intro t
  cases f <;> rfl

theorem quiet_objectValue (members : List (String × Value)) {name : String} (h : name ≠ tagField) :
    Quiet [.objectValue members name] := by
  intro t
  rw [earlyFault?, if_neg h]

theorem readOutermost_cons {fs fs' : List Frame} {t : Token} (hquiet : earlyFault? fs t = none)
    (hstep : Value.step fs t = .more fs') (ts : List Token) :
    readOutermost fs (t :: ts) = readOutermost fs' ts := by
  rw [readOutermost, hquiet]
  simp only [hstep]

theorem readOutermost_of_passes {fs gs : List Frame} {ts : List Token} {p : Json.Progress}
    (h : Value.Passes (fun fs => fs ≠ [] ∧ Quiet fs) fs ts p) (hp : p = .more gs) (rest : List Token) :
    readOutermost fs (ts ++ rest) = readOutermost gs rest := by
  induction h with
  | last hQ hstep => exact readOutermost_cons (hQ.2 _) (hstep.trans hp) rest
  | cons hQ hstep _ ih => exact (readOutermost_cons (hQ.2 _) hstep _).trans (ih hp)

theorem quiet_up (f : Frame) (fs : List Frame) (h : fs ≠ [] ∧ Quiet fs) : f :: fs ≠ [] ∧ Quiet (f :: fs) := by
  cases fs with
  | nil => exact (h.1 rfl).elim
  | cons g fs => exact ⟨List.cons_ne_nil _ _, quiet_of_two f g fs⟩

theorem earlyFault?_tag (tag : Tag) (members : List (String × Value)) :
    earlyFault? [.objectValue members tagField] (.string tag.name) = none := by
  rw [earlyFault?, if_pos rfl, earlyFault?.tagFault?, Tag.ofName?_name]
  rfl

theorem earlyFault?_name {members : List (String × Value)} {name : String} (h : name ≠ tagField) :
    earlyFault? [.objectName members] (.string name) = none := by
  rw [earlyFault?, if_neg fun hboth => h hboth.1]

theorem readOutermost_memberTokens (members before : List (String × Value))
    (hnames : ∀ m ∈ members, m.1 ≠ tagField) (hroom : 1 + Value.nestingOfMembers members ≤ Value.maxNesting)
    (rest : List Token) :
    readOutermost [.objectNext before] (Value.memberTokens members ++ rest)
      = .ok (.object (before.reverse ++ members), rest) := by
  induction members generalizing before with
  | nil =>
    rw [Value.memberTokens, List.append_nil]
    rfl
  | cons m members ih =>
    obtain ⟨name, v⟩ := m
    obtain ⟨hname, hnames⟩ := List.forall_mem_cons.mp hnames
    rw [Value.nestingOfMembers] at hroom
    have hvalue : Value.Passes (fun fs => fs ≠ [] ∧ Quiet fs) [.objectValue before name] v.tokens
        (.more [.objectNext ((name, v) :: before)]) :=
      Value.passes_tokens quiet_up v (.objectValue before name [])
        ⟨List.cons_ne_nil _ _, quiet_objectValue before hname⟩ (by rw [List.length_singleton]; omega)
    simp only [Value.memberTokens, List.cons_append, List.append_assoc]
    rw [readOutermost_cons rfl rfl, readOutermost_cons (earlyFault?_name hname) rfl, readOutermost_cons rfl rfl,
      readOutermost_of_passes hvalue rfl, ih _ hnames (by omega), List.reverse_cons, List.append_assoc]
    rfl

theorem tokens_tagged (tag : Tag) (fields : List (String × Value)) :
    (tagged tag fields).tokens
      = .openBrace :: .string tagField :: .colon :: .string tag.name :: Value.memberTokens fields := by
  rw [tagged, Value.tokens, Value.tokens]
  rfl

theorem readOutermost_tagged {fields : List (String × Value)} (hnames : ∀ m ∈ fields, m.1 ≠ tagField)
    (hroom : (tagged tag fields).nesting ≤ Value.maxNesting) :
    readOutermost [] (tagged tag fields).tokens = .ok (tagged tag fields, []) := by
  rw [tagged, Value.nesting, Value.nestingOfMembers] at hroom
  have hrest := readOutermost_memberTokens fields [(tagField, .string tag.name)] hnames (by omega) []
  rw [List.append_nil] at hrest
  rw [tokens_tagged, readOutermost_cons rfl rfl, readOutermost_cons rfl rfl, readOutermost_cons rfl rfl,
    readOutermost_cons (earlyFault?_tag tag []) rfl]
  exact hrest

theorem read_of_readOutermost {fs : List Frame} {ts rest : List Token} {v : Value}
    (h : readOutermost fs ts = .ok (v, rest)) : Value.read fs ts = some (v, rest) := by
  induction ts generalizing fs with
  | nil => cases h
  | cons t ts ih =>
    cases hfault : earlyFault? fs t with
    | some fault =>
      rw [readOutermost, hfault] at h
      cases h
    | none =>
      cases hstep : Value.step fs t with
      | stuck =>
        simp only [readOutermost, hfault, hstep] at h
        cases h
      | more fs' =>
        simp only [readOutermost, hfault, hstep] at h
        simp only [Value.read, hstep]
        exact ih h
      | done w =>
        simp only [readOutermost, hfault, hstep] at h
        simp only [Value.read, hstep]
        cases h
        rfl

/-! ## Texts -/

theorem ofText_of_parse {t : String} {fields : List (String × Value)}
    (hparse : Value.ofText? t = some (tagged tag fields)) (hdecode : decode .rule (tagged tag fields) = .ok c) :
    ofText t = .ok c := by
  obtain ⟨hscan, hroom⟩ := Value.ofText?_eq_some hparse
  rw [ofText, hscan, ofTokens, readOutermost_tagged (ne_tagField_of_decode hdecode) hroom]
  simp only [bind, Except.bind, hdecode]
  rfl

theorem decode_of_ofText {t : String} (h : ofText t = .ok c) :
    ∃ v, Value.ofText? t = some v ∧ decode .rule v = .ok c := by
  rw [ofText, ofTokens, bind_eq_ok] at h
  obtain ⟨⟨v, rest⟩, hread, h⟩ := h
  obtain ⟨c', hdecode, h⟩ := bind_eq_ok.mp h
  cases rest with
  | nil =>
    cases h
    refine ⟨v, ?_, mapError_eq_ok.mp hdecode⟩
    rw [Value.ofText?, read_of_readOutermost hread]
  | cons t ts => cases h

theorem lawful_ownCodec : ownCodec.Lawful where
  parse_print := Value.ofText?_print
  nesting_of_parse h := (Value.ofText?_eq_some h).2
  write_eq _ := rfl
  encode_text _ := rfl
  encode_rules cs := congrArg Value.array (toValues_eq_map cs)
  encode_bare := toValue_bare
  encode_filled := toValue_make
  decode_text _ := by
    simp only [ownCodec, decode]
    rfl
  decode_rules vs := by
    simp only [ownCodec, decode]
    exact decodeAll_toOption vs
  decode_bare h := toOption_eq_some.mpr (decode_tagged_bare h)
  decode_filled h hv := toOption_eq_some.mpr (decode_tagged_filled h (toOption_eq_some.mp hv))
  array_of_decode := by
    intro v cs h
    cases v with
    | array vs => exact ⟨vs, rfl⟩
    | null | truth b | number n | string s | object members => cases h
  of_decode h := of_decode (toOption_eq_some.mp h)
  decode_of_read h := by
    obtain ⟨v, hparse, hdecode⟩ := decode_of_ofText (mapError_eq_ok.mp h)
    exact ⟨v, hparse, toOption_eq_some.mpr hdecode⟩
  read_of_parse hparse hdecode := mapError_eq_ok.mpr (ofText_of_parse hparse (toOption_eq_some.mp hdecode))

end Backtrack.Config
