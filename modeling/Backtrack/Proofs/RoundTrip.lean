import Backtrack.Proofs.Codec

/-!
# Configs written and read

A config is read back from the text that it is written as, as long as that text nests within the limit of JSON. It
does where the config is no deeper than a config may be, and it does where the config was read from a text: whatever
the spelling, the text that is read nests at least as deeply as the one that is written.
-/

set_option autoImplicit false

namespace Backtrack.Config

open Json (Value Token)

variable {tag : Tag} {field : String} {role : Role} {make : role.Carrier → Config} {c : Config}

/-! ## Forms -/

/-- The configs that a field holds have a property. -/
def Role.All (P : Config → Prop) : (role : Role) → role.Carrier → Prop
  | .text, _ => True
  | .rule, c => P c
  | .rules, cs => ∀ c ∈ cs, P c

/-- Every form keeps the property. -/
structure ByForm (P : Config → Prop) : Prop where
  bare : ∀ {t : Tag} {c}, t.form = .bare c → P c
  filled : ∀ {t : Tag} {field role make}, t.form = .filled field role make →
    ∀ x : role.Carrier, role.All P x → P (make x)

mutual

theorem ByForm.all {P : Config → Prop} (h : ByForm P) : (c : Config) → P c
  | any => h.bare (t := .any) rfl
  | oneOf set => h.filled (t := .oneOf) rfl set trivial
  | val value => h.filled (t := .val) rfl value trivial
  | empty => h.bare (t := .empty) rfl
  | .end => h.bare (t := .end) rfl
  | optional c => h.filled (t := .optional) rfl c (h.all c)
  | many c => h.filled (t := .many) rfl c (h.all c)
  | oneOrMore c => h.filled (t := .oneOrMore) rfl c (h.all c)
  | eof c => h.filled (t := .eof) rfl c (h.all c)
  | sequence cs => h.filled (t := .sequence) rfl cs (h.forall_mem cs)
  | alternative cs => h.filled (t := .alternative) rfl cs (h.forall_mem cs)

theorem ByForm.forall_mem {P : Config → Prop} (h : ByForm P) : (cs : List Config) → ∀ c ∈ cs, P c
  | [] => List.forall_mem_nil _
  | c :: cs => List.forall_mem_cons.mpr ⟨h.all c, h.forall_mem cs⟩

end

/-- Levels of the configs that a field holds. -/
def Role.depth : (role : Role) → role.Carrier → Nat
  | .text, _ => 0
  | .rule, c => c.depth
  | .rules, cs => depthAll cs

theorem depth_bare (h : tag.form = .bare c) : c.depth = 1 := by
  cases tag <;> cases h <;> rfl

theorem depth_make (h : tag.form = .filled field role make) (x : role.Carrier) :
    (make x).depth = 1 + role.depth x := by
  cases tag <;> cases h <;> rfl

theorem depth_le_depthAll {cs : List Config} (h : c ∈ cs) : c.depth ≤ depthAll cs := by
  induction cs with
  | nil => cases h
  | cons d cs ih =>
    rw [depthAll]
    rcases List.mem_cons.mp h with rfl | h
    · exact Nat.le_max_left _ _
    · exact Nat.le_trans (ih h) (Nat.le_max_right _ _)

theorem textual_tagged {fields : List (String × Value)} (h : ∀ m ∈ fields, m.2.Textual) :
    (tagged tag fields).Textual :=
  .object (List.forall_mem_cons.mpr ⟨.string _, h⟩)

theorem exists_mem_of_mapM {decode : Value → Option Config} {vs : List Value} {cs : List Config}
    (h : vs.mapM decode = some cs) : ∀ c ∈ cs, ∃ v ∈ vs, decode v = some c := by
  induction vs generalizing cs with
  | nil =>
    cases h
    exact List.forall_mem_nil _
  | cons v vs ih =>
    rw [List.mapM_cons] at h
    simp only [Option.bind_eq_bind, Option.bind_eq_some_iff] at h
    obtain ⟨c, hc, cs', hcs, h⟩ := h
    cases h
    refine List.forall_mem_cons.mpr ⟨⟨v, List.mem_cons_self, hc⟩, fun d hd => ?_⟩
    obtain ⟨w, hw, hdecode⟩ := ih hcs d hd
    exact ⟨w, List.mem_cons_of_mem v hw, hdecode⟩

namespace Codec.Lawful

variable {codec : Codec} (lawful : codec.Lawful)
include lawful

/-! ## What is written -/

theorem nesting_bare (h : tag.form = .bare c) : (codec.encode .rule c).nesting = 1 := by
  rw [lawful.encode_bare h]
  rfl

theorem nesting_make (h : tag.form = .filled field role make) (x : role.Carrier) :
    (codec.encode .rule (make x)).nesting = 1 + (codec.encode role x).nesting := by
  rw [lawful.encode_filled h]
  simp only [tagged, Value.nesting, Value.nestingOfMembers, Nat.zero_max, Nat.max_zero]

theorem nesting_rules_le_iff {cs : List Config} {n : Nat} :
    (codec.encode .rules cs).nesting ≤ 1 + n ↔ ∀ c ∈ cs, (codec.encode .rule c).nesting ≤ n := by
  rw [lawful.encode_rules, Value.nesting, Nat.add_le_add_iff_left, Value.nestingOf_le_iff, List.forall_mem_map]

theorem nesting_role_le {x : role.Carrier}
    (h : role.All (fun c => (codec.encode .rule c).nesting ≤ 2 * c.depth) x) :
    (codec.encode role x).nesting ≤ 1 + 2 * role.depth x := by
  cases role with
  | text =>
    rw [lawful.encode_text]
    exact Nat.zero_le _
  | rule => exact Nat.le_trans h (Nat.le_add_left _ _)
  | rules =>
    refine lawful.nesting_rules_le_iff.mpr fun c hc => Nat.le_trans (h c hc) ?_
    exact Nat.mul_le_mul_left 2 (depth_le_depthAll hc)

/-- A level of the config takes an object, and an array where its children stand in one. -/
theorem nesting_le_depth (c : Config) : (codec.encode .rule c).nesting ≤ 2 * c.depth := by
  suffices h : ByForm fun c => (codec.encode .rule c).nesting ≤ 2 * c.depth from h.all c
  constructor
  · intro tag c htag
    rw [lawful.nesting_bare htag, depth_bare htag]
    omega
  · intro tag field role make htag x hx
    have := lawful.nesting_role_le hx
    rw [lawful.nesting_make htag, depth_make htag]
    omega

theorem textual_role {x : role.Carrier} (h : role.All (fun c => (codec.encode .rule c).Textual) x) :
    (codec.encode role x).Textual := by
  cases role with
  | text =>
    rw [lawful.encode_text]
    exact .string x
  | rule => exact h
  | rules =>
    rw [lawful.encode_rules]
    exact .array (List.forall_mem_map.mpr h)

theorem textual_encode (c : Config) : (codec.encode .rule c).Textual := by
  suffices h : ByForm fun c => (codec.encode .rule c).Textual from h.all c
  constructor
  · intro tag c htag
    rw [lawful.encode_bare htag]
    exact textual_tagged (List.forall_mem_nil _)
  · intro tag field role make htag x hx
    rw [lawful.encode_filled htag]
    exact textual_tagged (List.forall_mem_singleton.mpr (lawful.textual_role hx))

theorem exists_encode_eq_tagged (c : Config) : ∃ tag fields, codec.encode .rule c = tagged tag fields := by
  suffices h : ByForm fun c => ∃ tag fields, codec.encode .rule c = tagged tag fields from h.all c
  constructor
  · intro tag c htag
    exact ⟨tag, [], lawful.encode_bare htag⟩
  · intro tag field role make htag x _
    exact ⟨tag, [(field, codec.encode role x)], lawful.encode_filled htag x⟩

/-! ## What is written is read -/

theorem decode_rules_encode {cs : List Config}
    (h : ∀ c ∈ cs, codec.decode .rule (codec.encode .rule c) = some c) :
    codec.decode .rules (codec.encode .rules cs) = some cs := by
  rw [lawful.encode_rules, lawful.decode_rules]
  induction cs with
  | nil => rfl
  | cons c cs ih =>
    obtain ⟨hc, hcs⟩ := List.forall_mem_cons.mp h
    rw [List.map_cons, List.mapM_cons, hc, ih hcs]
    rfl

theorem decode_role_encode {x : role.Carrier}
    (h : role.All (fun c => codec.decode .rule (codec.encode .rule c) = some c) x) :
    codec.decode role (codec.encode role x) = some x := by
  cases role with
  | text => rw [lawful.encode_text, lawful.decode_text]
  | rule => exact h
  | rules => exact lawful.decode_rules_encode h

theorem decode_encode (c : Config) : codec.decode .rule (codec.encode .rule c) = some c := by
  suffices h : ByForm fun c => codec.decode .rule (codec.encode .rule c) = some c from h.all c
  constructor
  · intro tag c htag
    rw [lawful.encode_bare htag]
    exact lawful.decode_bare htag
  · intro tag field role make htag x hx
    rw [lawful.encode_filled htag]
    exact lawful.decode_filled htag (lawful.decode_role_encode hx)

theorem read_write (h : (codec.encode .rule c).nesting ≤ Value.maxNesting) :
    codec.read (codec.write c) = .ok c := by
  obtain ⟨tag, fields, hencode⟩ := lawful.exists_encode_eq_tagged c
  have hparse := lawful.parse_print (lawful.textual_encode c) h
  have hdecode := lawful.decode_encode c
  rw [← lawful.write_eq, hencode] at hparse
  rw [hencode] at hdecode
  exact lawful.read_of_parse hparse hdecode

/-! ## Whatever the spelling -/

/-- What a value is decoded to nests no deeper when it is written again. -/
theorem nesting_of_decode (role : Role) (v : Value) {x : role.Carrier} (h : codec.decode role v = some x) :
    (codec.encode role x).nesting ≤ v.nesting := by
  -- By induction on the nesting: whatever is decoded on the way stands directly in the value.
  induction hn : v.nesting using Nat.strongRecOn generalizing role v with
  | ind n ih =>
    subst hn
    have hparts {role : Role} {w : Value} {x : role.Carrier} (hw : w ∈ v.parts) (h : codec.decode role w = some x) :
        (codec.encode role x).nesting < v.nesting :=
      Nat.lt_of_le_of_lt (ih _ (Value.nesting_lt_of_mem_parts hw) role w h rfl) (Value.nesting_lt_of_mem_parts hw)
    cases role with
    | text =>
      rw [lawful.encode_text]
      exact Nat.zero_le _
    | rules =>
      obtain ⟨vs, rfl⟩ := lawful.array_of_decode h
      rw [lawful.decode_rules] at h
      rw [Value.nesting]
      refine lawful.nesting_rules_le_iff.mpr fun c hc => ?_
      obtain ⟨w, hw, hdecode⟩ := exists_mem_of_mapM h c hc
      have := hparts hw hdecode
      rw [Value.nesting] at this
      omega
    | rule =>
      obtain ⟨hcontainer, tag, hread⟩ := lawful.of_decode h
      cases hform : tag.form with
      | bare d =>
        rw [hform] at hread
        obtain rfl := hread
        rw [lawful.nesting_bare hform]
        exact Value.nesting_pos hcontainer
      | filled field role make =>
        rw [hform] at hread
        obtain ⟨y, rfl, w, hw, hdecode⟩ := hread
        have := hparts hw hdecode
        rw [lawful.nesting_make hform]
        omega

theorem nesting_of_read {t : String} (h : codec.read t = .ok c) :
    (codec.encode .rule c).nesting ≤ Value.maxNesting := by
  obtain ⟨v, hparse, hdecode⟩ := lawful.decode_of_read h
  exact Nat.le_trans (lawful.nesting_of_decode .rule v hdecode) (lawful.nesting_of_parse hparse)

end Codec.Lawful

theorem fromJson_eq_ok {codec : Codec} {t : String} : fromJson codec t = .ok c ↔ codec.read t = .ok c :=
  mapError_eq_ok

/-- A config is read back from the text it is written as exactly where that text nests within the limit of JSON. No
config within the limit of depth is refused, and none that was itself read from a text, however that was spelled. -/
theorem fromJson_write {codec : Codec} (lawful : codec.Lawful) (c : Config) :
    (fromJson codec (codec.write c) = .ok c ↔ (codec.encode .rule c).nesting ≤ Value.maxNesting) ∧
      (c.depth ≤ Limits.maxConfigDepth → fromJson codec (codec.write c) = .ok c) ∧
      ∀ t, fromJson codec t = .ok c → fromJson codec (codec.write c) = .ok c := by
  simp only [fromJson_eq_ok]
  refine ⟨⟨lawful.nesting_of_read, lawful.read_write⟩, ?_, ?_⟩
  · intro hdepth
    apply lawful.read_write
    calc (codec.encode .rule c).nesting ≤ 2 * c.depth := lawful.nesting_le_depth c
      _ ≤ 2 * Limits.maxConfigDepth := Nat.mul_le_mul_left 2 hdepth
      _ ≤ Value.maxNesting := by decide
  · intro t ht
    exact lawful.read_write (lawful.nesting_of_read ht)

/-- Read with the tag last, another member before it, a numbered tag in an array and escapes; written without them. -/
theorem fromJson_write_respelled :
    let c : Config := .eof (.val "é😀")
    let t := "\x7b\"rule\": [2, \"\\u00e9\\ud83d\\ude00\"], \"x\": 1, \"type\": \"eof\"\x7d"
    ownCodec.Lawful ∧
      ownCodec.write c = "\x7b\"type\":\"eof\",\"rule\":\x7b\"type\":\"val\",\"value\":\"é😀\"\x7d\x7d" ∧
      c.depth ≤ Limits.maxConfigDepth ∧ fromJson ownCodec t = .ok c ∧
      fromJson ownCodec (ownCodec.write c) = .ok c := by
  intro c t
  have htokens : Token.scan t.toList
      = [.openBrace, .string "rule", .colon, .openBracket, .number (.natural 2), .comma, .string "é😀",
        .closeBracket, .comma, .string "x", .colon, .number (.natural 1), .comma, .string "type", .colon,
        .string "eof", .closeBrace] := by
    decide +kernel
  have hread : ofText t = .ok c := by
    rw [ofText, htokens]
    rfl
  have hjson : fromJson ownCodec t = .ok c := fromJson_eq_ok.mpr (mapError_eq_ok.mpr hread)
  exact ⟨lawful_ownCodec, by decide +kernel, by decide, hjson, (fromJson_write lawful_ownCodec c).2.2 t hjson⟩

end Backtrack.Config
