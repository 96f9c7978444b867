import AgentCpp.Lib.Json

/-!
# String escaping for JSON (`utils.cpp`, `escape_json_string`)

The escaped text is read back as the original string, and it is valid UTF-8 exactly when
the string is.
-/

namespace AgentCpp
open Lib Lib.Json List Utf8

/-- One octet of `escape_json_string`; the last case is `\u%04x`. -/
def escapeByte (c : UInt8) : Bytes :=
  if c = 0x22 then [0x5C, 0x22]
  else if c = 0x5C then [0x5C, 0x5C]
  else if c = 8 then [0x5C, 0x62]
  else if c = 12 then [0x5C, 0x66]
  else if c = 10 then [0x5C, 0x6E]
  else if c = 13 then [0x5C, 0x72]
  else if c = 9 then [0x5C, 0x74]
  else if c < 0x20 then
    [0x5C, 0x75, 48, 48, hexDigit (c.toNat / 16), hexDigit (c.toNat % 16)]
  else [c]

def escapeJsonString (s : Bytes) : Bytes := s.flatMap escapeByte

variable (name : Bytes) (c : UInt8) (s text : Bytes)

theorem escapeJsonString_cons :
    escapeJsonString (c :: s) = escapeByte c ++ escapeJsonString s := flatMap_cons

theorem strBody_escapeJsonString : StrBody (escapeJsonString s) s := by
  induction s with
  | nil => exact StrBody.nil
  | cons c s ih =>
    rw [escapeJsonString_cons]
    unfold escapeByte
    split
    · next h => subst h; exact StrBody.short _ _ rfl ih
    split
    · next h => subst h; exact StrBody.short _ _ rfl ih
    split
    · next h => subst h; exact StrBody.short _ _ rfl ih
    split
    · next h => subst h; exact StrBody.short _ _ rfl ih
    split
    · next h => subst h; exact StrBody.short _ _ rfl ih
    split
    · next h => subst h; exact StrBody.short _ _ rfl ih
    split
    · next h => subst h; exact StrBody.short _ _ rfl ih
    split
    · next h => exact StrBody.hex c (UInt8.lt_trans h (by decide)) ih
    · next hq he _ _ _ _ _ h => exact StrBody.raw c (UInt8.not_lt.1 h) hq he ih

theorem hexDigit_ascii (d : ℕ) (h : d < 16) : hexDigit d < 0x80 := by
  interval_cases d <;> decide

theorem escapeByte_cases :
    escapeByte c = [c] ∨ c < 0x80 ∧ escapeByte c ≠ [] ∧ ∀ b ∈ escapeByte c, b < 0x80 := by
  -- a two-octet escape of an ASCII octet
  have pair : ∀ a b : UInt8, a < 0x80 → b < 0x80 → ∀ d ∈ [a, b], d < 0x80 := by
    intro a b ha hb d hd
    rcases List.mem_pair.1 hd with rfl | rfl
    · exact ha
    · exact hb
  unfold escapeByte
  split
  · next h => subst h; exact Or.inr ⟨by decide, by simp, pair _ _ (by decide) (by decide)⟩
  split
  · next h => subst h; exact Or.inr ⟨by decide, by simp, pair _ _ (by decide) (by decide)⟩
  split
  · next h => subst h; exact Or.inr ⟨by decide, by simp, pair _ _ (by decide) (by decide)⟩
  split
  · next h => subst h; exact Or.inr ⟨by decide, by simp, pair _ _ (by decide) (by decide)⟩
  split
  · next h => subst h; exact Or.inr ⟨by decide, by simp, pair _ _ (by decide) (by decide)⟩
  split
  · next h => subst h; exact Or.inr ⟨by decide, by simp, pair _ _ (by decide) (by decide)⟩
  split
  · next h => subst h; exact Or.inr ⟨by decide, by simp, pair _ _ (by decide) (by decide)⟩
  split
  · next h =>
    have hn : c.toNat < 32 := UInt8.lt_iff_toNat_lt.1 h
    have h1 := hexDigit_ascii (c.toNat / 16) (by omega)
    have h2 := hexDigit_ascii (c.toNat % 16) (by omega)
    refine Or.inr ⟨UInt8.lt_trans h (by decide), by simp, ?_⟩
    simp only [forall_mem_cons, h1, h2, not_mem_nil, false_implies, implies_true]
    decide
  · exact Or.inl rfl

theorem run_ascii (q : Utf8.State) (s : Bytes) (hne : s ≠ []) (h : ∀ b ∈ s, b < 0x80) :
    Utf8.run (some q) s = if q = .start then some .start else none := by
  cases s with
  | nil => exact absurd rfl hne
  | cons b s =>
    have hb := h b (mem_cons_self ..)
    rw [Utf8.run_cons, Option.bind_some]
    by_cases hq : q = .start
    · subst hq
      rw [next_start_ascii b hb]
      exact valid_of_ascii s (fun c hc => h c (mem_cons_of_mem _ hc))
    · rw [next_inner_ascii q b hq hb, run_none, if_neg hq]

theorem run_escapeByte (q : Utf8.State) (c : UInt8) : Utf8.run (some q) (escapeByte c) = Utf8.run (some q) [c] := by
  rcases escapeByte_cases c with h | ⟨hc, hne, h⟩
  · rw [h]
  · rw [run_ascii q _ hne h, run_ascii q [c] (by simp) (by simpa using hc)]

theorem run_escapeJsonString (q : Option Utf8.State) (s : Bytes) :
    Utf8.run q (escapeJsonString s) = Utf8.run q s := by
  induction s generalizing q with
  | nil => rfl
  | cons c s ih =>
    rw [escapeJsonString_cons, Utf8.run_append]
    cases q with
    | none => simp [run_none]
    | some q => rw [run_escapeByte, ih, ← Utf8.run_append, singleton_append]

theorem valid_escapeJsonString : Utf8.Valid (escapeJsonString s) ↔ Utf8.Valid s := by
  unfold Utf8.Valid
  rw [run_escapeJsonString]

/-- A string as the writers put it into a document: quoted and escaped. -/
def jsonString (s : Bytes) : Bytes := quoted (escapeJsonString s)

theorem denotes_jsonString : Denotes (jsonString s) (.str s) :=
  Denotes.str (strBody_escapeJsonString s)

@[simp] theorem valid_jsonString : Utf8.Valid (jsonString s) ↔ Utf8.Valid s := by
  rw [jsonString, valid_quoted, valid_escapeJsonString]

/-- A parser reads a string back exactly if it is valid UTF-8. -/
theorem parse_jsonString (parser : JsonParser) (s : Bytes) : parser.parse (jsonString s) = some (.str s) ↔ Utf8.Valid s := by
  refine ⟨fun h => ?_, fun hv => parser.parses _ _ (denotes_jsonString s) ((valid_jsonString s).2 hv)⟩
  by_contra hv
  rw [parser.rejects _ (mt (valid_jsonString s).1 hv)] at h
  cases h

/-- `"key":text` with an escaped key. -/
def keyedField (key text : Bytes) : Bytes := jsonString key ++ 0x3A :: text

/-- `"name":text` with a literal name. -/
def rawField (name text : Bytes) : Bytes := quoted name ++ 0x3A :: text

/-- `append_string_field`. -/
def stringField (name value : Bytes) : Bytes := rawField name (jsonString value)

theorem fieldDenotes_keyed (key text : Bytes) (v : Json) (h : Denotes text v) :
    FieldDenotes (keyedField key text) (key, v) :=
  ⟨⟨escapeJsonString key, key, text, v⟩, rfl, rfl, strBody_escapeJsonString key, h⟩

theorem fieldDenotes_raw (v : Json) (hn : escapeJsonString name = name)
    (h : Denotes text v) : FieldDenotes (rawField name text) (name, v) := by
  have hb := strBody_escapeJsonString name
  rw [hn] at hb
  exact ⟨⟨name, name, text, v⟩, rfl, rfl, hb, h⟩

theorem fieldDenotes_string (value : Bytes) (hn : escapeJsonString name = name) :
    FieldDenotes (stringField name value) (name, .str value) :=
  fieldDenotes_raw name _ _ hn (denotes_jsonString value)

@[simp] theorem valid_keyedField (key text : Bytes) :
    Utf8.Valid (keyedField key text) ↔ Utf8.Valid key ∧ Utf8.Valid text := by
  rw [keyedField, valid_append_ascii _ _ _ (by decide), valid_jsonString]

theorem valid_rawField (hn : Utf8.Valid name) :
    Utf8.Valid (rawField name text) ↔ Utf8.Valid text := by
  rw [rawField, valid_append_ascii _ _ _ (by decide), valid_quoted]
  exact and_iff_right hn

theorem valid_stringField (value : Bytes) (hn : Utf8.Valid name) :
    Utf8.Valid (stringField name value) ↔ Utf8.Valid value := by
  rw [stringField, valid_rawField _ _ hn, valid_jsonString]

end AgentCpp
