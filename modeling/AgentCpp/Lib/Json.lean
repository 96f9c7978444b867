import AgentCpp.Lib.Utf8

/-!
# JSON values, compact texts and parsers

`Denotes text v` is the part of RFC 8259 that a writer without white space uses. A
`JsonParser` is any function that reads every such text back when it is valid UTF-8 and
refuses every text that is not.
-/

namespace AgentCpp.Lib

open List

inductive Json where
  | null
  | bool (b : Bool)
  | int (i : ℤ)
  | float (text : Bytes)
  | str (s : Bytes)
  | arr (items : List Json)
  | obj (fields : List (Bytes × Json))

namespace Json

def getString : Json → Option Bytes
  | .str s => some s
  | _ => none

def getBool : Json → Option Bool
  | .bool b => some b
  | _ => none

def getArray : Json → Option (List Json)
  | .arr items => some items
  | _ => none

def getObject : Json → Option (List (Bytes × Json))
  | .obj fields => some fields
  | _ => none

def getInt64 : Json → Option Int64
  | .int i => if -2 ^ 63 ≤ i ∧ i < 2 ^ 63 then some (Int64.ofInt i) else none
  | _ => none

def getUint64 : Json → Option UInt64
  | .int i => if 0 ≤ i ∧ i < 2 ^ 64 then some (UInt64.ofNat i.toNat) else none
  | _ => none

/-- The value of the first member with this key. -/
def field (fields : List (Bytes × Json)) (key : Bytes) : Option Json :=
  (fields.find? fun f => f.1 = key).map Prod.snd

theorem getUint64_toNat (n : UInt64) : getUint64 (.int (n.toNat : ℤ)) = some n := by
  have h : (n.toNat : ℤ) < 2 ^ 64 := by
    have hn := n.toNat_lt
    exact_mod_cast hn
  simp only [getUint64, Int.natCast_nonneg, h, and_self, ite_true, Int.toNat_natCast, UInt64.ofNat_toNat]

theorem getInt64_toInt (n : Int64) : getInt64 (.int n.toInt) = some n := by
  have hlo := n.le_toInt
  have hhi := n.toInt_lt
  simp only [getInt64, hlo, hhi, and_self, ite_true, Int64.ofInt_toInt]

def hexDigit (d : ℕ) : UInt8 := if d < 10 then UInt8.ofNat (48 + d) else UInt8.ofNat (87 + d)

/-- The octet a two-character escape stands for. -/
def shortEscape : UInt8 → Option UInt8
  | 0x22 => some 0x22
  | 0x5C => some 0x5C
  | 0x2F => some 0x2F
  | 0x62 => some 8
  | 0x66 => some 12
  | 0x6E => some 10
  | 0x72 => some 13
  | 0x74 => some 9
  | _ => none

/-- `StrBody b s`: between quotes the text `b` is read as the string `s`. -/
inductive StrBody : Bytes → Bytes → Prop where
  | nil : StrBody [] []
  | raw {b s : Bytes} (c : UInt8) (hc : 0x20 ≤ c) (hq : c ≠ 0x22) (he : c ≠ 0x5C)
      (h : StrBody b s) : StrBody (c :: b) (c :: s)
  | short {b s : Bytes} (e c : UInt8) (he : shortEscape e = some c) (h : StrBody b s) :
      StrBody (0x5C :: e :: b) (c :: s)
  | hex {b s : Bytes} (c : UInt8) (hc : c < 0x80) (h : StrBody b s) :
      StrBody (0x5C :: 0x75 :: 48 :: 48 :: hexDigit (c.toNat / 16) :: hexDigit (c.toNat % 16) :: b)
        (c :: s)

def quoted (body : Bytes) : Bytes := 0x22 :: body ++ [0x22]

def commaSep : List Bytes → Bytes
  | [] => []
  | [t] => t
  | t :: ts => t ++ 0x2C :: commaSep ts

theorem commaSep_cons (t u : Bytes) (ts : List Bytes) :
    commaSep (t :: u :: ts) = t ++ 0x2C :: commaSep (u :: ts) := rfl

/-- One member of an object text. -/
structure Member where
  keyBody : Bytes
  key : Bytes
  text : Bytes
  value : Json

def Member.render (m : Member) : Bytes := quoted m.keyBody ++ 0x3A :: m.text

def Member.entry (m : Member) : Bytes × Json := (m.key, m.value)

def arrText (items : List Bytes) : Bytes := 0x5B :: commaSep items ++ [0x5D]

def objText (members : List Bytes) : Bytes := 0x7B :: commaSep members ++ [0x7D]

inductive Denotes : Bytes → Json → Prop where
  | str {b s : Bytes} (h : StrBody b s) : Denotes (quoted b) (.str s)
  | int (i : ℤ) : Denotes (decimalInt i) (.int i)
  | arr (ps : List (Bytes × Json)) (h : ∀ p ∈ ps, Denotes p.1 p.2) :
      Denotes (arrText (ps.map Prod.fst)) (.arr (ps.map Prod.snd))
  | obj (ms : List Member) (hk : ∀ m ∈ ms, StrBody m.keyBody m.key)
      (h : ∀ m ∈ ms, Denotes m.text m.value) :
      Denotes (objText (ms.map Member.render)) (.obj (ms.map Member.entry))

/-- A member text and the entry it stands for. -/
def FieldDenotes (t : Bytes) (e : Bytes × Json) : Prop :=
  ∃ m : Member, m.render = t ∧ m.entry = e ∧ StrBody m.keyBody m.key ∧ Denotes m.text m.value

variable (ts : List Bytes)

theorem denotes_arrText (vs : List Json) (h : List.Forall₂ Denotes ts vs) :
    Denotes (arrText ts) (.arr vs) := by
  have hd := Denotes.arr (ts.zip vs) (fun p hp => (List.forall₂_iff_zip.1 h).2 hp)
  rwa [map_fst_zip h.length_eq.le, map_snd_zip h.length_eq.ge] at hd

theorem denotes_objText (es : List (Bytes × Json))
    (h : List.Forall₂ FieldDenotes ts es) : Denotes (objText ts) (.obj es) := by
  have hm : ∃ ms : List Member, ms.map Member.render = ts ∧ ms.map Member.entry = es ∧
      ∀ m ∈ ms, StrBody m.keyBody m.key ∧ Denotes m.text m.value := by
    induction h with
    | nil => exact ⟨[], rfl, rfl, by simp⟩
    | cons h _ ih =>
      obtain ⟨m, rfl, rfl, hk, hv⟩ := h
      obtain ⟨ms, rfl, rfl, hms⟩ := ih
      exact ⟨m :: ms, rfl, rfl, List.forall_mem_cons.2 ⟨⟨hk, hv⟩, hms⟩⟩
  obtain ⟨ms, rfl, rfl, hms⟩ := hm
  exact Denotes.obj ms (fun m h => (hms m h).1) (fun m h => (hms m h).2)

theorem forall₂_map {α β γ : Type} {R : β → γ → Prop} (f : α → β) (g : α → γ) (xs : List α)
    (h : ∀ x ∈ xs, R (f x) (g x)) : List.Forall₂ R (xs.map f) (xs.map g) := by
  rw [forall₂_map_left_iff, forall₂_map_right_iff, forall₂_same]
  exact h

theorem valid_enclosed (a b : UInt8) (s : Bytes) (ha : a < 0x80) (hb : b < 0x80) :
    Utf8.Valid (a :: s ++ [b]) ↔ Utf8.Valid s := by
  have h := Utf8.valid_append_ascii [] a (s ++ [b]) ha
  rw [nil_append] at h
  rw [cons_append, h, Utf8.valid_append_ascii s b [] hb]
  simp only [Utf8.valid_nil, true_and, and_true]

theorem valid_commaSep : Utf8.Valid (commaSep ts) ↔ ∀ t ∈ ts, Utf8.Valid t := by
  induction ts with
  | nil => simp [commaSep, Utf8.valid_nil]
  | cons t ts ih =>
    cases ts with
    | nil => simp [commaSep]
    | cons u ts =>
      rw [commaSep_cons, Utf8.valid_append_ascii t 0x2C _ (by decide), ih,
        forall_mem_cons (l := u :: ts)]

theorem valid_arrText : Utf8.Valid (arrText ts) ↔ ∀ t ∈ ts, Utf8.Valid t := by
  rw [arrText, valid_enclosed _ _ _ (by decide) (by decide), valid_commaSep]

theorem valid_objText : Utf8.Valid (objText ts) ↔ ∀ t ∈ ts, Utf8.Valid t := by
  rw [objText, valid_enclosed _ _ _ (by decide) (by decide), valid_commaSep]

theorem valid_quoted (s : Bytes) : Utf8.Valid (quoted s) ↔ Utf8.Valid s :=
  valid_enclosed _ _ _ (by decide) (by decide)

theorem valid_decimalInt (i : ℤ) : Utf8.Valid (decimalInt i) := by
  have hd : ∀ b ∈ decimal i.natAbs, b < 0x80 := by
    intro b hb
    have h := decimal_digits _ b hb
    simp only [isDigit, Bool.and_eq_true, decide_eq_true_eq] at h
    exact UInt8.lt_of_le_of_lt h.2 (by decide)
  apply Utf8.valid_of_ascii
  unfold decimalInt
  split
  · exact List.forall_mem_cons.2 ⟨by decide, hd⟩
  · exact hd

end Json

/-- What is relied on of a JSON parser: it reads the texts above back, and it
refuses text that is not UTF-8. -/
structure JsonParser where
  parse : Bytes → Option Json
  parses : ∀ text v, Json.Denotes text v → Utf8.Valid text → parse text = some v
  rejects : ∀ text, ¬Utf8.Valid text → parse text = none

end AgentCpp.Lib
