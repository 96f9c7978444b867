import AgentCpp.Lib.Json

/-!
# A recursive-descent reader

An executable `JsonParser`, so that its assumptions are known to be satisfiable and texts can be
evaluated. `fuel` is the length of the text.
-/

namespace AgentCpp.Lib.JsonReader
open Json List Option

def hexVal (b : UInt8) : Option ℕ :=
  if 48 ≤ b ∧ b ≤ 57 then some (b.toNat - 48)
  else if 97 ≤ b ∧ b ≤ 102 then some (b.toNat - 87)
  else if 65 ≤ b ∧ b ≤ 70 then some (b.toNat - 55)
  else none

theorem hexVal_hexDigit (d : ℕ) (h : d < 16) : hexVal (hexDigit d) = some d := by
  interval_cases d <;> decide

/-- A string up to its closing quote, and what follows. Unicode escapes are
read for one-octet characters only. -/
def readBody : Bytes → Option (Bytes × Bytes)
  | [] => none
  | 0x22 :: r => some ([], r)
  | 0x5C :: 0x75 :: 48 :: 48 :: a :: b :: r =>
    match hexVal a, hexVal b, readBody r with
    | some x, some y, some (s, t) =>
      if 16 * x + y < 0x80 then some (UInt8.ofNat (16 * x + y) :: s, t) else none
    | _, _, _ => none
  | 0x5C :: e :: r =>
    match shortEscape e, readBody r with
    | some c, some (s, t) => some (c :: s, t)
    | _, _ => none
  | c :: r => if 0x20 ≤ c ∧ c ≠ 0x5C then (readBody r).map fun p => (c :: p.1, p.2) else none

theorem readBody_strBody (b s rest : Bytes) (h : StrBody b s) : readBody (b ++ 0x22 :: rest) = some (s, rest) := by
  induction h with
  | nil => rfl
  | raw c hc hq he h ih =>
    rw [cons_append, readBody]
    · simp only [hc, ne_eq, he, not_false_eq_true, and_self, ite_true, ih, map_some]
    · exact hq
    · intro a b r hx
      exact absurd hx he
    · intro e r hx
      exact absurd hx he
  | short e c he h ih =>
    rw [cons_append, cons_append, readBody]
    · simp only [he, ih]
    · intro a b r hx
      subst hx
      simp [shortEscape] at he
  | hex c hc h ih =>
    have hlt : c.toNat < 128 := UInt8.lt_iff_toNat_lt.1 hc
    simp only [cons_append, readBody, ih, hexVal_hexDigit (c.toNat / 16) (by omega),
      hexVal_hexDigit (c.toNat % 16) (by omega), Nat.div_add_mod, hlt, ite_true, UInt8.ofNat_toNat]

def readInt (s : Bytes) : Option (ℤ × Bytes) :=
  match s with
  | 45 :: t =>
    if t.takeWhile isDigit = [] then none
    else some (-(digitsVal (t.takeWhile isDigit) : ℤ), t.dropWhile isDigit)
  | _ =>
    if s.takeWhile isDigit = [] then none
    else some ((digitsVal (s.takeWhile isDigit) : ℤ), s.dropWhile isDigit)

theorem dropWhile_digits (ds r : Bytes) (hd : ∀ b ∈ ds, isDigit b = true) (hr : NoDigitHead r) :
    (ds ++ r).dropWhile isDigit = r := by
  have h := takeWhile_append_dropWhile (p := isDigit) (l := ds ++ r)
  rw [takeWhile_digits ds r hd hr] at h
  exact append_cancel_left h

theorem readInt_decimalInt (i : ℤ) (rest : Bytes) (hr : NoDigitHead rest) :
    readInt (decimalInt i ++ rest) = some (i, rest) := by
  have ht := takeWhile_digits _ rest (decimal_digits i.natAbs) hr
  have hd := dropWhile_digits _ rest (decimal_digits i.natAbs) hr
  unfold decimalInt
  split
  · simp only [cons_append, readInt, ht, hd, decimal_ne_nil, ite_false, digitsVal_decimal]
    congr 2
    omega
  · have hne : ∀ t, decimal i.natAbs ++ rest ≠ 45 :: t := by
      intro t h
      cases hc : decimal i.natAbs with
      | nil => exact decimal_ne_nil _ hc
      | cons b bs =>
        rw [hc, cons_append, List.cons.injEq] at h
        exact decimal_head_ne_minus i.natAbs bs (by rw [hc, h.1])
    unfold readInt
    split
    · next t h => exact absurd h (hne t)
    · simp only [ht, hd, decimal_ne_nil, ite_false, digitsVal_decimal]
      congr 2
      omega

mutual

def readValue : ℕ → Bytes → Option (Json × Bytes)
  | 0, _ => none
  | fuel + 1, s =>
    match s with
    | 0x22 :: r => (readBody r).map fun p => (.str p.1, p.2)
    | 0x5B :: 0x5D :: r => some (.arr [], r)
    | 0x5B :: r => (readItems fuel r).map fun p => (.arr p.1, p.2)
    | 0x7B :: 0x7D :: r => some (.obj [], r)
    | 0x7B :: r => (readMembers fuel r).map fun p => (.obj p.1, p.2)
    | _ => (readInt s).map fun p => (.int p.1, p.2)

def readItems : ℕ → Bytes → Option (List Json × Bytes)
  | 0, _ => none
  | fuel + 1, s =>
    match readValue fuel s with
    | some (v, 0x5D :: r) => some ([v], r)
    | some (v, 0x2C :: r) => (readItems fuel r).map fun p => (v :: p.1, p.2)
    | _ => none

def readMembers : ℕ → Bytes → Option (List (Bytes × Json) × Bytes)
  | 0, _ => none
  | fuel + 1, s =>
    match s with
    | 0x22 :: r =>
      match readBody r with
      | some (k, 0x3A :: r) =>
        match readValue fuel r with
        | some (v, 0x7D :: r) => some ([(k, v)], r)
        | some (v, 0x2C :: r) => (readMembers fuel r).map fun p => ((k, v) :: p.1, p.2)
        | _ => none
      | _ => none
    | _ => none

end

/-- The whole text is one value. -/
def read (text : Bytes) : Option Json :=
  if Utf8.Valid text then
    match readValue (text.length + 1) text with
    | some (v, []) => some v
    | _ => none
  else none

/-- `readValue` gives back `v` from `t` with any fuel above the length of `t`. -/
def Reads (t : Bytes) (v : Json) : Prop :=
  t ≠ [] ∧ (∀ r, t ≠ 0x5D :: r) ∧ ∀ fuel rest, t.length < fuel → NoDigitHead rest →
    readValue fuel (t ++ rest) = some (v, rest)

theorem noDigitHead_comma (r : Bytes) : NoDigitHead (0x2C :: r) := noDigitHead_cons _ _ (by decide)

theorem readItems_commaSep (ps : List (Bytes × Json)) (hne : ps ≠ []) (rest : Bytes)
    (h : ∀ p ∈ ps, Reads p.1 p.2) (fuel : ℕ) (hf : (commaSep (ps.map Prod.fst)).length + 1 < fuel) :
    readItems fuel (commaSep (ps.map Prod.fst) ++ 0x5D :: rest) = some (ps.map Prod.snd, rest) := by
  induction ps generalizing fuel with
  | nil => exact absurd rfl hne
  | cons p ps ih =>
    obtain ⟨fuel, rfl⟩ : ∃ k, fuel = k + 1 := ⟨fuel - 1, by omega⟩
    have hp := (h p (mem_cons_self ..)).2.2
    cases ps with
    | nil =>
      simp only [map_cons, map_nil, commaSep] at hf ⊢
      rw [readItems, hp fuel _ (by omega) (noDigitHead_cons _ _ (by decide))]
      rfl
    | cons q qs =>
      have hq := ih (by simp) (fun x hx => h x (mem_cons_of_mem _ hx)) fuel
      simp only [map_cons, commaSep_cons, length_append, length_cons, append_assoc, cons_append] at hf hq ⊢
      rw [readItems, hp fuel _ (by omega) (noDigitHead_comma _)]
      simp only [hq (by omega), map_some]

theorem readMembers_commaSep (ms : List Member) (hne : ms ≠ []) (rest : Bytes)
    (hk : ∀ m ∈ ms, StrBody m.keyBody m.key) (h : ∀ m ∈ ms, Reads m.text m.value) (fuel : ℕ)
    (hf : (commaSep (ms.map Member.render)).length + 1 < fuel) :
    readMembers fuel (commaSep (ms.map Member.render) ++ 0x7D :: rest) =
      some (ms.map Member.entry, rest) := by
  induction ms generalizing fuel with
  | nil => exact absurd rfl hne
  | cons m ms ih =>
    obtain ⟨fuel, rfl⟩ : ∃ k, fuel = k + 1 := ⟨fuel - 1, by omega⟩
    have hv := (h m (mem_cons_self ..)).2.2
    have hb := fun t => readBody_strBody m.keyBody m.key t (hk m (mem_cons_self ..))
    cases ms with
    | nil =>
      simp only [map_cons, map_nil, commaSep, Member.render, quoted, cons_append,
        append_assoc, nil_append, length_cons, length_append] at hf ⊢
      simp only [readMembers, hb, hv fuel _ (by omega) (noDigitHead_cons 0x7D rest (by decide))]
      rfl
    | cons q qs =>
      have hq := ih (by simp) (fun x hx => hk x (mem_cons_of_mem _ hx)) (fun x hx => h x (mem_cons_of_mem _ hx)) fuel
      simp only [map_cons, commaSep_cons, Member.render, quoted, cons_append,
        append_assoc, nil_append, length_cons, length_append] at hf hq ⊢
      simp only [readMembers, hb, hv fuel _ (by omega) (noDigitHead_comma _), hq (by omega), map_some]
      rfl

theorem decimalInt_head (i : ℤ) : ∃ b bs, decimalInt i = b :: bs ∧ (isDigit b = true ∨ b = 45) := by
  unfold decimalInt
  split
  · exact ⟨45, _, rfl, Or.inr rfl⟩
  · cases hc : decimal i.natAbs with
    | nil => exact absurd hc (decimal_ne_nil _)
    | cons b bs =>
      exact ⟨b, bs, rfl, Or.inl (decimal_digits i.natAbs b (by rw [hc]; exact mem_cons_self ..))⟩

theorem reads_int (i : ℤ) : Reads (decimalInt i) (.int i) := by
  obtain ⟨b, bs, hb, hd⟩ := decimalInt_head i
  have hne : b ≠ 0x22 ∧ b ≠ 0x5B ∧ b ≠ 0x7B ∧ b ≠ 0x5D := by
    rcases hd with hd | rfl
    · refine ⟨?_, ?_, ?_, ?_⟩ <;> (rintro rfl; exact absurd hd (by decide))
    · decide
  refine ⟨by rw [hb]; simp, ?_, ?_⟩
  · intro r h
    rw [hb, List.cons.injEq] at h
    exact hne.2.2.2 h.1
  · intro fuel rest hf hr
    obtain ⟨fuel, rfl⟩ : ∃ k, fuel = k + 1 := ⟨fuel - 1, by omega⟩
    have hread := readInt_decimalInt i rest hr
    rw [hb, cons_append] at hread ⊢
    rw [readValue]
    · rw [hread]
      rfl
    · intro r h
      exact hne.1 (List.cons.inj h).1
    · intro r h
      exact hne.2.1 (List.cons.inj h).1
    · intro r h
      exact hne.2.1 (List.cons.inj h).1
    · intro r h
      exact hne.2.2.1 (List.cons.inj h).1
    · intro r h
      exact hne.2.2.1 (List.cons.inj h).1

theorem commaSep_head (t : Bytes) (ts : List Bytes) (c : UInt8) (r : Bytes) (ht : t ≠ [])
    (h : ∀ r, t ≠ c :: r) (x : Bytes) : commaSep (t :: ts) ++ x ≠ c :: r := by
  intro he
  cases t with
  | nil => exact ht rfl
  | cons b bs =>
    cases ts with
    | nil => exact h bs (by rw [commaSep, cons_append, List.cons.injEq] at he; rw [he.1])
    | cons u us =>
      exact h bs (by rw [commaSep_cons, cons_append, cons_append, List.cons.injEq] at he; rw [he.1])

theorem reads_arr (ps : List (Bytes × Json)) (h : ∀ p ∈ ps, Reads p.1 p.2) :
    Reads (arrText (ps.map Prod.fst)) (.arr (ps.map Prod.snd)) := by
  refine ⟨by simp [arrText], by simp [arrText], ?_⟩
  intro fuel rest hf _
  obtain ⟨fuel, rfl⟩ : ∃ k, fuel = k + 1 := ⟨fuel - 1, by omega⟩
  cases ps with
  | nil => rfl
  | cons p ps =>
    have hp := h p (mem_cons_self ..)
    have hi := readItems_commaSep (p :: ps) (by simp) rest h fuel (by
      simp only [arrText, length_cons, length_append, length_nil] at hf
      omega)
    simp only [arrText, cons_append, append_assoc, nil_append] at hi ⊢
    rw [readValue]
    · rw [hi]
      rfl
    · intro r he
      exact commaSep_head _ _ _ _ hp.1 hp.2.1 _ he

theorem reads_obj (ms : List Member) (hk : ∀ m ∈ ms, StrBody m.keyBody m.key) (h : ∀ m ∈ ms, Reads m.text m.value) :
    Reads (objText (ms.map Member.render)) (.obj (ms.map Member.entry)) := by
  refine ⟨by simp [objText], by simp [objText], ?_⟩
  intro fuel rest hf _
  obtain ⟨fuel, rfl⟩ : ∃ k, fuel = k + 1 := ⟨fuel - 1, by omega⟩
  cases ms with
  | nil => rfl
  | cons m ms =>
    have hi := readMembers_commaSep (m :: ms) (by simp) rest hk h fuel (by
      simp only [objText, length_cons, length_append, length_nil] at hf
      omega)
    simp only [objText, cons_append, append_assoc, nil_append] at hi ⊢
    rw [readValue]
    · rw [hi]
      rfl
    · intro r he
      exact commaSep_head _ _ _ _ (by simp [Member.render, quoted]) (by simp [Member.render, quoted]) _ he

theorem reads_denotes (t : Bytes) (v : Json) (h : Denotes t v) : Reads t v := by
  induction h with
  | @str b s hb =>
    refine ⟨by simp [quoted], by simp [quoted], ?_⟩
    intro fuel rest hf _
    obtain ⟨fuel, rfl⟩ : ∃ k, fuel = k + 1 := ⟨fuel - 1, by omega⟩
    simp only [quoted, cons_append, append_assoc, nil_append, readValue, readBody_strBody b s rest hb, map_some]
  | int i => exact reads_int i
  | arr ps _ ih => exact reads_arr ps ih
  | obj ms hk _ ih => exact reads_obj ms hk ih

theorem read_denotes (t : Bytes) (v : Json) (h : Denotes t v) (ht : Utf8.Valid t) : read t = some v := by
  have hr := (reads_denotes t v h).2.2 (t.length + 1) [] (by omega) noDigitHead_nil
  rw [append_nil] at hr
  simp only [read, ht, ite_true, hr]

def parser : JsonParser where
  parse := read
  parses := read_denotes
  rejects := fun text h => by simp only [read, h, ite_false]

end AgentCpp.Lib.JsonReader
