import Mathlib

/-!
# Byte strings and decimal numerals

`decimal` is the numeral a printf-style conversion writes, `fromChars` the longest-prefix
reader that gives it back.
-/

namespace AgentCpp.Lib

open List

abbrev Bytes := List UInt8

/-- The octets of a literal. -/
def lit (s : String) : Bytes := s.toUTF8.data.toList

def isBlank (c : UInt8) : Bool := c == 0x20 || c == 0x09 || c == 0x0D || c == 0x0A

def trim (s : Bytes) : Bytes := (s.dropWhile isBlank).rdropWhile isBlank

def isDigit (b : UInt8) : Bool := 48 ≤ b && b ≤ 57

def digit (d : ℕ) : UInt8 := UInt8.ofNat (48 + d)

def digitVal (b : UInt8) : ℕ := b.toNat - 48

theorem digit_isDigit (d : ℕ) (h : d < 10) : isDigit (digit d) = true := by
  interval_cases d <;> decide

theorem digitVal_digit (d : ℕ) (h : d < 10) : digitVal (digit d) = d := by
  interval_cases d <;> decide

/-- The numeral of `n`: most significant digit first, `0` for zero. -/
def decimal (n : ℕ) : Bytes :=
  if n = 0 then [48] else (Nat.digits 10 n).reverse.map digit

theorem decimal_ne_nil (n : ℕ) : decimal n ≠ [] := by
  unfold decimal
  split
  · simp
  · simp only [ne_eq, map_eq_nil_iff, reverse_eq_nil_iff, Nat.digits_eq_nil_iff_eq_zero]
    assumption

theorem decimal_digits (n : ℕ) : ∀ b ∈ decimal n, isDigit b = true := by
  intro b hb
  unfold decimal at hb
  split at hb
  · simp only [mem_singleton] at hb
    subst hb
    rfl
  · simp only [mem_map, mem_reverse] at hb
    obtain ⟨d, hd, rfl⟩ := hb
    exact digit_isDigit d (Nat.digits_lt_base (by norm_num) hd)

/-- Value of a string of digits. -/
def digitsVal (ds : Bytes) : ℕ := ds.foldl (fun n b => 10 * n + digitVal b) 0

theorem digitsVal_map_digit (ds : List ℕ) (h : ∀ d ∈ ds, d < 10) :
    digitsVal ((ds.reverse).map digit) = Nat.ofDigits 10 ds := by
  unfold digitsVal
  rw [map_reverse, foldl_reverse]
  induction ds with
  | nil => rfl
  | cons d ds ih =>
    have hd := h d (mem_cons_self ..)
    have ht := ih (fun x hx => h x (mem_cons_of_mem _ hx))
    simp only [map_cons, foldr_cons, digitVal_digit d hd, Nat.ofDigits_cons]
    omega

theorem digitsVal_decimal (n : ℕ) : digitsVal (decimal n) = n := by
  unfold decimal
  split
  · next h => subst h; rfl
  · rw [digitsVal_map_digit _ (fun d hd => Nat.digits_lt_base (by norm_num) hd), Nat.ofDigits_digits]

theorem decimal_injective : Function.Injective decimal := by
  intro m n h
  rw [← digitsVal_decimal m, h, digitsVal_decimal]

/-- The text after a numeral does not continue it. -/
def NoDigitHead (r : Bytes) : Prop := ∀ b ∈ r.head?, isDigit b = false

theorem noDigitHead_nil : NoDigitHead [] := by
  intro b hb
  simp at hb

theorem noDigitHead_cons (b : UInt8) (r : Bytes) (h : isDigit b = false) : NoDigitHead (b :: r) := by
  intro c hc
  simp only [head?_cons, Option.mem_def, Option.some.injEq] at hc
  subst hc
  exact h

theorem takeWhile_digits (ds r : Bytes) (hd : ∀ b ∈ ds, isDigit b = true) (hr : NoDigitHead r) :
    (ds ++ r).takeWhile isDigit = ds := by
  induction ds with
  | nil =>
    cases r with
    | nil => rfl
    | cons b r => simp [hr b rfl]
  | cons b ds ih =>
    have hb := hd b (mem_cons_self ..)
    rw [cons_append, takeWhile_cons_of_pos hb, ih (fun x hx => hd x (mem_cons_of_mem _ hx))]

/-- `std::from_chars` on an unsigned integer below `limit`; `none` is its
error result, which leaves the caller's variable unchanged. -/
def fromChars (limit : ℕ) (s : Bytes) : Option ℕ :=
  let ds := s.takeWhile isDigit
  if ds = [] then none
  else if digitsVal ds < limit then some (digitsVal ds) else none

theorem fromChars_decimal_append (limit n : ℕ) (r : Bytes) (hn : n < limit) (hr : NoDigitHead r) :
    fromChars limit (decimal n ++ r) = some n := by
  unfold fromChars
  rw [takeWhile_digits _ r (decimal_digits n) hr]
  simp only [decimal_ne_nil, ite_false, digitsVal_decimal, hn, ite_true]

theorem fromChars_decimal (limit n : ℕ) (hn : n < limit) : fromChars limit (decimal n) = some n := by
  have h := fromChars_decimal_append limit n [] hn noDigitHead_nil
  rwa [append_nil] at h

/-- The numeral of a signed integer. -/
def decimalInt (i : ℤ) : Bytes :=
  if i < 0 then 45 :: decimal i.natAbs else decimal i.natAbs

/-- `std::from_chars` on a signed integer in `[-limit, limit)`. -/
def fromCharsInt (limit : ℕ) (s : Bytes) : Option ℤ :=
  match s with
  | 45 :: t => (fromChars (limit + 1) t).map fun n => -(n : ℤ)
  | _ => (fromChars limit s).map fun n => (n : ℤ)

theorem decimal_head_ne_minus (n : ℕ) (t : Bytes) : decimal n ≠ 45 :: t := by
  intro h
  have hb := decimal_digits n 45 (by rw [h]; exact mem_cons_self ..)
  exact absurd hb (by decide)

theorem fromCharsInt_decimal (limit n : ℕ) (hn : n < limit) : fromCharsInt limit (decimal n) = some (n : ℤ) := by
  unfold fromCharsInt
  split
  · next t h => exact absurd h (decimal_head_ne_minus n t)
  · rw [fromChars_decimal limit n hn]
    rfl

/- Position of the first occurrence of `needle`, as `std::string::find` gives it. -/
def find (needle : Bytes) : Bytes → Option ℕ
  | [] => if needle = [] then some 0 else none
  | b :: s => if needle.isPrefixOf (b :: s) then some 0 else (find needle s).map (· + 1)

theorem find_spec (needle s : Bytes) (n : ℕ) (h : find needle s = some n) : needle <+: s.drop n ∧ n ≤ s.length := by
  induction s generalizing n with
  | nil =>
    unfold find at h
    split at h
    · next hn =>
      cases h
      rw [hn]
      exact ⟨List.nil_prefix, Nat.le_refl 0⟩
    · exact absurd h (by simp)
  | cons b s ih =>
    unfold find at h
    split at h
    · next hp =>
      cases h
      exact ⟨List.isPrefixOf_iff_prefix.1 hp, Nat.zero_le _⟩
    · obtain ⟨m, hm, rfl⟩ := Option.map_eq_some_iff.1 h
      obtain ⟨hpre, hle⟩ := ih m hm
      exact ⟨hpre, Nat.succ_le_succ hle⟩

variable {needle s : Bytes}

theorem find_none (h : ¬needle <:+: s) : find needle s = none := by
  cases hn : find needle s with
  | none => rfl
  | some n => exact absurd ((find_spec _ _ _ hn).1.isInfix.trans (drop_suffix n s).isInfix) h

theorem find_le {m : ℕ} (h : needle <+: s.drop m) (hm : m ≤ s.length) : ∃ n ≤ m, find needle s = some n := by
  induction s generalizing m with
  | nil =>
    obtain rfl := Nat.le_zero.1 hm
    exact ⟨0, le_rfl, by simp [find, prefix_nil.1 h]⟩
  | cons b s ih =>
    unfold find
    split
    · exact ⟨0, Nat.zero_le m, rfl⟩
    · next hno =>
      cases m with
      | zero => exact absurd (List.isPrefixOf_iff_prefix.2 h) hno
      | succ m =>
        obtain ⟨n, hn, hfind⟩ := ih h (Nat.le_of_succ_le_succ hm)
        exact ⟨n + 1, Nat.succ_le_succ hn, by rw [hfind]; rfl⟩

variable {n : ℕ}

theorem find_first (h : needle <+: s.drop n) (hn : n ≤ s.length)
    (hbefore : ∀ m < n, ¬needle <+: s.drop m) : find needle s = some n := by
  obtain ⟨m, hm, hfind⟩ := find_le h hn
  rcases Nat.lt_or_eq_of_le hm with hlt | rfl
  · exact absurd (find_spec _ _ _ hfind).1 (hbefore m hlt)
  · exact hfind

theorem find_append (h : find needle s = some n) (t : Bytes) : find needle (s ++ t) = some n := by
  induction s generalizing n with
  | nil =>
    cases t <;> simp_all [find]
  | cons b s ih =>
    unfold find at h
    split at h
    · next hp =>
      cases h
      exact if_pos (List.isPrefixOf_iff_prefix.2 ((List.isPrefixOf_iff_prefix.1 hp).trans (prefix_append ..)))
    · next hp =>
      obtain ⟨m, hm, rfl⟩ := Option.map_eq_some_iff.1 h
      -- the occurrence found fits into `s`, so one at the head would too
      have hlength := (find_spec _ _ _ hm).1.length_le
      have hhead : needle.isPrefixOf (b :: (s ++ t)) = false := Bool.eq_false_iff.2 fun hpre =>
        hp (List.isPrefixOf_iff_prefix.2 (prefix_of_prefix_length_le (List.isPrefixOf_iff_prefix.1 hpre)
          (prefix_append (b :: s) t) (by simp at hlength ⊢; omega)))
      simp [find, hhead, ih hm]

variable {b : UInt8}

theorem find_singleton (h : find [b] s = some n) : s = s.take n ++ b :: s.drop (n + 1) ∧ b ∉ s.take n := by
  induction s generalizing n with
  | nil => cases h
  | cons c s ih =>
    unfold find at h
    split at h
    · cases h
      simp_all
    · next hp =>
      obtain ⟨m, hm, rfl⟩ := Option.map_eq_some_iff.1 h
      obtain ⟨hsplit, hno⟩ := ih hm
      exact ⟨congrArg (c :: ·) hsplit, not_mem_cons_of_ne_of_not_mem (fun heq => hp (by simp [heq])) hno⟩

theorem find_skip (h : b ∉ s) (needle t : Bytes) :
    find (b :: needle) (s ++ t) = (find (b :: needle) t).map (· + s.length) := by
  induction s with
  | nil => simp
  | cons c s ih =>
    rw [mem_cons, not_or] at h
    simp [find, h.1, ih h.2, Function.comp_def, Nat.add_assoc]

theorem find_append_of_not_mem (b : UInt8) (s t : Bytes) (h : b ∉ s) : find [b] (s ++ b :: t) = some s.length := by
  rw [find_skip h]
  simp [find]

theorem append_separator_inj (c : UInt8) (x y a b : Bytes) (hx : c ∉ x) (hy : c ∉ y)
    (h : x ++ c :: a = y ++ c :: b) : x = y ∧ a = b := by
  induction x generalizing y with
  | nil =>
    cases y with
    | nil => exact ⟨rfl, (List.cons.inj h).2⟩
    | cons d y => exact absurd (mem_cons.2 (Or.inl (List.cons.inj h).1)) hy
  | cons d x ih =>
    cases y with
    | nil => exact absurd (mem_cons.2 (Or.inl (List.cons.inj h).1.symm)) hx
    | cons e y =>
      obtain ⟨hd, ht⟩ := List.cons.inj h
      obtain ⟨hxy, hab⟩ := ih y (fun hm => hx (mem_cons_of_mem _ hm)) (fun hm => hy (mem_cons_of_mem _ hm)) ht
      exact ⟨by rw [hd, hxy], hab⟩

theorem separator_append_inj (c : UInt8) (x y a b : Bytes) (ha : c ∉ a) (hb : c ∉ b)
    (h : x ++ c :: a = y ++ c :: b) : x = y ∧ a = b := by
  have hr := congrArg List.reverse h
  simp only [reverse_append, reverse_cons, append_assoc] at hr
  obtain ⟨hab, hxy⟩ := append_separator_inj c _ _ _ _ (fun hm => ha (mem_reverse.1 hm))
    (fun hm => hb (mem_reverse.1 hm)) hr
  exact ⟨reverse_injective hxy, reverse_injective hab⟩

theorem not_mem_splitOn (c : UInt8) (s : Bytes) : ∀ l ∈ s.splitOn c, c ∉ l := by
  induction s with
  | nil => simp
  | cons d s ih =>
    rw [splitOn_cons_eq_if_modifyHead]
    split
    · simpa using ih
    · next hd =>
      obtain ⟨l, ls, hls⟩ := exists_cons_of_ne_nil (splitOn_ne_nil c s)
      rw [hls, forall_mem_cons] at ih
      rw [hls, modifyHead_cons, forall_mem_cons]
      exact ⟨not_mem_cons_of_ne_of_not_mem (fun h => hd (by simp [h])) ih.1, ih.2⟩

/- A number for every string: its digits in base 256, counted from 1. -/
def number : Bytes → ℕ
  | [] => 0
  | b :: bs => 256 * number bs + b.toNat + 1

theorem number_injective : Function.Injective number := by
  intro x
  induction x with
  | nil =>
    intro y h
    cases y with
    | nil => rfl
    | cons c y =>
      unfold number at h
      omega
  | cons b x ih =>
    intro y h
    cases y with
    | nil =>
      unfold number at h
      omega
    | cons c y =>
      have hb := b.toNat_lt
      have hc := c.toNat_lt
      simp only [number] at h
      have hrest : number x = number y := by omega
      have hfirst : b.toNat = c.toNat := by omega
      rw [ih hrest, UInt8.toNat_inj.1 hfirst]

end AgentCpp.Lib
