import AgentCpp.Lib.Bytes

/-!
# Base64 content of MCP results

`base64_decode` collects sextets in a 32-bit word that is never masked, and writes a byte as soon
as eight unread bits are there.
-/

namespace AgentCpp.Mcp

open AgentCpp.Lib List Option

/- `none` is the source's -1. -/
def b64Value (c : UInt8) : Option UInt32 :=
  if 0x41 ≤ c ∧ c ≤ 0x5A then some (c.toUInt32 - 0x41)
  else if 0x61 ≤ c ∧ c ≤ 0x7A then some (c.toUInt32 - 0x61 + 26)
  else if 0x30 ≤ c ∧ c ≤ 0x39 then some (c.toUInt32 - 0x30 + 52)
  else if c = 0x2B ∨ c = 0x2D then some 62
  else if c = 0x2F ∨ c = 0x5F then some 63
  else none

/- The locals of the loop. -/
structure Base64 where
  acc : UInt32 := 0
  bits : ℕ := 0
  out : Bytes := []

def Base64.push (d : Base64) (v : UInt32) : Base64 :=
  let acc := d.acc <<< 6 ||| v
  let bits := d.bits + 6
  if 8 ≤ bits then ⟨acc, bits - 8, d.out ++ [(acc >>> UInt32.ofNat (bits - 8) &&& 0xFF).toUInt8]⟩
  else ⟨acc, bits, d.out⟩

def Base64.char (d : Base64) (c : UInt8) : Option Base64 :=
  if c == 0x3D || isBlank c then some d else (b64Value c).map d.push

def base64Decode (s : Bytes) : Option Bytes := (s.foldlM Base64.char {}).map (·.out)

/- The encoding, from its own definition: four sextets for three bytes, the bits of a last
short group filled with zeros. -/
def sextets : Bytes → List ℕ
  | a :: b :: c :: s => a.toNat / 4 :: (a.toNat % 4 * 16 + b.toNat / 16) ::
      (b.toNat % 16 * 4 + c.toNat / 64) :: c.toNat % 64 :: sextets s
  | [a, b] => [a.toNat / 4, a.toNat % 4 * 16 + b.toNat / 16, b.toNat % 16 * 4]
  | [a] => [a.toNat / 4, a.toNat % 4 * 16]
  | [] => []

def base64Char (url : Bool) (n : ℕ) : UInt8 :=
  (lit ("ABCDEFGHIJKLMNOPQRSTUVWXYZabcdefghijklmnopqrstuvwxyz0123456789" ++
    if url then "-_" else "+/")).getD n 0

def base64Encode (url padded : Bool) (s : Bytes) : Bytes :=
  (sextets s).map (base64Char url) ++
    if padded then List.replicate ((3 - s.length % 3) % 3) 0x3D else []

theorem char_base64Char (url : Bool) {n : ℕ} (hn : n < 64) (d : Base64) :
    d.char (base64Char url n) = some (d.push (UInt32.ofNat n)) := by
  have h : ∀ i : Fin 64, (base64Char url i == 0x3D || isBlank (base64Char url i)) = false ∧
      b64Value (base64Char url i) = some (UInt32.ofNat i) := by
    cases url <;> decide +kernel
  obtain ⟨hkept, hvalue⟩ := h ⟨n, hn⟩
  simp [Base64.char, hkept, hvalue]

theorem foldlM_char_filter (s : Bytes) (d : Base64) :
    s.foldlM Base64.char d = (s.filter fun c => !isBlank c).foldlM Base64.char d := by
  induction s generalizing d with
  | nil => rfl
  | cons c s ih =>
    by_cases hc : isBlank c
    · simp [hc, Base64.char, ih]
    · simp [hc, ih]

theorem foldlM_char_pad (n : ℕ) (d : Base64) : (List.replicate n (0x3D : UInt8)).foldlM Base64.char d = some d := by
  induction n with
  | zero => rfl
  | succ n ih => simp [replicate_succ, Base64.char, ih]

/- A sextet enters below the bits that are there, modulo the width of the word. -/
theorem acc_push (a : UInt32) {n : ℕ} (hn : n < 64) :
    (a <<< 6 ||| UInt32.ofNat n).toNat = (a.toNat * 64 + n) % 2 ^ 32 := by
  have hshift : a.toNat <<< 6 % 2 ^ 32 = (a.toNat % 2 ^ 26) <<< 6 := by
    simp only [Nat.shiftLeft_eq]
    omega
  have hlow : n % 2 ^ 32 = n := by omega
  simp only [UInt32.toNat_or, UInt32.toNat_shiftLeft, UInt32.toNat_ofNat', hlow]
  change a.toNat <<< 6 % 2 ^ 32 ||| n = _
  rw [hshift, ← Nat.shiftLeft_add_eq_or_of_lt hn, Nat.shiftLeft_eq]
  omega

theorem char_emits (url : Bool) (d : Base64) {n k : ℕ} (hn : n < 64) (hk : k ≤ 4) (hd : d.bits = k + 2) (b : UInt8)
    (hb : (d.acc.toNat * 64 + n) % 2 ^ 32 / 2 ^ k % 256 = b.toNat) :
    ∃ acc, d.char (base64Char url n) = some ⟨acc, k, d.out ++ [b]⟩ ∧ acc.toNat = (d.acc.toNat * 64 + n) % 2 ^ 32 := by
  have hmask : ∀ m : ℕ, m &&& 255 = m % 256 := fun m => Nat.and_two_pow_sub_one_eq_mod m 8
  have hk' : k % 32 = k := by omega
  have hbyte : ((d.acc <<< 6 ||| UInt32.ofNat n) >>> UInt32.ofNat k &&& 0xFF).toUInt8 = b := by
    apply UInt8.toNat_inj.1
    rw [← hb, ← acc_push d.acc hn]
    simp [UInt32.toNat_shiftRight, hk', hmask, Nat.shiftRight_eq_div_pow]
  exact ⟨_, by simp [char_base64Char url hn, Base64.push, hd, hbyte], acc_push d.acc hn⟩

theorem first_byte (url : Bool) (d : Base64) (hd : d.bits = 0) (a : UInt8) {x : ℕ} (hx : x < 16) :
    ∃ acc, (d.char (base64Char url (a.toNat / 4))).bind (·.char (base64Char url (a.toNat % 4 * 16 + x))) =
      some ⟨acc, 4, d.out ++ [a]⟩ ∧ acc.toNat % 16 = x := by
  have ha := a.toNat_lt
  have hacc := acc_push d.acc (n := a.toNat / 4) (by omega)
  obtain ⟨acc, hchar, hvalue⟩ := char_emits url ⟨d.acc <<< 6 ||| UInt32.ofNat (a.toNat / 4), 6, d.out⟩
    (n := a.toNat % 4 * 16 + x) (k := 4) (by omega) le_rfl rfl a (by dsimp only; omega)
  refine ⟨acc, ?_, by omega⟩
  rw [char_base64Char url (by omega), ← hchar]
  simp [Base64.push, hd]

/- From a state with no unread bits the bytes come out whatever the word holds. -/
theorem foldlM_sextets (url : Bool) (s : Bytes) (d : Base64) (hd : d.bits = 0) :
    ∃ d' : Base64, ((sextets s).map (base64Char url)).foldlM Base64.char d = some d' ∧ d'.out = d.out ++ s := by
  induction s using sextets.induct generalizing d with
  | case1 a b c s ih =>
    have hb := b.toNat_lt
    have hc := c.toNat_lt
    obtain ⟨acc, h, hacc⟩ := first_byte url d hd a (x := b.toNat / 16) (by omega)
    obtain ⟨acc', h', hacc'⟩ := char_emits url ⟨acc, 4, d.out ++ [a]⟩ (n := b.toNat % 16 * 4 + c.toNat / 64) (k := 2)
      (by omega) (by omega) rfl b (by dsimp only; omega)
    obtain ⟨acc'', h'', -⟩ := char_emits url ⟨acc', 2, d.out ++ [a] ++ [b]⟩ (n := c.toNat % 64) (k := 0)
      (by omega) (by omega) rfl c (by dsimp only at hacc' ⊢; omega)
    obtain ⟨d', hrest, hout⟩ := ih ⟨acc'', 0, d.out ++ [a] ++ [b] ++ [c]⟩ rfl
    refine ⟨d', ?_, by simp [hout]⟩
    simp only [sextets, map_cons, foldlM_cons, bind_eq_bind, ← bind_assoc, h, h', h'', hrest, bind_some]
  | case2 a b =>
    have hb := b.toNat_lt
    obtain ⟨acc, h, hacc⟩ := first_byte url d hd a (x := b.toNat / 16) (by omega)
    obtain ⟨acc', h', -⟩ := char_emits url ⟨acc, 4, d.out ++ [a]⟩ (n := b.toNat % 16 * 4) (k := 2)
      (by omega) (by omega) rfl b (by dsimp only; omega)
    refine ⟨⟨acc', 2, d.out ++ [a] ++ [b]⟩, ?_, by simp⟩
    simp only [sextets, map_cons, foldlM_cons, bind_eq_bind, ← bind_assoc, h, h', bind_some]
    rfl
  | case3 a =>
    obtain ⟨acc, h, -⟩ := first_byte url d hd a (x := 0) (by omega)
    refine ⟨⟨acc, 4, d.out ++ [a]⟩, ?_, rfl⟩
    simp only [sextets, map_cons, foldlM_cons, bind_eq_bind, ← bind_assoc]
    exact congrArg (·.bind some) h
  | case4 => exact ⟨d, rfl, (append_nil _).symm⟩

/-- What either alphabet encodes, padded or not, is decoded to the same bytes, with blanks in any place. -/
theorem base64Decode_encode (url padded : Bool) (s t : Bytes)
    (h : (t.filter fun c => !isBlank c) = base64Encode url padded s) : base64Decode t = some s := by
  obtain ⟨d, hrun, hout⟩ := foldlM_sextets url s {} rfl
  have hpad : (if padded then List.replicate ((3 - s.length % 3) % 3) (0x3D : UInt8) else []).foldlM
      Base64.char d = some d := by
    cases padded with
    | false => rfl
    | true => exact foldlM_char_pad _ d
  simp [base64Decode, foldlM_char_filter t, h, base64Encode, foldlM_append, hrun, hpad, hout]

theorem base64Decode_encode_broken : base64Decode (lit "-_\n8 =") = some [0xFB, 0xFF] :=
  base64Decode_encode true true [0xFB, 0xFF] (lit "-_\n8 =") (by decide +kernel)

end AgentCpp.Mcp
