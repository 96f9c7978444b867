import AgentCpp.Lib.Bytes
import Mathlib.Data.Nat.Bitwise

/-!
# Machine words

The `int` of a wider integer, integers as their bytes in memory with the least significant one
first, and alignment: clearing the low bits of a word rounds it down to a power of two.
-/

namespace AgentCpp.Lib

/- `static_cast<int>` of a wider integer. -/
def int32 (n : ℤ) : ℤ := (BitVec.ofInt 32 n).toInt

theorem int32_eq_bmod (n : ℤ) : int32 n = n.bmod (2 ^ 32) := BitVec.toInt_ofInt n

theorem int32_of_small {n : ℤ} (hlow : -2 ^ 31 ≤ n) (hhigh : n < 2 ^ 31) : int32 n = n := by
  rw [int32_eq_bmod]
  exact Int.bmod_eq_of_le (by omega) (by omega)

theorem int32_add (a b : ℤ) : int32 (int32 a + b) = int32 (a + b) := by
  simp only [int32_eq_bmod, Int.bmod_add_bmod]

theorem int32_sub (a b : ℤ) : int32 (int32 a - b) = int32 (a - b) := by
  simp only [int32_eq_bmod, Int.bmod_sub_bmod]

def leBytes : ℕ → ℕ → Bytes
  | 0, _ => []
  | w + 1, n => UInt8.ofNat n :: leBytes w (n / 256)

def leNat : Bytes → ℕ
  | [] => 0
  | b :: bs => b.toNat + 256 * leNat bs

@[simp] theorem length_leBytes (w n : ℕ) : (leBytes w n).length = w := by
  induction w generalizing n with
  | zero => rfl
  | succ w ih => rw [leBytes, List.length_cons, ih]

theorem leNat_leBytes (w n : ℕ) : leNat (leBytes w n) = n % 256 ^ w := by
  induction w generalizing n with
  | zero => rw [leBytes, leNat, pow_zero, Nat.mod_one]
  | succ w ih =>
    have hbyte : (UInt8.ofNat n).toNat = n % 256 := UInt8.toNat_ofNat'
    have hsplit : n % 256 ^ (w + 1) = n % 256 + 256 * (n / 256 % 256 ^ w) := by rw [pow_succ', Nat.mod_mul]
    rw [leBytes, leNat, ih, hbyte, hsplit]

theorem and_high_bits {x k n : ℕ} (hx : x < 2 ^ n) (hk : k ≤ n) : x &&& (2 ^ n - 2 ^ k) = x / 2 ^ k * 2 ^ k := by
  have hpow : 2 ^ k - 1 < 2 ^ n := by
    have hle := Nat.pow_le_pow_right (show 0 < 2 by decide) hk
    omega
  have hsub : 2 ^ n - 2 ^ k = 2 ^ n - (2 ^ k - 1 + 1) := by
    rw [Nat.sub_add_cancel (Nat.two_pow_pos k)]
  rw [← Nat.shiftRight_eq_div_pow, ← Nat.shiftLeft_eq, hsub]
  apply Nat.eq_of_testBit_eq
  intro i
  rw [Nat.testBit_and, Nat.testBit_two_pow_sub_succ hpow, Nat.testBit_shiftLeft, Nat.testBit_shiftRight]
  by_cases hki : k ≤ i
  · rw [Nat.add_sub_cancel' hki]
    by_cases hin : i < n
    · simp [hki, hin]
    · have hbit : x.testBit i = false :=
        Nat.testBit_lt_two_pow (Nat.lt_of_lt_of_le hx (Nat.pow_le_pow_right (by decide) (Nat.le_of_not_lt hin)))
      simp [hbit]
  · simp [Nat.lt_of_not_le hki]

theorem toNat_and_not_mask (x mask : UInt64) {k : ℕ} (hk : k ≤ 64) (hmask : mask.toNat = 2 ^ k - 1) :
    (x &&& ~~~mask).toNat = x.toNat / 2 ^ k * 2 ^ k := by
  rw [UInt64.toNat_and, UInt64.toNat_not, hmask]
  have hhigh : UInt64.size - 1 - (2 ^ k - 1) = 2 ^ 64 - 2 ^ k := by
    have hpos := Nat.two_pow_pos k
    change 2 ^ 64 - 1 - (2 ^ k - 1) = _
    omega
  rw [hhigh]
  exact and_high_bits x.toNat_lt hk

end AgentCpp.Lib
