import Mathlib.Data.List.Basic

/-!
# Scans over positions

The two loops that move a position one by one as long as a condition holds, towards a limit.
-/

namespace AgentCpp.Lib

/- `while (i > floor && p(i)) --i;` -/
def stepBack (floor : ℕ) (p : ℕ → Bool) : ℕ → ℕ
  | 0 => 0
  | i + 1 => if floor < i + 1 ∧ p (i + 1) = true then stepBack floor p i else i + 1

/- `left` is how far the limit is. -/
def stepOn (p : ℕ → Bool) : ℕ → ℕ → ℕ
  | 0, i => i
  | left + 1, i => if p i then stepOn p left (i + 1) else i

/- `while (i < limit && p(i)) ++i;` -/
def stepForward (limit : ℕ) (p : ℕ → Bool) (i : ℕ) : ℕ := stepOn p (limit - i) i

theorem stepBack_le (floor : ℕ) (p : ℕ → Bool) (i : ℕ) : stepBack floor p i ≤ i := by
  induction i with
  | zero => exact Nat.le_refl 0
  | succ i ih =>
    unfold stepBack
    split
    · omega
    · exact Nat.le_refl _

theorem le_stepBack {floor : ℕ} (p : ℕ → Bool) {i : ℕ} (h : floor ≤ i) : floor ≤ stepBack floor p i := by
  induction i with
  | zero => exact h
  | succ i ih =>
    unfold stepBack
    split
    · next hc => exact ih (by omega)
    · exact h

theorem stepBack_passed (floor : ℕ) (p : ℕ → Bool) (i : ℕ) : ∀ j, stepBack floor p i < j → j ≤ i → p j = true := by
  induction i with
  | zero =>
    omega
  | succ i ih =>
    intro j hj hle
    unfold stepBack at hj
    split at hj
    · next hc =>
      rcases Nat.lt_or_eq_of_le hle with hlt | rfl
      · exact ih j hj (by omega)
      · exact hc.2
    · omega

theorem stepBack_stopped {floor : ℕ} {p : ℕ → Bool} {i : ℕ} (h : floor < stepBack floor p i) :
    p (stepBack floor p i) = false := by
  induction i with
  | zero => exact absurd h (Nat.not_lt_zero _)
  | succ i ih =>
    unfold stepBack at h ⊢
    split at h
    · next hc =>
      rw [if_pos hc]
      exact ih h
    · next hc =>
      rw [if_neg hc]
      have hp := not_and.1 hc h
      simpa using hp

theorem stepOn_spec (p : ℕ → Bool) (left i : ℕ) :
    i ≤ stepOn p left i ∧ stepOn p left i ≤ i + left ∧ (∀ j, i ≤ j → j < stepOn p left i → p j = true) ∧
      (stepOn p left i < i + left → p (stepOn p left i) = false) := by
  induction left generalizing i with
  | zero => exact ⟨Nat.le_refl _, Nat.le_refl _, fun j hij hj => absurd hj (by unfold stepOn; omega), fun h =>
      absurd h (by unfold stepOn; omega)⟩
  | succ left ih =>
    unfold stepOn
    split
    · next hp =>
      obtain ⟨hle, hbound, hpassed, hstopped⟩ := ih (i + 1)
      refine ⟨by omega, by omega, ?_, ?_⟩
      · intro j hij hj
        rcases Nat.lt_or_eq_of_le hij with hlt | rfl
        · exact hpassed j hlt hj
        · exact hp
      · intro h
        exact hstopped (by omega)
    · next hp =>
      exact ⟨Nat.le_refl _, by omega, fun j hij hj => absurd hj (by omega), fun _ => by simpa using hp⟩

section Forward

variable {limit : ℕ} {p : ℕ → Bool} {i : ℕ}

theorem le_stepForward : i ≤ stepForward limit p i := (stepOn_spec p (limit - i) i).1

theorem stepForward_le (h : i ≤ limit) : stepForward limit p i ≤ limit := by
  have hbound := (stepOn_spec p (limit - i) i).2.1
  unfold stepForward
  omega

theorem stepForward_passed : ∀ j, i ≤ j → j < stepForward limit p i → p j = true :=
  (stepOn_spec p (limit - i) i).2.2.1

theorem stepForward_stopped (h : stepForward limit p i < limit) : p (stepForward limit p i) = false := by
  refine (stepOn_spec p (limit - i) i).2.2.2 ?_
  have hle : i ≤ stepForward limit p i := le_stepForward
  unfold stepForward at h hle
  omega

theorem stepForward_self (h : p i = false) : stepForward limit p i = i := by
  unfold stepForward
  cases limit - i with
  | zero => rfl
  | succ left =>
    unfold stepOn
    rw [h]
    rfl

end Forward

end AgentCpp.Lib
