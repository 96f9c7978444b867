import Mathlib.Data.Int.Init
import Mathlib.Data.List.Count

/-!
# Rows in a flat list, and times in a sliding window

Row `i` is the `w` elements from `i * w` on; writing one row leaves the others. A limiter keeps the
times of what it admitted and forgets those that have left the window: it then stays below the limit
in every window of that width.
-/

namespace AgentCpp.Lib

open List

section Rows

variable {α : Type} {w n i j : ℕ} {v x : List α}

def flatRow (w : ℕ) (v : List α) (i : ℕ) : List α := (v.drop (i * w)).take w

/- `std::copy` into the list from `off` on. -/
def overwrite (v : List α) (off : ℕ) (x : List α) : List α := v.take off ++ x ++ v.drop (off + x.length)

theorem row_end_le (w : ℕ) (h : i < n) : i * w + w ≤ n * w := by
  rw [← Nat.succ_mul]
  exact Nat.mul_le_mul_right w h

theorem length_flatRow (hv : v.length = n * w) (hi : i < n) : (flatRow w v i).length = w := by
  have hend := row_end_le w hi
  simp only [flatRow, length_take, length_drop]
  omega

theorem length_overwrite (h : i + x.length ≤ v.length) : (overwrite v i x).length = v.length := by
  simp only [overwrite, length_append, length_take, length_drop]
  omega

theorem overwrite_append (v y x : List α) : overwrite (v ++ y) v.length x = v ++ x ++ y.drop x.length := by
  simp [overwrite]

theorem getElem?_flatRow (k : ℕ) : (flatRow w v i)[k]? = if k < w then v[i * w + k]? else none := by
  rw [flatRow, getElem?_take, getElem?_drop]

theorem getElem?_overwrite (h : i + x.length ≤ v.length) (k : ℕ) :
    (overwrite v i x)[k]? = if i ≤ k ∧ k < i + x.length then x[k - i]? else v[k]? := by
  simp only [overwrite, append_assoc]
  grind

theorem flatRow_overwrite_self (hv : v.length = n * w) (hi : i < n) (hx : x.length = w) :
    flatRow w (overwrite v (i * w) x) i = x := by
  have hend := row_end_le w hi
  refine ext_getElem? fun k => ?_
  rw [getElem?_flatRow, getElem?_overwrite (by omega)]
  split
  · rw [if_pos (by omega), Nat.add_sub_cancel_left]
  · rw [getElem?_eq_none (by omega)]

theorem flatRow_overwrite_ne (hv : v.length = n * w) (hi : i < n) (hx : x.length = w) (hij : j ≠ i) :
    flatRow w (overwrite v (i * w) x) j = flatRow w v j := by
  have hend := row_end_le w hi
  refine ext_getElem? fun k => ?_
  rw [getElem?_flatRow, getElem?_flatRow, getElem?_overwrite (by omega)]
  split
  · have hapart : j * w + w ≤ i * w ∨ i * w + w ≤ j * w := by
      rcases Nat.lt_or_gt_of_ne hij with hlt | hgt
      · exact .inl (row_end_le w hlt)
      · exact .inr (row_end_le w hgt)
    rw [if_neg (by omega)]
  · rfl

theorem flatRow_append (hv : v.length = n * w) (hi : i < n) : flatRow w (v ++ x) i = flatRow w v i := by
  have hend := row_end_le w hi
  refine ext_getElem? fun k => ?_
  rw [getElem?_flatRow, getElem?_flatRow]
  split
  · rw [getElem?_append_left (by omega)]
  · rfl

theorem flatRow_take (hi : i < n) : flatRow w (v.take (n * w)) i = flatRow w v i := by
  have hend := row_end_le w hi
  refine ext_getElem? fun k => ?_
  rw [getElem?_flatRow, getElem?_flatRow, getElem?_take]
  split
  · rw [if_pos (by omega)]
  · rfl

end Rows

section SlidingWindow

/- The times that are at most `width` back. -/
def recent (width now : ℤ) (times : List ℤ) : List ℤ := times.filter fun t => now - t ≤ width

/- At most `limit` of the times in any closed window. -/
def Limited (width : ℤ) (limit : ℕ) (times : List ℤ) : Prop :=
  ∀ start, times.countP (fun t => start ≤ t ∧ t ≤ start + width) ≤ limit

theorem limited_nil (width : ℤ) (limit : ℕ) : Limited width limit [] := fun _ => Nat.zero_le _

theorem recent_recent {width now now' : ℤ} (h : now ≤ now') (times : List ℤ) :
    recent width now' (recent width now times) = recent width now' times := by
  unfold recent
  rw [filter_filter]
  refine filter_congr fun t _ => ?_
  rw [← Bool.decide_and]
  congr 1
  rw [eq_iff_iff]
  omega

theorem recent_append (width now : ℤ) (xs ys : List ℤ) :
    recent width now (xs ++ ys) = recent width now xs ++ recent width now ys := filter_append ..

theorem Limited.push {width now : ℤ} {limit : ℕ} {times : List ℤ} (h : Limited width limit times)
    (hroom : (recent width now times).length < limit) : Limited width limit (times ++ [now]) := by
  intro start
  rw [countP_append, countP_singleton]
  split
  · next hin =>
    rw [decide_eq_true_eq] at hin
    have hle : times.countP (fun t => start ≤ t ∧ t ≤ start + width) ≤ (recent width now times).length := by
      unfold recent
      rw [← countP_eq_length_filter]
      refine countP_mono_left fun t _ ht => ?_
      rw [decide_eq_true_eq] at ht ⊢
      omega
    omega
  · exact h start

end SlidingWindow

end AgentCpp.Lib
