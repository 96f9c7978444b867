import AgentCpp.Lib.Bytes

/-!
# Byte-addressed memory

A store changes its own range of addresses, and a load depends on its own range.
-/

namespace AgentCpp.Lib

open List

abbrev Memory := ℕ → UInt8

def load (mem : Memory) (addr n : ℕ) : Bytes := (List.range n).map fun i => mem (addr + i)

def store (mem : Memory) (addr : ℕ) (bytes : Bytes) : Memory :=
  fun i => if i < addr then mem i else bytes[i - addr]?.getD (mem i)

section Memory

variable {mem mem' : Memory} {addr n i : ℕ} {bytes : Bytes}

theorem load_congr (h : ∀ i, addr ≤ i → i < addr + n → mem i = mem' i) : load mem addr n = load mem' addr n := by
  refine map_congr_left fun i hi => ?_
  have hlt := mem_range.1 hi
  exact h (addr + i) (Nat.le_add_right _ _) (by omega)

theorem store_outside (h : i < addr ∨ addr + bytes.length ≤ i) : store mem addr bytes i = mem i := by
  unfold store
  split
  · rfl
  · rw [getElem?_eq_none (by omega)]
    rfl

theorem length_load : (load mem addr n).length = n := by
  unfold load
  rw [length_map, length_range]

theorem getElem?_load (hi : i < n) : (load mem addr n)[i]? = some (mem (addr + i)) := by
  unfold load
  rw [getElem?_map, getElem?_range hi]
  rfl

theorem load_store_self : load (store mem addr bytes) addr bytes.length = bytes := by
  refine ext_getElem? fun i => ?_
  by_cases hi : i < bytes.length
  · rw [getElem?_load hi]
    unfold store
    rw [if_neg (by omega), Nat.add_sub_cancel_left, getElem?_eq_getElem hi]
    rfl
  · rw [getElem?_eq_none (by rw [length_load]; omega), getElem?_eq_none (by omega)]

theorem load_store_outside (h : addr + n ≤ i ∨ i + bytes.length ≤ addr) :
    load (store mem i bytes) addr n = load mem addr n :=
  load_congr fun _ hlow hhigh => store_outside (by omega)

theorem load_append (m : ℕ) : load mem addr (m + n) = load mem addr m ++ load mem (addr + m) n := by
  unfold load
  rw [range_add, map_append, map_map]
  refine congrArg _ (map_congr_left fun i _ => ?_)
  rw [Function.comp_apply, Nat.add_assoc]

theorem load_store_append {text : Bytes} (h : load mem addr text.length = text) :
    load (store mem (addr + text.length) bytes) addr (text.length + bytes.length) = text ++ bytes := by
  rw [load_append, load_store_self, load_store_outside (Or.inl (le_refl _)), h]

end Memory

end AgentCpp.Lib
