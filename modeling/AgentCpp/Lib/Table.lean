import AgentCpp.Lib.Bytes

/-!
# Ordered tables

`std::map` with string keys: an extensional ordered map, iterated in key
order. `assign` is the loop that writes every entry of one table into
another.
-/

namespace AgentCpp.Lib

open List

abbrev Table (β : Type) := Std.ExtTreeMap Bytes β

namespace Table

variable {β γ : Type}

variable (t : Table β) (k : Bytes) (v : β)

theorem get_insert (k a : Bytes) (v : β) : (t.insert k v)[a]? = if k = a then some v else t[a]? := by
  rw [Std.ExtTreeMap.getElem?_insert]
  simp only [Std.compare_eq_iff_eq]

theorem get_erase (k a : Bytes) : (t.erase k)[a]? = if k = a then none else t[a]? := by
  rw [Std.ExtTreeMap.getElem?_erase]
  simp only [Std.compare_eq_iff_eq]

theorem get_insert_self : (t.insert k v)[k]? = some v := by
  rw [get_insert, if_pos rfl]

theorem get_insert_ne (k a : Bytes) (v : β) (h : k ≠ a) : (t.insert k v)[a]? = t[a]? := by
  rw [get_insert, if_neg h]

theorem get_erase_ne (k a : Bytes) (h : k ≠ a) : (t.erase k)[a]? = t[a]? := by
  rw [get_erase, if_neg h]

variable (a : Bytes) (f : Bytes × β → ℕ) (l : List (Bytes × β)) (s : Table β)

theorem get_empty : (∅ : Table β)[a]? = none := Std.ExtTreeMap.getElem?_empty

theorem mem_toList : (k, v) ∈ t.toList ↔ t[k]? = some v :=
  Std.ExtTreeMap.mem_toList_iff_getElem?_eq_some

theorem ext {s t : Table β} (h : ∀ k : Bytes, s[k]? = t[k]?) : s = t := Std.ExtTreeMap.ext_getElem? h

/-- Entries with pairwise different keys. -/
def Distinct (l : List (Bytes × β)) : Prop := l.Pairwise fun a b => a.1 ≠ b.1

theorem distinct_toList : Distinct t.toList := by
  refine List.Pairwise.imp ?_ (Std.ExtTreeMap.distinct_keys_toList (t := t))
  intro a b h he
  exact h (by rw [he]; exact Std.compare_self)

/-- Later entries win. -/
def insertAll (t : Table β) (l : List (Bytes × β)) : Table β :=
  l.foldl (fun acc p => acc.insert p.1 p.2) t

@[simp] theorem insertAll_cons (p : Bytes × β) (l : List (Bytes × β)) :
    insertAll t (p :: l) = insertAll (t.insert p.1 p.2) l := rfl

theorem insertAll_of_not_mem (k : Bytes) (h : ∀ p ∈ l, p.1 ≠ k) :
    (insertAll t l)[k]? = t[k]? := by
  induction l generalizing t with
  | nil => rfl
  | cons p l ih =>
    rw [insertAll_cons, ih _ (fun q hq => h q (mem_cons_of_mem _ hq)), get_insert_ne _ _ _ _ (h p (mem_cons_self ..))]

theorem insertAll_of_mem (k : Bytes) (v : β) (hd : Distinct l) (h : (k, v) ∈ l) :
    (insertAll t l)[k]? = some v := by
  induction l generalizing t with
  | nil => simp at h
  | cons p l ih =>
    rw [insertAll_cons]
    obtain ⟨hp, hl⟩ := List.pairwise_cons.1 hd
    rcases List.mem_cons.1 h with rfl | h
    · rw [insertAll_of_not_mem _ _ _ (fun q hq => (hp q hq).symm), get_insert_self]
    · exact ih _ hl h

theorem get_insertAll (hd : Distinct l)
    (hs : ∀ k v, (k, v) ∈ l ↔ s[k]? = some v) (k : Bytes) : (insertAll t l)[k]? = s[k]?.or t[k]? := by
  cases h : s[k]? with
  | none =>
    rw [insertAll_of_not_mem]
    · rfl
    · rintro ⟨k', v⟩ hp rfl
      rw [(hs _ _).1 hp] at h
      exact absurd h (by simp)
  | some v =>
    rw [insertAll_of_mem _ _ _ v hd ((hs k v).2 h)]
    rfl

/-- `for (auto &[k, v] : s) t.insert_or_assign(k, v)`. -/
def assign (t s : Table β) : Table β := insertAll t s.toList

theorem get_assign (t s : Table β) (k : Bytes) : (assign t s)[k]? = s[k]?.or t[k]? :=
  get_insertAll t s.toList s (distinct_toList s) (fun k v => mem_toList s k v) k

theorem empty_insertAll_toList : insertAll ∅ s.toList = s := by
  apply ext
  intro k
  change (assign ∅ s)[k]? = s[k]?
  rw [get_assign, get_empty, Option.or_none]

theorem nodup_toList : t.toList.Nodup :=
  (distinct_toList t).imp fun h heq => h (congrArg Prod.fst heq)

theorem toList_insert_perm (h : t[k]? = none) : (t.insert k v).toList.Perm ((k, v) :: t.toList) := by
  have hnot : (k, v) ∉ t.toList := by
    intro hmem
    rw [mem_toList, h] at hmem
    cases hmem
  refine (perm_ext_iff_of_nodup (nodup_toList _) (List.nodup_cons.2 ⟨hnot, nodup_toList t⟩)).2 ?_
  rintro ⟨a, w⟩
  rw [mem_toList, get_insert, mem_cons, mem_toList]
  by_cases hk : k = a
  · subst hk
    rw [h]
    simp [eq_comm]
  · rw [if_neg hk]
    simp [Ne.symm hk]

theorem insert_erase_self : (t.erase k).insert k v = t.insert k v := by
  apply ext
  intro a
  rw [get_insert, get_insert, get_erase]
  split <;> simp_all

theorem insert_self (h : t[k]? = some v) : t.insert k v = t := by
  apply ext
  intro a
  rw [get_insert]
  split
  · next hk => rw [← hk, h]
  · rfl

def sum (f : Bytes × β → ℕ) (t : Table β) : ℕ := (t.toList.map f).sum

theorem sum_insert_new (t : Table β) (k : Bytes) (v : β) (h : t[k]? = none) :
    sum f (t.insert k v) = f (k, v) + sum f t := by
  unfold sum
  rw [((toList_insert_perm t k v h).map _).sum_eq, map_cons, sum_cons]

theorem sum_erase (t : Table β) (k : Bytes) (v : β) (h : t[k]? = some v) :
    sum f (t.erase k) + f (k, v) = sum f t := by
  have hnone : (t.erase k)[k]? = none := by rw [get_erase, if_pos rfl]
  have hold := sum_insert_new f (t.erase k) k v hnone
  rw [insert_erase_self, insert_self t k v h] at hold
  omega

theorem sum_insert (t : Table β) (k : Bytes) (v w : β) (h : t[k]? = some v) :
    sum f (t.insert k w) + f (k, v) = sum f t + f (k, w) := by
  have hnone : (t.erase k)[k]? = none := by rw [get_erase, if_pos rfl]
  have herase := sum_erase f t k v h
  have hnew := sum_insert_new f (t.erase k) k w hnone
  rw [insert_erase_self] at hnew
  omega

theorem le_sum (t : Table β) (k : Bytes) (v : β) (h : t[k]? = some v) : f (k, v) ≤ sum f t := by
  have herase := sum_erase f t k v h
  omega

def total (f : β → ℕ) (t : Table β) : ℕ := (t.toList.map fun e => f e.2).sum

theorem total_insert_new (f : β → ℕ) (t : Table β) (k : Bytes) (v : β) (h : t[k]? = none) :
    total f (t.insert k v) = f v + total f t := sum_insert_new (fun e => f e.2) t k v h

theorem total_insert (f : β → ℕ) (t : Table β) (k : Bytes) (v w : β) (h : t[k]? = some v) :
    total f (t.insert k w) + f v = total f t + f w := sum_insert (fun e => f e.2) t k v w h

theorem le_total (f : β → ℕ) (t : Table β) (k : Bytes) (v : β) (h : t[k]? = some v) : f v ≤ total f t :=
  le_sum (fun e => f e.2) t k v h

theorem total_congr {f g : β → ℕ} {t : Table β} (h : ∀ (k : Bytes) (v : β), t[k]? = some v → f v = g v) :
    total f t = total g t := by
  unfold total
  rw [map_congr_left fun e he => h e.1 e.2 ((mem_toList t e.1 e.2).1 he)]

end Table

end AgentCpp.Lib
