import AgentCpp.Stores.Sqlite

/-!
# What the sections do to the cache

The byte counts and the LRU list stay in step with the entries, and a dirty entry
leaves the cache only when the whole cache is emptied.
-/

namespace AgentCpp.Sqlite
open Lib List Table

def cachedSize (e : Bytes × CacheEntry) : ℕ := entrySize e.1 e.2.value

def dirtySize (e : Bytes × CacheEntry) : ℕ := if e.2.dirty then entrySize e.1 e.2.value else 0

structure Cache.Sound (c : Cache) : Prop where
  cacheBytes : c.cacheBytes = Table.sum cachedSize c.entries
  dirtyBytes : c.dirtyBytes = Table.sum dirtySize c.entries
  nodup : c.lru.Nodup
  listed : ∀ key, key ∈ c.lru ↔ ∃ entry, c.entries[key]? = some entry

namespace Cache

theorem sound_empty : Cache.empty.Sound := by
  refine ⟨rfl, rfl, .nil, fun key => ?_⟩
  change key ∈ [] ↔ ∃ entry, (∅ : Table CacheEntry)[key]? = some entry
  simp

theorem mem_cons_erase (c : Cache) (key a : Bytes) : a ∈ key :: c.lru.erase key ↔ a = key ∨ a ∈ c.lru := by
  rw [mem_cons]
  by_cases h : a = key
  · simp [h]
  · rw [mem_erase_of_ne h]

variable {c c' : Cache} {key : Bytes}

theorem nodup_cons_erase (h : c.Sound) (key : Bytes) : (key :: c.lru.erase key).Nodup :=
  nodup_cons.2 ⟨h.nodup.not_mem_erase, h.nodup.erase key⟩

theorem get_insert_isSome (t : Table CacheEntry) (key a : Bytes) (entry : CacheEntry) :
    (∃ e, (t.insert key entry)[a]? = some e) ↔ a = key ∨ ∃ e, t[a]? = some e := by
  rw [get_insert]
  by_cases h : key = a
  · simp [h]
  · simp [h, Ne.symm h]

theorem sound_touch (h : c.Sound) {entry : CacheEntry} (he : c.entries[key]? = some entry) : (c.touch key).Sound := by
  refine ⟨h.cacheBytes, h.dirtyBytes, nodup_cons_erase h key, fun a => ?_⟩
  change a ∈ key :: c.lru.erase key ↔ _
  rw [mem_cons_erase, h.listed]
  refine ⟨?_, .inr⟩
  intro ha
  obtain rfl | ha := ha
  · exact ⟨entry, he⟩
  · exact ha

theorem sound_push (h : c.Sound) (hnone : c.entries[key]? = none) (entry : CacheEntry) :
    ({ entries := c.entries.insert key entry
       lru := key :: c.lru
       cacheBytes := c.cacheBytes + entrySize key entry.value
       dirtyBytes := c.dirtyBytes + dirtySize (key, entry) } : Cache).Sound := by
  refine ⟨?_, ?_, ?_, fun a => ?_⟩
  · rw [sum_insert_new _ _ _ _ hnone, h.cacheBytes, Nat.add_comm]
    rfl
  · change c.dirtyBytes + _ = _
    rw [sum_insert_new _ _ _ _ hnone, h.dirtyBytes, Nat.add_comm]
  · refine nodup_cons.2 ⟨fun hmem => ?_, h.nodup⟩
    obtain ⟨e, he⟩ := (h.listed key).1 hmem
    rw [hnone] at he
    cases he
  · rw [get_insert_isSome, mem_cons, h.listed]

theorem sound_put (h : c.Sound) (key value : Bytes) : (c.put key value).Sound := by
  unfold Cache.put
  cases he : c.entries[key]? with
  | none => exact sound_push h he ⟨value, true⟩
  | some entry =>
    refine ⟨?_, ?_, nodup_cons_erase h key, fun a => ?_⟩
    · have hsum := sum_insert cachedSize c.entries key entry ⟨value, true⟩ he
      have hle := le_sum cachedSize c.entries key entry he
      change _ + entrySize key entry.value = _ + entrySize key value at hsum
      change entrySize key entry.value ≤ _ at hle
      change c.cacheBytes - entrySize key entry.value + entrySize key value =
        Table.sum cachedSize (c.entries.insert key ⟨value, true⟩)
      rw [h.cacheBytes]
      omega
    · have hsum := sum_insert dirtySize c.entries key entry ⟨value, true⟩ he
      have hle := le_sum dirtySize c.entries key entry he
      change _ + _ = _ + entrySize key value at hsum
      change (if entry.dirty then c.dirtyBytes - entrySize key entry.value + entrySize key value
        else c.dirtyBytes + entrySize key value) = Table.sum dirtySize (c.entries.insert key ⟨value, true⟩)
      rw [h.dirtyBytes]
      cases hd : entry.dirty with
      | true =>
        have hold : dirtySize (key, entry) = entrySize key entry.value := if_pos hd
        rw [if_pos rfl]
        omega
      | false =>
        have hold : dirtySize (key, entry) = 0 := if_neg (by rw [hd]; exact Bool.false_ne_true)
        rw [if_neg Bool.false_ne_true]
        omega
    · rw [mem_cons_erase, h.listed, get_insert_isSome]

def Kept (c c' : Cache) : Prop := ∀ key : Bytes, c'.entries[key]? = c.entries[key]? ∨
  c'.entries[key]? = none ∧ ∃ value, c.entries[key]? = some ⟨value, false⟩

theorem kept_refl (c : Cache) : Kept c c := fun _ => .inl rfl

theorem kept_trans {c'' : Cache} (h : Kept c c') (h' : Kept c' c'') : Kept c c'' := by
  intro key
  obtain he' | ⟨hn', v', hv'⟩ := h' key
  · rw [he']
    exact h key
  · obtain he | ⟨hn, -⟩ := h key
    · exact .inr ⟨hn', v', he ▸ hv'⟩
    · rw [hn] at hv'
      cases hv'

theorem evictOne_some (h : evictOne c = some c') : ∃ key value : Bytes,
    c.entries[key]? = some ⟨value, false⟩ ∧ c' = { c with
      entries := c.entries.erase key
      lru := c.lru.erase key
      cacheBytes := c.cacheBytes - entrySize key value } := by
  obtain ⟨key, hkey, h⟩ := Option.bind_eq_some_iff.1 h
  obtain ⟨⟨value, dirty⟩, hentry, h⟩ := Option.bind_eq_some_iff.1 h
  have hclean := find?_some hkey
  rw [hentry] at hclean
  cases dirty with
  | true => cases hclean
  | false =>
    cases h
    exact ⟨key, value, hentry, rfl⟩

theorem evictOne_kept (h : evictOne c = some c') : Kept c c' := by
  obtain ⟨key, value, he, rfl⟩ := evictOne_some h
  intro a
  rw [get_erase]
  by_cases hk : key = a
  · subst hk
    rw [if_pos rfl]
    exact .inr ⟨rfl, value, he⟩
  · rw [if_neg hk]
    exact .inl rfl

theorem evictOne_sound (h : evictOne c = some c') (hs : c.Sound) : c'.Sound := by
  obtain ⟨key, value, he, rfl⟩ := evictOne_some h
  have hsum := sum_erase cachedSize c.entries key _ he
  have hdirty := sum_erase dirtySize c.entries key _ he
  refine ⟨?_, ?_, hs.nodup.erase key, fun a => ?_⟩
  · change c.cacheBytes - entrySize key value = Table.sum cachedSize (c.entries.erase key)
    change _ + entrySize key value = _ at hsum
    rw [hs.cacheBytes]
    omega
  · change c.dirtyBytes = Table.sum dirtySize (c.entries.erase key)
    change _ + 0 = _ at hdirty
    rw [hs.dirtyBytes]
    omega
  · rw [get_erase, hs.nodup.mem_erase_iff, hs.listed]
    by_cases hk : key = a
    · simp [hk]
    · simp [hk, Ne.symm hk]

theorem evictLoop_induct {P : Cache → Prop} (hone : ∀ c c', P c → evictOne c = some c' → P c') (max n : ℕ) (c : Cache)
    (h : P c) : P (evictLoop max n c) := by
  induction n generalizing c with
  | zero => exact h
  | succ n ih =>
    unfold evictLoop
    split
    · cases he : evictOne c with
      | none => exact h
      | some c' => exact ih c' (hone c c' h he)
    · exact h

variable (max : ℕ) (batch : List (Bytes × Bytes))

theorem evictIfNeeded_kept (c : Cache) : Kept c (evictIfNeeded max c) :=
  evictLoop_induct (fun _ _ h he => kept_trans h (evictOne_kept he)) max _ c (kept_refl c)

theorem evictIfNeeded_sound (h : c.Sound) : (evictIfNeeded max c).Sound :=
  evictLoop_induct (fun _ _ h he => evictOne_sound he h) max _ c h

theorem sound_insertRead (h : c.Sound) (key value : Bytes) : (c.insertRead max key value).Sound := by
  unfold insertRead
  cases he : c.entries[key]? with
  | some entry => exact h
  | none => exact evictIfNeeded_sound max (sound_push h he ⟨value, false⟩)

def Marked (batch : List (Bytes × Bytes)) (c c' : Cache) : Prop := ∀ key : Bytes, c'.entries[key]? = c.entries[key]? ∨
  ∃ value, (key, value) ∈ batch ∧ c.entries[key]? = some ⟨value, true⟩ ∧ c'.entries[key]? = some ⟨value, false⟩

theorem markClean_cases (c : Cache) (row : Bytes × Bytes) : c.markClean row = c ∨
    c.entries[row.1]? = some ⟨row.2, true⟩ ∧ c.markClean row = { c with
      entries := c.entries.insert row.1 ⟨row.2, false⟩
      dirtyBytes := if c.dirtyBytes ≥ entrySize row.1 row.2 then c.dirtyBytes - entrySize row.1 row.2 else 0 } := by
  unfold markClean
  cases he : c.entries[row.1]? with
  | none => exact .inl rfl
  | some entry =>
    obtain ⟨value, dirty⟩ := entry
    by_cases h : dirty = true ∧ value = row.2
    · obtain ⟨rfl, rfl⟩ := h
      exact .inr ⟨rfl, if_pos ⟨rfl, rfl⟩⟩
    · exact .inl (if_neg h)

theorem markClean_sound (h : c.Sound) (row : Bytes × Bytes) : (c.markClean row).Sound := by
  obtain heq | ⟨he, heq⟩ := markClean_cases c row
  · rw [heq]
    exact h
  · rw [heq]
    have hsum := sum_insert cachedSize c.entries row.1 _ ⟨row.2, false⟩ he
    have hdirty := sum_insert dirtySize c.entries row.1 _ ⟨row.2, false⟩ he
    have hle := le_sum dirtySize c.entries row.1 _ he
    change _ + entrySize row.1 row.2 = _ + entrySize row.1 row.2 at hsum
    change _ + entrySize row.1 row.2 = _ + 0 at hdirty
    change entrySize row.1 row.2 ≤ _ at hle
    refine ⟨?_, ?_, h.nodup, fun a => ?_⟩
    · change c.cacheBytes = Table.sum cachedSize (c.entries.insert row.1 ⟨row.2, false⟩)
      rw [h.cacheBytes]
      omega
    · change (if c.dirtyBytes ≥ entrySize row.1 row.2 then c.dirtyBytes - entrySize row.1 row.2 else 0) =
        Table.sum dirtySize (c.entries.insert row.1 ⟨row.2, false⟩)
      rw [h.dirtyBytes, if_pos hle]
      omega
    · rw [get_insert_isSome, h.listed]
      refine ⟨.inr, ?_⟩
      intro ha
      obtain rfl | ha := ha
      · exact ⟨_, he⟩
      · exact ha

theorem foldl_markClean_sound (h : c.Sound) : (batch.foldl markClean c).Sound := by
  induction batch generalizing c with
  | nil => exact h
  | cons row batch ih => exact ih (markClean_sound h row)

theorem foldl_markClean_marked (c : Cache) : Marked batch c (batch.foldl markClean c) := by
  induction batch generalizing c with
  | nil => exact fun _ => .inl rfl
  | cons row batch ih =>
    intro key
    have hrest := ih (c.markClean row) key
    obtain heq | ⟨he, heq⟩ := markClean_cases c row
    · rw [heq] at hrest
      obtain hsame | ⟨value, hmem, hold, hnew⟩ := hrest
      · exact .inl (by rw [foldl_cons, heq, hsame])
      · exact .inr ⟨value, mem_cons_of_mem _ hmem, hold, by rw [foldl_cons, heq, hnew]⟩
    · have hget : (c.markClean row).entries[key]? = if row.1 = key then some ⟨row.2, false⟩ else c.entries[key]? := by
        rw [heq]
        exact get_insert ..
      rw [hget] at hrest
      by_cases hk : row.1 = key
      · subst hk
        rw [if_pos rfl] at hrest
        obtain hsame | ⟨value, -, hold, -⟩ := hrest
        · exact .inr ⟨row.2, mem_cons_self .., he, hsame⟩
        · cases hold
      · rw [if_neg hk] at hrest
        obtain hsame | ⟨value, hmem, hold, hnew⟩ := hrest
        · exact .inl hsame
        · exact .inr ⟨value, mem_cons_of_mem _ hmem, hold, hnew⟩

theorem foldl_markClean_clean (c : Cache) (row : Bytes × Bytes) (hrow : row ∈ batch) :
    (batch.foldl markClean c).entries[row.1]? ≠ some ⟨row.2, true⟩ := by
  induction batch generalizing c with
  | nil => cases hrow
  | cons r batch ih =>
    rw [foldl_cons]
    obtain heq | hrow := mem_cons.1 hrow
    · subst heq
      have hnow : (c.markClean row).entries[row.1]? ≠ some ⟨row.2, true⟩ := by
        unfold markClean
        cases he : c.entries[row.1]? with
        | none =>
          rw [he]
          exact nofun
        | some entry =>
          dsimp only
          split
          · simp
          · next h =>
            rw [he]
            intro heq
            cases heq
            exact h ⟨rfl, rfl⟩
      obtain h | ⟨v, -, -, h⟩ := foldl_markClean_marked batch (c.markClean row) row.1
      · rw [h]
        exact hnow
      · rw [h]
        simp
    · exact ih _ hrow

theorem sound_markFlushed (h : c.Sound) (batch : List (Bytes × Bytes)) :
    (c.markFlushed max batch).Sound := evictIfNeeded_sound max (foldl_markClean_sound batch h)

theorem get_put (c : Cache) (key value a : Bytes) :
    (c.put key value).entries[a]? = if key = a then some ⟨value, true⟩ else c.entries[a]? := by
  unfold Cache.put
  cases c.entries[key]? <;> exact get_insert ..

theorem get_insertRead (c : Cache) (key value a : Bytes) :
    (c.insertRead max key value).entries[a]? = c.entries[a]? ∨
    (c.insertRead max key value).entries[a]? = none ∧ (∃ v, c.entries[a]? = some ⟨v, false⟩) ∨
    a = key ∧ c.entries[a]? = none ∧ (c.insertRead max key value).entries[a]? = some ⟨value, false⟩ := by
  unfold insertRead
  cases he : c.entries[key]? with
  | some entry => exact .inl rfl
  | none =>
    have hkept := evictIfNeeded_kept max { c with
      entries := c.entries.insert key ⟨value, false⟩
      lru := key :: c.lru
      cacheBytes := c.cacheBytes + entrySize key value } a
    have hget : (c.entries.insert key ⟨value, false⟩)[a]? = if key = a then some ⟨value, false⟩ else c.entries[a]? :=
      get_insert ..
    rw [hget] at hkept
    by_cases hk : key = a
    · subst hk
      rw [if_pos rfl] at hkept
      obtain hsame | ⟨hnone, -⟩ := hkept
      · exact .inr (.inr ⟨rfl, he, hsame⟩)
      · exact .inl (hnone.trans he.symm)
    · rw [if_neg hk] at hkept
      obtain hsame | ⟨hnone, hclean⟩ := hkept
      · exact .inl hsame
      · exact .inr (.inl ⟨hnone, hclean⟩)

theorem get_markFlushed (c : Cache) (batch : List (Bytes × Bytes)) (a : Bytes) :
    (c.markFlushed max batch).entries[a]? = c.entries[a]? ∨
    (∃ v, (a, v) ∈ batch ∧ c.entries[a]? = some ⟨v, true⟩ ∧ ((c.markFlushed max batch).entries[a]? = some ⟨v, false⟩ ∨
      (c.markFlushed max batch).entries[a]? = none)) ∨
    (c.markFlushed max batch).entries[a]? = none ∧ ∃ v, c.entries[a]? = some ⟨v, false⟩ := by
  have hmarked := foldl_markClean_marked batch c a
  have hkept := evictIfNeeded_kept max (batch.foldl markClean c) a
  obtain hm | ⟨v, hmem, hold, hnew⟩ := hmarked
  · rw [hm] at hkept
    obtain h | h := hkept
    · exact .inl h
    · exact .inr (.inr h)
  · rw [hnew] at hkept
    obtain h | ⟨h, -⟩ := hkept
    · exact .inr (.inl ⟨v, hmem, hold, .inl h⟩)
    · exact .inr (.inl ⟨v, hmem, hold, .inr h⟩)

theorem markFlushed_clean (c : Cache) (batch : List (Bytes × Bytes)) (row : Bytes × Bytes) (hrow : row ∈ batch) :
    (c.markFlushed max batch).entries[row.1]? ≠ some ⟨row.2, true⟩ := by
  obtain h | ⟨h, -⟩ := evictIfNeeded_kept max (batch.foldl markClean c) row.1
  · exact fun heq => foldl_markClean_clean batch c row hrow (h.symm.trans heq)
  · exact fun heq => nomatch h.symm.trans heq

theorem markFlushed_none (h : c.entries[key]? = none) (max : ℕ) (batch : List (Bytes × Bytes)) :
    (c.markFlushed max batch).entries[key]? = none := by
  obtain hsame | ⟨v, -, hold, -⟩ | ⟨hnone, -⟩ := get_markFlushed max c batch key
  · rw [hsame, h]
  · rw [h] at hold
    cases hold
  · exact hnone

theorem mem_batch (c : Cache) (key value : Bytes) : (key, value) ∈ c.batch ↔ c.entries[key]? = some ⟨value, true⟩ := by
  unfold batch
  rw [mem_filterMap]
  constructor
  · intro ⟨⟨k, v, d⟩, hmem, h⟩
    rw [mem_toList] at hmem
    cases d with
    | false => cases h
    | true =>
      cases h
      exact hmem
  · intro h
    exact ⟨(key, ⟨value, true⟩), (mem_toList ..).2 h, rfl⟩

theorem distinct_batch (c : Cache) : Table.Distinct c.batch := by
  refine List.Pairwise.filterMap _ ?_ (distinct_toList c.entries)
  intro a b hab x hx y hy hxy
  apply hab
  split at hx
  · split at hy
    · cases hx
      cases hy
      exact hxy
    · cases hy
  · cases hx

end Cache

end AgentCpp.Sqlite
