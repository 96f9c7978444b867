import AgentCpp.Stores.SqliteSteps

/-!
# The clean part of the cache

Dirty entries are never evicted and may pass `max_cache_bytes`; the clean ones never do.
-/

namespace AgentCpp.Sqlite
open Lib List Cache Table

def cleanSize (e : Bytes × CacheEntry) : ℕ := if e.2.dirty then 0 else entrySize e.1 e.2.value

def Cache.CleanBelow (max : ℕ) (c : Cache) : Prop := Table.sum cleanSize c.entries ≤ max

variable {lim : Limits} {max : ℕ} {s t : Store} {a : Act} {c : Cache} {key value : Bytes}

theorem clean_add_dirty (h : c.Sound) : Table.sum cleanSize c.entries + c.dirtyBytes = c.cacheBytes := by
  rw [h.cacheBytes, h.dirtyBytes]
  unfold Table.sum
  rw [← sum_map_add]
  refine congrArg List.sum (map_congr_left fun e _ => ?_)
  unfold cleanSize dirtySize cachedSize
  split <;> omega

/- A clean entry is in the LRU list, so the search finds it or another one. -/
theorem evictOne_ne_none (h : c.Sound) (hentry : c.entries[key]? = some ⟨value, false⟩) : evictOne c ≠ none := by
  intro hnone
  have hlisted := mem_reverse.2 ((h.listed key).2 ⟨_, hentry⟩)
  have hsome := find?_isSome (p := fun key => c.entries[key]?.any (!·.dirty)).2 ⟨key, hlisted, by rw [hentry]; rfl⟩
  obtain ⟨last, hlast⟩ := Option.isSome_iff_exists.1 hsome
  have hclean := find?_some hlast
  cases hat : c.entries[last]? with
  | none => simp [hat] at hclean
  | some entry => simp [evictOne, hlast, hat] at hnone

theorem cleanBelow_of_dirty (h : ∀ key value : Bytes, c.entries[key]? ≠ some ⟨value, false⟩) : c.CleanBelow max := by
  refine le_of_eq_of_le (sum_eq_zero fun size hsize => ?_) max.zero_le
  obtain ⟨⟨key, value, dirty⟩, he, rfl⟩ := mem_map.1 hsize
  cases dirty with
  | true => rfl
  | false => exact absurd ((mem_toList _ _ _).1 he) (h key value)

theorem evictLoop_cleanBelow (n : ℕ) (h : c.Sound) (hn : c.lru.length ≤ n) : (evictLoop max n c).CleanBelow max := by
  induction n generalizing c with
  | zero =>
    refine cleanBelow_of_dirty fun key value he => ?_
    have hpos := length_pos_of_mem ((h.listed key).2 ⟨_, he⟩)
    omega
  | succ n ih =>
    unfold evictLoop
    cases hone : evictOne c with
    | none =>
      have hdirty : c.CleanBelow max := cleanBelow_of_dirty fun key value he => evictOne_ne_none h he hone
      split <;> exact hdirty
    | some c' =>
      obtain ⟨key, value, he, hc'⟩ := evictOne_some hone
      have hmem := (h.listed key).2 ⟨_, he⟩
      split
      · have hlen : c'.lru.length = c.lru.length - 1 := hc' ▸ length_erase_of_mem hmem
        exact ih (evictOne_sound hone h) (by omega)
      · next hstop =>
        have hfits := not_lt.1 fun hover => hstop ⟨hover, ne_nil_of_mem hmem⟩
        exact (Nat.le_add_right _ _).trans ((clean_add_dirty h).trans_le hfits)

theorem put_cleanBelow (h : c.CleanBelow max) (key value : Bytes) : (c.put key value).CleanBelow max := by
  have hnew : cleanSize (key, ⟨value, true⟩) = 0 := rfl
  have hput : (c.put key value).entries = c.entries.insert key ⟨value, true⟩ := by
    unfold Cache.put
    split <;> rfl
  unfold CleanBelow at *
  rw [hput]
  cases he : c.entries[key]? with
  | none =>
    have hsum := sum_insert_new cleanSize c.entries key ⟨value, true⟩ he
    omega
  | some entry =>
    have hsum := sum_insert cleanSize c.entries key entry ⟨value, true⟩ he
    omega

structure Store.Bounded (lim : Limits) (s : Store) : Prop where
  sound : s.cache.Sound
  clean : s.cache.CleanBelow lim.maxCacheBytes

theorem step_bounded (h : s.Bounded lim) (hstep : s.step lim a = some t) : t.Bounded lim := by
  obtain ⟨u, hm, rfl⟩ := Store.step_moves hstep
  refine ⟨hm.sound h.sound, ?_⟩
  cases hm with
  | putWake | put => exact put_cleanBelow h.clean _ _
  | @insert i call key value =>
    change (insertRead _ _ _ _).CleanBelow _
    unfold insertRead
    cases he : s.cache.entries[key]? with
    | some entry => exact h.clean
    | none => exact evictLoop_cleanBelow _ (sound_push h.sound he ⟨value, false⟩) le_rfl
  | clear => exact lim.maxCacheBytes.zero_le
  | mark => exact evictLoop_cleanBelow _ (foldl_markClean_sound _ h.sound) le_rfl
  | _ => exact h.clean

/-- At any point of any interleaving the entries that may be evicted fit in `max_cache_bytes`. -/
theorem clean_entries_bounded (lim : Limits) (db : Table Bytes) (acts : List Act) (s : Store)
    (h : run (Store.step lim) { db := db } acts = some s) :
    Table.sum cleanSize s.cache.entries ≤ lim.maxCacheBytes ∧
      s.cache.cacheBytes ≤ s.cache.dirtyBytes + lim.maxCacheBytes := by
  have hinv : s.Bounded lim := run_invariant (fun _ _ _ => step_bounded) h ⟨sound_empty, lim.maxCacheBytes.zero_le⟩
  refine ⟨hinv.clean, ?_⟩
  rw [← clean_add_dirty hinv.sound, Nat.add_comm]
  exact Nat.add_le_add_left hinv.clean _

theorem clean_entries_bounded_read : ∃ s, run (Store.step ⟨1, 100⟩) { db := insertAll ∅ [([97], [49])] }
    [.get 0 [97], .read 0, .insert 0] = some s ∧ Table.sum cleanSize s.cache.entries ≤ 1 :=
  ⟨_, rfl, (clean_entries_bounded ⟨1, 100⟩ (insertAll ∅ [([97], [49])]) [.get 0 [97], .read 0, .insert 0] _ rfl).1⟩

end AgentCpp.Sqlite
