import AgentCpp.Stores.SqliteCache

/-!
# The sections of the clients and of the writer

`Consistent` relates the cache, the batch being written and the database to the map the
calls describe; it is kept by every action that is `Calm`.
-/

namespace AgentCpp.Sqlite
open Lib List Function Cache Table Option

def returned (calls : List (Call StoreOp Answer)) (call time : ℕ) (result : Answer) : List (Call StoreOp Answer) :=
  calls.modify call fun c => { c with ret := some (time, result) }

theorem returned_snoc (calls : List (Call StoreOp Answer)) (c : Call StoreOp Answer) (time : ℕ) (result : Answer) :
    returned (calls ++ [c]) calls.length time result = calls ++ [{ c with ret := some (time, result) }] := by
  induction calls with
  | nil => rfl
  | cons d calls ih => exact congrArg (d :: ·) ih

theorem map_op_returned (calls : List (Call StoreOp Answer)) (call time : ℕ) (result : Answer) :
    (returned calls call time result).map Call.op = calls.map Call.op := by
  induction calls generalizing call with
  | nil => cases call <;> rfl
  | cons d calls ih =>
    cases call with
    | zero => rfl
    | succ call => exact congrArg (d.op :: ·) (ih call)

theorem replay_congr {σ : Type} {apply : σ → StoreOp → σ × Answer} {as bs : List (Call StoreOp Answer)}
    (h : as.map Call.op = bs.map Call.op) (s : σ) : replay apply s as = replay apply s bs := by
  have hmap : ∀ cs : List (Call StoreOp Answer),
      replay apply s cs = (cs.map Call.op).foldl (fun s op => (apply s op).1) s := fun cs => by
    rw [foldl_map]
    rfl
  rw [hmap, hmap, h]

variable {key value : Bytes} {clients : ℕ → ClientAt} {doStop : Bool} {db : Table Bytes}

theorem mapApply_get {m : Table Bytes} (h : m[key]? = some value) : (mapApply m (.get key)).2 = .value value := by
  simp only [mapApply, h]

theorem mapApply_get_none {m : Table Bytes} (h : m[key]? = none) : (mapApply m (.get key)).2 = keyNotFound key := by
  simp only [mapApply, h]

/- What an action does, the clock apart. -/
inductive Moves (lim : Limits) (s : Store) : Act → Store → Prop
  | putWake {i : ℕ} {key value : Bytes} (hidle : s.clients i = .idle) (hopen : s.stopRequested = false) :
    Moves lim s (.put i key value) { s with
      cache := s.cache.put key value
      calls := s.calls ++ [⟨.put key value, s.clock, none⟩]
      clients := update s.clients i (.waking s.calls.length) }
  | put {i : ℕ} {key value : Bytes} (hidle : s.clients i = .idle) (hopen : s.stopRequested = false) :
    Moves lim s (.put i key value) { s with
      cache := s.cache.put key value
      calls := s.calls ++ [⟨.put key value, s.clock, some (s.clock, .ok)⟩] }
  | wake {i call : ℕ} (hat : s.clients i = .waking call) :
    Moves lim s (.wake i) { s with
      wakeRequested := true
      calls := returned s.calls call s.clock .ok
      clients := update s.clients i .idle }
  | hit {i : ℕ} {key : Bytes} {entry : CacheEntry} (hidle : s.clients i = .idle) (hopen : s.stopRequested = false)
      (hentry : s.cache.entries[key]? = some entry) :
    Moves lim s (.get i key) { s with
      cache := s.cache.touch key
      calls := s.calls ++ [⟨.get key, s.clock, some (s.clock, .value entry.value)⟩] }
  | miss {i : ℕ} {key : Bytes} (hidle : s.clients i = .idle) (hopen : s.stopRequested = false)
      (hentry : s.cache.entries[key]? = none) :
    Moves lim s (.get i key) { s with
      calls := s.calls ++ [⟨.get key, s.clock, none⟩]
      clients := update s.clients i (.reading s.calls.length key) }
  | found {i call : ℕ} {key value : Bytes} (hat : s.clients i = .reading call key)
      (hrow : (bindText key).bind (s.db[·]?) = some value) :
    Moves lim s (.read i) { s with clients := update s.clients i (.inserting call key value) }
  | notFound {i call : ℕ} {key : Bytes} (hat : s.clients i = .reading call key)
      (hrow : (bindText key).bind (s.db[·]?) = none) :
    Moves lim s (.read i) { s with
      calls := returned s.calls call s.clock (keyNotFound key)
      clients := update s.clients i .idle }
  | insert {i call : ℕ} {key value : Bytes} (hat : s.clients i = .inserting call key value) :
    Moves lim s (.insert i) { s with
      cache := s.cache.insertRead lim.maxCacheBytes key value
      calls := returned s.calls call s.clock (.value value)
      clients := update s.clients i .idle }
  | clear {i : ℕ} (hidle : s.clients i = .idle) (hopen : s.stopRequested = false) :
    Moves lim s (.clear i) { s with
      cache := .empty
      calls := s.calls ++ [⟨.clear, s.clock, none⟩]
      clients := update s.clients i (.clearing s.calls.length) }
  | request {i call : ℕ} (hat : s.clients i = .clearing call) :
    Moves lim s (.request i) { s with
      clearRequested := true
      clearDone := false
      clients := update s.clients i (.awaiting call) }
  | cleared {i call : ℕ} (hat : s.clients i = .awaiting call) (hdone : s.clearDone = true) :
    Moves lim s (.cleared i) { s with
      calls := returned s.calls call s.clock .ok
      clients := update s.clients i .idle }
  | waitClear (hat : s.writer = .waiting) (hclear : s.clearRequested = true) :
    Moves lim s .wait { s with wakeRequested := false, writer := .deleting s.stopRequested }
  | waitFlush (hat : s.writer = .waiting) (hclear : s.clearRequested = false) :
    Moves lim s .wait { s with wakeRequested := false, writer := .flushing s.stopRequested }
  | delete {doStop : Bool} (hat : s.writer = .deleting doStop) :
    Moves lim s .delete { s with db := ∅, writer := .deleted doStop }
  | deleted {doStop : Bool} (hat : s.writer = .deleted doStop) :
    Moves lim s .deleted { s with clearRequested := false, clearDone := true, writer := .flushing doStop }
  | snapshotNone {doStop : Bool} (hat : s.writer = .flushing doStop) (hbatch : s.cache.batch = []) :
    Moves lim s .snapshot { s with writer := .next doStop true }
  | snapshot {doStop : Bool} (hat : s.writer = .flushing doStop) (hbatch : s.cache.batch ≠ []) :
    Moves lim s .snapshot { s with writer := .committing doStop s.cache.batch }
  | commit {doStop : Bool} {batch : List (Bytes × Bytes)} (hat : s.writer = .committing doStop batch) :
    Moves lim s (.commit true) { s with db := commitBatch s.db batch, writer := .marking doStop batch }
  | rollback {doStop : Bool} {batch : List (Bytes × Bytes)} (hat : s.writer = .committing doStop batch) :
    Moves lim s (.commit false) { s with writer := .next doStop false }
  | mark {doStop : Bool} {batch : List (Bytes × Bytes)} (hat : s.writer = .marking doStop batch) :
    Moves lim s .mark { s with
      cache := s.cache.markFlushed lim.maxCacheBytes batch
      writer := .next doStop true }
  | stop (hopen : s.stopRequested = false) : Moves lim s .stop { s with stopRequested := true }

theorem free_iff (s : Store) (i : ℕ) : s.free i = true ↔ s.clients i = .idle ∧ s.stopRequested = false := by
  rw [Store.free, Bool.and_eq_true, beq_iff_eq, Bool.not_eq_true']

variable {lim : Limits} {s t : Store} {a : Act}

theorem Store.act_moves (h : s.act lim a = some t) : Moves lim s a t := by
  cases a with
  | put i key value =>
    obtain ⟨hfree, h⟩ := ite_none_right_eq_some.1 h
    obtain ⟨hidle, hopen⟩ := (free_iff s i).1 hfree
    cases h
    unfold Store.put
    dsimp only
    split
    · exact .putWake hidle hopen
    · change Moves lim s _ { s with calls := returned (s.calls ++ [_]) s.calls.length s.clock .ok, cache := _ }
      rw [returned_snoc]
      exact .put hidle hopen
  | wake i | insert i | request i | delete | deleted | mark =>
    dsimp only [Store.act] at h
    split at h <;> cases h
    next hat =>
      constructor
      exact hat
  | get i key =>
    obtain ⟨hfree, h⟩ := ite_none_right_eq_some.1 h
    obtain ⟨hidle, hopen⟩ := (free_iff s i).1 hfree
    cases h
    unfold Store.get
    split
    · next entry hentry =>
      change Moves lim s _ { s with calls := returned (s.calls ++ [_]) s.calls.length s.clock _, cache := _ }
      rw [returned_snoc]
      exact .hit hidle hopen hentry
    · next hentry => exact .miss hidle hopen hentry
  | read i =>
    dsimp only [Store.act] at h
    split at h <;> cases h
    next hat =>
      unfold Store.read
      split
      · next hrow => exact .found hat hrow
      · next hrow => exact .notFound hat hrow
  | clear i =>
    obtain ⟨hfree, h⟩ := ite_none_right_eq_some.1 h
    obtain ⟨hidle, hopen⟩ := (free_iff s i).1 hfree
    cases h
    exact .clear hidle hopen
  | cleared i =>
    dsimp only [Store.act] at h
    split at h
    · next hat =>
      obtain ⟨hdone, h⟩ := ite_none_right_eq_some.1 h
      cases h
      exact .cleared hat hdone
    · cases h
  | wait =>
    dsimp only [Store.act] at h
    split at h <;> cases h
    next hat =>
      split
      · next hclear => exact .waitClear hat hclear
      · next hclear => exact .waitFlush hat (Bool.eq_false_iff.2 hclear)
  | snapshot =>
    dsimp only [Store.act] at h
    split at h <;> cases h
    next hat =>
      split
      · next hbatch => exact .snapshotNone hat hbatch
      · next hbatch => exact .snapshot hat hbatch
  | commit ok =>
    dsimp only [Store.act] at h
    split at h
    · next hat =>
      cases ok <;> cases h
      · exact .rollback hat
      · exact .commit hat
    · cases h
  | stop =>
    dsimp only [Store.act] at h
    split at h
    · cases h
    · next hopen =>
      cases h
      exact .stop (Bool.eq_false_iff.2 hopen)

theorem Store.step_moves (h : s.step lim a = some t) : ∃ u, Moves lim s a u ∧ t = { u with clock := u.clock + 1 } := by
  obtain ⟨u, hu, rfl⟩ := map_eq_some_iff.1 h
  exact ⟨u, act_moves hu, rfl⟩

theorem Moves.sound (hm : Moves lim s a t) (h : s.cache.Sound) : t.cache.Sound := by
  cases hm with
  | putWake | put => exact sound_put h _ _
  | hit _ _ hentry => exact sound_touch h hentry
  | insert => exact sound_insertRead _ h _ _
  | clear => exact sound_empty
  | mark => exact sound_markFlushed _ h _
  | _ => exact h

theorem Moves.dirty_cached (hm : Moves lim s a t) (hdirty : s.cache.entries[key]? = some ⟨value, true⟩)
    (hgone : t.cache.entries[key]? = none) :
    (∃ i, a = .clear i) ∨ ∃ doStop batch, s.writer = .marking doStop batch ∧ (key, value) ∈ batch := by
  cases hm with
  | clear => exact .inl ⟨_, rfl⟩
  | putWake | put =>
    rw [get_put] at hgone
    split at hgone
    · cases hgone
    · rw [hdirty] at hgone
      cases hgone
  | hit =>
    change s.cache.entries[key]? = none at hgone
    rw [hdirty] at hgone
    cases hgone
  | insert =>
    obtain h | ⟨-, v, h⟩ | ⟨-, h, -⟩ := get_insertRead lim.maxCacheBytes s.cache _ _ key
    · rw [← h, hgone] at hdirty
      cases hdirty
    · rw [hdirty] at h
      cases h
    · rw [hdirty] at h
      cases h
  | mark hat =>
    obtain h | ⟨v, hmem, h, -⟩ | ⟨-, v, h⟩ := get_markFlushed lim.maxCacheBytes s.cache _ key
    · rw [← h, hgone] at hdirty
      cases hdirty
    · rw [hdirty] at h
      cases h
      exact .inr ⟨_, _, hat, hmem⟩
    · rw [hdirty] at h
      cases h
  | _ =>
    rw [hdirty] at hgone
    cases hgone

def WriterAt.batch : WriterAt → List (Bytes × Bytes)
  | .committing _ batch | .marking _ batch => batch
  | _ => []

def WriterAt.deletes : WriterAt → Bool
  | .deleting _ | .deleted _ => true
  | _ => false

@[simp] theorem batch_next (doStop flushed : Bool) : (WriterAt.next doStop flushed).batch = [] := by
  cases doStop <;> rfl

@[simp] theorem deletes_next (doStop flushed : Bool) : (WriterAt.next doStop flushed).deletes = false := by
  cases doStop <;> rfl

theorem next_ne_marking (doStop flushed d : Bool) (b : List (Bytes × Bytes)) :
    WriterAt.next doStop flushed ≠ .marking d b := by
  cases doStop <;> exact nofun

def ClientAt.clears : ClientAt → Bool
  | .clearing _ | .awaiting _ => true
  | _ => false

def Store.Quiet (s : Store) : Prop := s.clearRequested = false ∧ s.writer.deletes = false

/- No client is in `clear_sqlite`: what is in the cache counts, and what is not is in the database. -/
structure Settled (m : Table Bytes) (s : Store) : Prop where
  nobody : ∀ i, (s.clients i).clears = false
  clean : ∀ key value : Bytes, s.cache.entries[key]? = some ⟨value, false⟩ → s.db[key]? = some value
  pinned : ∀ row ∈ s.writer.batch, ∃ value, s.cache.entries[row.1]? = some ⟨value, true⟩
  committed : ∀ d b, s.writer = .marking d b → ∀ row ∈ b, s.db[row.1]? = some row.2
  map : ∀ key : Bytes, m[key]? = (s.cache.entries[key]?.map CacheEntry.value).or s.db[key]?
  quiet : s.Quiet

/- Client `i` is in `clear_sqlite`: the cache is empty, and once the rows are deleted nothing writes. -/
structure Emptied (m : Table Bytes) (s : Store) (i : ℕ) : Prop where
  clears : (s.clients i).clears = true
  alone : ∀ j ≠ i, s.clients j = .idle
  empty : ∀ key : Bytes, s.cache.entries[key]? = none
  map : ∀ key : Bytes, m[key]? = none
  unasked : ∀ call, s.clients i = .clearing call → s.Quiet
  waits : ∀ call, s.clients i = .awaiting call → s.clearDone = false → s.clearRequested = true
  done : ∀ call, s.clients i = .awaiting call → s.clearDone = true → s.Quiet ∧ s.writer.batch = [] ∧
    ∀ key : Bytes, s.db[key]? = none
  deleted : ∀ d, s.writer = .deleted d → ∀ key : Bytes, s.db[key]? = none

def Store.map (db : Table Bytes) (s : Store) : Table Bytes := replay mapApply db s.calls

structure Fits (s : Store) : Prop where
  dirty : ∀ key value : Bytes, s.cache.entries[key]? = some ⟨value, true⟩ → Small key ∧ Small value
  batch : ∀ row ∈ s.writer.batch, Small row.1 ∧ Small row.2
  reading : ∀ i call key, s.clients i = .reading call key → Small key

structure Consistent (db : Table Bytes) (s : Store) : Prop where
  fits : Fits s
  distinct : Table.Distinct s.writer.batch
  phase : Settled (s.map db) s ∨ ∃ i, Emptied (s.map db) s i

/- Texts of at most 10^9 bytes, no call during a `clear`, and a value that a `get` puts into the
cache is still current. -/
def Calm (s : Store) : Act → Prop
  | .put _ key value => Small key ∧ Small value ∧ ∀ j, (s.clients j).clears = false
  | .get _ key => Small key ∧ ∀ j, (s.clients j).clears = false
  | .insert i => ∀ call key value, s.clients i = .inserting call key value → s.cache.entries[key]? = none →
      s.db[key]? = some value
  | .clear _ => ∀ j, s.clients j = .idle
  | _ => True

theorem insertRow_of_small (db : Table Bytes) {row : Bytes × Bytes} (hk : Small row.1) (hv : Small row.2) :
    insertRow db row = db.insert row.1 row.2 := by
  simp only [insertRow, bindText_of_small hk, bindText_of_small hv, columnText_some]

theorem commitBatch_eq (db : Table Bytes) (batch : List (Bytes × Bytes))
    (h : ∀ row ∈ batch, Small row.1 ∧ Small row.2) : commitBatch db batch = Table.insertAll db batch := by
  unfold commitBatch Table.insertAll
  induction batch generalizing db with
  | nil => rw [foldl_nil, foldl_nil]
  | cons row batch ih =>
    obtain ⟨hk, hv⟩ := h row (mem_cons_self ..)
    rw [foldl_cons, foldl_cons, insertRow_of_small db hk hv]
    exact ih _ fun r hr => h r (mem_cons_of_mem _ hr)

theorem Moves.fits (hm : Moves lim s a t) (hcalm : Calm s a) (h : Fits s) : Fits t := by
  have hput : ∀ {k v : Bytes}, Small k → Small v → ∀ key value : Bytes,
      (s.cache.put k v).entries[key]? = some ⟨value, true⟩ → Small key ∧ Small value := by
    intro k v hk hv key value he
    rw [get_put] at he
    split at he
    · next heq =>
      cases he
      exact ⟨heq ▸ hk, hv⟩
    · exact h.dirty key value he
  have hread : ∀ {i : ℕ} {place : ClientAt}, (∀ call key, place = .reading call key → Small key) →
      ∀ j call key, update s.clients i place j = .reading call key → Small key := by
    intro i place hplace j call key hj
    by_cases hji : j = i
    · subst hji
      rw [update_self] at hj
      exact hplace call key hj
    · rw [update_of_ne hji] at hj
      exact h.reading j call key hj
  cases hm with
  | putWake => exact ⟨hput hcalm.1 hcalm.2.1, h.batch, hread nofun⟩
  | put => exact ⟨hput hcalm.1 hcalm.2.1, h.batch, h.reading⟩
  | hit => exact { h with }
  | miss =>
    refine ⟨h.dirty, h.batch, hread fun call key heq => ?_⟩
    cases heq
    exact hcalm.1
  | insert =>
    refine ⟨fun key value he => ?_, h.batch, hread nofun⟩
    obtain hsame | ⟨hnone, -⟩ | ⟨-, -, hnew⟩ := get_insertRead lim.maxCacheBytes s.cache _ _ key
    · exact h.dirty key value (hsame ▸ he)
    · exact nomatch hnone.symm.trans he
    · exact nomatch hnew.symm.trans he
  | clear => exact ⟨fun key value he => absurd (get_empty key ▸ he) (by simp), h.batch, hread nofun⟩
  | mark =>
    refine ⟨fun key value he => ?_, by rw [batch_next]; simp, h.reading⟩
    obtain hsame | ⟨v, -, -, hnew | hnone⟩ | ⟨hnone, -⟩ := get_markFlushed lim.maxCacheBytes s.cache _ key
    · exact h.dirty key value (hsame ▸ he)
    · exact nomatch hnew.symm.trans he
    · exact nomatch hnone.symm.trans he
    · exact nomatch hnone.symm.trans he
  | snapshot => exact ⟨h.dirty, fun row hrow => h.dirty _ _ ((mem_batch ..).1 hrow), h.reading⟩
  | commit hat =>
    have hb := h.batch
    rw [hat] at hb
    exact ⟨h.dirty, hb, h.reading⟩
  | snapshotNone | rollback => exact ⟨h.dirty, by rw [batch_next]; simp, h.reading⟩
  | waitClear | waitFlush | delete | deleted => exact ⟨h.dirty, nofun, h.reading⟩
  | wake | found | notFound | request | cleared => exact ⟨h.dirty, h.batch, hread nofun⟩
  | stop => exact { h with }

theorem Moves.distinct (hm : Moves lim s a t) (h : Table.Distinct s.writer.batch) : Table.Distinct t.writer.batch := by
  cases hm with
  | snapshot => exact distinct_batch _
  | commit hat =>
    rw [hat] at h
    exact h
  | snapshotNone | rollback | mark =>
    rw [batch_next]
    exact .nil
  | waitClear | waitFlush | delete | deleted => exact .nil
  | _ => exact h

def Act.after (m : Table Bytes) : Act → Table Bytes
  | .put _ key value => m.insert key value
  | .clear _ => ∅
  | _ => m

theorem Moves.map (hm : Moves lim s a t) (db : Table Bytes) : t.map db = a.after (s.map db) := by
  cases hm with
  | putWake | put | hit | miss | clear => exact replay_snoc ..
  | wake | notFound | insert | cleared => exact replay_congr (map_op_returned ..) db
  | _ => rfl

theorem nobody_update (h : ∀ i, (clients i).clears = false) (i : ℕ) {place : ClientAt}
    (hplace : place.clears = false) (j : ℕ) : (update clients i place j).clears = false := by
  by_cases hji : j = i
  · subst hji
    rw [update_self]
    exact hplace
  · rw [update_of_ne hji]
    exact h j

variable {m : Table Bytes}

theorem settled_put (h : Settled m s) (key value : Bytes) {calls : List (Call StoreOp Answer)}
    (hclients : ∀ i, (clients i).clears = false) :
    Settled (m.insert key value) { s with cache := s.cache.put key value, calls := calls, clients := clients } := by
  refine ⟨hclients, ?_, ?_, h.committed, ?_, h.quiet⟩
  · intro k v he
    rw [get_put] at he
    split at he
    · cases he
    · exact h.clean k v he
  · intro row hrow
    rw [get_put]
    split
    · exact ⟨value, rfl⟩
    · exact h.pinned row hrow
  · intro k
    rw [get_put, get_insert]
    split
    · rfl
    · exact h.map k

theorem settled_insert (h : Settled m s) (max : ℕ) {calls : List (Call StoreOp Answer)}
    (hclients : ∀ i, (clients i).clears = false) (hrow : s.cache.entries[key]? = none → s.db[key]? = some value) :
    Settled m { s with cache := s.cache.insertRead max key value, calls := calls, clients := clients } := by
  have hcases := get_insertRead max s.cache key value
  refine ⟨hclients, ?_, ?_, h.committed, ?_, h.quiet⟩
  · intro k v he
    obtain hsame | ⟨hnone, -⟩ | ⟨rfl, hnone, hnew⟩ := hcases k
    · exact h.clean k v (hsame ▸ he)
    · exact nomatch hnone.symm.trans he
    · have := hnew.symm.trans he
      cases this
      exact hrow hnone
  · intro row hmem
    obtain ⟨v, hv⟩ := h.pinned row hmem
    obtain hsame | ⟨-, w, hclean⟩ | ⟨-, hnone, -⟩ := hcases row.1
    · exact ⟨v, hsame.trans hv⟩
    · exact nomatch hv.symm.trans hclean
    · exact nomatch hv.symm.trans hnone
  · intro k
    rw [h.map k]
    obtain hsame | ⟨hnone, v, hclean⟩ | ⟨rfl, hnone, hnew⟩ := hcases k
    · rw [hsame]
    · rw [hnone, hclean, h.clean k v hclean]
      rfl
    · rw [hnew, hnone, hrow hnone]
      rfl

theorem settled_commit (h : Settled m s) {batch : List (Bytes × Bytes)}
    (hat : s.writer = .committing doStop batch) (hfits : Fits s) (hdistinct : Table.Distinct s.writer.batch) :
    Settled m { s with db := commitBatch s.db batch, writer := .marking doStop batch } := by
  have hpinned := h.pinned
  have hsmall := hfits.batch
  rw [hat] at hpinned hsmall hdistinct
  have hcommit := commitBatch_eq s.db batch hsmall
  -- a key of the batch is cached, and dirty, so neither clean entries nor absent ones are touched
  have hother : ∀ key : Bytes, (∀ value, s.cache.entries[key]? ≠ some ⟨value, true⟩) →
      (commitBatch s.db batch)[key]? = s.db[key]? := by
    intro key hkey
    rw [hcommit]
    refine insertAll_of_not_mem _ _ _ fun row hrow heq => ?_
    obtain ⟨v, hv⟩ := hpinned row hrow
    exact hkey v (heq ▸ hv)
  refine ⟨h.nobody, ?_, hpinned, ?_, ?_, h.quiet.1, rfl⟩
  · intro k v he
    rw [hother k fun w hw => nomatch he.symm.trans hw]
    exact h.clean k v he
  · intro d b heq row hrow
    cases heq
    rw [hcommit]
    exact insertAll_of_mem _ _ _ _ hdistinct hrow
  · intro k
    rw [h.map k]
    cases he : s.cache.entries[k]? with
    | some entry => rfl
    | none => rw [hother k fun w hw => by rw [he] at hw; cases hw]

theorem settled_mark (h : Settled m s) {batch : List (Bytes × Bytes)} (hat : s.writer = .marking doStop batch)
    (max : ℕ) : Settled m { s with cache := s.cache.markFlushed max batch, writer := .next doStop true } := by
  have hcases := get_markFlushed max s.cache batch
  have hcommitted := h.committed doStop batch hat
  refine ⟨h.nobody, ?_, by rw [batch_next]; exact nofun, fun d b heq => (next_ne_marking _ _ d b heq).elim, ?_,
    h.quiet.1, deletes_next ..⟩
  · intro k v he
    obtain hsame | ⟨w, hmem, -, hnew | hnone⟩ | ⟨hnone, -⟩ := hcases k
    · exact h.clean k v (hsame ▸ he)
    · have := hnew.symm.trans he
      cases this
      exact hcommitted _ hmem
    · exact nomatch hnone.symm.trans he
    · exact nomatch hnone.symm.trans he
  · intro k
    rw [h.map k]
    obtain hsame | ⟨w, hmem, hold, hnew | hnone⟩ | ⟨hnone, v, hclean⟩ := hcases k
    · rw [hsame]
    · rw [hold, hnew]
      rfl
    · have hw : s.db[k]? = some w := hcommitted _ hmem
      rw [hold, hnone, hw]
      rfl
    · rw [hnone, hclean, h.clean k v hclean]
      rfl

theorem settled_clear (h : Settled m s) (hidle : ∀ j, s.clients j = .idle) (i : ℕ) (calls : List (Call StoreOp Answer)) :
    Emptied ∅ { s with cache := .empty, calls := calls, clients := update s.clients i (.clearing s.calls.length) }
      i := by
  have hself : update s.clients i (.clearing s.calls.length) i = .clearing s.calls.length :=
    update_self ..
  refine ⟨?_, ?_, fun key => get_empty key, fun key => get_empty key, fun _ _ => h.quiet, ?_, ?_, ?_⟩
  · dsimp only
    rw [hself]
    rfl
  · intro j hj
    dsimp only
    rw [update_of_ne hj]
    exact hidle j
  · intro call hat
    dsimp only at hat
    rw [hself] at hat
    cases hat
  · intro call hat
    dsimp only at hat
    rw [hself] at hat
    cases hat
  · intro d hat
    have hquiet := h.quiet.2
    rw [hat] at hquiet
    cases hquiet

theorem Settled.frame (h : Settled m s) (hdb : t.db = s.db) (hentries : t.cache.entries = s.cache.entries)
    (hclients : ∀ i, (t.clients i).clears = false) (hclear : t.clearRequested = s.clearRequested)
    (hdeletes : t.writer.deletes = false) (hbatch : ∀ row ∈ t.writer.batch, ∃ value : Bytes,
      s.cache.entries[row.1]? = some ⟨value, true⟩) (hmarking : ∀ d b, t.writer = .marking d b → s.writer = .marking d b) :
    Settled m t := by
  refine ⟨hclients, ?_, ?_, ?_, ?_, hclear.trans h.quiet.1, hdeletes⟩
  · rw [hentries, hdb]
    exact h.clean
  · rw [hentries]
    exact hbatch
  · intro d b heq
    rw [hdb]
    exact h.committed d b (hmarking d b heq)
  · rw [hentries, hdb]
    exact h.map

theorem Moves.settled (hm : Moves lim s a t) (hcalm : Calm s a) (hfits : Fits s)
    (hdistinct : Table.Distinct s.writer.batch) (h : Settled m s) :
    Settled (a.after m) t ∨ ∃ i, Emptied (a.after m) t i := by
  have hmove : ∀ {u : Store} {i : ℕ} {place : ClientAt}, place.clears = false → u.db = s.db →
      u.cache.entries = s.cache.entries → u.clearRequested = s.clearRequested → u.writer = s.writer →
      u.clients = update s.clients i place → Settled m u := by
    intro u i place hplace hdb hentries hclear hwriter hclients
    refine h.frame hdb hentries ?_ hclear (hwriter ▸ h.quiet.2) (hwriter ▸ h.pinned) fun d b heq => hwriter ▸ heq
    rw [hclients]
    exact nobody_update h.nobody i hplace
  cases hm with
  | putWake => exact .inl (settled_put h _ _ (nobody_update h.nobody _ rfl))
  | put => exact .inl (settled_put h _ _ h.nobody)
  | hit => exact .inl { h with }
  | wake | miss | found | notFound => exact .inl (hmove rfl rfl rfl rfl rfl rfl)
  | insert hat => exact .inl (settled_insert h _ (nobody_update h.nobody _ rfl) (hcalm _ _ _ hat))
  | @clear i => exact .inr ⟨i, settled_clear h hcalm i _⟩
  | @request i _ hat | @cleared i _ hat =>
    have hnobody := h.nobody i
    rw [hat] at hnobody
    cases hnobody
  | waitClear _ hclear =>
    have := h.quiet.1
    rw [hclear] at this
    cases this
  | delete hat | deleted hat =>
    have := h.quiet.2
    rw [hat] at this
    cases this
  | waitFlush => exact .inl (h.frame rfl rfl h.nobody rfl rfl nofun nofun)
  | snapshotNone | rollback =>
    exact .inl (h.frame rfl rfl h.nobody rfl (deletes_next ..) (by rw [batch_next]; exact nofun)
      fun d b heq => (next_ne_marking _ _ d b heq).elim)
  | snapshot =>
    exact .inl (h.frame rfl rfl h.nobody rfl rfl (fun row hrow => ⟨row.2, (mem_batch ..).1 hrow⟩) nofun)
  | commit hat => exact .inl (settled_commit h hat hfits hdistinct)
  | mark hat => exact .inl (settled_mark h hat _)
  | stop => exact .inl { h with }

variable {i : ℕ}

theorem Emptied.only (h : Emptied m s i) {j : ℕ} {place : ClientAt} (hat : s.clients j = place) (hidle : place ≠ .idle) :
    j = i := by
  by_contra hne
  exact hidle (hat ▸ h.alone j hne)

theorem emptied_request (h : Emptied m s i) (call : ℕ) : Emptied m { s with
      clearRequested := true, clearDone := false, clients := update s.clients i (.awaiting call) } i := by
  have hself : update s.clients i (.awaiting call) i = .awaiting call := update_self ..
  refine ⟨?_, ?_, h.empty, h.map, ?_, fun _ _ _ => rfl, nofun, h.deleted⟩
  · dsimp only
    rw [hself]
    rfl
  · intro j hj
    dsimp only
    rw [update_of_ne hj]
    exact h.alone j hj
  · intro c hc
    dsimp only at hc
    rw [hself] at hc
    cases hc

theorem emptied_cleared (h : Emptied m s i) {call : ℕ} (hat : s.clients i = .awaiting call) (hdone : s.clearDone = true)
    (calls : List (Call StoreOp Answer)) :
    Settled m { s with calls := calls, clients := update s.clients i .idle } := by
  obtain ⟨hquiet, hbatch, hdb⟩ := h.done call hat hdone
  refine ⟨?_, ?_, by rw [hbatch]; exact nofun, ?_, ?_, hquiet⟩
  · intro j
    dsimp only
    by_cases hj : j = i
    · rw [hj, update_self]
      rfl
    · rw [update_of_ne hj, h.alone j hj]
      rfl
  · intro key value he
    rw [show s.cache.entries[key]? = none from h.empty key] at he
    cases he
  · intro d b hat row hrow
    rw [show s.writer = .marking d b from hat] at hbatch
    rw [show b = [] from hbatch] at hrow
    cases hrow
  · intro key
    rw [h.map, h.empty, hdb]
    rfl

theorem Emptied.writer (h : Emptied m s i) (hclients : t.clients = s.clients)
    (hentries : ∀ key : Bytes, t.cache.entries[key]? = none) (hrequested : t.clearRequested = s.clearRequested)
    (hdone : t.clearDone = s.clearDone) (hdeletes : t.writer.deletes = false)
    (hbatch : s.writer.batch = [] → t.writer.batch = [] ∧ t.db = s.db) : Emptied m t i := by
  have hquiet : s.Quiet → t.Quiet := fun hq => ⟨hrequested.trans hq.1, hdeletes⟩
  refine ⟨hclients ▸ h.clears, hclients ▸ h.alone, hentries, h.map, ?_, ?_, ?_, ?_⟩
  · intro call hat
    exact hquiet (h.unasked call (hclients ▸ hat))
  · intro call hat hfalse
    exact hrequested.trans (h.waits call (hclients ▸ hat) (hdone ▸ hfalse))
  · intro call hat htrue
    obtain ⟨hq, hb, hdb⟩ := h.done call (hclients ▸ hat) (hdone ▸ htrue)
    obtain ⟨hb', hdb'⟩ := hbatch hb
    exact ⟨hquiet hq, hb', hdb' ▸ hdb⟩
  · intro d hat
    rw [hat] at hdeletes
    cases hdeletes

theorem emptied_delete (h : Emptied m s i) (hat : s.writer = .deleting doStop) :
    Emptied m { s with db := ∅, writer := .deleted doStop } i := by
  have hloud : ¬ s.Quiet := by
    intro hq
    have := hq.2
    rw [hat] at this
    cases this
  exact { h with
    unasked := fun call hc => absurd (h.unasked call hc) hloud
    done := fun call hc hd => absurd (h.done call hc hd).1 hloud
    deleted := fun _ _ key => get_empty key }

theorem emptied_deleted (h : Emptied m s i) (hat : s.writer = .deleted doStop) :
    Emptied m { s with clearRequested := false, clearDone := true, writer := .flushing doStop } i :=
  { h with
    unasked := fun _ _ => ⟨rfl, rfl⟩
    waits := nofun
    done := fun _ _ _ => ⟨⟨rfl, rfl⟩, rfl, h.deleted doStop hat⟩
    deleted := nofun }

theorem batch_empty {c : Cache} (h : ∀ key : Bytes, c.entries[key]? = none) : c.batch = [] := by
  refine List.eq_nil_iff_forall_not_mem.2 fun row hrow => ?_
  have he := (mem_batch c row.1 row.2).1 hrow
  rw [h] at he
  cases he

theorem Moves.emptied (hm : Moves lim s a t) (hcalm : Calm s a) (h : Emptied m s i) :
    Settled (a.after m) t ∨ ∃ i, Emptied (a.after m) t i := by
  have hclears : (s.clients i).clears ≠ false := by rw [h.clears]; exact Bool.noConfusion
  have hnot : ∀ {j : ℕ} {place : ClientAt}, s.clients j = place → place ≠ .idle → place.clears = true := by
    intro j place hat hidle
    have hj := h.only hat hidle
    rw [← hat, hj]
    exact h.clears
  cases hm with
  | putWake | put => exact absurd (hcalm.2.2 i) hclears
  | hit | miss => exact absurd (hcalm.2 i) hclears
  | clear =>
    refine absurd ?_ hclears
    rw [hcalm i]
    rfl
  | wake hat | found hat | notFound hat | insert hat => cases hnot hat nofun
  | request hat =>
    cases h.only hat nofun
    exact .inr ⟨i, emptied_request h _⟩
  | cleared hat hdone =>
    cases h.only hat nofun
    exact .inl (emptied_cleared h hat hdone _)
  | waitClear _ hclear =>
    have hloud : ¬ s.Quiet := fun hq => by
      rw [hq.1] at hclear
      cases hclear
    exact .inr ⟨i, { h with
      unasked := fun call hc => absurd (h.unasked call hc) hloud
      done := fun call hc hd => absurd (h.done call hc hd).1 hloud
      deleted := nofun }⟩
  | waitFlush => exact .inr ⟨i, h.writer rfl h.empty rfl rfl rfl fun _ => ⟨rfl, rfl⟩⟩
  | delete hat => exact .inr ⟨i, emptied_delete h hat⟩
  | deleted hat => exact .inr ⟨i, emptied_deleted h hat⟩
  | snapshotNone | rollback =>
    exact .inr ⟨i, h.writer rfl h.empty rfl rfl (deletes_next ..) fun _ => ⟨batch_next .., rfl⟩⟩
  | snapshot _ hbatch => exact absurd (batch_empty h.empty) hbatch
  | commit hat =>
    refine .inr ⟨i, h.writer rfl h.empty rfl rfl rfl fun hb => ?_⟩
    rw [hat] at hb
    cases hb
    exact ⟨rfl, rfl⟩
  | mark =>
    exact .inr ⟨i, h.writer rfl (fun key => markFlushed_none (h.empty key) _ _) rfl rfl (deletes_next ..) fun _ =>
      ⟨batch_next .., rfl⟩⟩
  | stop => exact .inr ⟨i, { h with }⟩

theorem Moves.consistent (hm : Moves lim s a t) (hcalm : Calm s a) (h : Consistent db s) : Consistent db t := by
  refine ⟨hm.fits hcalm h.fits, hm.distinct h.distinct, ?_⟩
  rw [hm.map db]
  obtain hs | ⟨i, he⟩ := h.phase
  · exact hm.settled hcalm h.fits h.distinct hs
  · exact hm.emptied hcalm he

theorem Consistent.tick (h : Consistent db s) (n : ℕ) : Consistent db { s with clock := n } := by
  refine ⟨{ h.fits with }, h.distinct, ?_⟩
  obtain hs | ⟨i, he⟩ := h.phase
  · exact .inl { hs with }
  · exact .inr ⟨i, { he with }⟩

theorem consistent_init (db : Table Bytes) : Consistent db { db := db } := by
  refine ⟨⟨fun key value he => ?_, nofun, nofun⟩, .nil,
    .inl ⟨fun _ => rfl, fun key value he => ?_, nofun, nofun, fun key => rfl, rfl, rfl⟩⟩
  · cases he
  · cases he

theorem Store.step_consistent (h : s.step lim a = some t) (hcalm : Calm s a) (hs : Consistent db s) :
    Consistent db t := by
  obtain ⟨u, hm, rfl⟩ := step_moves h
  exact (hm.consistent hcalm hs).tick _

end AgentCpp.Sqlite
