import AgentCpp.Rag.VectorStore
import AgentCpp.Stores.Sqlite
import Mathlib.Data.Finset.Lattice.Fold

/-!
# The SQLite vector store (`sqlite_vec_data_source.cpp`)

`upsert` and `erase` run in a transaction that a failing statement rolls back; `clear` is one
script without a rollback. Which statements of a call fail is given with the call. Texts are bound
as in the key-value store of `Stores.Sqlite`, with the result of the bind ignored.
-/

namespace AgentCpp.Stores.Vectors
open Lib Rag Sqlite

structure ChunkRow where
  rowid : ℕ
  id : Bytes
  text : Option Bytes
  metadata : Option Bytes
  deriving DecidableEq

/- A table is the set of its rows. -/
structure Tables (F : Type) where
  chunks : Finset ChunkRow := ∅
  vectors : Finset (ℕ × List F) := ∅
  deriving DecidableEq

inductive Statement where
  | beginTx | find | insertChunk | updateChunk | deleteChunk | prepareInsertVec | insertVec | deleteVec | commit
  | clearVectors | clearChunks | prepareQuery | query
  deriving DecidableEq

/- The message a statement fails with. A failing statement changes nothing. -/
abbrev SqlFaults := Statement → Option Bytes

/- `saved` holds the tables at the BEGIN of an open transaction. -/
structure Connection (F : Type) where
  dimensions : ℕ
  metaTable : Bytes
  tables : Tables F := {}
  saved : Option (Tables F) := none
  deriving DecidableEq

variable {F S α : Type}

/- Statements inside a transaction: what was done stays done when a later one fails. -/
abbrev Sql (F : Type) := ExceptT Error (StateM (Tables F))

def execError (msg : Bytes) : Error := ⟨.filesystemError, lit "sqlite-vec: " ++ msg⟩

def sqliteError (what msg : Bytes) : Error := execError (what ++ lit ": " ++ msg)

def stepDone (faults : SqlFaults) (st : Statement) (what : Bytes) (effect : Tables F → Tables F) : Sql F Unit :=
  match faults st with
  | some msg => throw (sqliteError what msg)
  | none => modify effect

/- 0 when absent; a NULL id is equal to none. -/
def findRowid (faults : SqlFaults) (id : Bytes) : Sql F ℕ :=
  match faults .find with
  | some msg => throw (sqliteError (lit "lookup failed") msg)
  | none => return ((← get).chunks.filter fun c => some c.id = bindText id).sup ChunkRow.rowid

def execBegin (faults : SqlFaults) (c : Connection F) : Result (Connection F) :=
  if c.saved.isSome then .error (execError (lit "cannot start a transaction within a transaction"))
  else match faults .beginTx with
    | some msg => .error (execError msg)
    | none => .ok { c with saved := some c.tables }

section Ok

variable {faults : SqlFaults} {t t' : Tables F} {c c' : Connection F} {id : Bytes}

theorem sql_bind_ok {β : Type} {x : Sql F α} {f : α → Sql F β} {b : β} :
    (x >>= f) t = (.ok b, t') ↔ ∃ a u, x t = (.ok a, u) ∧ f a u = (.ok b, t') := by
  have hrun : (x >>= f) t = ExceptT.bindCont f (x t).1 (x t).2 := rfl
  rw [hrun]
  rcases x t with ⟨e | a, u⟩
  · exact ⟨nofun, nofun⟩
  · exact ⟨fun h => ⟨a, u, rfl, h⟩, fun ⟨_, _, h, h'⟩ => by cases h; exact h'⟩

theorem stepDone_ok {st : Statement} {what : Bytes} {eff : Tables F → Tables F} {a : Unit} :
    stepDone faults st what eff t = (.ok a, t') ↔ faults st = none ∧ eff t = t' := by
  unfold stepDone
  cases faults st with
  | none => exact ⟨fun h => ⟨rfl, congrArg Prod.snd h⟩, fun h => by rw [← h.2]; rfl⟩
  | some msg => exact ⟨nofun, nofun⟩

theorem findRowid_ok {rowid : ℕ} : findRowid faults id t = (.ok rowid, t') ↔
      faults .find = none ∧ (t.chunks.filter fun c => some c.id = bindText id).sup ChunkRow.rowid = rowid ∧ t = t' := by
  unfold findRowid
  cases faults .find with
  | none => exact ⟨fun h => ⟨rfl, by cases h; exact ⟨rfl, rfl⟩⟩, fun h => by rw [← h.2.1, ← h.2.2]; rfl⟩
  | some msg => exact ⟨nofun, nofun⟩

theorem execBegin_ok (hc : c.saved = none) (h : execBegin faults c = .ok c') :
    faults .beginTx = none ∧ c' = { c with saved := some c.tables } := by
  simp only [execBegin, hc] at h
  cases hf : faults .beginTx <;> rw [hf] at h <;> cases h
  exact ⟨rfl, rfl⟩

end Ok

/- The rowid SQLite gives to the next row. -/
def nextRowid (chunks : Finset ChunkRow) : ℕ := chunks.sup ChunkRow.rowid + 1

/- `id` is NOT NULL. -/
def insertChunk (faults : SqlFaults) (metaTable : Bytes) (rowid : ℕ) (id text metadataJson : Bytes) : Sql F Unit :=
  match bindText id with
  | none => do
    stepDone faults .insertChunk (lit "chunk insert failed") fun t => t
    throw (sqliteError (lit "chunk insert failed") (lit "NOT NULL constraint failed: " ++ metaTable ++ lit ".id"))
  | some id => stepDone faults .insertChunk (lit "chunk insert failed") fun t =>
      { t with chunks := insert ⟨rowid, id, bindText text, bindText metadataJson⟩ t.chunks }

/- `sqlite3_bind_blob(.., static_cast<int>(embedding.size_bytes()), ..)`. A vec0 table has at most 8192 dimensions, so
an embedding of its dimension gives a length that SQLite takes. -/
def bindBlob (embedding : List F) : List F := embedding.take ((int32 (4 * embedding.length)).toNat / 4)

def insertVec [DecidableEq F] (faults : SqlFaults) (rowid : ℕ) (embedding : List F) : Sql F Unit := do
  stepDone faults .prepareInsertVec (lit "vector insert prepare failed") fun t => t
  stepDone faults .insertVec (lit "vector insert failed") fun t =>
    { t with vectors := insert (rowid, bindBlob embedding) t.vectors }

def vsUpsertLocked [DecidableEq F] (faults : SqlFaults) (metaTable id text : Bytes) (embedding : List F)
    (metadataJson : Bytes) : Sql F Unit := do
  let rowid ← findRowid faults id
  if rowid > 0 then
    stepDone faults .updateChunk (lit "chunk update failed") fun t =>
      { t with chunks := t.chunks.image fun c =>
          if c.rowid = rowid then { c with text := bindText text, metadata := bindText metadataJson } else c }
    stepDone faults .deleteVec (lit "vector delete failed") fun t => { t with vectors := t.vectors.filter (·.1 ≠ rowid) }
    insertVec faults rowid embedding
  else
    let rowid := nextRowid (← get).chunks
    insertChunk faults metaTable rowid id text metadataJson
    insertVec faults rowid embedding

def vsEraseLocked (faults : SqlFaults) (id : Bytes) : Sql F Bool := do
  let rowid ← findRowid faults id
  if rowid > 0 then
    stepDone faults .deleteVec (lit "vector delete failed") fun t => { t with vectors := t.vectors.filter (·.1 ≠ rowid) }
    stepDone faults .deleteChunk (lit "chunk delete failed") fun t => { t with chunks := t.chunks.filter (·.rowid ≠ rowid) }
  return rowid > 0

def rollback (c : Connection F) : Connection F := { c with tables := c.saved.getD c.tables, saved := none }

/- BEGIN, the statements, COMMIT, and ROLLBACK when one of them fails. -/
def transact (faults : SqlFaults) (c : Connection F) (body : Sql F α) : Result α × Connection F :=
  match execBegin faults c with
  | .error e => (.error e, c)
  | .ok c =>
    match body c.tables with
    | (.error e, t) => (.error e, rollback { c with tables := t })
    | (.ok a, t) =>
      match faults .commit with
      | some msg => (.error (execError msg), rollback { c with tables := t })
      | none => (.ok a, { c with tables := t, saved := none })

def vsUpsert [DecidableEq F] (faults : SqlFaults) (c : Connection F) (id text : Bytes) (embedding : List F)
    (metadataJson : Bytes) :
    Result Unit × Connection F :=
  if id = [] then (fail .invalidConfig (lit "sqlite-vec: id must not be empty."), c)
  else if int32 embedding.length ≠ c.dimensions then
    (fail .invalidConfig (lit "sqlite-vec: embedding has " ++ decimal embedding.length ++ lit " dimensions, the store " ++
      decimal c.dimensions ++ lit "."), c)
  else transact faults c (vsUpsertLocked faults c.metaTable id text embedding metadataJson)

def vsErase (faults : SqlFaults) (c : Connection F) (id : Bytes) : Result Bool × Connection F :=
  transact faults c (vsEraseLocked faults id)

/- "BEGIN; DELETE FROM vec; DELETE FROM meta; COMMIT;" stops at the first statement that fails. -/
def vsClear (faults : SqlFaults) (c : Connection F) : Result Unit × Connection F :=
  match execBegin faults c with
  | .error e => (.error e, c)
  | .ok c =>
    match faults .clearVectors with
    | some msg => (.error (execError msg), c)
    | none =>
      let c := { c with tables := { c.tables with vectors := ∅ } }
      match faults .clearChunks with
      | some msg => (.error (execError msg), c)
      | none =>
        let c := { c with tables := { c.tables with chunks := ∅ } }
        match faults .commit with
        | some msg => (.error (execError msg), c)
        | none => (.ok (), { c with saved := none })

def vsQuery (faults : SqlFaults) (knn : Tables F → List F → ℕ → List (ChunkRow × S)) (c : Connection F)
    (embedding : List F) (k : ℤ) : Result (List (VectorHit S)) :=
  if int32 embedding.length ≠ c.dimensions then
    fail .invalidConfig (lit "sqlite-vec: query has " ++ decimal embedding.length ++ lit " dimensions, the store " ++
      decimal c.dimensions ++ lit ".")
  else if k ≤ 0 then .ok []
  else match faults .prepareQuery with
    | some msg => .error (sqliteError (lit "query prepare failed") msg)
    | none =>
      match faults .query with
      | some msg => .error (sqliteError (lit "query failed") msg)
      | none => .ok ((knn c.tables (bindBlob embedding) (min k.toNat 4096)).map fun hit =>
          ⟨hit.1.id, columnText hit.1.text, columnText hit.1.metadata, hit.2⟩)

structure Consistent (t : Tables F) : Prop where
  ids : ∀ a ∈ t.chunks, ∀ b ∈ t.chunks, a.id = b.id → a = b
  rowids : ∀ a ∈ t.chunks, ∀ b ∈ t.chunks, a.rowid = b.rowid → a = b
  positive : ∀ c ∈ t.chunks, 0 < c.rowid
  vectors : ∀ p ∈ t.vectors, ∀ q ∈ t.vectors, p.1 = q.1 → p = q
  same : t.chunks.image ChunkRow.rowid = t.vectors.image Prod.fst

/- What a query can read. -/
def Stored (t : Tables F) (id : Bytes) (v : VectorEntry F) : Prop :=
  ∃ c ∈ t.chunks, c.id = id ∧ columnText c.text = v.text ∧ columnText c.metadata = v.metadata ∧
    (c.rowid, v.embedding) ∈ t.vectors

def effect : VectorCall F → (Bytes → VectorEntry F → Prop) → Bytes → VectorEntry F → Prop
  | .upsert id text embedding metadataJson, held => fun k v =>
    if k = id then v = ⟨text, embedding, metadataJson⟩ else held k v
  | .erase id, held => fun k v => k ≠ id ∧ held k v
  | .clear, _ => fun _ _ => False
  | .query _ _, held => held

section Calls

variable (knn : Tables F → List F → ℕ → List (ChunkRow × S))

def vsCall [DecidableEq F] (c : Connection F) (call : VectorCall F × SqlFaults) : Result Unit × Connection F :=
  match call.1 with
  | .upsert id text embedding metadataJson => vsUpsert call.2 c id text embedding metadataJson
  | .erase id => ((vsErase call.2 c id).1.map fun _ => (), (vsErase call.2 c id).2)
  | .clear => vsClear call.2 c
  | .query embedding k => ((vsQuery call.2 knn c embedding k).map fun _ => (), c)

def vsRun [DecidableEq F] (c : Connection F) (calls : List (VectorCall F × SqlFaults)) : Connection F :=
  calls.foldl (fun c call => (vsCall knn c call).2) c

end Calls

/- SQLite binds every text and vector of the call whole. -/
def Sized : VectorCall F → Prop
  | .upsert id text embedding metadataJson =>
    Sqlite.Small id ∧ Sqlite.Small text ∧ Sqlite.Small metadataJson ∧ 4 * embedding.length ≤ 10 ^ 9
  | .erase id => Sqlite.Small id
  | .clear | .query _ _ => True

section Statements

variable {faults : SqlFaults} {t t' : Tables F} {id text metadataJson : Bytes} {embedding : List F}

theorem Consistent.put {rowid : ℕ} (ht : Consistent t) (hpos : 0 < rowid)
    (hfresh : ∀ c ∈ t.chunks, c.id = id ↔ c.rowid = rowid)
    (hchunks : ∀ c, c ∈ t'.chunks ↔ c = ⟨rowid, id, some text, some metadataJson⟩ ∨ c ∈ t.chunks ∧ c.rowid ≠ rowid)
    (hvectors : ∀ p, p ∈ t'.vectors ↔ p = (rowid, embedding) ∨ p ∈ t.vectors ∧ p.1 ≠ rowid) :
    Consistent t' ∧ ∀ k v, Stored t' k v ↔ effect (.upsert id text embedding metadataJson) (Stored t) k v := by
  obtain ⟨hids, hrowids, hpositive, hvecs, hsame⟩ := ht
  refine ⟨⟨?_, ?_, ?_, ?_, ?_⟩, fun k v => ?_⟩
  · grind
  · grind
  · grind
  · grind
  · ext r
    have hr := Finset.ext_iff.1 hsame r
    simp only [Finset.mem_image, hchunks, hvectors] at hr ⊢
    by_cases hself : rowid = r
    · simp [hself]
    · grind
  · obtain ⟨vtext, vembedding, vmetadata⟩ := v
    simp only [Stored, effect, hchunks, or_and_right]
    by_cases hk : k = id
    · grind
    · grind

theorem Consistent.drop {rowid : ℕ} (ht : Consistent t) (hrow : ∀ c ∈ t.chunks, c.id = id ↔ c.rowid = rowid)
    (hchunks : ∀ c, c ∈ t'.chunks ↔ c ∈ t.chunks ∧ c.rowid ≠ rowid)
    (hvectors : ∀ p, p ∈ t'.vectors ↔ p ∈ t.vectors ∧ p.1 ≠ rowid) :
    Consistent t' ∧ ∀ k v, Stored t' k v ↔ effect (.erase id) (Stored t) k v := by
  obtain ⟨hids, hrowids, hpositive, hvecs, hsame⟩ := ht
  refine ⟨⟨by grind, by grind, by grind, by grind, ?_⟩, fun k v => ?_⟩
  · ext r
    have hr := Finset.ext_iff.1 hsame r
    grind
  · simp only [Stored, effect]
    grind

theorem Consistent.find (ht : Consistent t) (id : Bytes) :
    (∀ c ∈ t.chunks, c.id ≠ id) ∧ (t.chunks.filter fun c => c.id = id).sup ChunkRow.rowid = 0 ∨
      ∃ c ∈ t.chunks, c.id = id ∧ (t.chunks.filter fun c => c.id = id).sup ChunkRow.rowid = c.rowid := by
  by_cases hmem : ∃ c ∈ t.chunks, c.id = id
  · obtain ⟨c, hc, hid⟩ := hmem
    have hone : (t.chunks.filter fun c => c.id = id) = {c} := by
      ext d
      simp only [Finset.mem_filter, Finset.mem_singleton]
      exact ⟨fun hd => ht.ids d hd.1 c hc (hd.2.trans hid.symm), fun hd => hd ▸ ⟨hc, hid⟩⟩
    exact .inr ⟨c, hc, hid, by rw [hone, Finset.sup_singleton]⟩
  · have hnone : (t.chunks.filter fun c => c.id = id) = ∅ :=
      Finset.filter_eq_empty_iff.2 fun c hc hid => hmem ⟨c, hc, hid⟩
    exact .inl ⟨fun c hc hid => hmem ⟨c, hc, hid⟩, by rw [hnone]; rfl⟩

theorem Consistent.rowid_iff (ht : Consistent t) {c : ChunkRow} (hc : c ∈ t.chunks) :
    ∀ d ∈ t.chunks, d.id = c.id ↔ d.rowid = c.rowid :=
  fun d hd => ⟨fun h => congrArg ChunkRow.rowid (ht.ids d hd c hc h), fun h => congrArg ChunkRow.id (ht.rowids d hd c hc h)⟩

theorem lt_nextRowid {chunks : Finset ChunkRow} {c : ChunkRow} (h : c ∈ chunks) : c.rowid < nextRowid chunks :=
  Nat.lt_succ_of_le (Finset.le_sup h)

theorem bindBlob_of_small (h : 4 * embedding.length ≤ 10 ^ 9) : bindBlob embedding = embedding := by
  have hn : int32 (4 * embedding.length) = 4 * embedding.length := int32_of_small (by omega) (by omega)
  rw [bindBlob, hn]
  exact List.take_of_length_le (by omega)

theorem insertVec_ok [DecidableEq F] {rowid : ℕ} (h : 4 * embedding.length ≤ 10 ^ 9) :
    insertVec faults rowid embedding t = (.ok (), t') ↔
      (faults .prepareInsertVec = none ∧ faults .insertVec = none) ∧
        { t with vectors := insert (rowid, embedding) t.vectors } = t' := by
  simp only [insertVec, sql_bind_ok, stepDone_ok, bindBlob_of_small h]
  grind

theorem insertChunk_ok {rowid : ℕ} {metaTable : Bytes} (hid : Sqlite.Small id) :
    insertChunk faults metaTable rowid id text metadataJson t = (.ok (), t') ↔ faults .insertChunk = none ∧
      { t with chunks := insert ⟨rowid, id, bindText text, bindText metadataJson⟩ t.chunks } = t' := by
  simp only [insertChunk, bindText_of_small hid]
  exact stepDone_ok

theorem vsUpsertLocked_ok [DecidableEq F] {metaTable : Bytes} (ht : Consistent t)
    (hsized : Sized (.upsert id text embedding metadataJson))
    (h : vsUpsertLocked faults metaTable id text embedding metadataJson t = (.ok (), t')) :
    Consistent t' ∧ ∀ k v, Stored t' k v ↔ effect (.upsert id text embedding metadataJson) (Stored t) k v := by
  obtain ⟨hid, htext, hmetadata, hembedding⟩ := hsized
  obtain ⟨rowid, u, hfind, h⟩ := sql_bind_ok.1 h
  rw [findRowid_ok, bindText_of_small hid] at hfind
  obtain ⟨-, rfl, rfl⟩ := hfind
  simp only [Option.some.injEq] at h
  rcases ht.find id with ⟨hnone, hzero⟩ | ⟨c, hc, rfl, hrowid⟩
  · rw [hzero] at h
    obtain ⟨u, w, hget, h⟩ := sql_bind_ok.1 h
    cases hget
    simp only [sql_bind_ok, insertChunk_ok hid, insertVec_ok hembedding, bindText_of_small htext,
      bindText_of_small hmetadata] at h
    obtain ⟨-, -, ⟨-, rfl⟩, -, rfl⟩ := h
    have hnew : ∀ d ∈ t.chunks, d.rowid ≠ nextRowid t.chunks := fun d hd => (lt_nextRowid hd).ne
    have hnewvec : ∀ p ∈ t.vectors, p.1 ≠ nextRowid t.chunks := by
      intro p hp
      have hp' : p.1 ∈ t.chunks.image ChunkRow.rowid := ht.same ▸ Finset.mem_image_of_mem _ hp
      obtain ⟨d, hd, hrow⟩ := Finset.mem_image.1 hp'
      exact hrow ▸ hnew d hd
    refine ht.put (Nat.succ_pos _) (fun d hd => iff_of_false (hnone d hd) (hnew d hd)) (fun d => ?_) fun p => ?_
    · rw [Finset.mem_insert]
      exact or_congr_right ⟨fun hd => ⟨hd, hnew d hd⟩, And.left⟩
    · rw [Finset.mem_insert]
      exact or_congr_right ⟨fun hp => ⟨hp, hnewvec p hp⟩, And.left⟩
  · rw [hrowid, if_pos (ht.positive c hc)] at h
    simp only [sql_bind_ok, stepDone_ok, insertVec_ok hembedding, bindText_of_small htext, bindText_of_small hmetadata] at h
    obtain ⟨-, -, ⟨-, rfl⟩, -, -, ⟨-, rfl⟩, -, rfl⟩ := h
    refine ht.put (ht.positive c hc) (ht.rowid_iff hc) (fun d => ?_) fun p => ?_
    · have huniq := ht.rowids
      grind
    · simp only [Finset.mem_insert, Finset.mem_filter]

theorem vsEraseLocked_ok {found : Bool} (ht : Consistent t) (hid : Sqlite.Small id)
    (h : vsEraseLocked faults id t = (.ok found, t')) :
    Consistent t' ∧ ∀ k v, Stored t' k v ↔ effect (.erase id) (Stored t) k v := by
  obtain ⟨rowid, u, hfind, h⟩ := sql_bind_ok.1 h
  rw [findRowid_ok, bindText_of_small hid] at hfind
  obtain ⟨-, rfl, rfl⟩ := hfind
  simp only [Option.some.injEq] at h
  rcases ht.find id with ⟨hnone, hzero⟩ | ⟨c, hc, rfl, hrowid⟩
  · rw [hzero] at h
    cases h
    refine ⟨ht, fun k v => ⟨fun hv => ⟨?_, hv⟩, And.right⟩⟩
    obtain ⟨c, hc, hid, -⟩ := hv
    exact hid ▸ hnone c hc
  · rw [hrowid] at h
    simp only [ht.positive c hc, ↓reduceIte, sql_bind_ok, stepDone_ok] at h
    obtain ⟨-, -, ⟨-, rfl⟩, -, -, ⟨-, rfl⟩, h⟩ := h
    cases h
    exact ht.drop (ht.rowid_iff hc) (fun d => by simp) fun p => by simp

end Statements

section Runs

variable {faults : SqlFaults} {c : Connection F}

def Atomic (c : Connection F) (call : VectorCall F) (r : Result Unit × Connection F) : Prop :=
  r.1 = .ok () ∧ (∀ k v, Stored r.2.tables k v ↔ effect call (Stored c.tables) k v) ∨
    (∃ e, r.1 = .error e) ∧ r.2.tables = c.tables

structure Settled (c : Connection F) : Prop where
  consistent : Consistent c.tables
  outside : c.saved = none

theorem transact_cases (faults : SqlFaults) (hc : Settled c) (body : Sql F α) :
    (∃ e, transact faults c body = (.error e, c)) ∨
      ∃ a t, body c.tables = (.ok a, t) ∧ transact faults c body = (.ok a, { c with tables := t }) := by
  unfold transact
  cases hbegin : execBegin faults c with
  | error e => exact .inl ⟨e, rfl⟩
  | ok c' =>
    obtain ⟨-, rfl⟩ := execBegin_ok hc.outside hbegin
    have hback : ∀ t, rollback { c with tables := t, saved := some c.tables } = c := by
      simp [rollback, ← hc.outside]
    rcases hbody : body c.tables with ⟨e | a, t⟩
    · exact .inl ⟨e, by simp [hbody, hback]⟩
    · cases hcommit : faults .commit with
      | some msg => exact .inl ⟨execError msg, by simp [hbody, hback]⟩
      | none => exact .inr ⟨a, t, rfl, by simp [hbody, hc.outside]⟩

theorem vsCall_atomic [DecidableEq F] (knn : Tables F → List F → ℕ → List (ChunkRow × S)) (hc : Settled c)
    (call : VectorCall F × SqlFaults) (hsized : Sized call.1) (hclear : call.1 = .clear → call.2 .beginTx = none →
      call.2 .clearVectors = none ∧ call.2 .clearChunks = none ∧ call.2 .commit = none) :
    Settled (vsCall knn c call).2 ∧ Atomic c call.1 (vsCall knn c call) := by
  obtain ⟨call, faults⟩ := call
  cases call with
  | upsert id text embedding metadataJson =>
    simp only [vsCall, vsUpsert]
    split
    · exact ⟨hc, .inr ⟨⟨_, rfl⟩, rfl⟩⟩
    · split
      · exact ⟨hc, .inr ⟨⟨_, rfl⟩, rfl⟩⟩
      · rcases transact_cases faults hc (vsUpsertLocked faults c.metaTable id text embedding metadataJson) with
          ⟨e, he⟩ | ⟨a, t, hbody, he⟩
        · rw [he]
          exact ⟨hc, .inr ⟨⟨e, rfl⟩, rfl⟩⟩
        · rw [he]
          obtain ⟨hcons, heff⟩ := vsUpsertLocked_ok hc.consistent hsized hbody
          exact ⟨⟨hcons, hc.outside⟩, .inl ⟨rfl, heff⟩⟩
  | erase id =>
    simp only [vsCall, vsErase]
    rcases transact_cases faults hc (vsEraseLocked faults id) with ⟨e, he⟩ | ⟨a, t, hbody, he⟩
    · rw [he]
      exact ⟨hc, .inr ⟨⟨e, rfl⟩, rfl⟩⟩
    · rw [he]
      obtain ⟨hcons, heff⟩ := vsEraseLocked_ok hc.consistent hsized hbody
      exact ⟨⟨hcons, hc.outside⟩, .inl ⟨rfl, heff⟩⟩
  | clear =>
    simp only [vsCall, vsClear]
    cases hbegin : execBegin faults c with
    | error e => exact ⟨hc, .inr ⟨⟨e, rfl⟩, rfl⟩⟩
    | ok c' =>
      obtain ⟨hfault, rfl⟩ := execBegin_ok hc.outside hbegin
      obtain ⟨hvectors, hchunks, hcommit⟩ :
        faults .clearVectors = none ∧ faults .clearChunks = none ∧ faults .commit = none := hclear rfl hfault
      simp only [hvectors, hchunks, hcommit]
      exact ⟨⟨⟨by simp, by simp, by simp, by simp, by simp⟩, rfl⟩, .inl ⟨rfl, by simp [Stored, effect]⟩⟩
  | query embedding k =>
    refine ⟨hc, ?_⟩
    simp only [vsCall]
    cases vsQuery faults knn c embedding k with
    | error e => exact .inr ⟨⟨e, rfl⟩, rfl⟩
    | ok hits => exact .inl ⟨rfl, fun k v => Iff.rfl⟩

/-- Along calls whose texts SQLite binds whole and of which no `clear` fails after its BEGIN, each call takes full
effect or none, the tables agree, and no call leaves a transaction open, so none is refused for an earlier failure. -/
theorem sqliteVectors_atomic [DecidableEq F] (knn : Tables F → List F → ℕ → List (ChunkRow × S))
    (c : Connection F) (hc : Settled c)
    (calls : List (VectorCall F × SqlFaults)) (call : VectorCall F × SqlFaults)
    (hsized : ∀ x ∈ calls ++ [call], Sized x.1) (hclear : ∀ x ∈ calls ++ [call], x.1 = .clear → x.2 .beginTx = none →
      x.2 .clearVectors = none ∧ x.2 .clearChunks = none ∧ x.2 .commit = none) :
    Settled (vsRun knn c calls) ∧ Atomic (vsRun knn c calls) call.1 (vsCall knn (vsRun knn c calls) call) ∧
      (call.2 .beginTx = none → ∃ c', execBegin call.2 (vsRun knn c calls) = .ok c') := by
  have hrun : Settled (vsRun knn c calls) := by
    induction calls generalizing c with
    | nil => exact hc
    | cons x calls ih =>
      have hx := (vsCall_atomic knn hc x (hsized x (by simp)) (hclear x (by simp))).1
      exact ih _ hx (fun y hy => hsized y (List.mem_cons_of_mem _ hy)) fun y hy => hclear y (List.mem_cons_of_mem _ hy)
  refine ⟨hrun, (vsCall_atomic knn hrun call (hsized call (by simp)) (hclear call (by simp))).2, fun hbegin => ?_⟩
  simp [execBegin, hrun.outside, hbegin]

theorem settled_empty (dimensions : ℕ) (metaTable : Bytes) :
    Settled ({ dimensions := dimensions, metaTable := metaTable } : Connection F) :=
  ⟨⟨by simp, by simp, by simp, by simp, by simp⟩, rfl⟩

def noFaults : SqlFaults := fun _ => none

def noHits : Tables ℕ → List ℕ → ℕ → List (ChunkRow × ℕ) := fun _ _ _ => []

def newStore : Connection ℕ := { dimensions := 1, metaTable := lit "docs_chunks" }

theorem sqliteVectors_atomic_upsert :
    (vsCall noHits newStore (.upsert (lit "a") [] [7] [], noFaults)).1 = .ok () ∧
      Settled (vsCall noHits newStore (.upsert (lit "a") [] [7] [], noFaults)).2 := by
  have hsmall : Sqlite.Small (lit "a") ∧ Sqlite.Small [] := by decide
  refine ⟨by decide +kernel, (sqliteVectors_atomic noHits newStore (settled_empty 1 _)
    [(.upsert (lit "a") [] [7] [], noFaults)] (.clear, noFaults) ?_ (by simp [noFaults])).1⟩
  simpa [Sized] using hsmall

/- `clear` while another connection reads: COMMIT is refused, and nothing ends the transaction. -/
def busyCommit : SqlFaults := fun st => if st = .commit then some (lit "database is locked") else none

theorem clear_leaves_transaction :
    ∃ c, c = (vsCall noHits newStore (.clear, busyCommit)).2 ∧ c.saved ≠ none ∧
      (vsCall noHits c (.upsert (lit "a") [] [7] [], noFaults)).1 =
        .error (execError (lit "cannot start a transaction within a transaction")) :=
  ⟨_, rfl, by decide +kernel, by decide +kernel⟩

end Runs

end AgentCpp.Stores.Vectors
