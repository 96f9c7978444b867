import AgentCpp.Core.Types
import AgentCpp.Lib.Linearizable
import AgentCpp.Lib.Machine
import AgentCpp.Lib.Words

/-!
# The write-back SQLite store (`sqlite_store.cpp`)

Clients work on a cache in memory; a writer thread copies its dirty entries to the database. Every
section under one of the two mutexes, and every SQL statement, is one action. The calls are kept
with the times they were invoked and returned at.
-/

namespace AgentCpp.Sqlite
open Lib

/- `sqlite3_bind_text(.., data, static_cast<int>(size), ..)`: a negative length binds the text up to its first zero
byte. SQLite refuses more than SQLITE_MAX_LENGTH bytes; no caller reads that, and the parameter stays NULL. -/
def bindText (text : Bytes) : Option Bytes :=
  let n := int32 text.length
  let bound := if n < 0 then text.takeWhile (· != 0) else text.take n.toNat
  if bound.length ≤ 10 ^ 9 then some bound else none

/- `sqlite3_column_text`, which reads NULL as the empty text. -/
def columnText (column : Option Bytes) : Bytes := column.getD []

@[simp, grind =] theorem columnText_some (text : Bytes) : columnText (some text) = text := rfl

def Small (text : Bytes) : Prop := text.length ≤ 10 ^ 9

instance decidableSmall (text : Bytes) : Decidable (Small text) := inferInstanceAs (Decidable (text.length ≤ 10 ^ 9))

theorem bindText_of_small {text : Bytes} (h : Small text) : bindText text = some text := by
  unfold Small at h
  have hn : int32 text.length = text.length := int32_of_small (by omega) (by omega)
  have hbound : (if (text.length : ℤ) < 0 then text.takeWhile (· != 0) else text.take (text.length : ℤ).toNat) = text := by
    rw [if_neg (by omega), Int.toNat_natCast, List.take_length]
  simp only [bindText, hn, hbound, if_pos h]

structure CacheEntry where
  value : Bytes
  dirty : Bool
  deriving DecidableEq

/- What `cache_mutex` guards. A key's iterator into the LRU list is the key's place in it. -/
structure Cache where
  entries : Table CacheEntry
  lru : List Bytes
  cacheBytes : ℕ
  dirtyBytes : ℕ

def Cache.empty : Cache := ⟨∅, [], 0, 0⟩

def entrySize (key value : Bytes) : ℕ := key.length + value.length

/- The least recently used clean entry is erased. -/
def evictOne (c : Cache) : Option Cache := do
  let key ← c.lru.reverse.find? fun key => c.entries[key]?.any fun entry => !entry.dirty
  let entry ← c.entries[key]?
  some { c with
    entries := c.entries.erase key
    lru := c.lru.erase key
    cacheBytes := c.cacheBytes - entrySize key entry.value }

def evictLoop (maxCacheBytes : ℕ) : ℕ → Cache → Cache
  | 0, c => c
  | n + 1, c =>
    if c.cacheBytes > maxCacheBytes ∧ c.lru ≠ [] then
      match evictOne c with
      | none => c
      | some c => evictLoop maxCacheBytes n c
    else c

/- Each round of the loop takes a key off the list. -/
def evictIfNeeded (maxCacheBytes : ℕ) (c : Cache) : Cache := evictLoop maxCacheBytes c.lru.length c

/- The first section of `put_sqlite`. -/
def Cache.put (c : Cache) (key value : Bytes) : Cache :=
  match c.entries[key]? with
  | some entry =>
    let oldSize := entrySize key entry.value
    let newSize := entrySize key value
    { entries := c.entries.insert key ⟨value, true⟩
      lru := key :: c.lru.erase key
      cacheBytes := c.cacheBytes - oldSize + newSize
      dirtyBytes := if entry.dirty then c.dirtyBytes - oldSize + newSize else c.dirtyBytes + newSize }
  | none =>
    { entries := c.entries.insert key ⟨value, true⟩
      lru := key :: c.lru
      cacheBytes := c.cacheBytes + entrySize key value
      dirtyBytes := c.dirtyBytes + entrySize key value }

/- A hit in `get_sqlite`. -/
def Cache.touch (c : Cache) (key : Bytes) : Cache := { c with lru := key :: c.lru.erase key }

/- The last section of `get_sqlite`. -/
def Cache.insertRead (maxCacheBytes : ℕ) (c : Cache) (key value : Bytes) : Cache :=
  match c.entries[key]? with
  | some _ => c
  | none => evictIfNeeded maxCacheBytes
    { c with
      entries := c.entries.insert key ⟨value, false⟩
      lru := key :: c.lru
      cacheBytes := c.cacheBytes + entrySize key value }

/- The dirty entries `flush_dirty` copies. -/
def Cache.batch (c : Cache) : List (Bytes × Bytes) :=
  c.entries.toList.filterMap fun e => if e.2.dirty then some (e.1, e.2.value) else none

def Cache.markClean (c : Cache) (row : Bytes × Bytes) : Cache :=
  match c.entries[row.1]? with
  | none => c
  | some entry =>
    if entry.dirty ∧ entry.value = row.2 then
      let sz := entrySize row.1 row.2
      { c with
        entries := c.entries.insert row.1 { entry with dirty := false }
        dirtyBytes := if c.dirtyBytes ≥ sz then c.dirtyBytes - sz else 0 }
    else c

/- The last section of `flush_dirty`. -/
def Cache.markFlushed (maxCacheBytes : ℕ) (c : Cache) (batch : List (Bytes × Bytes)) : Cache :=
  evictIfNeeded maxCacheBytes (batch.foldl Cache.markClean c)

/- `INSERT OR REPLACE INTO kv(key,value) VALUES(?,?)`; `db` holds the rows whose key is not NULL, each with what its
value reads as: no other row is ever read or replaced. -/
def insertRow (db : Table Bytes) (row : Bytes × Bytes) : Table Bytes :=
  match bindText row.1 with
  | none => db
  | some key => db.insert key (columnText (bindText row.2))

/- All rows are committed together. -/
def commitBatch (db : Table Bytes) (batch : List (Bytes × Bytes)) : Table Bytes := batch.foldl insertRow db

structure Limits where
  maxCacheBytes : ℕ
  flushDirtyThresholdBytes : ℕ

inductive StoreOp where
  | put (key value : Bytes)
  | get (key : Bytes)
  | clear
  deriving DecidableEq

inductive Answer where
  | ok
  | value (value : Bytes)
  | failed (error : Error)
  deriving DecidableEq

def keyNotFound (key : Bytes) : Answer := .failed ⟨.keyNotFound, lit "Key not found: " ++ key⟩

/- What a client does next; the number is that of its call. -/
inductive ClientAt where
  | idle
  | waking (call : ℕ)
  | reading (call : ℕ) (key : Bytes)
  | inserting (call : ℕ) (key value : Bytes)
  | clearing (call : ℕ)
  | awaiting (call : ℕ)
  deriving DecidableEq

/- What the writer does next, with the `do_stop` it read in this round. `stopped` says whether its last flush
wrote everything it had to. -/
inductive WriterAt where
  | waiting
  | deleting (doStop : Bool)
  | deleted (doStop : Bool)
  | flushing (doStop : Bool)
  | committing (doStop : Bool) (batch : List (Bytes × Bytes))
  | marking (doStop : Bool) (batch : List (Bytes × Bytes))
  | stopped (flushed : Bool)
  deriving DecidableEq

/- The end of a round of `writer_loop`. -/
def WriterAt.next (doStop flushed : Bool) : WriterAt := if doStop then .stopped flushed else .waiting

structure Store where
  db : Table Bytes
  cache : Cache := .empty
  wakeRequested : Bool := false
  stopRequested : Bool := false
  clearRequested : Bool := false
  clearDone : Bool := false
  writer : WriterAt := .waiting
  clients : ℕ → ClientAt := fun _ => .idle
  calls : List (Call StoreOp Answer) := []
  clock : ℕ := 0

inductive Act where
  | put (client : ℕ) (key value : Bytes)
  | wake (client : ℕ)
  | get (client : ℕ) (key : Bytes)
  | read (client : ℕ)
  | insert (client : ℕ)
  | clear (client : ℕ)
  | request (client : ℕ)
  | cleared (client : ℕ)
  | wait
  | delete
  | deleted
  | snapshot
  | commit (ok : Bool)
  | mark
  | stop
  deriving DecidableEq

namespace Store

def invoke (s : Store) (op : StoreOp) : Store := { s with calls := s.calls ++ [⟨op, s.clock, none⟩] }

def goto (s : Store) (client : ℕ) (place : ClientAt) : Store :=
  { s with clients := Function.update s.clients client place }

def answer (s : Store) (call : ℕ) (result : Answer) : Store :=
  { s with calls := s.calls.modify call fun c => { c with ret := some (s.clock, result) } }

/- A client is at liberty to call as long as the handle has not been dropped. -/
def free (s : Store) (client : ℕ) : Bool := s.clients client == .idle && !s.stopRequested

variable (lim : Limits)

def put (s : Store) (client : ℕ) (key value : Bytes) : Store :=
  let t := { s.invoke (.put key value) with cache := s.cache.put key value }
  if t.cache.dirtyBytes ≥ lim.flushDirtyThresholdBytes then t.goto client (.waking s.calls.length)
  else t.answer s.calls.length .ok

def get (s : Store) (client : ℕ) (key : Bytes) : Store :=
  let t := s.invoke (.get key)
  match s.cache.entries[key]? with
  | some entry => { t with cache := s.cache.touch key }.answer s.calls.length (.value entry.value)
  | none => t.goto client (.reading s.calls.length key)

def read (s : Store) (client call : ℕ) (key : Bytes) : Store :=
  match (bindText key).bind (s.db[·]?) with
  | some value => s.goto client (.inserting call key value)
  | none => (s.answer call (keyNotFound key)).goto client .idle

def act (s : Store) : Act → Option Store
  | .put client key value => if s.free client then some (s.put lim client key value) else none
  | .wake client => match s.clients client with
    | .waking call => some ({ s.answer call .ok with wakeRequested := true }.goto client .idle)
    | _ => none
  | .get client key => if s.free client then some (s.get client key) else none
  | .read client => match s.clients client with
    | .reading call key => some (s.read client call key)
    | _ => none
  | .insert client => match s.clients client with
    | .inserting call key value =>
      some ({ s.answer call (.value value) with
        cache := s.cache.insertRead lim.maxCacheBytes key value }.goto client .idle)
    | _ => none
  | .clear client =>
    if s.free client then some ({ s.invoke .clear with cache := .empty }.goto client (.clearing s.calls.length))
    else none
  | .request client => match s.clients client with
    | .clearing call => some ({ s with clearRequested := true, clearDone := false }.goto client (.awaiting call))
    | _ => none
  | .cleared client => match s.clients client with
    | .awaiting call => if s.clearDone then some ((s.answer call .ok).goto client .idle) else none
    | _ => none
  | .wait => match s.writer with
    | .waiting => some { s with
        wakeRequested := false
        writer := if s.clearRequested then .deleting s.stopRequested else .flushing s.stopRequested }
    | _ => none
  | .delete => match s.writer with
    | .deleting doStop => some { s with db := ∅, writer := .deleted doStop }
    | _ => none
  | .deleted => match s.writer with
    | .deleted doStop => some { s with clearRequested := false, clearDone := true, writer := .flushing doStop }
    | _ => none
  | .snapshot => match s.writer with
    | .flushing doStop =>
      some { s with writer := if s.cache.batch = [] then .next doStop true else .committing doStop s.cache.batch }
    | _ => none
  | .commit ok => match s.writer with
    | .committing doStop batch =>
      if ok then some { s with db := commitBatch s.db batch, writer := .marking doStop batch }
      else some { s with writer := .next doStop false }
    | _ => none
  | .mark => match s.writer with
    | .marking doStop batch =>
      some { s with cache := s.cache.markFlushed lim.maxCacheBytes batch, writer := .next doStop true }
    | _ => none
  | .stop => if s.stopRequested then none else some { s with stopRequested := true }

def step (s : Store) (a : Act) : Option Store := (s.act lim a).map fun t => { t with clock := t.clock + 1 }

end Store

def mapApply (m : Table Bytes) : StoreOp → Table Bytes × Answer
  | .put key value => (m.insert key value, .ok)
  | .get key => (m, match m[key]? with
    | some value => .value value
    | none => keyNotFound key)
  | .clear => (∅, .ok)

end AgentCpp.Sqlite
