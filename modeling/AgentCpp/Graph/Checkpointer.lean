import AgentCpp.Graph.Event

/-!
# Checkpointers (`graph_checkpointer.cpp`)

Two implementations of `CheckpointerOps`: the table in process memory, and the adapter that keeps the
same table in a key/value store which can neither list nor delete keys.
-/

namespace AgentCpp
open Lib Lib.Json List

structure GraphCheckpointInfo where
  step : UInt64 := 0
  timestampMs : Int64 := 0
  metadata : Bytes := []
  deriving DecidableEq, Repr

structure MemCheckpoint where
  blob : Bytes
  metadata : Bytes
  timestampMs : Int64

abbrev Steps := Std.ExtTreeMap UInt64 MemCheckpoint

structure MemCheckpointer where
  threads : Table Steps := ∅
  events : Table (List GraphEvent) := ∅

def noCheckpoint {α : Type} (threadId : Bytes) : Result α :=
  fail .keyNotFound (lit "no checkpoint for thread '" ++ threadId ++ lit "'")

def memPut (s : MemCheckpointer) (now : Int64) (threadId : Bytes) (step : UInt64)
    (blob metadata : Bytes) : MemCheckpointer :=
  let steps := s.threads[threadId]?.getD ∅
  { s with threads := s.threads.insert threadId (steps.insert step ⟨blob, metadata, now⟩) }

def memGetLatest (s : MemCheckpointer) (threadId : Bytes) : Result Bytes :=
  match s.threads[threadId]? with
  | none => noCheckpoint threadId
  | some steps =>
    match steps.toList.getLast? with
    | none => noCheckpoint threadId
    | some (_, cp) => .ok cp.blob

def memGet (s : MemCheckpointer) (threadId : Bytes) (step : UInt64) : Result Bytes :=
  match s.threads[threadId]? with
  | none => noCheckpoint threadId
  | some steps =>
    match steps[step]? with
    | none => fail .keyNotFound (lit "no checkpoint at step " ++ decimal step.toNat ++
        lit " of thread '" ++ threadId ++ lit "'")
    | some cp => .ok cp.blob

def memList (s : MemCheckpointer) (threadId : Bytes) : Result (List GraphCheckpointInfo) :=
  match s.threads[threadId]? with
  | none => .ok []
  | some steps => .ok (steps.toList.map fun e => ⟨e.1, e.2.timestampMs, e.2.metadata⟩)

def memDeleteThread (s : MemCheckpointer) (threadId : Bytes) : MemCheckpointer :=
  { threads := s.threads.erase threadId, events := s.events.erase threadId }

def memAppendEvents (s : MemCheckpointer) (threadId : Bytes) (events : List GraphEvent) :
    MemCheckpointer :=
  { s with events := s.events.insert threadId (s.events[threadId]?.getD [] ++ events) }

def memListEvents (s : MemCheckpointer) (threadId : Bytes) : Result (List GraphEvent) :=
  match s.events[threadId]? with
  | none => .ok []
  | some events => .ok events

theorem getLast?_of_max {β : Type} (l : List (UInt64 × β)) (x : UInt64 × β)
    (hl : l.Pairwise fun a b => a.1 < b.1) (hx : x ∈ l) (hmax : ∀ y ∈ l, y.1 ≤ x.1) : l.getLast? = some x := by
  induction l with
  | nil => exact absurd hx (not_mem_nil)
  | cons y l ih =>
    obtain ⟨hy, hl⟩ := pairwise_cons.1 hl
    cases l with
    | nil => rw [mem_singleton.1 hx, getLast?_singleton]
    | cons z l =>
      have hz : y.1 < x.1 :=
        UInt64.lt_of_lt_of_le (hy z (mem_cons_self ..)) (hmax z (mem_cons_of_mem _ (mem_cons_self ..)))
      have hxl : x ∈ z :: l := by
        rcases mem_cons.1 hx with rfl | hxl
        · exact absurd hz (UInt64.lt_irrefl _)
        · exact hxl
      exact ih hl hxl fun w hw => hmax w (mem_cons_of_mem _ hw)

theorem steps_sorted (steps : Steps) : steps.toList.Pairwise fun a b => a.1 < b.1 := by
  have h := Std.ExtTreeMap.ordered_keys_toList (t := steps)
  exact h.imp fun hab => Std.compare_eq_lt.1 hab

theorem mem_steps (steps : Steps) (n : UInt64) (cp : MemCheckpoint) : (n, cp) ∈ steps.toList ↔ steps[n]? = some cp :=
  Std.ExtTreeMap.mem_toList_iff_getElem?_eq_some

def StepsBelow (s : MemCheckpointer) (threadId : Bytes) (step : UInt64) : Prop :=
  ∀ steps, s.threads[threadId]? = some steps → ∀ k cp, steps[k]? = some cp → k ≤ step

theorem memPut_below {s : MemCheckpointer} {threadId : Bytes} {step : UInt64}
    (h : StepsBelow s threadId step) (now : Int64) (blob metadata : Bytes) :
    StepsBelow (memPut s now threadId step blob metadata) threadId step := by
  intro steps hsteps k cp hk
  unfold memPut at hsteps
  simp only [Table.get_insert_self, Option.some.injEq] at hsteps
  subst hsteps
  rw [Std.ExtTreeMap.getElem?_insert] at hk
  split at hk
  · next heq =>
    rw [Std.compare_eq_iff_eq] at heq
    exact heq ▸ UInt64.le_refl _
  · cases hold : s.threads[threadId]? with
    | none =>
      rw [hold] at hk
      cases hk
    | some old =>
      rw [hold] at hk
      exact h old hold k cp hk

theorem memGetLatest_memPut {s : MemCheckpointer} {threadId : Bytes} {step : UInt64}
    (h : StepsBelow s threadId step) (now : Int64) (blob metadata : Bytes) :
    memGetLatest (memPut s now threadId step blob metadata) threadId = .ok blob := by
  have hbelow := memPut_below h now blob metadata
  unfold memGetLatest
  unfold memPut at hbelow ⊢
  simp only [Table.get_insert_self]
  have hself : ((s.threads[threadId]?.getD ∅).insert step ⟨blob, metadata, now⟩)[step]? =
      some ⟨blob, metadata, now⟩ := by
    rw [Std.ExtTreeMap.getElem?_insert, if_pos Std.compare_self]
  rw [getLast?_of_max _ _ (steps_sorted _) ((mem_steps _ _ _).2 hself)]
  rintro ⟨k, cp⟩ hk
  exact hbelow _ (Table.get_insert_self _ _ _) k cp ((mem_steps _ _ _).1 hk)

/- The content of a session's store. -/
abbrev Store := Table Bytes

def storeMemory (store : Store) (key value : Bytes) : Store := store.insert key value

def keyNotFound {α : Type} (key : Bytes) : Result α :=
  fail .keyNotFound (lit "Key not found: " ++ key)

def retrieveMemory (store : Store) (key : Bytes) : Result Bytes :=
  match store[key]? with
  | none => keyNotFound key
  | some value => .ok value

def metaKey (threadId suffix : Bytes) : Bytes :=
  lit "checkpoint_meta:" ++ threadId ++ lit ":" ++ suffix

def eventsKey (threadId suffix : Bytes) : Bytes :=
  lit "graph_events:" ++ threadId ++ lit ":" ++ suffix

def stepStr (step : UInt64) : Bytes := decimal step.toNat

def storeGetNonempty (store : Store) (key : Bytes) : Result Bytes :=
  match retrieveMemory store key with
  | .error e => .error e
  | .ok value => if value = [] then keyNotFound key else .ok value

def storePut (store : Store) (now : Int64) (threadId : Bytes) (step : UInt64)
    (blob metadata : Bytes) : Store :=
  let store := storeMemory store (checkpointKey threadId (stepStr step)) blob
  let store := storeMemory store (checkpointKey threadId (lit "latest")) blob
  let store := storeMemory store (metaKey threadId (stepStr step))
    (decimalInt now.toInt ++ lit " " ++ metadata)
  storeMemory store (metaKey threadId (lit "latest")) (stepStr step)

def storeGetLatest (store : Store) (threadId : Bytes) : Result Bytes :=
  match storeGetNonempty store (checkpointKey threadId (lit "latest")) with
  | .error e => if e.code = .keyNotFound then noCheckpoint threadId else .error e
  | .ok blob => .ok blob

def storeGet (store : Store) (threadId : Bytes) (step : UInt64) : Result Bytes :=
  storeGetNonempty store (checkpointKey threadId (stepStr step))

def storeLatestStep (store : Store) (threadId : Bytes) : Result UInt64 :=
  match storeGetNonempty store (metaKey threadId (lit "latest")) with
  | .error e => .error e
  | .ok latest =>
    match fromChars (2 ^ 64) latest with
    | none => fail .parseError
        (lit "checkpoint index of thread '" ++ threadId ++ lit "' is corrupt")
    | some step => .ok (UInt64.ofNat step)

/- `for (uint64_t step = 0; step <= latest; ++step) body`: `none` when the loop
is still running after `fuel` tests. The counter wraps. -/
def forSteps {σ : Type} (latest : UInt64) (body : UInt64 → σ → Result σ) :
    ℕ → UInt64 → σ → Option (Result σ)
  | 0, _, _ => none
  | fuel + 1, step, acc =>
    if step ≤ latest then
      match body step acc with
      | .error e => some (.error e)
      | .ok acc => forSteps latest body fuel (step + 1) acc
    else some (.ok acc)

/- The parse of one `checkpoint_meta` value: the digits before the first blank,
and the text after it. -/
def readInfo (step : UInt64) (value : Bytes) : GraphCheckpointInfo :=
  match find (lit " ") value with
  | none => { step, timestampMs := ((fromCharsInt (2 ^ 63) value).map Int64.ofInt).getD 0 }
  | some space =>
    { step
      timestampMs := ((fromCharsInt (2 ^ 63) (value.take space)).map Int64.ofInt).getD 0
      metadata := value.drop (space + 1) }

def storeListStep (store : Store) (threadId : Bytes) (step : UInt64)
    (out : List GraphCheckpointInfo) : Result (List GraphCheckpointInfo) :=
  match storeGetNonempty store (metaKey threadId (stepStr step)) with
  | .error e => if e.code = .keyNotFound then .ok out else .error e
  | .ok value => .ok (out ++ [readInfo step value])

def storeList (fuel : ℕ) (store : Store) (threadId : Bytes) :
    Option (Result (List GraphCheckpointInfo)) :=
  match storeLatestStep store threadId with
  | .error e => some (if e.code = .keyNotFound then .ok [] else .error e)
  | .ok latest => forSteps latest (storeListStep store threadId) fuel 0 []

def storeEventBatches (store : Store) (threadId : Bytes) : Result UInt64 :=
  match storeGetNonempty store (eventsKey threadId (lit "count")) with
  | .error e => if e.code = .keyNotFound then .ok 0 else .error e
  | .ok count => .ok (UInt64.ofNat ((fromChars (2 ^ 64) count).getD 0))

def storeAppendEvents (store : Store) (threadId : Bytes) (events : List GraphEvent) :
    Result Store := do
  let n ← storeEventBatches store threadId
  let store := storeMemory store (eventsKey threadId (stepStr n)) (encodeEvents events)
  return storeMemory store (eventsKey threadId (lit "count")) (stepStr (n + 1))

/- The counter runs below `n`, so it cannot wrap and the loop is over a range. -/
def storeListEvents (parser : JsonParser) (store : Store) (threadId : Bytes) :
    Result (List GraphEvent) := do
  let n ← storeEventBatches store threadId
  (List.range n.toNat).foldlM (fun out i => do
    let batch ← retrieveMemory store (eventsKey threadId (decimal i))
    decodeEvents parser batch out) []

def storeDeleteStep (threadId : Bytes) (step : UInt64) (store : Store) : Result Store :=
  match storeGetNonempty store (metaKey threadId (stepStr step)) with
  | .error _ => .ok store
  | .ok _ =>
    let store := storeMemory store (metaKey threadId (stepStr step)) []
    .ok (storeMemory store (checkpointKey threadId (stepStr step)) [])

def storeDeleteLatest (store : Store) (threadId : Bytes) : Store :=
  match retrieveMemory store (checkpointKey threadId (lit "latest")) with
  | .error _ => store
  | .ok _ => storeMemory store (checkpointKey threadId (lit "latest")) []

def storeDeleteThread (fuel : ℕ) (store : Store) (threadId : Bytes) : Option (Result Store) :=
  let store :=
    match storeGetNonempty store (eventsKey threadId (lit "count")) with
    | .error _ => store
    | .ok _ => storeMemory store (eventsKey threadId (lit "count")) []
  match storeLatestStep store threadId with
  | .error e =>
    some (if e.code = .keyNotFound then .ok (storeDeleteLatest store threadId) else .error e)
  | .ok latest =>
    (forSteps latest (storeDeleteStep threadId) fuel 0 store).map fun r =>
      r.map fun store =>
        storeDeleteLatest (storeMemory store (metaKey threadId (lit "latest")) []) threadId

inductive CheckpointerCall where
  | put (threadId : Bytes) (step : UInt64) (blob metadata : Bytes)
  | getLatest (threadId : Bytes)
  | get (threadId : Bytes) (step : UInt64)
  | list (threadId : Bytes)
  | deleteThread (threadId : Bytes)
  | appendEvents (threadId : Bytes) (events : List GraphEvent)
  | listEvents (threadId : Bytes)

/- What a caller sees, up to timestamps and error texts. -/
inductive Answer where
  | done
  | blob (blob : Bytes)
  | infos (infos : List (UInt64 × Bytes))
  | events (events : List GraphEvent)
  | error (code : ErrorCode)
  deriving DecidableEq

def answer {α : Type} (f : α → Answer) : Result α → Answer
  | .error e => .error e.code
  | .ok a => f a

def infosAnswer (infos : List GraphCheckpointInfo) : Answer :=
  .infos (infos.map fun i => (i.step, i.metadata))

def memCall (now : Int64) (s : MemCheckpointer) : CheckpointerCall → MemCheckpointer × Answer
  | .put t step blob metadata => (memPut s now t step blob metadata, .done)
  | .getLatest t => (s, answer .blob (memGetLatest s t))
  | .get t step => (s, answer .blob (memGet s t step))
  | .list t => (s, answer infosAnswer (memList s t))
  | .deleteThread t => (memDeleteThread s t, .done)
  | .appendEvents t events => (memAppendEvents s t events, .done)
  | .listEvents t => (s, answer .events (memListEvents s t))

/- The store's own calls do not fail, so only a corrupt index could make a write fail. -/
def written (store : Store) : Result Store → Store × Answer
  | .error e => (store, .error e.code)
  | .ok store => (store, .done)

def storeCall (parser : JsonParser) (fuel : ℕ) (now : Int64) (s : Store) :
    CheckpointerCall → Option (Store × Answer)
  | .put t step blob metadata => some (storePut s now t step blob metadata, .done)
  | .getLatest t => some (s, answer .blob (storeGetLatest s t))
  | .get t step => some (s, answer .blob (storeGet s t step))
  | .list t => (storeList fuel s t).map fun r => (s, answer infosAnswer r)
  | .deleteThread t => (storeDeleteThread fuel s t).map (written s)
  | .appendEvents t events => some (written s (storeAppendEvents s t events))
  | .listEvents t => some (s, answer .events (storeListEvents parser s t))

/- A sequence of calls; each is paired with the clock it reads. -/
def memCalls (s : MemCheckpointer) : List (Int64 × CheckpointerCall) → List Answer
  | [] => []
  | (now, call) :: calls =>
    let (s, a) := memCall now s call
    a :: memCalls s calls

def storeCalls (parser : JsonParser) (fuel : ℕ) (s : Store) :
    List (Int64 × CheckpointerCall) → Option (List Answer)
  | [] => some []
  | (now, call) :: calls => do
    let (s, a) ← storeCall parser fuel now s call
    let answers ← storeCalls parser fuel s calls
    return a :: answers

end AgentCpp
