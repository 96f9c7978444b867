import AgentCpp.Core.Escape
import AgentCpp.Core.Types
import AgentCpp.Lib.Machine

/-!
# The RAG index (`rag_pipeline.cpp`)

A document is kept in a vector store as chunks `<doc_id>#<n>`. Indexing overwrites them one by
one and erases the ones left from a longer text. Every operation of the store may fail.
-/

namespace AgentCpp.Rag
open Lib Table List

structure VectorEntry (F : Type) where
  text : Bytes
  embedding : List F
  metadata : Bytes
  deriving DecidableEq

structure ChunkOptions where
  size : ℕ := 1000
  overlap : ℕ := 150

structure Chunk where
  offset : ℕ
  text : Bytes

/- The chunker and the embedding session: one embedding for each text. -/
structure RagEnv (F : Type) where
  chunkText : Bytes → ChunkOptions → Result (List Chunk)
  embed : List Bytes → Result (List (List F))
  embed_length : ∀ texts vectors, embed texts = .ok vectors → vectors.length = texts.length

structure RagIndex where
  dimensions : ℤ := 0
  opened : Bool := false

variable {F : Type}

/- `ops` counts the operations of the call, which the source does not. -/
structure CallState (F : Type) where
  store : Table (VectorEntry F)
  index : RagIndex
  ops : ℕ := 0

/- Which operations of a call fail, and how. A failing operation leaves the store as it is. -/
abbrev Faults := ℕ → Option Error

def chunkId (docId : Bytes) (n : ℕ) : Bytes := docId ++ 0x23 :: decimal n

def chunkMetadata (docId : Bytes) (n offset : ℕ) : Bytes :=
  lit "\x7b\"doc_id\":\"" ++ escapeJsonString docId ++ lit "\",\"chunk\":" ++ decimal n ++
    lit ",\"offset\":" ++ decimal offset ++ lit "\x7d"

def chunkEntry (docId : Bytes) (n : ℕ) (chunk : Chunk) (vector : List F) : VectorEntry F where
  text := chunk.text
  embedding := vector
  metadata := chunkMetadata docId n chunk.offset

variable (faults : Faults)

def openRagIndex (dimensions : ℤ) (s : CallState F) : CallState F × Result Unit :=
  if 0 < dimensions ∧ 0 < s.index.dimensions ∧ s.index.dimensions ≠ dimensions then
    (s, fail .invalidConfig (lit "RagIndex: embeddings have " ++ decimalInt dimensions ++
      lit " dimensions but config.dimensions is " ++ decimalInt s.index.dimensions ++ lit "."))
  else
    let wanted := if 0 < dimensions then dimensions else s.index.dimensions
    if wanted ≤ 0 then (s, fail .invalidConfig (lit "RagIndex: dimensions must be > 0."))
    else match faults s.ops with
      | some e => ({ s with ops := s.ops + 1 }, .error e)
      | none => ({ s with ops := s.ops + 1, index := { dimensions := wanted, opened := true } }, .ok ())

def ensureOpen (dimensions : ℕ) (s : CallState F) : CallState F × Result Unit :=
  if s.index.opened then (s, .ok ()) else openRagIndex faults dimensions s

variable (docId : Bytes)

/- Each erased chunk makes the store smaller, so its size is fuel enough. -/
def eraseLoop : ℕ → ℕ → CallState F → CallState F × Option (Result Unit)
  | 0, _, s => (s, none)
  | fuel + 1, n, s =>
    match faults s.ops with
    | some e => ({ s with ops := s.ops + 1 }, some (.error e))
    | none =>
      match s.store[chunkId docId n]? with
      | none => ({ s with ops := s.ops + 1 }, some (.ok ()))
      | some _ => eraseLoop fuel (n + 1)
          { s with store := s.store.erase (chunkId docId n), ops := s.ops + 1 }

def eraseChunksFrom (first : ℕ) (s : CallState F) : CallState F × Option (Result Unit) :=
  if s.index.opened then eraseLoop faults docId (s.store.size + 1) first s else (s, some (.ok ()))

def upsertChunks : ℕ → List (Chunk × List F) → CallState F → CallState F × Result Unit
  | _, [], s => (s, .ok ())
  | n, (chunk, vector) :: rest, s =>
    match faults s.ops with
    | some e => ({ s with ops := s.ops + 1 }, .error e)
    | none => upsertChunks (n + 1) rest
        { s with store := s.store.insert (chunkId docId n) (chunkEntry docId n chunk vector), ops := s.ops + 1 }

def indexChunks (chunks : List Chunk) (vectors : List (List F)) (s : CallState F) :
    CallState F × Option (Result Unit) :=
  match ensureOpen faults (vectors.headD []).length s with
  | (s, .error e) => (s, some (.error e))
  | (s, .ok ()) =>
    match upsertChunks faults docId 0 (chunks.zip vectors) s with
    | (s, .error e) => (s, some (.error e))
    | (s, .ok ()) => eraseChunksFrom faults docId chunks.length s

def ragIndex (env : RagEnv F) (text : Bytes) (options : ChunkOptions) (s : CallState F) :
    CallState F × Option (Result Unit) :=
  if docId = [] then (s, some (fail .invalidConfig (lit "rag_index: doc_id must not be empty.")))
  else match env.chunkText text options with
    | .error e => (s, some (.error e))
    | .ok [] => eraseChunksFrom faults docId 0 s
    | .ok chunks =>
      match env.embed (chunks.map (·.text)) with
      | .error e => (s, some (.error e))
      | .ok vectors => indexChunks faults docId chunks vectors s

def ragErase (s : CallState F) : CallState F × Option (Result Unit) := eraseChunksFrom faults docId 0 s

theorem hash_not_mem_decimal (n : ℕ) : 0x23 ∉ decimal n := by
  intro h
  have := decimal_digits n _ h
  revert this
  decide

variable {faults docId} {n n' : ℕ}

theorem chunkId_inj {docId' : Bytes} (h : chunkId docId n = chunkId docId' n') :
    docId = docId' ∧ n = n' := by
  obtain ⟨hdoc, hn⟩ := separator_append_inj 0x23 _ _ _ _ (hash_not_mem_decimal n) (hash_not_mem_decimal n') h
  exact ⟨hdoc, decimal_injective hn⟩

theorem chunkId_ne (h : n ≠ n') : chunkId docId n ≠ chunkId docId n' :=
  fun he => h (chunkId_inj he).2

/- From chunk `first` on, no chunk of the document stands behind a missing one. -/
def Tight (docId : Bytes) (first : ℕ) (store : Table (VectorEntry F)) : Prop :=
  ∀ n, first ≤ n → store[chunkId docId n]? = none → store[chunkId docId (n + 1)]? = none

def NoGaps (store : Table (VectorEntry F)) : Prop := ∀ docId, Tight docId 0 store

variable {store : Table (VectorEntry F)}

theorem Tight.none_of_le {first : ℕ} (h : Tight docId first store)
    {m : ℕ} (hn : first ≤ n) (hmissing : store[chunkId docId n]? = none) (hm : n ≤ m) :
    store[chunkId docId m]? = none := by
  induction m, hm using Nat.le_induction with
  | base => exact hmissing
  | succ m hm ih => exact h m (by omega) ih

theorem Tight.erase (h : Tight docId n store) :
    Tight docId (n + 1) (store.erase (chunkId docId n)) := by
  intro m hm hmissing
  rw [get_erase_ne _ _ _ (chunkId_ne (by omega))] at hmissing ⊢
  exact h m (by omega) hmissing

theorem NoGaps.insert (h : NoGaps store)
    (hend : ∀ m, n = m + 1 → store[chunkId docId m]? ≠ none) (entry : VectorEntry F) :
    NoGaps (store.insert (chunkId docId n) entry) := by
  intro other m _ hmissing
  rw [get_insert] at hmissing ⊢
  by_cases hhere : chunkId docId n = chunkId other m
  · rw [if_pos hhere] at hmissing
    cases hmissing
  rw [if_neg hhere] at hmissing
  by_cases hnext : chunkId docId n = chunkId other (m + 1)
  · obtain ⟨rfl, hn⟩ := chunkId_inj hnext
    exact absurd hmissing (hend m hn)
  · rw [if_neg hnext]
    exact h other m (Nat.zero_le m) hmissing

/- An erase from chunk `first` on whose first operation is the one numbered `ops`: once it has removed a
chunk, it gets to the end. -/
def ErasesWhole (faults : Faults) (docId : Bytes) (first ops : ℕ) (store : Table (VectorEntry F)) : Prop :=
  ∀ k, (∀ j ≤ k, faults (ops + j) = none ∧ store[chunkId docId (first + j)]? ≠ none) → faults (ops + (k + 1)) = none

/- No operation of it fails. -/
def ErasesCleanly (faults : Faults) (docId : Bytes) (first ops : ℕ) (store : Table (VectorEntry F)) : Prop :=
  ∀ k, (∀ j < k, faults (ops + j) = none ∧ store[chunkId docId (first + j)]? ≠ none) → faults (ops + k) = none

theorem ErasesWhole.cleanly {ops : ℕ} (h : ErasesWhole faults docId n ops store)
    (hfault : faults ops = none) (hat : store[chunkId docId n]? ≠ none) :
    ErasesCleanly faults docId (n + 1) (ops + 1) (store.erase (chunkId docId n)) := by
  intro k hk
  have hnext := h k fun j hj => ?_
  · rwa [show ops + 1 + k = ops + (k + 1) by omega]
  cases j with
  | zero => exact ⟨hfault, hat⟩
  | succ j =>
    obtain ⟨hj₁, hj₂⟩ := hk j (by omega)
    rw [get_erase_ne _ _ _ (chunkId_ne (by omega))] at hj₂
    rw [show ops + (j + 1) = ops + 1 + j by omega, show n + (j + 1) = n + 1 + j by omega]
    exact ⟨hj₁, hj₂⟩

theorem ErasesCleanly.whole {ops : ℕ} (h : ErasesCleanly faults docId n ops store) :
    ErasesWhole faults docId n ops store := fun k hk => h (k + 1) fun j hj => hk j (by omega)

theorem eraseLoop_ne_error {fuel : ℕ} {s : CallState F}
    (h : ErasesCleanly faults docId n s.ops s.store) (e : Error) :
    (eraseLoop faults docId fuel n s).2 ≠ some (.error e) := by
  induction fuel generalizing n s with
  | zero => exact nofun
  | succ fuel ih =>
    have hfault : faults s.ops = none := h 0 fun j hj => absurd hj (Nat.not_lt_zero j)
    rw [eraseLoop, hfault]
    cases hat : s.store[chunkId docId n]? with
    | none => exact nofun
    | some entry => exact ih (h.whole.cleanly hfault (by rw [hat]; exact Option.some_ne_none _))

structure Erased (faults : Faults) (docId : Bytes) (first : ℕ) (s : CallState F)
    (r : CallState F × Option (Result Unit)) : Prop where
  others : ∀ id, (∀ n, first ≤ n → id ≠ chunkId docId n) → r.1.store[id]? = s.store[id]?
  all : r.2 = some (.ok ()) → Tight docId first s.store → ∀ n, first ≤ n → r.1.store[chunkId docId n]? = none
  clean : ∀ e, r.2 = some (.error e) → (s.index.opened = true → ErasesWhole faults docId first s.ops s.store) →
    r.1.store = s.store

theorem eraseLoop_erased (faults : Faults) (docId : Bytes) (fuel n : ℕ) (s : CallState F)
    (hopen : s.index.opened = true) : Erased faults docId n s (eraseLoop faults docId fuel n s) := by
  induction fuel generalizing n s with
  | zero => exact ⟨fun _ _ => rfl, nofun, nofun⟩
  | succ fuel ih =>
    rw [eraseLoop]
    cases hfault : faults s.ops with
    | some e => exact ⟨fun _ _ => rfl, nofun, fun _ _ _ => rfl⟩
    | none =>
      cases hat : s.store[chunkId docId n]? with
      | none =>
        refine ⟨fun _ _ => rfl, fun _ htight m hm => ?_, nofun⟩
        exact htight.none_of_le (Nat.le_refl n) hat hm
      | some entry =>
        simp only
        have hrest := ih (n + 1) { s with store := s.store.erase (chunkId docId n), ops := s.ops + 1 } hopen
        refine ⟨fun id hid => ?_, fun hok htight m hm => ?_, fun e herror hwhole => ?_⟩
        · rw [hrest.others id fun m hm => hid m (by omega)]
          exact get_erase_ne _ _ _ (hid n (Nat.le_refl n)).symm
        · by_cases hsame : m = n
          · subst hsame
            rw [hrest.others _ fun k hk => chunkId_ne (by omega)]
            rw [get_erase, if_pos rfl]
          · exact hrest.all hok htight.erase m (by omega)
        · have hclean := (hwhole hopen).cleanly hfault (by rw [hat]; exact Option.some_ne_none _)
          exact absurd herror (eraseLoop_ne_error hclean e)

theorem eraseLoop_returns (faults : Faults) (docId : Bytes) (fuel n : ℕ) (s : CallState F)
    (hfuel : s.store.size < fuel) : ∃ result, (eraseLoop faults docId fuel n s).2 = some result := by
  induction fuel generalizing n s with
  | zero => exact absurd hfuel (Nat.not_lt_zero _)
  | succ fuel ih =>
    rw [eraseLoop]
    cases faults s.ops with
    | some e => exact ⟨_, rfl⟩
    | none =>
      cases hat : s.store[chunkId docId n]? with
      | none => exact ⟨_, rfl⟩
      | some entry =>
        refine ih (n + 1) _ ?_
        have hcontains : s.store.contains (chunkId docId n) = true := by
          rw [Std.ExtTreeMap.contains_eq_isSome_getElem?, hat]
          rfl
        have hpos : 0 < s.store.size := by
          by_contra hzero
          have hempty : s.store = ∅ := Std.ExtTreeMap.eq_empty_iff_size_eq_zero.2 (by omega)
          rw [hempty] at hat
          cases hat
        simp only [Std.ExtTreeMap.size_erase, hcontains, if_true]
        omega

section Erase

variable {first : ℕ} {s : CallState F}

theorem eraseChunksFrom_erased (faults : Faults)
    (hopen : s.index.opened = true ∨ ∀ n, first ≤ n → s.store[chunkId docId n]? = none) :
    Erased faults docId first s (eraseChunksFrom faults docId first s) := by
  unfold eraseChunksFrom
  split
  · next hopened => exact eraseLoop_erased faults docId _ first s hopened
  · next hclosed =>
    have hnone := hopen.resolve_left hclosed
    exact ⟨fun _ _ => rfl, fun _ _ n hn => hnone n hn, fun _ _ _ => rfl⟩

theorem eraseChunksFrom_returns (faults : Faults) (docId : Bytes) (first : ℕ) (s : CallState F) :
    ∃ result, (eraseChunksFrom faults docId first s).2 = some result := by
  unfold eraseChunksFrom
  split
  · exact eraseLoop_returns faults docId _ first s (Nat.lt_succ_self _)
  · exact ⟨_, rfl⟩

variable {r : CallState F × Option (Result Unit)}

theorem Erased.kept (h : Erased faults docId first s r) (n : ℕ) (hn : n < first) :
    r.1.store[chunkId docId n]? = s.store[chunkId docId n]? :=
  h.others _ fun _ hm => chunkId_ne (by omega)

theorem Erased.noGaps (h : Erased faults docId first s r) (hs : NoGaps s.store)
    (hreturns : ∃ result, r.2 = some result)
    (hwhole : s.index.opened = true → ErasesWhole faults docId first s.ops s.store) : NoGaps r.1.store := by
  obtain ⟨result, hresult⟩ := hreturns
  cases result with
  | error e =>
    rw [h.clean e hresult hwhole]
    exact hs
  | ok _ =>
    have hgone := h.all hresult fun n _ => hs docId n (Nat.zero_le n)
    intro other n _ hmissing
    by_cases hdoc : other = docId
    · subst hdoc
      by_cases hn : n + 1 < first
      · rw [h.kept _ (by omega)] at hmissing
        rw [h.kept _ hn]
        exact hs other n (Nat.zero_le n) hmissing
      · exact hgone (n + 1) (by omega)
    · have hsame (m : ℕ) : r.1.store[chunkId other m]? = s.store[chunkId other m]? :=
        h.others _ fun k _ he => hdoc (chunkId_inj he).1
      rw [hsame] at hmissing ⊢
      exact hs other n (Nat.zero_le n) hmissing

end Erase

/- What writing `items` as chunks `n`, `n + 1`, ... does, up to a failing operation. -/
structure Upserted (faults : Faults) (docId : Bytes) (n : ℕ) (items : List (Chunk × List F)) (s : CallState F)
    (r : CallState F × Result Unit) : Prop where
  others : ∀ id, (∀ m, n ≤ m → m < n + items.length → id ≠ chunkId docId m) → r.1.store[id]? = s.store[id]?
  stored : r.2 = .ok () → ∀ i item, items[i]? = some item →
    r.1.store[chunkId docId (n + i)]? = some (chunkEntry docId (n + i) item.1 item.2)
  noGaps : NoGaps s.store → (∀ m, n = m + 1 → s.store[chunkId docId m]? ≠ none) → NoGaps r.1.store
  ops : r.2 = .ok () → r.1.ops = s.ops + items.length ∧ ∀ j < items.length, faults (s.ops + j) = none
  index : r.1.index = s.index

theorem upsertChunks_upserted (faults : Faults) (docId : Bytes) (n : ℕ) (items : List (Chunk × List F))
    (s : CallState F) : Upserted faults docId n items s (upsertChunks faults docId n items s) := by
  induction items generalizing n s with
  | nil =>
    exact ⟨fun _ _ => rfl, nofun, fun h _ => h,
      fun _ => ⟨rfl, nofun⟩, rfl⟩
  | cons item items ih =>
    obtain ⟨chunk, vector⟩ := item
    rw [upsertChunks]
    cases hfault : faults s.ops with
    | some e => exact ⟨fun _ _ => rfl, nofun, fun h _ => h, nofun, rfl⟩
    | none =>
      have hrest := ih (n + 1) { s with
        store := s.store.insert (chunkId docId n) (chunkEntry docId n chunk vector), ops := s.ops + 1 }
      refine ⟨fun id hid => ?_, fun hok i item hitem => ?_, fun hs hend => ?_, fun hok => ?_, hrest.index⟩
      · rw [length_cons] at hid
        rw [hrest.others id fun m hm hlt => hid m (by omega) (by omega)]
        exact get_insert_ne _ _ _ _ (hid n (Nat.le_refl n) (by omega)).symm
      · cases i with
        | zero =>
          obtain rfl : (chunk, vector) = item := Option.some.inj hitem
          rw [hrest.others _ fun m hm _ => chunkId_ne (by omega)]
          exact get_insert_self _ _ _
        | succ i =>
          have hnext := hrest.stored hok i item hitem
          rw [show n + (i + 1) = n + 1 + i by omega]
          exact hnext
      · refine hrest.noGaps (hs.insert hend _) fun m hm => ?_
        obtain rfl : n = m := Nat.succ.inj hm
        rw [get_insert_self]
        exact Option.some_ne_none _
      · obtain ⟨hops, hnone⟩ := hrest.ops hok
        rw [length_cons]
        refine ⟨hops.trans (Nat.add_right_comm s.ops 1 items.length), fun j hj => ?_⟩
        cases j with
        | zero => exact hfault
        | succ j =>
          rw [show s.ops + (j + 1) = s.ops + 1 + j by omega]
          exact hnone j (by omega)

/- The dimensions with which an index can be opened. -/
def RagIndex.Accepts (index : RagIndex) (dimensions : ℤ) : Prop :=
  ¬ (0 < dimensions ∧ 0 < index.dimensions ∧ index.dimensions ≠ dimensions) ∧ (0 < dimensions ∨ 0 < index.dimensions)

structure Opens (faults : Faults) (dimensions : ℤ) (s : CallState F) (r : CallState F × Result Unit) : Prop where
  store : r.1.store = s.store
  opened : r.2 = .ok () → r.1.index.opened = true
  ops : r.2 = .ok () → r.1.ops = s.ops + 1 ∧ faults s.ops = none ∧ s.index.Accepts dimensions

theorem openRagIndex_opens (faults : Faults) (dimensions : ℤ) (s : CallState F) :
    Opens faults dimensions s (openRagIndex faults dimensions s) := by
  unfold openRagIndex
  split
  · exact ⟨rfl, nofun, nofun⟩
  next hmatch =>
  simp only
  generalize hwanted : (if 0 < dimensions then dimensions else s.index.dimensions) = wanted
  split
  · exact ⟨rfl, nofun, nofun⟩
  next hpos =>
  have haccepts : s.index.Accepts dimensions := by
    refine ⟨hmatch, ?_⟩
    split at hwanted <;> omega
  cases hfault : faults s.ops with
  | some e => exact ⟨rfl, nofun, nofun⟩
  | none => exact ⟨rfl, fun _ => rfl, fun _ => ⟨rfl, hfault, haccepts⟩⟩

/- `whole`: an erase that the call gets to is not left half done. -/
structure Calls (docId : Bytes) (entries : ℕ → Option (VectorEntry F)) (whole : Prop) (s : CallState F)
    (r : CallState F × Option (Result Unit)) : Prop where
  returns : ∃ result, r.2 = some result
  others : ∀ id, (∀ n, id ≠ chunkId docId n) → r.1.store[id]? = s.store[id]?
  replaced : r.2 = some (.ok ()) → NoGaps s.store → ∀ n, r.1.store[chunkId docId n]? = entries n
  noGaps : NoGaps s.store → whole → NoGaps r.1.store

theorem calls_failed {entries : ℕ → Option (VectorEntry F)} {whole : Prop} {t : CallState F} (e : Error)
    (hstore : t.store = s.store) : Calls docId entries whole s (t, some (.error e)) where
  returns := ⟨_, rfl⟩
  others _ _ := by rw [hstore]
  replaced := nofun
  noGaps hs _ := by rw [hstore]; exact hs

theorem eraseChunksFrom_calls (faults : Faults) (docId : Bytes) (s : CallState F)
    (hopen : s.index.opened = true ∨ ∀ n, s.store[chunkId docId n]? = none) :
    Calls docId (fun _ => none) (s.index.opened = true → ErasesWhole faults docId 0 s.ops s.store) s
      (eraseChunksFrom faults docId 0 s) := by
  have herased : Erased faults docId 0 s (eraseChunksFrom faults docId 0 s) :=
    eraseChunksFrom_erased faults (hopen.imp id fun h n _ => h n)
  have hreturns := eraseChunksFrom_returns faults docId 0 s
  exact ⟨hreturns, fun id hid => herased.others id fun n _ => hid n,
    fun hok hs n => herased.all hok (hs docId) n (Nat.zero_le n), fun hs hwhole => herased.noGaps hs hreturns hwhole⟩

def textEntries (docId : Bytes) (chunks : List Chunk) (vectors : List (List F)) (n : ℕ) : Option (VectorEntry F) :=
  (chunks.zip vectors)[n]?.map fun item => chunkEntry docId n item.1 item.2

/- The number of the operation with which a call of `rag_index` begins to erase. -/
def eraseStart (index : RagIndex) (chunks : List Chunk) : ℕ := (if index.opened then 0 else 1) + chunks.length

theorem ensureOpen_opens (faults : Faults) (dimensions : ℕ) (s : CallState F) {t : CallState F}
    (h : ensureOpen faults dimensions s = (t, .ok ())) :
    t.store = s.store ∧ t.index.opened = true ∧ t.ops = s.ops + (if s.index.opened then 0 else 1) ∧
      (∀ j < if s.index.opened then 0 else 1, faults (s.ops + j) = none) ∧
      (s.index.opened = true ∨ s.index.Accepts dimensions) := by
  unfold ensureOpen at h
  split at h
  · next hopened =>
    cases h
    rw [if_pos hopened]
    exact ⟨rfl, hopened, rfl, fun j hj => absurd hj (Nat.not_lt_zero j), Or.inl hopened⟩
  · next hclosed =>
    have hopens := openRagIndex_opens faults dimensions s
    rw [h] at hopens
    obtain ⟨hops, hfault, haccepts⟩ := hopens.ops rfl
    rw [if_neg hclosed]
    refine ⟨hopens.store, hopens.opened rfl, hops, fun j hj => ?_, Or.inr haccepts⟩
    obtain rfl : j = 0 := by omega
    exact hfault

theorem indexChunks_calls (faults : Faults) (docId : Bytes) (chunks : List Chunk) (vectors : List (List F))
    (hlen : vectors.length = chunks.length) (s : CallState F) :
    Calls docId (textEntries docId chunks vectors)
      ((s.index.opened = true ∨ s.index.Accepts (vectors.headD []).length) →
        (∀ j < eraseStart s.index chunks, faults (s.ops + j) = none) →
        ErasesWhole faults docId chunks.length (s.ops + eraseStart s.index chunks) s.store) s
      (indexChunks faults docId chunks vectors s) := by
  have hzip : (chunks.zip vectors).length = chunks.length := by
    rw [length_zip, hlen, Nat.min_self]
  unfold indexChunks
  cases hopen : ensureOpen faults (vectors.headD []).length s with
  | mk s₁ result₁ =>
  cases result₁ with
  | error e =>
    refine calls_failed e ?_
    have hopens := (openRagIndex_opens faults (vectors.headD []).length s).store
    unfold ensureOpen at hopen
    split at hopen
    · cases hopen
    · rwa [hopen] at hopens
  | ok _ =>
    obtain ⟨hstore, hopened, hops₁, hnone₁, haccepts⟩ := ensureOpen_opens faults _ s hopen
    simp only
    have hup := upsertChunks_upserted faults docId 0 (chunks.zip vectors) s₁
    generalize upsertChunks faults docId 0 (chunks.zip vectors) s₁ = upserted at hup ⊢
    obtain ⟨s₂, result₂⟩ := upserted
    obtain ⟨hothers, hstored, hgaps, hops, hindex⟩ := hup
    simp only [hzip] at hothers hstored hgaps hops hindex
    have hgaps₂ (hs : NoGaps s.store) : NoGaps s₂.store := hgaps (hstore ▸ hs) nofun
    cases result₂ with
    | error e =>
      refine ⟨⟨_, rfl⟩, fun id hid => ?_, nofun, fun hs _ => hgaps₂ hs⟩
      rw [hothers id fun m _ _ => hid m, hstore]
    | ok _ =>
      obtain ⟨hops₂, hnone₂⟩ := hops rfl
      simp only
      have herased : Erased faults docId chunks.length s₂ (eraseChunksFrom faults docId chunks.length s₂) :=
        eraseChunksFrom_erased faults (Or.inl (hindex ▸ hopened))
      have hreturns := eraseChunksFrom_returns faults docId chunks.length s₂
      refine ⟨hreturns, fun id hid => ?_, fun hok hs n => ?_, fun hs hwhole => ?_⟩
      · rw [herased.others id fun n _ => hid n, hothers id fun n _ _ => hid n, hstore]
      · unfold textEntries
        by_cases hn : n < chunks.length
        · obtain ⟨item, hitem⟩ : ∃ item, (chunks.zip vectors)[n]? = some item :=
            ⟨_, getElem?_eq_getElem (hzip ▸ hn)⟩
          have hat := hstored rfl n item hitem
          rw [Nat.zero_add] at hat
          rw [herased.kept n hn, hat, hitem]
          rfl
        · have htight : Tight docId chunks.length s₂.store := fun n _ => hgaps₂ hs docId n (Nat.zero_le n)
          rw [herased.all hok htight n (by omega), getElem?_eq_none (by omega)]
          rfl
      · -- the chunks behind the new ones are those of the store before
        refine herased.noGaps (hgaps₂ hs) hreturns fun _ k hk => ?_
        have hstart : s₂.ops = s.ops + eraseStart s.index chunks := by
          unfold eraseStart
          omega
        rw [hstart] at hk ⊢
        refine hwhole haccepts (fun j hj => ?_) k fun j hj => ⟨(hk j hj).1, ?_⟩
        · unfold eraseStart at hj
          by_cases hfirst : j < if s.index.opened then 0 else 1
          · exact hnone₁ j hfirst
          · have hlater := hnone₂ (j - if s.index.opened then 0 else 1) (by omega)
            rwa [hops₁, show s.ops + (if s.index.opened then 0 else 1) + (j - if s.index.opened then 0 else 1) =
              s.ops + j by omega] at hlater
        · have hat := (hk j hj).2
          rwa [hothers _ fun m _ hlt => chunkId_ne (by omega), hstore] at hat

structure RagState (F : Type) where
  store : Table (VectorEntry F)
  index : RagIndex := {}

/- `openIndex` is also what a query does to an index; `renew`: a new `RagIndex` over the same store. -/
inductive RagAct where
  | index (docId text : Bytes) (options : ChunkOptions) (faults : Faults)
  | erase (docId : Bytes) (faults : Faults)
  | openIndex (dimensions : ℤ) (faults : Faults)
  | renew (dimensions : ℤ)

def RagState.call (s : RagState F) : CallState F := { store := s.store, index := s.index }

def act (env : RagEnv F) (s : RagState F) : RagAct → CallState F × Option (Result Unit)
  | .index docId text options faults => ragIndex faults docId env text options s.call
  | .erase docId faults => ragErase faults docId s.call
  | .openIndex dimensions faults =>
    ((openRagIndex faults dimensions s.call).1, some (openRagIndex faults dimensions s.call).2)
  | .renew dimensions => ({ store := s.store, index := { dimensions } }, some (.ok ()))

def step (env : RagEnv F) (s : RagState F) (a : RagAct) : Option (RagState F) :=
  match act env s a with
  | (_, none) => none
  | (c, some _) => some { store := c.store, index := c.index }

/- What `rag_erase` and `rag_index` promise. -/
def Promised (env : RagEnv F) (s : RagState F) (a : RagAct) (c : CallState F) (result : Result Unit) : Prop :=
  match a with
  | .index docId text options _ =>
    (∀ id, (∀ n, id ≠ chunkId docId n) → c.store[id]? = s.store[id]?) ∧
      (result = .ok () → ∃ chunks vectors, env.chunkText text options = .ok chunks ∧
        (chunks ≠ [] → env.embed (chunks.map (·.text)) = .ok vectors) ∧ vectors.length = chunks.length ∧
        ∀ n, c.store[chunkId docId n]? = textEntries docId chunks vectors n)
  | .erase docId _ =>
    (∀ id, (∀ n, id ≠ chunkId docId n) → c.store[id]? = s.store[id]?) ∧
      (result = .ok () → ∀ n, c.store[chunkId docId n]? = none)
  | _ => c.store = s.store

/- The index is open, or the document has no chunks. -/
def Erasable (s : RagState F) (docId : Bytes) : Prop :=
  s.index.opened = true ∨ ∀ n, s.store[chunkId docId n]? = none

/- With these chunks of its text, `rag_index` gets to its erase: the embeddings are there, the index is
open or can be opened, and no operation before fails. -/
def EraseReached (env : RagEnv F) (s : RagState F) (faults : Faults) (chunks : List Chunk) : Prop :=
  (if chunks = [] then s.index.opened = true
    else ∃ vectors, env.embed (chunks.map (·.text)) = .ok vectors ∧
      (s.index.opened = true ∨ s.index.Accepts (vectors.headD []).length)) ∧
  ∀ j < eraseStart s.index chunks, faults j = none

/- An index that erases is open, and an erase is not left half done. -/
def Calm (env : RagEnv F) (s : RagState F) (a : RagAct) : Prop :=
  match a with
  | .index docId text options faults => (env.chunkText text options = .ok [] → Erasable s docId) ∧
    ∀ chunks, env.chunkText text options = .ok chunks → EraseReached env s faults chunks →
      ErasesWhole faults docId chunks.length (eraseStart s.index chunks) s.store
  | .erase docId faults => Erasable s docId ∧ (s.index.opened = true → ErasesWhole faults docId 0 0 s.store)
  | _ => True

theorem ragIndex_calls (env : RagEnv F) (faults : Faults) (docId text : Bytes) (options : ChunkOptions)
    (s : RagState F) (hopen : env.chunkText text options = .ok [] → Erasable s docId) :
    ∃ chunks vectors, Calls docId (textEntries docId chunks vectors)
        (∀ chunks, env.chunkText text options = .ok chunks → EraseReached env s faults chunks →
          ErasesWhole faults docId chunks.length (eraseStart s.index chunks) s.store) s.call
        (ragIndex faults docId env text options s.call) ∧
      ((ragIndex faults docId env text options s.call).2 = some (.ok ()) → env.chunkText text options = .ok chunks ∧
        (chunks ≠ [] → env.embed (chunks.map (·.text)) = .ok vectors) ∧ vectors.length = chunks.length) := by
  unfold ragIndex
  split
  · exact ⟨[], [], calls_failed _ rfl, nofun⟩
  cases hchunks : env.chunkText text options with
  | error e => exact ⟨[], [], calls_failed e rfl, nofun⟩
  | ok chunks =>
    cases chunks with
    | nil =>
      obtain ⟨hreturns, hothers, hreplaced, hgaps⟩ := eraseChunksFrom_calls faults docId s.call (hopen hchunks)
      refine ⟨[], [], ⟨hreturns, hothers, hreplaced, fun hs hwhole => hgaps hs fun hopened => ?_⟩,
        fun _ => ⟨rfl, fun h => absurd rfl h, rfl⟩⟩
      have hstart : eraseStart s.index [] = 0 := by
        exact congrArg (· + 0) (if_pos hopened)
      have hall := hwhole [] rfl ⟨by rw [if_pos rfl]; exact hopened, fun j hj => absurd hj (by omega)⟩
      rw [hstart] at hall
      exact hall
    | cons chunk chunks =>
      simp only
      cases hembed : env.embed ((chunk :: chunks).map (·.text)) with
      | error e => exact ⟨[], [], calls_failed e rfl, nofun⟩
      | ok vectors =>
        have hlen : vectors.length = (chunk :: chunks).length := by
          rw [env.embed_length _ _ hembed, length_map]
        obtain ⟨hreturns, hothers, hreplaced, hgaps⟩ := indexChunks_calls faults docId _ _ hlen s.call
        refine ⟨chunk :: chunks, vectors, ⟨hreturns, hothers, hreplaced, fun hs hwhole => hgaps hs ?_⟩,
          fun _ => ⟨rfl, fun _ => hembed, hlen⟩⟩
        intro hopens hnone
        simp only [RagState.call, Nat.zero_add] at hnone ⊢
        exact hwhole _ rfl ⟨by rw [if_neg (cons_ne_nil _ _)]; exact ⟨vectors, hembed, hopens⟩, hnone⟩

theorem act_promised (env : RagEnv F) (s : RagState F) (a : RagAct) (hs : NoGaps s.store) (ha : Calm env s a) :
    ∃ result, (act env s a).2 = some result ∧ Promised env s a (act env s a).1 result ∧
      NoGaps (act env s a).1.store := by
  cases a with
  | index docId text options faults =>
    obtain ⟨hopen, hwhole⟩ := ha
    obtain ⟨chunks, vectors, hcalls, hfrom⟩ := ragIndex_calls env faults docId text options s hopen
    obtain ⟨result, hresult⟩ := hcalls.returns
    refine ⟨result, hresult, ⟨hcalls.others, fun hok => ?_⟩, hcalls.noGaps hs hwhole⟩
    rw [hok] at hresult
    obtain ⟨hchunks, hembed, hlen⟩ := hfrom hresult
    exact ⟨chunks, vectors, hchunks, hembed, hlen, hcalls.replaced hresult hs⟩
  | erase docId faults =>
    obtain ⟨hopen, hwhole⟩ := ha
    have hcalls := eraseChunksFrom_calls faults docId s.call hopen
    obtain ⟨result, hresult⟩ := hcalls.returns
    refine ⟨result, hresult, ⟨hcalls.others, fun hok => ?_⟩, hcalls.noGaps hs hwhole⟩
    rw [hok] at hresult
    exact hcalls.replaced hresult hs
  | openIndex dimensions faults =>
    have hstore := (openRagIndex_opens faults dimensions s.call).store
    exact ⟨_, rfl, hstore, by change NoGaps (openRagIndex faults dimensions s.call).1.store; rw [hstore]; exact hs⟩
  | renew dimensions => exact ⟨_, rfl, rfl, hs⟩

theorem step_noGaps (env : RagEnv F) (s : RagState F) (a : RagAct) (t : RagState F) (hs : NoGaps s.store)
    (ha : Calm env s a) (h : step env s a = some t) : NoGaps t.store := by
  obtain ⟨result, hresult, -, hgaps⟩ := act_promised env s a hs ha
  unfold step at h
  generalize act env s a = r at h hresult hgaps
  obtain ⟨c, o⟩ := r
  cases hresult
  cases h
  exact hgaps

/-- From a store without gaps, when every index that erases is open and no call fails after it has
erased a chunk: each call returns; `rag_erase` leaves no chunk of its document, `rag_index` exactly
the chunks of the new text, and neither touches other documents. -/
theorem rag_calls_keep_promise (env : RagEnv F) (s₀ s : RagState F) (acts : List RagAct) (a : RagAct)
    (hstart : NoGaps s₀.store) (hmeets : Meets (step env) (Calm env) s₀ acts)
    (hrun : run (step env) s₀ acts = some s) (ha : Calm env s a) :
    ∃ result, (act env s a).2 = some result ∧ Promised env s a (act env s a).1 result := by
  have hs : NoGaps s.store :=
    run_invariant_of_meets (fun s a t hs ha h => step_noGaps env s a t hs ha h) hrun hmeets hstart
  obtain ⟨result, hresult, hpromised, -⟩ := act_promised env s a hs ha
  exact ⟨result, hresult, hpromised⟩

def byteEnv : RagEnv Unit where
  chunkText text _ := .ok (text.map fun b => { offset := 0, text := [b] })
  embed texts := .ok (texts.map fun _ => [()])
  embed_length texts vectors h := by
    cases h
    exact length_map _

def noFaults : Faults := fun _ => none

def secondFails : Faults := fun n => if n = 1 then some ⟨.filesystemError, lit "disk"⟩ else none

def indexAbc : RagAct := .index (lit "d") (lit "abc") {} noFaults

theorem rag_calls_keep_promise_erase : ∃ s result, run (step byteEnv) { store := ∅ } [indexAbc] = some s ∧
      (act byteEnv s (.erase (lit "d") noFaults)).2 = some result ∧
      Promised byteEnv s (.erase (lit "d") noFaults) (act byteEnv s (.erase (lit "d") noFaults)).1 result := by
  have hends : (run (step byteEnv) { store := ∅ } [indexAbc]).any (fun s => s.index.opened) = true := by decide +kernel
  obtain ⟨s, hrun, hs⟩ := (Option.any_eq_true _ _).1 hends
  have hmeets : Meets (step byteEnv) (Calm byteEnv) { store := ∅ } [indexAbc] :=
    ⟨⟨nofun, fun _ _ _ _ _ => rfl⟩, fun _ _ => trivial⟩
  have herase : Calm byteEnv s (.erase (lit "d") noFaults) := ⟨Or.inl hs, fun _ _ _ => rfl⟩
  obtain ⟨result, hresult, hpromised⟩ := rag_calls_keep_promise byteEnv { store := ∅ } s [indexAbc]
    (.erase (lit "d") noFaults) (fun _ _ _ _ => get_empty _) hmeets hrun herase
  exact ⟨s, result, hrun, hresult, hpromised⟩

/- A new index over the store erases nothing and returns ok; and after an erase that failed, the
next one returns ok with a chunk left. -/
theorem ragErase_leaves_chunks : (∃ s, run (step byteEnv) { store := ∅ } [indexAbc, .renew 0] = some s ∧
      (act byteEnv s (.erase (lit "d") noFaults)).2 = some (.ok ()) ∧
      (act byteEnv s (.erase (lit "d") noFaults)).1.store[chunkId (lit "d") 0]? ≠ none) ∧
    (∃ s, run (step byteEnv) { store := ∅ } [indexAbc, .erase (lit "d") secondFails] = some s ∧
      (act byteEnv s (.erase (lit "d") noFaults)).2 = some (.ok ()) ∧
      (act byteEnv s (.erase (lit "d") noFaults)).1.store[chunkId (lit "d") 1]? ≠ none) := by
  have hends (acts : List RagAct) (n : ℕ) (h : (run (step byteEnv) { store := ∅ } acts).any (fun s =>
      decide ((act byteEnv s (.erase (lit "d") noFaults)).2 = some (.ok ()) ∧
        (act byteEnv s (.erase (lit "d") noFaults)).1.store[chunkId (lit "d") n]? ≠ none)) = true) :
      ∃ s, run (step byteEnv) { store := ∅ } acts = some s ∧
        (act byteEnv s (.erase (lit "d") noFaults)).2 = some (.ok ()) ∧
        (act byteEnv s (.erase (lit "d") noFaults)).1.store[chunkId (lit "d") n]? ≠ none := by
    obtain ⟨s, hrun, hs⟩ := (Option.any_eq_true _ _).1 h
    exact ⟨s, hrun, of_decide_eq_true hs⟩
  exact ⟨hends _ 0 (by decide +kernel), hends _ 1 (by decide +kernel)⟩

end AgentCpp.Rag
