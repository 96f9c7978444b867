import AgentCpp.Graph.CheckpointRoundTrip
import AgentCpp.Graph.Drive
import AgentCpp.Lib.JsonReader
import AgentCpp.Lib.Machine

/-!
# Scoped values of concurrent runs (`graph_checkpoint.cpp`)

Each run keeps a copy of the key index from when it started, and writes the whole index
back when it adds a key.
-/

namespace AgentCpp
open Lib Lib.Json Function Table List

/- No operation of the store fails. -/
def noFault : Bytes → Option Error := fun _ => none

theorem loadScopedState_ok {parser : JsonParser} {store : Store} {index : ScopedIndex} (values : Table Bytes)
    (h : readIndex noFault parser store = .ok index) : loadScopedState noFault parser store values =
      ((forEach (loadScopedKey noFault store) index.keys values).1, index, .ok ()) := by
  have hone : ∀ values, ∀ key ∈ index.keys, (loadScopedKey noFault store values key).2 = .ok () := by
    intro values key _
    unfold loadScopedKey readMemory retrieveMemory
    cases store[scopedValueKey key]? <;> rfl
  unfold loadScopedState
  rw [h]
  exact Prod.ext rfl (Prod.ext rfl (forEach_ok hone values))

theorem get_forEach_loadScopedKey (store : Store) (keys : List Bytes) (values : Table Bytes) (key : Bytes) :
    (forEach (loadScopedKey noFault store) keys values).1[key]? =
      if key ∈ keys then store[scopedValueKey key]?.or values[key]? else values[key]? := by
  induction keys generalizing values with
  | nil => rfl
  | cons k keys ih =>
    have hone : ∃ values', loadScopedKey noFault store values k = (values', .ok ()) ∧ values'[key]? =
        if k = key then store[scopedValueKey key]?.or values[key]? else values[key]? := by
      unfold loadScopedKey readMemory retrieveMemory
      cases hv : store[scopedValueKey k]? with
      | none =>
        refine ⟨values, rfl, ?_⟩
        split
        · next hk =>
          rw [← hk, hv]
          rfl
        · rfl
      | some v =>
        refine ⟨_, rfl, ?_⟩
        rw [get_insert]
        split
        · next hk =>
          rw [← hk, hv]
          rfl
        · rfl
    obtain ⟨values', hload, hone⟩ := hone
    rw [forEach, hload, ih, hone]
    by_cases hk : k = key
    · subst hk
      by_cases hmem : k ∈ keys
      · cases store[scopedValueKey k]? <;> simp [hmem]
      · simp [hmem]
    · have hiff : key ∈ k :: keys ↔ key ∈ keys := by simp [Ne.symm hk]
      simp only [if_neg hk, hiff]

theorem mem_foldl_index (keys : List Bytes) (index : ScopedIndex) (key : Bytes) :
    key ∈ (keys.foldl (fun (index : ScopedIndex) key => index.insert key ()) index).keys ↔
      key ∈ keys ∨ key ∈ index.keys := by
  induction keys generalizing index with
  | nil => simp
  | cons k keys ih =>
    rw [foldl_cons, ih]
    simp only [Std.ExtTreeMap.mem_keys, Std.ExtTreeMap.mem_insert, Std.compare_eq_iff_eq, mem_cons]
    constructor
    · rintro (h | rfl | h)
      · exact Or.inl (Or.inr h)
      · exact Or.inl (Or.inl rfl)
      · exact Or.inr h
    · rintro ((rfl | h) | h)
      · exact Or.inr (Or.inl rfl)
      · exact Or.inl h
      · exact Or.inr (Or.inr h)

theorem readIndex_encoded (parser : JsonParser) (store : Store) (keys : List Bytes)
    (hutf8 : ∀ key ∈ keys, Utf8.Valid key) (hstore : store[scopedIndexKey]? = some (encodeStrings keys)) :
    ∃ index, readIndex noFault parser store = .ok index ∧ ∀ key, key ∈ index.keys ↔ key ∈ keys := by
  have hparse := parser.parses _ _ (denotes_encodeStrings keys) (valid_encodeStrings keys hutf8)
  have hitems : ((stringsJson keys) |> getArray) = some (keys.map Json.str) := rfl
  have hstrings : (keys.map Json.str).filterMap getString = keys := by
    rw [filterMap_map]
    exact filterMap_some
  refine ⟨keys.foldl (fun (index : ScopedIndex) key => index.insert key ()) ∅, ?_, ?_⟩
  · unfold readIndex readMemory retrieveMemory noFault
    simp only [hstore, hparse, Option.bind_some, hitems, hstrings]
  · intro key
    rw [mem_foldl_index]
    simp

/- What a run that has started knows; `adding`: it has stored a value under a new key and has yet to
store the index. -/
structure ScopedRun where
  index : ScopedIndex
  adding : Bool := false

/- `persisted` are the keys the runs have persisted so far; the source keeps no such list. -/
structure ScopedRuns where
  store : Store
  runs : ℕ → Option ScopedRun := fun _ => none
  persisted : List Bytes := []

inductive ScopedAct where
  | load (r : ℕ)
  | storeValue (r : ℕ) (key value : Bytes)
  | storeIndex (r : ℕ)
  | finish (r : ℕ)

/- `persist_scoped_value` up to its second store call. -/
def ScopedRun.emplace (run : ScopedRun) (key : Bytes) : ScopedRun :=
  if run.index.contains key then run else { index := run.index.insert key (), adding := true }

namespace ScopedRuns

variable (s : ScopedRuns)

/- The reads of the values are left out: they follow the index and change nothing. -/
def load (parser : JsonParser) (r : ℕ) : Option ScopedRuns :=
  match s.runs r, readIndex noFault parser s.store with
  | none, .ok index => some { s with runs := update s.runs r (some { index }) }
  | _, _ => none

def storeValue (r : ℕ) (key value : Bytes) : Option ScopedRuns :=
  match s.runs r with
  | some run =>
    if run.adding = false ∧ isScopedKey key = true then
      some {
        store := storeMemory s.store (scopedValueKey key) value
        runs := update s.runs r (some (run.emplace key))
        persisted := s.persisted ++ [key] }
    else none
  | none => none

def storeIndex (r : ℕ) : Option ScopedRuns :=
  match s.runs r with
  | some run =>
    if run.adding then
      some { s with
        store := storeMemory s.store scopedIndexKey (encodeStrings run.index.keys)
        runs := update s.runs r (some { run with adding := false }) }
    else none
  | none => none

def finish (r : ℕ) : Option ScopedRuns :=
  match s.runs r with
  | some run => if run.adding then none else some { s with runs := update s.runs r none }
  | none => none

def step (parser : JsonParser) : ScopedAct → Option ScopedRuns
  | .load r => s.load parser r
  | .storeValue r key value => s.storeValue r key value
  | .storeIndex r => s.storeIndex r
  | .finish r => s.finish r

end ScopedRuns

/- An index is stored only over an index whose keys the run knows, and keys are valid
UTF-8. -/
def ScopedRuns.Knows (parser : JsonParser) (s : ScopedRuns) : ScopedAct → Prop
  | .storeIndex r => ∀ run, s.runs r = some run → ∀ index, readIndex noFault parser s.store = .ok index →
      ∀ key ∈ index.keys, key ∈ run.index.keys
  | .storeValue _ key _ => Utf8.Valid key
  | _ => True

/- A key is listed in the store, or a run is about to store an index that lists it. -/
def ScopedRuns.Listed (s : ScopedRuns) (index : ScopedIndex) (key : Bytes) : Prop :=
  key ∈ index.keys ∨ ∃ r run, s.runs r = some run ∧ run.adding = true ∧ key ∈ run.index.keys

/- `index` is what the store lists. -/
structure ScopedRuns.Complete (parser : JsonParser) (index : ScopedIndex) (s : ScopedRuns) : Prop where
  reads : readIndex noFault parser s.store = .ok index
  values : ∀ key ∈ s.persisted, (s.store[scopedValueKey key]?).isSome = true
  utf8 : ∀ key ∈ index.keys, Utf8.Valid key
  runUtf8 : ∀ r run, s.runs r = some run → ∀ key ∈ run.index.keys, Utf8.Valid key
  known : ∀ r run, s.runs r = some run → run.adding = false → ∀ key ∈ run.index.keys, key ∈ index.keys
  listed : ∀ key ∈ s.persisted, s.Listed index key

theorem readIndex_storeValue (parser : JsonParser) (store : Store) (key value : Bytes) :
    readIndex noFault parser (storeMemory store (scopedValueKey key) value) = readIndex noFault parser store := by
  have hne : scopedValueKey key ≠ scopedIndexKey := by
    intro h
    have htake : (scopedValueKey key).take 12 = lit "graph_state:" := rfl
    rw [h] at htake
    exact absurd htake (by decide)
  unfold readIndex readMemory retrieveMemory storeMemory
  rw [get_insert_ne _ _ _ _ hne]

namespace ScopedRuns

variable {parser : JsonParser} {index : ScopedIndex} {s t : ScopedRuns}

theorem Listed.update {key : Bytes} (h : s.Listed index key) {r : ℕ} {run : Option ScopedRun}
    (hr : ∀ old, s.runs r = some old → old.adding = false) {store : Store} {persisted : List Bytes} :
    Listed { store, runs := update s.runs r run, persisted } index key := by
  rcases h with h | ⟨q, old, hq, hadding, hkey⟩
  · exact Or.inl h
  · have hne : q ≠ r := by
      rintro rfl
      rw [hr old hq] at hadding
      cases hadding
    exact Or.inr ⟨q, old, (update_of_ne hne _ _).trans hq, hadding, hkey⟩

theorem load_complete (hs : Complete parser index s) {r : ℕ} (h : s.load parser r = some t) :
    Complete parser index t := by
  unfold load at h
  rw [hs.reads] at h
  split at h
  · next idx hr hidx =>
    cases hidx
    cases h
    refine ⟨hs.reads, hs.values, hs.utf8, ?_, ?_, ?_⟩
    · intro q run hq
      obtain ⟨-, ⟨⟩⟩ | ⟨-, hq⟩ := update_cases hq
      · exact hs.utf8
      · exact hs.runUtf8 q run hq
    · intro q run hq hadding
      obtain ⟨-, ⟨⟩⟩ | ⟨-, hq⟩ := update_cases hq
      · exact fun key hkey => hkey
      · exact hs.known q run hq hadding
    · intro key hkey
      refine (hs.listed key hkey).update fun old hold => ?_
      rw [hr] at hold
      cases hold
  · cases h

theorem mem_emplace {run : ScopedRun} {key k : Bytes} :
    k ∈ (run.emplace key).index.keys ↔ k = key ∨ k ∈ run.index.keys := by
  unfold ScopedRun.emplace
  by_cases hc : run.index.contains key = true
  · rw [if_pos hc]
    refine ⟨Or.inr, ?_⟩
    rintro (rfl | h)
    · exact Std.ExtTreeMap.mem_keys.2 (Std.ExtTreeMap.mem_iff_contains.2 hc)
    · exact h
  · rw [if_neg hc]
    simp only [Std.ExtTreeMap.mem_keys, Std.ExtTreeMap.mem_insert, Std.compare_eq_iff_eq]
    constructor
    · rintro (rfl | h)
      · exact Or.inl rfl
      · exact Or.inr h
    · rintro (rfl | h)
      · exact Or.inl rfl
      · exact Or.inr h

theorem emplace_adding (run : ScopedRun) (key : Bytes) :
    (run.emplace key).adding = true ∨ (run.emplace key = run ∧ key ∈ run.index.keys) := by
  unfold ScopedRun.emplace
  by_cases hc : run.index.contains key = true
  · rw [if_pos hc]
    exact Or.inr ⟨rfl, Std.ExtTreeMap.mem_keys.2 (Std.ExtTreeMap.mem_iff_contains.2 hc)⟩
  · rw [if_neg hc]
    exact Or.inl rfl

theorem storeValue_complete (hs : Complete parser index s) {r : ℕ} {key value : Bytes}
    (hutf8 : Utf8.Valid key) (h : s.storeValue r key value = some t) : Complete parser index t := by
  unfold storeValue at h
  split at h
  · next run hr =>
    split at h
    · next hc =>
      cases h
      have hadds := emplace_adding run key
      refine ⟨(readIndex_storeValue parser _ _ _).trans hs.reads, ?_, hs.utf8, ?_, ?_, ?_⟩
      · intro k hk
        simp only [storeMemory, get_insert]
        split
        · rfl
        · next hne =>
          rcases mem_append.1 hk with hk | hk
          · exact hs.values k hk
          · exact absurd (congrArg scopedValueKey (mem_singleton.1 hk).symm) hne
      · intro q run' hq
        obtain ⟨-, ⟨⟩⟩ | ⟨-, hq⟩ := update_cases hq
        · intro k hk
          rcases mem_emplace.1 hk with rfl | hk
          · exact hutf8
          · exact hs.runUtf8 r run hr k hk
        · exact hs.runUtf8 q run' hq
      · intro q run' hq hadding
        obtain ⟨-, ⟨⟩⟩ | ⟨-, hq⟩ := update_cases hq
        · rcases hadds with htrue | ⟨hsame, -⟩
          · rw [htrue] at hadding
            cases hadding
          · rw [hsame]
            exact hs.known r run hr hc.1
        · exact hs.known q run' hq hadding
      · intro k hk
        rcases mem_append.1 hk with hk | hk
        · refine (hs.listed k hk).update fun old hold => ?_
          rw [hr] at hold
          cases hold
          exact hc.1
        · rw [mem_singleton.1 hk]
          rcases hadds with htrue | ⟨-, hmem⟩
          · exact Or.inr ⟨r, _, update_self .., htrue, mem_emplace.2 (Or.inl rfl)⟩
          · exact Or.inl (hs.known r run hr hc.1 key hmem)
    · cases h
  · cases h

theorem storeIndex_complete (hs : Complete parser index s) {r : ℕ} (hok : s.Knows parser (.storeIndex r))
    (h : s.storeIndex r = some t) : ∃ index', Complete parser index' t := by
  unfold storeIndex at h
  split at h
  · next run hr =>
    split at h
    · cases h
      obtain ⟨index', hreads, hkeys⟩ := readIndex_encoded parser
        (storeMemory s.store scopedIndexKey (encodeStrings run.index.keys)) run.index.keys
        (hs.runUtf8 r run hr) (get_insert_self _ _ _)
      -- the run knows all keys the store listed, so they stay listed
      have hgrow : ∀ key ∈ index.keys, key ∈ index'.keys := fun key hkey =>
        (hkeys key).2 (hok run hr index hs.reads key hkey)
      refine ⟨index', hreads, ?_, ?_, ?_, ?_, ?_⟩
      · intro key hkey
        simp only [storeMemory, get_insert]
        split
        · rfl
        · exact hs.values key hkey
      · intro key hkey
        exact hs.runUtf8 r run hr key ((hkeys key).1 hkey)
      · intro q run' hq
        obtain ⟨-, ⟨⟩⟩ | ⟨-, hq⟩ := update_cases hq
        · exact hs.runUtf8 r run hr
        · exact hs.runUtf8 q run' hq
      · intro q run' hq hnot
        obtain ⟨-, ⟨⟩⟩ | ⟨-, hq⟩ := update_cases hq
        · exact fun key hkey => (hkeys key).2 hkey
        · exact fun key hkey => hgrow key (hs.known q run' hq hnot key hkey)
      · intro key hkey
        rcases hs.listed key hkey with hlisted | ⟨q, run', hq, hadds, hmem⟩
        · exact Or.inl (hgrow key hlisted)
        · by_cases heq : q = r
          · subst heq
            rw [hr] at hq
            cases hq
            exact Or.inl ((hkeys key).2 hmem)
          · exact Or.inr ⟨q, run', (update_of_ne heq _ _).trans hq, hadds, hmem⟩
    · cases h
  · cases h

theorem finish_complete (hs : Complete parser index s) {r : ℕ} (h : s.finish r = some t) :
    Complete parser index t := by
  unfold finish at h
  split at h
  · next run hr =>
    split at h
    · cases h
    · next hadding =>
      cases h
      refine ⟨hs.reads, hs.values, hs.utf8, ?_, ?_, ?_⟩
      · intro q run' hq
        obtain ⟨-, ⟨⟩⟩ | ⟨-, hq⟩ := update_cases hq
        exact hs.runUtf8 q run' hq
      · intro q run' hq
        obtain ⟨-, ⟨⟩⟩ | ⟨-, hq⟩ := update_cases hq
        exact hs.known q run' hq
      · intro key hkey
        refine (hs.listed key hkey).update fun old hold => ?_
        rw [hr] at hold
        cases hold
        simpa using hadding
  · cases h

theorem step_complete (s : ScopedRuns) (a : ScopedAct) (t : ScopedRuns)
    (hs : ∃ index, Complete parser index s) (hok : s.Knows parser a) (h : s.step parser a = some t) :
    ∃ index, Complete parser index t := by
  obtain ⟨index, hs⟩ := hs
  cases a with
  | load r => exact ⟨index, load_complete hs h⟩
  | storeValue r key value => exact ⟨index, storeValue_complete hs hok h⟩
  | storeIndex r => exact storeIndex_complete hs hok h
  | finish r => exact ⟨index, finish_complete hs h⟩

theorem step_unreadable (s : ScopedRuns) (a : ScopedAct) (t : ScopedRuns)
    (hs : (∃ e, readIndex noFault parser s.store = .error e) ∧ s.persisted = [] ∧ ∀ r, s.runs r = none)
    (h : s.step parser a = some t) :
    (∃ e, readIndex noFault parser t.store = .error e) ∧ t.persisted = [] ∧ ∀ r, t.runs r = none := by
  obtain ⟨⟨e, he⟩, hpersisted, hruns⟩ := hs
  cases a with
  | load r =>
    change s.load parser r = some t at h
    unfold load at h
    rw [he, hruns] at h
    cases h
  | storeValue r key value =>
    change s.storeValue r key value = some t at h
    unfold storeValue at h
    rw [hruns] at h
    cases h
  | storeIndex r =>
    change s.storeIndex r = some t at h
    unfold storeIndex at h
    rw [hruns] at h
    cases h
  | finish r =>
    change s.finish r = some t at h
    unfold finish at h
    rw [hruns] at h
    cases h

end ScopedRuns

/-- Every scoped key that one of the runs persisted is loaded by a run that starts after
all have finished, as long as no run writes an index over keys it does not know. -/
theorem scopedKeys_loaded (parser : JsonParser) (store : Store)
    (hutf8 : ∀ index, readIndex noFault parser store = .ok index → ∀ key ∈ index.keys, Utf8.Valid key)
    (as : List ScopedAct) (s : ScopedRuns) (h : run (fun s => ScopedRuns.step s parser) { store } as = some s)
    (hok : Meets (fun s => ScopedRuns.step s parser) (ScopedRuns.Knows parser) { store } as)
    (hdone : ∀ r, s.runs r = none) (key : Bytes) (hkey : key ∈ s.persisted) (values : Table Bytes) :
    ∃ loaded index value, loadScopedState noFault parser s.store values = (loaded, index, .ok ()) ∧
      s.store[scopedValueKey key]? = some value ∧ loaded[key]? = some value := by
  cases hread : readIndex noFault parser store with
  | error e =>
    obtain ⟨-, hnone, -⟩ := run_invariant ScopedRuns.step_unreadable h ⟨⟨e, hread⟩, rfl, fun r => rfl⟩
    rw [hnone] at hkey
    cases hkey
  | ok index =>
    have hstart : ScopedRuns.Complete parser index { store } := by
      refine ⟨hread, ?_, hutf8 index hread, ?_, ?_, ?_⟩
      · intro key hkey
        cases hkey
      · intro r run hr
        cases hr
      · intro r run hr
        cases hr
      · intro key hkey
        cases hkey
    obtain ⟨index', hs⟩ := run_invariant_of_meets ScopedRuns.step_complete h hok ⟨index, hstart⟩
    obtain ⟨value, hvalue⟩ := Option.isSome_iff_exists.1 (hs.values key hkey)
    have hlisted : key ∈ index'.keys := by
      rcases hs.listed key hkey with hlisted | ⟨r, run, hr, -⟩
      · exact hlisted
      · rw [hdone r] at hr
        cases hr
    refine ⟨_, index', value, loadScopedState_ok values hs.reads, hvalue, ?_⟩
    rw [get_forEach_loadScopedKey, if_pos hlisted, hvalue]
    rfl

def bothAdd : List ScopedAct :=
  [.load 0, .load 1, .storeValue 0 (lit "user:a") (lit "1"), .storeIndex 0,
    .storeValue 1 (lit "user:b") (lit "2"), .storeIndex 1, .finish 0, .finish 1]

theorem bothAdd_loses_key : ∃ s, run (fun s => ScopedRuns.step s JsonReader.parser) { store := ∅ } bothAdd = some s ∧
      (∀ r, s.runs r = none) ∧ lit "user:a" ∈ s.persisted ∧
      ∃ loaded index, loadScopedState noFault JsonReader.parser s.store ∅ = (loaded, index, .ok ()) ∧
        loaded[lit "user:a"]? = none := by
  obtain ⟨s, hrun, hruns, hpersisted, before, hstore⟩ : ∃ s,
      run (fun s => ScopedRuns.step s JsonReader.parser) { store := ∅ } bothAdd = some s ∧
      (∀ r, r ≠ 0 → r ≠ 1 → s.runs r = none) ∧ s.persisted = [lit "user:a", lit "user:b"] ∧
      ∃ before, s.store = storeMemory before scopedIndexKey (encodeStrings [lit "user:b"]) := by
    refine ⟨_, rfl, ?_, rfl, _, rfl⟩
    intro r h0 h1
    simp only [update_of_ne h0, update_of_ne h1]
  refine ⟨s, hrun, ?_, by rw [hpersisted]; simp, ?_⟩
  · intro r
    by_cases h0 : r = 0
    · subst h0
      cases hrun
      rfl
    · by_cases h1 : r = 1
      · subst h1
        cases hrun
        rfl
      · exact hruns r h0 h1
  · obtain ⟨index, hreads, hkeys⟩ := readIndex_encoded JsonReader.parser s.store [lit "user:b"] (by decide)
      (by rw [hstore]; exact get_insert_self _ _ _)
    refine ⟨_, index, loadScopedState_ok ∅ hreads, ?_⟩
    rw [get_forEach_loadScopedKey, if_neg, get_empty]
    rw [hkeys]
    decide

def oneAfterOther : List ScopedAct :=
  [.load 0, .storeValue 0 (lit "user:a") (lit "1"), .storeIndex 0, .finish 0,
    .load 1, .storeValue 1 (lit "user:b") (lit "2"), .storeIndex 1, .finish 1]

theorem scopedKeys_loaded_oneAfterOther :
    ∃ s, run (fun s => ScopedRuns.step s JsonReader.parser) { store := ∅ } oneAfterOther = some s ∧
      ∃ loaded index value, loadScopedState noFault JsonReader.parser s.store ∅ = (loaded, index, .ok ()) ∧
        s.store[scopedValueKey (lit "user:a")]? = some value ∧ loaded[lit "user:a"]? = some value := by
  refine ⟨_, rfl, ?_⟩
  refine scopedKeys_loaded JsonReader.parser ∅ ?_ oneAfterOther _ rfl ?_ ?_ (lit "user:a") (by simp) ∅
  · intro index hread
    cases hread
    simp
  · have hfirst : Utf8.Valid (lit "user:a") := by decide
    have hsecond : Utf8.Valid (lit "user:b") := by decide
    refine .cons trivial rfl (.cons hfirst rfl (.cons ?_ rfl (.cons trivial rfl (.cons trivial rfl
      (.cons hsecond rfl (.cons ?_ rfl (.cons trivial rfl trivial)))))))
    · intro run hrun index hread
      cases hrun
      cases hread
      decide
    · intro run hrun index hread
      cases hrun
      cases hread
      decide
  · intro r
    by_cases h0 : r = 0
    · subst h0
      rfl
    · by_cases h1 : r = 1
      · subst h1
        rfl
      · simp only [update_of_ne h0, update_of_ne h1]

end AgentCpp
