import AgentCpp.Graph.CheckpointerRefinement

/-!
# The persisted event log

Batches of events are appended through the store adapter and listed. One payload cut inside a
character makes the whole thread's log unreadable.
-/

namespace AgentCpp
open Lib Lib.Json List

def logEvents (calls : List LogCall) : List GraphEvent := calls.foldl logEvent []

def storeAppendAll (store : Store) (t : Bytes) (batches : List (List GraphEvent)) : Result Store :=
  batches.foldlM (fun store events => storeAppendEvents store t events) store

theorem logEvents_eq (calls : List LogCall) : logEvents calls = calls.map LogCall.event := by
  have h : ∀ events, calls.foldl logEvent events = events ++ calls.map LogCall.event := by
    induction calls with
    | nil =>
      intro events
      rw [map_nil, append_nil]
      rfl
    | cons c calls ih =>
      intro events
      rw [foldl_cons, ih, logEvent, append_assoc]
      rfl
  exact h []

theorem tied_appendAll {store : Store} {t : Bytes} {log : ThreadLog} {steps : Steps}
    (batches : List (List GraphEvent)) (h : Tied (look store) t log steps)
    (hfew : log.batches.length + batches.length < 2 ^ 64) : ∃ store', storeAppendAll store t batches = .ok store' ∧
      Tied (look store') t { log with batches := log.batches ++ batches } steps := by
  induction batches generalizing store log with
  | nil =>
    refine ⟨store, rfl, ?_⟩
    rw [append_nil]
    exact h
  | cons b batches ih =>
    rw [length_cons] at hfew
    obtain ⟨store', happ, -, htied⟩ := tied_append h b (by omega)
    obtain ⟨store'', hall, hlast⟩ := ih htied (by
      rw [length_append, length_singleton]
      omega)
    refine ⟨store'', (foldlM_step happ).trans hall, ?_⟩
    rw [append_assoc] at hlast
    exact hlast

theorem foldlM_decodeEvents_invalid (parser : JsonParser) (batches : List (List GraphEvent))
    (out : List GraphEvent) (h : ¬∀ b ∈ batches, ∀ e ∈ b, e.Utf8) :
    batches.foldlM (fun out b => decodeEvents parser (encodeEvents b) out) out =
      fail .parseError (lit "graph event log: not a JSON array.") := by
  induction batches generalizing out with
  | nil => exact absurd (by simp) h
  | cons b batches ih =>
    by_cases hb : ∀ e ∈ b, e.Utf8
    · refine (foldlM_step (decodeEvents_encodeEvents parser b out ((valid_encodeEvents b).2 hb))).trans ?_
      refine ih _ fun hall => h ?_
      exact List.forall_mem_cons.2 ⟨hb, hall⟩
    · have hinv : ¬Utf8.Valid (encodeEvents b) := fun hv => hb ((valid_encodeEvents b).1 hv)
      rw [foldlM_cons, decodeEvents_invalid parser _ out hinv]
      rfl

theorem logEvents_utf8 (calls : List LogCall) (hu : ∀ c ∈ calls, c.Utf8) :
    (∀ e ∈ logEvents calls, e.Utf8) ↔ ∀ c ∈ calls, CutsBetweenCharacters c.type c.payload := by
  rw [logEvents_eq, forall_mem_map]
  exact forall₂_congr fun c hc => event_utf8 c (hu c hc)

def readLog (parser : JsonParser) (store : Store) (t : Bytes) (batches : List (List LogCall)) :
    Result (List GraphEvent) := do
  let store ← storeAppendAll store t (batches.map logEvents)
  storeListEvents parser store t

theorem readLog_eq (parser : JsonParser) (store : Store) (t : Bytes)
    (batches : List (List LogCall)) (hstore : NoThreadKeys store) (hfew : batches.length < 2 ^ 64) :
    readLog parser store t batches =
      (batches.map logEvents).foldlM (fun out b => decodeEvents parser (encodeEvents b) out) [] := by
  obtain ⟨store', happ, htied⟩ := tied_appendAll (batches.map logEvents) (tied_fresh store hstore t) (by
      simpa using hfew)
  exact (bind_ok _ happ).trans (tied_listEvents parser htied)

/-- For calls with valid strings, every batch decodes to itself exactly when every cut falls between
characters. -/
theorem event_log_reads_back_iff (parser : JsonParser) (store : Store) (t : Bytes)
    (batches : List (List LogCall)) (hstore : NoThreadKeys store)
    (hfew : batches.length < 2 ^ 64) (hu : ∀ b ∈ batches, ∀ c ∈ b, c.Utf8) :
    (readLog parser store t batches = .ok (batches.map logEvents).flatten ∧
      ∀ b ∈ batches, decodeEvents parser (encodeEvents (logEvents b)) [] = .ok (logEvents b)) ↔
      ∀ b ∈ batches, ∀ c ∈ b, CutsBetweenCharacters c.type c.payload := by
  have hcuts : (∀ b ∈ batches.map logEvents, ∀ e ∈ b, e.Utf8) ↔
      ∀ b ∈ batches, ∀ c ∈ b, CutsBetweenCharacters c.type c.payload := by
    rw [forall_mem_map]
    exact forall₂_congr fun b hb => logEvents_utf8 b (hu b hb)
  rw [readLog_eq parser store t batches hstore hfew, ← hcuts]
  constructor
  · rintro ⟨hlist, -⟩
    by_contra hbad
    rw [foldlM_decodeEvents_invalid parser _ _ hbad] at hlist
    exact absurd hlist (by simp [fail])
  · intro hgood
    refine ⟨foldlM_decodeEvents parser _ [] hgood, ?_⟩
    intro b hb
    have hvalid := (valid_encodeEvents (logEvents b)).2 (hgood _ (mem_map_of_mem hb))
    exact decodeEvents_encodeEvents parser _ [] hvalid

def splitCall : LogCall :=
  { type := .stateWrite, node := lit "n", key := lit "k", now := 1
    payload := List.replicate 199 97 ++ [0xC3, 0xA9] }

theorem event_log_reads_back_iff_splitCall :
    (readLog JsonReader.parser ∅ (lit "t") [[splitCall]] = .ok (logEvents [splitCall]) ∧
      ∀ b ∈ [[splitCall]], decodeEvents JsonReader.parser (encodeEvents (logEvents b)) [] = .ok (logEvents b)) ↔
      ∀ b ∈ [[splitCall]], ∀ c ∈ b, CutsBetweenCharacters c.type c.payload :=
  event_log_reads_back_iff JsonReader.parser ∅ (lit "t") [[splitCall]] noThreadKeys_empty
    (by decide) (by decide +kernel)

theorem split_payload_unreadable :
    splitCall.Utf8 ∧
      readLog JsonReader.parser ∅ (lit "t") [[splitCall]] =
        fail .parseError (lit "graph event log: not a JSON array.") := by
  refine ⟨by decide +kernel, ?_⟩
  rw [readLog_eq _ _ _ _ noThreadKeys_empty (by decide)]
  exact foldlM_decodeEvents_invalid JsonReader.parser _ [] (by decide +kernel)

end AgentCpp
