import AgentCpp.Graph.Checkpointer

/-!
# The store adapter refines the in-memory checkpointer

Every key the adapter uses is a slot of one thread. A simulation relation ties the slots of a thread
to its table of steps and to the batches appended to its log.
-/

namespace AgentCpp
open Lib Lib.Json List Option Function UInt64 Table

inductive SlotGroup where
  | blob
  | info
  | events
  deriving DecidableEq

inductive SlotSuffix where
  | step (n : UInt64)
  | latest
  | count
  deriving DecidableEq

structure Slot where
  group : SlotGroup
  thread : Bytes
  suffix : SlotSuffix
  deriving DecidableEq

def SlotGroup.text : SlotGroup → Bytes
  | .blob => lit "checkpoint:"
  | .info => lit "checkpoint_meta:"
  | .events => lit "graph_events:"

def SlotSuffix.text : SlotSuffix → Bytes
  | .step n => stepStr n
  | .latest => lit "latest"
  | .count => lit "count"

namespace Slot

def key (k : Slot) : Bytes := k.group.text ++ k.thread ++ lit ":" ++ k.suffix.text

variable (t : Bytes) (n : UInt64)

theorem key_blob : checkpointKey t (stepStr n) = key ⟨.blob, t, .step n⟩ := rfl

theorem key_blobLatest : checkpointKey t (lit "latest") = key ⟨.blob, t, .latest⟩ := rfl

theorem key_info : metaKey t (stepStr n) = key ⟨.info, t, .step n⟩ := rfl

theorem key_infoLatest : metaKey t (lit "latest") = key ⟨.info, t, .latest⟩ := rfl

theorem key_batch : eventsKey t (stepStr n) = key ⟨.events, t, .step n⟩ := rfl

theorem key_count : eventsKey t (lit "count") = key ⟨.events, t, .count⟩ := rfl

theorem stepStr_not_mem (c : UInt8) (hc : isDigit c = false) : c ∉ stepStr n := by
  intro h
  have hd := decimal_digits _ _ h
  rw [hc] at hd
  exact absurd hd (by decide)

theorem stepStr_ne (c : UInt8) (s : Bytes) (hc : isDigit c = false) : stepStr n ≠ c :: s := by
  intro h
  have hm : c ∈ stepStr n := by
    rw [h]
    exact mem_cons_self ..
  exact stepStr_not_mem n c hc hm

theorem suffix_injective (a b : SlotSuffix) (h : a.text = b.text) : a = b := by
  cases a with
  | step m =>
    cases b with
    | step n => rw [UInt64.toNat_inj.1 (decimal_injective h)]
    | latest => exact absurd h (stepStr_ne m _ _ (by decide))
    | count => exact absurd h (stepStr_ne m _ _ (by decide))
  | latest =>
    cases b with
    | step n => exact absurd h.symm (stepStr_ne n _ _ (by decide))
    | latest => rfl
    | count => exact absurd h (by decide)
  | count =>
    cases b with
    | step n => exact absurd h.symm (stepStr_ne n _ _ (by decide))
    | latest => exact absurd h (by decide)
    | count => rfl

theorem suffix_no_colon (a : SlotSuffix) : 58 ∉ a.text := by
  cases a with
  | step n => exact stepStr_not_mem n 58 (by decide)
  | latest =>
    decide
  | count =>
    decide

/- The groups already differ within their first eleven octets. -/
theorem group_injective (g g' : SlotGroup) (s s' : Bytes) (h : g.text ++ s = g'.text ++ s') : g = g' := by
  have h11 : (g.text ++ s).take 11 = (g'.text ++ s').take 11 := by rw [h]
  have hlen (g : SlotGroup) : 11 ≤ g.text.length := by cases g <;> decide
  rw [take_append_of_le_length (hlen g), take_append_of_le_length (hlen g')] at h11
  revert h11
  cases g <;> cases g' <;> decide

theorem key_injective (k l : Slot) (h : k.key = l.key) : k = l := by
  obtain ⟨g, t, a⟩ := k
  obtain ⟨g', t', b⟩ := l
  simp only [key, append_assoc] at h
  have hg := group_injective g g' _ _ h
  subst hg
  have ht : t ++ 58 :: a.text = t' ++ 58 :: b.text := (append_right_inj _).1 h
  obtain ⟨htt, hab⟩ := separator_append_inj 58 _ _ _ _ (suffix_no_colon a) (suffix_no_colon b) ht
  rw [htt, suffix_injective a b hab]

end Slot

def look (store : Store) (k : Slot) : Option Bytes := store[k.key]?

theorem look_storeMemory (store : Store) (k l : Slot) (v : Bytes) :
    look (storeMemory store k.key v) l = if k = l then some v else look store l := by
  unfold look storeMemory
  rw [get_insert]
  by_cases h : k = l
  · rw [if_pos h, if_pos (by rw [h])]
  · rw [if_neg h, if_neg (fun hk => h (Slot.key_injective k l hk))]

theorem look_storeMemory_other (store : Store) {k l : Slot} (h : l.thread ≠ k.thread) (v : Bytes) :
    look (storeMemory store k.key v) l = look store l := by
  rw [look_storeMemory, if_neg (fun hk => h (by rw [hk]))]

/- An empty value reads as missing. -/
def present (v : Option Bytes) : Option Bytes := v.filter fun v => v ≠ []

@[simp] theorem present_nil : present (some []) = none := rfl

theorem present_some (v : Bytes) (h : v ≠ []) : present (some v) = some v := by
  simp [present, h]

theorem storeGetNonempty_key (store : Store) (k : Slot) : storeGetNonempty store k.key =
      match present (look store k) with
      | none => keyNotFound k.key
      | some v => .ok v := by
  unfold storeGetNonempty retrieveMemory look
  cases h : store[k.key]? with
  | none => rfl
  | some v =>
    by_cases hv : v = []
    · rw [hv]
      rfl
    · rw [present_some v hv]
      simp only [hv, ite_false]

/- Since the thread was last deleted: the step put last and the batches appended. -/
structure ThreadLog where
  last : Option UInt64 := none
  batches : List (List GraphEvent) := []

def logsAfter (logs : Bytes → ThreadLog) : CheckpointerCall → Bytes → ThreadLog
  | .put t step _ _ => update logs t { logs t with last := some step }
  | .deleteThread t => update logs t {}
  | .appendEvents t events =>
    update logs t { logs t with batches := (logs t).batches ++ [events] }
  | _ => logs

/- `infoText v cp`: `v` is a timestamp, a blank and the metadata of `cp`. -/
def InfoText (v : Bytes) (cp : MemCheckpoint) : Prop :=
  ∃ now : Int64, v = decimalInt now.toInt ++ lit " " ++ cp.metadata

structure Tied (slots : Slot → Option Bytes) (t : Bytes) (log : ThreadLog) (steps : Steps) :
    Prop where
  blobs : ∀ n : UInt64, present (slots ⟨.blob, t, .step n⟩) = steps[n]?.map (·.blob)
  infos : ∀ n : UInt64, Option.Rel InfoText (present (slots ⟨.info, t, .step n⟩)) steps[n]?
  lastBlob : present (slots ⟨.blob, t, .latest⟩) =
    log.last.bind fun n => steps[n]?.map (·.blob)
  lastStep : present (slots ⟨.info, t, .latest⟩) = log.last.map stepStr
  lastMem : ∀ n ∈ log.last, steps[n]?.isSome
  le_last : ∀ k : UInt64, steps[k]?.isSome → ∃ n ∈ log.last, k ≤ n
  count : present (slots ⟨.events, t, .count⟩) =
    if log.batches = [] then none else some (decimal log.batches.length)
  batch : ∀ i (h : i < log.batches.length),
    slots ⟨.events, t, .step (UInt64.ofNat i)⟩ = some (encodeEvents log.batches[i])
  few : log.batches.length < 2 ^ 64

section
variable {slots slots' : Slot → Option Bytes} {store : Store} {t : Bytes} {log : ThreadLog}
  {steps : Steps}

theorem Tied.withBatches (h : Tied slots t log steps) {batches : List (List GraphEvent)}
    (hs : ∀ g a, g ≠ .events → slots' ⟨g, t, a⟩ = slots ⟨g, t, a⟩) (hcount : present (slots' ⟨.events, t, .count⟩) =
      if batches = [] then none else some (decimal batches.length))
    (hbatch : ∀ i (h : i < batches.length),
      slots' ⟨.events, t, .step (UInt64.ofNat i)⟩ = some (encodeEvents batches[i]))
    (hfew : batches.length < 2 ^ 64) : Tied slots' t ⟨log.last, batches⟩ steps := by
  have hblob (a : SlotSuffix) : slots' ⟨.blob, t, a⟩ = slots ⟨.blob, t, a⟩ := hs _ a (by decide)
  have hinfo (a : SlotSuffix) : slots' ⟨.info, t, a⟩ = slots ⟨.info, t, a⟩ := hs _ a (by decide)
  refine ⟨?_, ?_, ?_, ?_, h.lastMem, h.le_last, hcount, hbatch, hfew⟩
  · intro n
    rw [hblob, h.blobs]
  · intro n
    rw [hinfo]
    exact h.infos n
  · rw [hblob, h.lastBlob]
  · rw [hinfo, h.lastStep]

theorem Tied.congr (h : Tied slots t log steps)
    (hs : ∀ g a, slots' ⟨g, t, a⟩ = slots ⟨g, t, a⟩) : Tied slots' t log steps := by
  refine h.withBatches (fun g a _ => hs g a) ?_ ?_ h.few
  · rw [hs, h.count]
  · intro i hi
    rw [hs, h.batch i hi]

theorem Tied.le_of_last (h : Tied slots t log steps) {n : UInt64} (hl : log.last = some n)
    (k : UInt64) (hk : steps[k]?.isSome) : k ≤ n := by
  obtain ⟨m, hm, hle⟩ := h.le_last k hk
  rw [hl] at hm
  cases hm
  exact hle

theorem Tied.none_of_last (h : Tied slots t log steps) (hl : log.last = none) (k : UInt64) : steps[k]? = none := by
  cases hk : steps[k]? with
  | none => rfl
  | some cp =>
    obtain ⟨n, hn, -⟩ := h.le_last k (by rw [hk]; rfl)
    rw [hl] at hn
    exact absurd hn (by simp)

theorem Tied.none_of_gt (h : Tied slots t log steps) {n : UInt64} (hl : log.last = some n)
    (k : UInt64) (hk : ¬k.toNat < n.toNat + 1) : steps[k]? = none := by
  cases hs : steps[k]? with
  | none => rfl
  | some cp =>
    have hle := h.le_of_last hl k (by rw [hs]; rfl)
    exact absurd (Nat.lt_succ_of_le (UInt64.le_iff_toNat_le.1 hle)) hk

theorem Tied.pair (h : Tied slots t log steps) (k : UInt64) : (present (slots ⟨.info, t, .step k⟩)).isSome =
      (present (slots ⟨.blob, t, .step k⟩)).isSome := by
  have hinfo := h.infos k
  rw [h.blobs k]
  generalize present (slots ⟨.info, t, .step k⟩) = v, steps[k]? = cp at hinfo
  cases hinfo with
  | none => rfl
  | some _ => rfl

theorem Tied.absent (h : Tied slots t log steps) {k : UInt64} (hk : steps[k]? = none)
    (g : SlotGroup) (hg : g ≠ .events) : present (slots ⟨g, t, .step k⟩) = none := by
  have hblob := h.blobs k
  have hpair := h.pair k
  rw [hk] at hblob
  rw [hblob] at hpair
  cases g with
  | blob => exact hblob
  | info => exact isNone_iff_eq_none.1 (by simpa using hpair)
  | events => exact absurd rfl hg

end

theorem steps_insert (steps : Steps) (n k : UInt64) (cp : MemCheckpoint) :
    (steps.insert n cp)[k]? = if n = k then some cp else steps[k]? := by
  rw [Std.ExtTreeMap.getElem?_insert]
  simp only [Std.compare_eq_iff_eq]

theorem look_storePut (store : Store) (now : Int64) (t : Bytes) (n : UInt64) (blob md : Bytes) (l : Slot) :
    look (storePut store now t n blob md) l =
      if ⟨.info, t, .latest⟩ = l then some (stepStr n)
      else if ⟨.info, t, .step n⟩ = l then some (decimalInt now.toInt ++ lit " " ++ md)
      else if ⟨.blob, t, .latest⟩ = l then some blob
      else if ⟨.blob, t, .step n⟩ = l then some blob
      else look store l := by
  unfold storePut
  rw [Slot.key_blob, Slot.key_blobLatest, Slot.key_info, Slot.key_infoLatest]
  simp only [look_storeMemory]

theorem decimalInt_ne_nil (i : ℤ) (s : Bytes) : decimalInt i ++ s ≠ [] := by
  unfold decimalInt
  split
  · simp
  · simp [decimal_ne_nil]

theorem tied_put (store : Store) (now now' : Int64) (t : Bytes) (n : UInt64) (blob md : Bytes)
    (log : ThreadLog) (steps : Steps) (h : Tied (look store) t log steps) (hb : blob ≠ [])
    (hm : ∀ m ∈ log.last, m ≤ n) : Tied (look (storePut store now t n blob md)) t { log with last := some n }
      (steps.insert n ⟨blob, md, now'⟩) := by
  have hinfo : decimalInt now.toInt ++ lit " " ++ md ≠ [] := by
    rw [append_assoc]
    exact decimalInt_ne_nil _ _
  obtain ⟨h1, h2, h3, h4, h5, h6, h7, h8, h9⟩ := h
  refine ⟨?_, ?_, ?_, ?_, ?_, ?_, ?_, ?_, h9⟩
  · intro k
    rw [look_storePut, steps_insert]
    by_cases hk : n = k
    · simp [hk, present_some blob hb]
    · simp [hk, h1 k]
  · intro k
    rw [look_storePut, steps_insert]
    by_cases hk : n = k
    · subst hk
      simp only [Slot.mk.injEq, reduceCtorEq, and_false, ite_false, ite_true, present_some _ hinfo]
      exact .some ⟨now, rfl⟩
    · simpa [hk] using h2 k
  · rw [look_storePut]
    simp [present_some blob hb]
  · rw [look_storePut]
    simp [present_some _ (decimal_ne_nil n.toNat), stepStr]
  · rintro m ⟨⟩
    rw [steps_insert, if_pos rfl]
    rfl
  · intro k hk
    refine ⟨n, rfl, ?_⟩
    rw [steps_insert] at hk
    split at hk
    · next hnk => exact hnk ▸ UInt64.le_refl n
    · obtain ⟨m, hmem, hle⟩ := h6 k hk
      exact UInt64.le_trans hle (hm m hmem)
  · rw [look_storePut]
    simpa using h7
  · intro i hi
    rw [look_storePut]
    simpa using h8 i hi

theorem look_storePut_other (store : Store) (now : Int64) (t u : Bytes) (n : UInt64)
    (blob md : Bytes) (hu : t ≠ u) (g : SlotGroup) (a : SlotSuffix) :
    look (storePut store now t n blob md) ⟨g, u, a⟩ = look store ⟨g, u, a⟩ := by
  rw [look_storePut]
  simp [hu]

def memSteps (s : MemCheckpointer) (t : Bytes) : Steps := s.threads[t]?.getD ∅

def memEvents (s : MemCheckpointer) (t : Bytes) : List GraphEvent := s.events[t]?.getD []

theorem answer_memGet (s : MemCheckpointer) (t : Bytes) (n : UInt64) : answer .blob (memGet s t n) =
      match (memSteps s t)[n]? with
      | none => .error .keyNotFound
      | some cp => .blob cp.blob := by
  unfold memGet memSteps
  cases s.threads[t]? with
  | none =>
    rfl
  | some steps =>
    rw [getD_some]
    dsimp only
    cases steps[n]? <;> rfl

section
variable {slots : Slot → Option Bytes} {store : Store} {t : Bytes} {log : ThreadLog}
  {steps : Steps} {s : MemCheckpointer}

theorem tied_get (h : Tied (look store) t log (memSteps s t)) (n : UInt64) :
    answer .blob (storeGet store t n) = answer .blob (memGet s t n) := by
  rw [answer_memGet, storeGet, Slot.key_blob, storeGetNonempty_key, h.blobs n]
  cases (memSteps s t)[n]? <;> rfl

theorem Tied.toList_nil (h : Tied slots t log steps) (hl : log.last = none) : steps.toList = [] := by
  apply eq_nil_iff_forall_not_mem.2
  rintro ⟨k, cp⟩ hk
  have hs := (mem_steps steps k cp).1 hk
  rw [h.none_of_last hl k] at hs
  cases hs

theorem Tied.getLast (h : Tied slots t log steps) {n : UInt64} (hl : log.last = some n)
    {cp : MemCheckpoint} (hcp : steps[n]? = some cp) : steps.toList.getLast? = some (n, cp) := by
  refine getLast?_of_max _ _ (steps_sorted steps) ((mem_steps steps n cp).2 hcp) ?_
  rintro ⟨k, c⟩ hk
  exact h.le_of_last hl k (by rw [(mem_steps steps k c).1 hk]; rfl)

theorem answer_memGetLatest (s : MemCheckpointer) (t : Bytes) : answer .blob (memGetLatest s t) =
      match (memSteps s t).toList.getLast? with
      | none => .error .keyNotFound
      | some e => .blob e.2.blob := by
  unfold memGetLatest memSteps
  cases s.threads[t]? with
  | none =>
    rfl
  | some steps =>
    rw [getD_some]
    dsimp only
    cases steps.toList.getLast? <;> rfl

theorem tied_getLatest (h : Tied (look store) t log (memSteps s t)) :
    answer .blob (storeGetLatest store t) = answer .blob (memGetLatest s t) := by
  rw [answer_memGetLatest, storeGetLatest, Slot.key_blobLatest, storeGetNonempty_key, h.lastBlob]
  cases hl : log.last with
  | none =>
    rw [h.toList_nil hl]
    rfl
  | some n =>
    obtain ⟨cp, hcp⟩ := isSome_iff_exists.1 (h.lastMem n hl)
    rw [h.getLast hl hcp, bind_some, hcp]
    rfl

theorem forSteps_ok {σ : Type} (latest : UInt64) (body : UInt64 → σ → Result σ)
    (g : UInt64 → σ → σ) (hbody : ∀ step acc, body step acc = .ok (g step acc))
    (hl : latest.toNat + 1 < 2 ^ 64) (k fuel : ℕ) (step : UInt64) (acc : σ)
    (hk : step.toNat + k = latest.toNat + 1) (hfuel : k < fuel) :
    forSteps latest body fuel step acc =
      some (.ok ((List.range' step.toNat k).foldl (fun acc i => g (UInt64.ofNat i) acc) acc)) := by
  induction k generalizing fuel step acc with
  | zero =>
    obtain ⟨fuel, rfl⟩ : ∃ f, fuel = f + 1 := ⟨fuel - 1, by omega⟩
    have hstop : ¬step ≤ latest := by
      rw [le_iff_toNat_le]
      omega
    rw [forSteps, if_neg hstop]
    rfl
  | succ k ih =>
    obtain ⟨fuel, rfl⟩ : ∃ f, fuel = f + 1 := ⟨fuel - 1, by omega⟩
    have hgo : step ≤ latest := by
      rw [le_iff_toNat_le]
      omega
    have hnext : (step + 1).toNat = step.toNat + 1 := by
      exact Nat.mod_eq_of_lt (by change step.toNat + 1 < _; omega)
    rw [forSteps, if_pos hgo, hbody]
    dsimp only
    rw [ih fuel (step + 1) _ (by omega) (by omega), hnext, List.range'_succ, foldl_cons, UInt64.ofNat_toNat]

theorem forSteps_wraps {σ : Type} (body : UInt64 → σ → Result σ) (g : UInt64 → σ → σ)
    (hbody : ∀ step acc, body step acc = .ok (g step acc)) (fuel : ℕ) (step : UInt64) (acc : σ) :
    forSteps (-1) body fuel step acc = none := by
  induction fuel generalizing step acc with
  | zero => rfl
  | succ fuel ih =>
    have hgo : step ≤ -1 := by
      have hlt := step.toNat_lt
      change step.toNat ≤ 2 ^ 64 - 1
      omega
    rw [forSteps, if_pos hgo, hbody]
    exact ih _ _

theorem blank_not_mem_decimalInt (i : ℤ) : 32 ∉ decimalInt i := by
  have hd : 32 ∉ decimal i.natAbs := by
    intro h
    exact absurd (decimal_digits _ _ h) (by decide)
  unfold decimalInt
  split
  · intro h
    rcases mem_cons.1 h with h | h
    · exact absurd h (by decide)
    · exact hd h
  · exact hd

variable (n : UInt64) (parser : JsonParser)

theorem readInfo_infoText (v : Bytes) (cp : MemCheckpoint) (h : InfoText v cp) :
    ((readInfo n v).step, (readInfo n v).metadata) = (n, cp.metadata) := by
  obtain ⟨now, rfl⟩ := h
  have hv : decimalInt now.toInt ++ lit " " ++ cp.metadata =
      decimalInt now.toInt ++ 32 :: cp.metadata := by
    rw [append_assoc]
    rfl
  have hfind : find (lit " ") (decimalInt now.toInt ++ 32 :: cp.metadata) =
      some (decimalInt now.toInt).length :=
    find_append_of_not_mem 32 _ _ (blank_not_mem_decimalInt _)
  have hdrop : (decimalInt now.toInt ++ 32 :: cp.metadata).drop
      ((decimalInt now.toInt).length + 1) = cp.metadata := by
    simp
  rw [hv, readInfo, hfind]
  dsimp only
  rw [hdrop]

def listed (store : Store) (t : Bytes) (n : UInt64) : Option GraphCheckpointInfo :=
  (present (look store ⟨.info, t, .step n⟩)).map (readInfo n)

theorem storeListStep_eq (store : Store) (t : Bytes) (n : UInt64) (out : List GraphCheckpointInfo) :
    storeListStep store t n out = .ok (out ++ (listed store t n).toList) := by
  unfold storeListStep listed
  rw [Slot.key_info, storeGetNonempty_key]
  cases present (look store ⟨.info, t, .step n⟩) with
  | none =>
    rw [map_none, toList_none, append_nil]
    rfl
  | some v => rfl

/- The entries of a step table are found by probing every step up to the last one. -/
theorem steps_probed (steps : Steps) (n : ℕ) (hn : n ≤ 2 ^ 64) (hall : ∀ k : UInt64, steps[k]?.isSome → k.toNat < n) :
    steps.toList = (List.range n).filterMap fun i => steps[UInt64.ofNat i]?.map (UInt64.ofNat i, ·) := by
  have hirrefl : Std.Irrefl fun a b : UInt64 × MemCheckpoint => a.1 < b.1 := ⟨fun a => UInt64.lt_irrefl a.1⟩
  have hantisymm : Std.Antisymm fun a b : UInt64 × MemCheckpoint => a.1 < b.1 :=
    ⟨fun a b hab hba => absurd (UInt64.lt_trans hab hba) (UInt64.lt_irrefl _)⟩
  refine (steps_sorted steps).eq_of_mem_iff ?_ ?_
  · refine pairwise_filterMap.2 (pairwise_lt_range.imp_of_mem fun {i j} hi hj hij a ha b hb => ?_)
    obtain ⟨-, -, rfl⟩ := map_eq_some_iff.1 ha
    obtain ⟨-, -, rfl⟩ := map_eq_some_iff.1 hb
    have hjn := (List.mem_range.1 hj).trans_le hn
    rw [lt_iff_toNat_lt, toNat_ofNat_of_lt' (hij.trans hjn), toNat_ofNat_of_lt' hjn]
    exact hij
  · rintro ⟨k, cp⟩
    rw [mem_steps, mem_filterMap]
    constructor
    · intro hk
      refine ⟨k.toNat, List.mem_range.2 (hall k (by rw [hk]; rfl)), ?_⟩
      rw [UInt64.ofNat_toNat, hk]
      rfl
    · rintro ⟨i, -, hi⟩
      obtain ⟨_, hcp, he⟩ := map_eq_some_iff.1 hi
      cases he
      exact hcp

theorem tied_latestStep (h : Tied (look store) t log steps) {n : UInt64}
    (hl : log.last = some n) : storeLatestStep store t = .ok n := by
  unfold storeLatestStep
  rw [Slot.key_infoLatest, storeGetNonempty_key, h.lastStep, hl, map_some]
  dsimp only
  rw [stepStr, fromChars_decimal _ _ n.toNat_lt]
  dsimp only
  rw [UInt64.ofNat_toNat]

theorem tied_noLatestStep (h : Tied (look store) t log steps) (hl : log.last = none) :
    storeLatestStep store t = keyNotFound (Slot.key ⟨.info, t, .latest⟩) := by
  unfold storeLatestStep
  rw [Slot.key_infoLatest, storeGetNonempty_key, h.lastStep, hl]
  rfl

theorem answer_memList (s : MemCheckpointer) (t : Bytes) : answer infosAnswer (memList s t) =
      .infos ((memSteps s t).toList.map fun e => (e.1, e.2.metadata)) := by
  unfold memList memSteps
  cases s.threads[t]? with
  | none =>
    rfl
  | some steps =>
    dsimp only [answer, infosAnswer]
    rw [List.map_map]
    rfl

theorem listed_eq (h : Tied (look store) t log steps) (n : UInt64) :
    (listed store t n).map (fun i => (i.step, i.metadata)) = steps[n]?.map fun cp => (n, cp.metadata) := by
  have hrel := h.infos n
  unfold listed
  generalize present (look store ⟨.info, t, .step n⟩) = v, steps[n]? = cp at hrel
  cases hrel with
  | none => rfl
  | some hv => exact congrArg some (readInfo_infoText n _ _ hv)

theorem toNat_succ_lt (h : n ≠ -1) : n.toNat + 1 < 2 ^ 64 := by
  have hlt := n.toNat_lt
  rcases Nat.lt_or_ge (n.toNat + 1) (2 ^ 64) with hn | hn
  · exact hn
  · have he : n.toNat = (-1 : UInt64).toNat := by
      change n.toNat = 2 ^ 64 - 1
      omega
    exact absurd (UInt64.toNat_inj.1 he) h

theorem tied_list (h : Tied (look store) t log (memSteps s t)) (hlast : log.last ≠ some (-1))
    (fuel : ℕ) (hfuel : 2 ^ 64 ≤ fuel) :
    (storeList fuel store t).map (answer infosAnswer) = some (answer infosAnswer (memList s t)) := by
  rw [answer_memList]
  unfold storeList
  cases hl : log.last with
  | none =>
    rw [tied_noLatestStep h hl, h.toList_nil hl]
    rfl
  | some n =>
    have hn := toNat_succ_lt n (fun he => hlast (by rw [hl, he]))
    rw [tied_latestStep h hl]
    dsimp only
    rw [forSteps_ok n _ (fun k out => out ++ (listed store t k).toList) (storeListStep_eq store t) hn
      (n.toNat + 1) fuel 0 [] (by simp) (by omega), UInt64.toNat_zero, ← range_eq_range', ← flatMap_eq_foldl,
      ← filterMap_eq_flatMap_toList]
    have hall : ∀ k : UInt64, (memSteps s t)[k]?.isSome → k.toNat < n.toNat + 1 := by
      intro k hk
      exact Nat.lt_succ_of_le (UInt64.le_iff_toNat_le.1 (h.le_of_last hl k hk))
    change some (Answer.infos (List.map _ _)) = _
    rw [steps_probed (memSteps s t) (n.toNat + 1) (by omega) hall, map_filterMap, map_filterMap]
    simp only [listed_eq h, Option.map_map]
    rfl

theorem tied_eventBatches (h : Tied (look store) t log steps) :
    storeEventBatches store t = .ok (UInt64.ofNat log.batches.length) := by
  unfold storeEventBatches
  rw [Slot.key_count, storeGetNonempty_key, h.count]
  by_cases hb : log.batches = []
  · rw [hb]
    rfl
  · rw [if_neg hb]
    dsimp only
    rw [fromChars_decimal _ _ h.few]
    rfl

theorem decimal_eq_stepStr (i : ℕ) (h : i < 2 ^ 64) : decimal i = stepStr (UInt64.ofNat i) := by
  rw [stepStr, toNat_ofNat_of_lt' h]

theorem tied_foldlM_batches (h : Tied (look store) t log steps) (k : ℕ)
    (hk : k ≤ log.batches.length) :
    (List.range k).foldlM (fun out i => do
      let batch ← retrieveMemory store (eventsKey t (decimal i))
      decodeEvents parser batch out) ([] : List GraphEvent) =
      (log.batches.take k).foldlM (fun out b => decodeEvents parser (encodeEvents b) out) [] := by
  induction k with
  | zero => rfl
  | succ k ih =>
    have hfew := h.few
    have hget : retrieveMemory store (eventsKey t (decimal k)) = .ok (encodeEvents log.batches[k]) := by
      have hlook : store[Slot.key ⟨.events, t, .step (UInt64.ofNat k)⟩]? = _ :=
        h.batch k (by omega)
      rw [decimal_eq_stepStr k (by omega), Slot.key_batch, retrieveMemory, hlook]
    have htake : log.batches.take (k + 1) = log.batches.take k ++ [log.batches[k]] := by
      rw [take_add_one, getElem?_eq_getElem (by omega), toList_some]
    rw [range_succ, htake, foldlM_append, foldlM_append, ih (by omega)]
    congr 1
    funext out
    rw [foldlM_cons, hget]
    rfl

theorem tied_listEvents (h : Tied (look store) t log steps) : storeListEvents parser store t =
      log.batches.foldlM (fun out b => decodeEvents parser (encodeEvents b) out) [] := by
  refine (bind_ok _ (tied_eventBatches h)).trans ?_
  rw [toNat_ofNat_of_lt' h.few, tied_foldlM_batches parser h _ (Nat.le_refl _), take_length]

theorem foldlM_decodeEvents (batches : List (List GraphEvent))
    (out : List GraphEvent) (hu : ∀ b ∈ batches, ∀ e ∈ b, e.Utf8) :
    batches.foldlM (fun out b => decodeEvents parser (encodeEvents b) out) out =
      .ok (out ++ batches.flatten) := by
  induction batches generalizing out with
  | nil =>
    rw [flatten_nil, append_nil]
    rfl
  | cons b batches ih =>
    have hvalid := (valid_encodeEvents b).2 (hu b (mem_cons_self ..))
    refine (foldlM_step (decodeEvents_encodeEvents parser b out hvalid)).trans ?_
    rw [ih _ fun c hc => hu c (mem_cons_of_mem _ hc), flatten_cons, append_assoc]

theorem tied_append (h : Tied (look store) t log steps) (events : List GraphEvent)
    (hfew : log.batches.length + 1 < 2 ^ 64) : ∃ store', storeAppendEvents store t events = .ok store' ∧
      (∀ l : Slot, l.thread ≠ t → look store' l = look store l) ∧
      Tied (look store') t { log with batches := log.batches ++ [events] } steps := by
  have hnext : UInt64.ofNat log.batches.length + 1 = UInt64.ofNat (log.batches.length + 1) := by
    rw [ofNat_add]
    rfl
  have hcount : stepStr (UInt64.ofNat log.batches.length + 1) = decimal (log.batches.length + 1) := by
    rw [hnext, ← decimal_eq_stepStr _ hfew]
  refine ⟨_, (bind_ok _ (tied_eventBatches h)).trans rfl, ?_, ?_⟩
  · intro l hl
    rw [Slot.key_batch, Slot.key_count, look_storeMemory_other _ hl, look_storeMemory_other _ hl]
  · rw [Slot.key_batch, Slot.key_count, hcount]
    refine h.withBatches ?_ ?_ ?_ ?_
    · intro g a hg
      simp [look_storeMemory, Ne.symm hg]
    · rw [look_storeMemory, if_pos rfl, present_some _ (decimal_ne_nil _)]
      simp
    · intro i hi
      rw [length_append, length_singleton] at hi
      rw [look_storeMemory, if_neg (by simp), look_storeMemory]
      by_cases hlast : i = log.batches.length
      · subst hlast
        simp
      · have hne : UInt64.ofNat log.batches.length ≠ UInt64.ofNat i := by
          intro he
          have hnat := congrArg UInt64.toNat he
          rw [toNat_ofNat_of_lt' h.few, toNat_ofNat_of_lt' (show i < 2 ^ 64 by omega)] at hnat
          exact hlast hnat.symm
        have hi' : i < log.batches.length := by omega
        rw [if_neg (by simpa using hne), h.batch i hi', getElem_append_left hi']
    · rw [length_append]
      exact hfew

def blanked (t : Bytes) (n : UInt64) (store : Store) : Store :=
  match present (look store ⟨.info, t, .step n⟩) with
  | none => store
  | some _ => storeMemory (storeMemory store (Slot.key ⟨.info, t, .step n⟩) [])
      (Slot.key ⟨.blob, t, .step n⟩) []

theorem storeDeleteStep_eq (t : Bytes) (n : UInt64) (store : Store) :
    storeDeleteStep t n store = .ok (blanked t n store) := by
  unfold storeDeleteStep blanked
  rw [Slot.key_info, storeGetNonempty_key]
  cases present (look store ⟨.info, t, .step n⟩) <;> rfl

/- The slots of the steps below `n` read as missing; nothing else has changed. -/
structure Blanked (t : Bytes) (n : ℕ) (before after : Store) : Prop where
  steps : ∀ g : SlotGroup, g ≠ .events → ∀ k : UInt64,
    present (look after ⟨g, t, .step k⟩) =
      if k.toNat < n then none else present (look before ⟨g, t, .step k⟩)
  rest : ∀ l : Slot, (l.thread = t → l.group = .events ∨ ∀ k, l.suffix ≠ .step k) →
    look after l = look before l

theorem look_blanked {n : UInt64} (store : Store) {l : Slot}
    (hl : ∀ g, g ≠ .events → l ≠ ⟨g, t, .step n⟩) : look (blanked t n store) l = look store l := by
  unfold blanked
  split
  · rfl
  · rw [look_storeMemory, if_neg (hl _ (by decide)).symm, look_storeMemory, if_neg (hl _ (by decide)).symm]

theorem present_blanked {n : UInt64} {store : Store} (hpair : (present (look store ⟨.info, t, .step n⟩)).isSome =
      (present (look store ⟨.blob, t, .step n⟩)).isSome) {g : SlotGroup} (hg : g ≠ .events) :
    present (look (blanked t n store) ⟨g, t, .step n⟩) = none := by
  unfold blanked
  cases hp : present (look store ⟨.info, t, .step n⟩) with
  | none =>
    rw [hp] at hpair
    cases g with
    | blob => simpa using hpair.symm
    | info => exact hp
    | events => exact absurd rfl hg
  | some v =>
    cases g with
    | blob => simp [look_storeMemory]
    | info => simp [look_storeMemory]
    | events => exact absurd rfl hg

theorem blanked_all (t : Bytes) (n : ℕ) (hn : n < 2 ^ 64) (store : Store)
    (hpair : ∀ k : UInt64, (present (look store ⟨.info, t, .step k⟩)).isSome =
      (present (look store ⟨.blob, t, .step k⟩)).isSome) :
    Blanked t n store ((List.range' 0 n).foldl (fun acc i => blanked t (UInt64.ofNat i) acc) store) := by
  induction n with
  | zero => exact ⟨fun _ _ _ => rfl, fun _ _ => rfl⟩
  | succ n ih =>
    have hnat : (UInt64.ofNat n).toNat = n := toNat_ofNat_of_lt' (show n < 2 ^ 64 by omega)
    obtain ⟨hsteps, hrest⟩ := ih (by omega)
    rw [List.range'_1_concat, foldl_append, Nat.zero_add]
    refine ⟨fun g hg k => ?_, fun l hl => ?_⟩
    · by_cases hk : k = UInt64.ofNat n
      · rw [hk, hnat, if_pos (Nat.lt_succ_self n)]
        refine present_blanked ?_ hg
        rw [hsteps _ (by decide), hsteps _ (by decide), hnat, if_neg (Nat.lt_irrefl _), if_neg (Nat.lt_irrefl _)]
        exact hpair _
      · have hne : k.toNat ≠ n := fun he => hk (by rw [← he, UInt64.ofNat_toNat])
        have hlt : k.toNat < n + 1 ↔ k.toNat < n := by omega
        refine (congrArg present (look_blanked _ ?_)).trans ?_
        · simp [hk]
        · simp only [hlt, hsteps g hg]
    · refine (look_blanked _ ?_).trans (hrest l hl)
      rintro g hg rfl
      exact (hl rfl).elim hg fun hstep => hstep _ rfl

def clearCount (store : Store) (t : Bytes) : Store :=
  match storeGetNonempty store (eventsKey t (lit "count")) with
  | .error _ => store
  | .ok _ => storeMemory store (eventsKey t (lit "count")) []

theorem look_clearCount (store : Store) (t : Bytes) (l : Slot) (hl : l ≠ ⟨.events, t, .count⟩) :
    look (clearCount store t) l = look store l := by
  unfold clearCount
  cases storeGetNonempty store (eventsKey t (lit "count")) with
  | error e => rfl
  | ok v =>
    rw [Slot.key_count, look_storeMemory, if_neg (fun he => hl he.symm)]

theorem present_clearCount (store : Store) (t : Bytes) :
    present (look (clearCount store t) ⟨.events, t, .count⟩) = none := by
  unfold clearCount
  rw [Slot.key_count, storeGetNonempty_key]
  cases hp : present (look store ⟨.events, t, .count⟩) with
  | none => exact hp
  | some v =>
    rw [look_storeMemory, if_pos rfl, present_nil]

theorem tied_clearCount (h : Tied (look store) t log steps) :
    Tied (look (clearCount store t)) t { last := log.last } steps := by
  refine h.withBatches ?_ (present_clearCount store t) ?_ (by decide)
  · intro g a hg
    exact look_clearCount _ _ _ (by simp [hg])
  · intro i hi
    exact absurd hi (Nat.not_lt_zero i)

theorem look_storeDeleteLatest (store : Store) (t : Bytes) (l : Slot) : look (storeDeleteLatest store t) l =
      if l = ⟨.blob, t, .latest⟩ then (look store l).map (fun _ => []) else look store l := by
  unfold storeDeleteLatest retrieveMemory
  rw [Slot.key_blobLatest]
  cases hs : store[Slot.key ⟨.blob, t, .latest⟩]? with
  | none =>
    dsimp only [keyNotFound, fail]
    split
    · next he =>
      rw [he, look, hs]
      rfl
    · rfl
  | some v =>
    rw [look_storeMemory]
    split
    · next he => rw [if_pos he.symm, ← he, look, hs, map_some]
    · next he => rw [if_neg (fun hc => he hc.symm)]

theorem tied_empty (slots : Slot → Option Bytes) (t : Bytes)
    (hsteps : ∀ g k, g ≠ .events → present (slots ⟨g, t, .step k⟩) = none)
    (hbl : present (slots ⟨.blob, t, .latest⟩) = none) (hil : present (slots ⟨.info, t, .latest⟩) = none)
    (hc : present (slots ⟨.events, t, .count⟩) = none) : Tied slots t {} ∅ := by
  have hempty (k : UInt64) : (∅ : Steps)[k]? = none := Std.ExtTreeMap.getElem?_empty
  refine ⟨?_, ?_, hbl, hil, by simp, ?_, hc, ?_, by simp⟩
  · intro n
    rw [hsteps _ n (by decide), hempty, map_none]
  · intro n
    rw [hsteps _ n (by decide)]
    exact .none
  · intro k hk
    exact absurd hk (by simp)
  · intro i hi
    exact absurd hi (Nat.not_lt_zero i)

theorem present_map_nil (v : Option Bytes) : present (v.map fun _ => []) = none := by
  cases v <;> rfl

theorem tied_deleteLatest (hsteps : ∀ g k, g ≠ .events → present (look store ⟨g, t, .step k⟩) = none)
    (hil : present (look store ⟨.info, t, .latest⟩) = none) (hc : present (look store ⟨.events, t, .count⟩) = none) :
    Tied (look (storeDeleteLatest store t)) t {} ∅ := by
  refine tied_empty _ _ ?_ ?_ ?_ ?_
  · intro g k hg
    rw [look_storeDeleteLatest, if_neg (by simp), hsteps g k hg]
  · rw [look_storeDeleteLatest, if_pos rfl, present_map_nil]
  · rw [look_storeDeleteLatest, if_neg (by simp), hil]
  · rw [look_storeDeleteLatest, if_neg (by simp), hc]

theorem storeDeleteThread_eq (fuel : ℕ) (store : Store) (t : Bytes) : storeDeleteThread fuel store t =
    match storeLatestStep (clearCount store t) t with
    | .error e => some (if e.code = .keyNotFound then .ok (storeDeleteLatest (clearCount store t) t) else .error e)
    | .ok latest => (forSteps latest (storeDeleteStep t) fuel 0 (clearCount store t)).map fun r =>
        r.map fun store => storeDeleteLatest (storeMemory store (metaKey t (lit "latest")) []) t := rfl

theorem tied_delete (h : Tied (look store) t log steps) (hlast : log.last ≠ some (-1)) (fuel : ℕ)
    (hfuel : 2 ^ 64 ≤ fuel) : ∃ store', storeDeleteThread fuel store t = some (.ok store') ∧
      (∀ l : Slot, l.thread ≠ t → look store' l = look store l) ∧ Tied (look store') t {} ∅ := by
  have hc := tied_clearCount h
  have hcount (l : Slot) (hl : l.thread ≠ t) : look (clearCount store t) l = look store l :=
    look_clearCount store t l (fun he => hl (by rw [he]))
  rw [storeDeleteThread_eq]
  cases hl : log.last with
  | none =>
    rw [tied_noLatestStep hc hl]
    refine ⟨_, rfl, ?_, tied_deleteLatest ?_ ?_ (present_clearCount store t)⟩
    · intro l hlt
      rw [look_storeDeleteLatest, if_neg (fun he => hlt (by rw [he])), hcount l hlt]
    · intro g k hg
      exact hc.absent (h.none_of_last hl k) g hg
    · rw [hc.lastStep, hl]
      rfl
  | some n =>
    have hn := toNat_succ_lt n (fun he => hlast (by rw [hl, he]))
    have hall := blanked_all t (n.toNat + 1) hn (clearCount store t) hc.pair
    rw [tied_latestStep hc hl]
    dsimp only
    rw [forSteps_ok n _ (blanked t) (storeDeleteStep_eq t) hn (n.toNat + 1) fuel 0 _ (by simp)
      (by omega), UInt64.toNat_zero, Slot.key_infoLatest]
    refine ⟨_, rfl, ?_, tied_deleteLatest ?_ ?_ ?_⟩
    · intro l hlt
      rw [look_storeDeleteLatest, if_neg (fun he => hlt (by rw [he])), look_storeMemory,
        if_neg (fun he => hlt (by rw [← he])), hall.rest l (fun he => absurd he hlt), hcount l hlt]
    · intro g k hg
      rw [look_storeMemory, if_neg (by simp), hall.steps g hg k]
      split
      · rfl
      · next hk => exact hc.absent (h.none_of_gt hl k hk) g hg
    · rw [look_storeMemory, if_pos rfl, present_nil]
    · rw [look_storeMemory, if_neg (by simp), hall.rest _ (fun _ => Or.inl rfl), present_clearCount]

end

/- What the callers keep to: blobs are not empty, the steps of a thread do not go
down until it is deleted, events are valid UTF-8. -/
def Allowed (logs : Bytes → ThreadLog) : CheckpointerCall → Prop
  | .put t step blob _ => blob ≠ [] ∧ ∀ last ∈ (logs t).last, last ≤ step
  | .appendEvents _ events => ∀ e ∈ events, e.Utf8
  | _ => True

instance (logs : Bytes → ThreadLog) (call : CheckpointerCall) : Decidable (Allowed logs call) :=
  match call with
  | .put t step blob _ =>
    decidable_of_iff (blob ≠ [] ∧ (logs t).last.all (· ≤ step) = true)
      (and_congr_right fun _ => by simp [Option.all_eq_true])
  | .appendEvents _ events => inferInstanceAs (Decidable (∀ e ∈ events, e.Utf8))
  | .getLatest _ | .get _ _ | .list _ | .deleteThread _ | .listEvents _ => .isTrue trivial

/- No 64-bit counter of the adapter wraps in this call. -/
def CountersFit (logs : Bytes → ThreadLog) : CheckpointerCall → Prop
  | .list t | .deleteThread t => (logs t).last ≠ some (-1)
  | .appendEvents t _ => (logs t).batches.length + 1 < 2 ^ 64
  | _ => True

instance (logs : Bytes → ThreadLog) (call : CheckpointerCall) :
    Decidable (CountersFit logs call) :=
  match call with
  | .list t | .deleteThread t => inferInstanceAs (Decidable ((logs t).last ≠ some (-1)))
  | .appendEvents t _ => inferInstanceAs (Decidable ((logs t).batches.length + 1 < 2 ^ 64))
  | .put _ _ _ _ | .getLatest _ | .get _ _ | .listEvents _ => .isTrue trivial

def AllCalls (P : (Bytes → ThreadLog) → CheckpointerCall → Prop) :
    (Bytes → ThreadLog) → List (Int64 × CheckpointerCall) → Prop
  | _, [] => True
  | logs, (_, call) :: calls => P logs call ∧ AllCalls P (logsAfter logs call) calls

instance decidableAllCalls (P : (Bytes → ThreadLog) → CheckpointerCall → Prop)
    [∀ logs call, Decidable (P logs call)] :
    ∀ logs calls, Decidable (AllCalls P logs calls)
  | _, [] => .isTrue trivial
  | logs, (_, call) :: calls =>
    have := decidableAllCalls P (logsAfter logs call) calls
    inferInstanceAs (Decidable (P logs call ∧ AllCalls P (logsAfter logs call) calls))

structure RefinesThread (store : Store) (t : Bytes) (log : ThreadLog) (steps : Steps) (events : List GraphEvent) : Prop
    where
  tied : Tied (look store) t log steps
  events : events = log.batches.flatten
  utf8 : ∀ b ∈ log.batches, ∀ e ∈ b, e.Utf8

def Refines (logs : Bytes → ThreadLog) (s : MemCheckpointer) (store : Store) : Prop :=
  ∀ t, RefinesThread store t (logs t) (memSteps s t) (memEvents s t)

theorem memSteps_memPut (s : MemCheckpointer) (now : Int64) (t u : Bytes) (n : UInt64) (blob md : Bytes) :
    memSteps (memPut s now t n blob md) u =
      if t = u then (memSteps s t).insert n ⟨blob, md, now⟩ else memSteps s u := by
  unfold memSteps memPut
  rw [get_insert]
  split <;> rfl

theorem memSteps_memDeleteThread (s : MemCheckpointer) (t u : Bytes) :
    memSteps (memDeleteThread s t) u = if t = u then ∅ else memSteps s u := by
  unfold memSteps memDeleteThread
  rw [get_erase]
  split <;> rfl

theorem memEvents_memDeleteThread (s : MemCheckpointer) (t u : Bytes) :
    memEvents (memDeleteThread s t) u = if t = u then [] else memEvents s u := by
  unfold memEvents memDeleteThread
  rw [get_erase]
  split <;> rfl

theorem memEvents_memAppendEvents (s : MemCheckpointer) (t u : Bytes) (events : List GraphEvent) :
    memEvents (memAppendEvents s t events) u =
      if t = u then memEvents s t ++ events else memEvents s u := by
  unfold memEvents memAppendEvents
  rw [get_insert]
  split <;> rfl

theorem memListEvents_eq (s : MemCheckpointer) (t : Bytes) : memListEvents s t = .ok (memEvents s t) := by
  unfold memListEvents memEvents
  cases s.events[t]? <;> rfl

theorem Refines.update {logs : Bytes → ThreadLog} {s s' : MemCheckpointer} {store store' : Store}
    (h : Refines logs s store) {t : Bytes} {log : ThreadLog}
    (ht : RefinesThread store' t log (memSteps s' t) (memEvents s' t))
    (hother : ∀ u, t ≠ u → memSteps s' u = memSteps s u ∧ memEvents s' u = memEvents s u ∧
      ∀ g a, look store' ⟨g, u, a⟩ = look store ⟨g, u, a⟩) :
    Refines (update logs t log) s' store' := by
  intro u
  by_cases hu : t = u
  · subst hu
    rw [update_self]
    exact ht
  · obtain ⟨hsteps, hevents, hlook⟩ := hother u hu
    rw [update_of_ne (Ne.symm hu), hsteps, hevents]
    exact ⟨(h u).tied.congr hlook, (h u).events, (h u).utf8⟩

theorem call_refines (parser : JsonParser) (fuel : ℕ) (hfuel : 2 ^ 64 ≤ fuel) (now : Int64)
    (logs : Bytes → ThreadLog) (s : MemCheckpointer) (store : Store) (call : CheckpointerCall)
    (h : Refines logs s store) (ha : Allowed logs call) (hc : CountersFit logs call) :
    ∃ store', storeCall parser fuel now store call = some (store', (memCall now s call).2) ∧
      Refines (logsAfter logs call) (memCall now s call).1 store' := by
  cases call with
  | put t n blob md =>
    refine ⟨_, rfl, h.update ⟨?_, (h t).events, (h t).utf8⟩ ?_⟩
    · dsimp only [memCall]
      rw [memSteps_memPut, if_pos rfl]
      exact tied_put store now now t n blob md _ _ (h t).tied ha.1 ha.2
    · intro u hu
      dsimp only [memCall]
      rw [memSteps_memPut, if_neg hu]
      exact ⟨rfl, rfl, look_storePut_other store now t u n blob md hu⟩
  | getLatest t =>
    refine ⟨store, ?_, h⟩
    dsimp only [storeCall, memCall]
    rw [tied_getLatest (h t).tied]
  | get t n =>
    refine ⟨store, ?_, h⟩
    dsimp only [storeCall, memCall]
    rw [tied_get (h t).tied]
  | list t =>
    refine ⟨store, ?_, h⟩
    have hlist := tied_list (h t).tied hc fuel hfuel
    dsimp only [storeCall, memCall]
    obtain ⟨r, hr, hrr⟩ := map_eq_some_iff.1 hlist
    rw [hr, map_some, hrr]
  | deleteThread t =>
    obtain ⟨store', hdel, hother, htied⟩ := tied_delete (h t).tied hc fuel hfuel
    refine ⟨store', ?_, h.update ⟨?_, ?_, by simp⟩ ?_⟩
    · dsimp only [storeCall]
      rw [hdel]
      rfl
    · dsimp only [memCall]
      rw [memSteps_memDeleteThread, if_pos rfl]
      exact htied
    · dsimp only [memCall]
      rw [memEvents_memDeleteThread, if_pos rfl]
      rfl
    · intro u hu
      dsimp only [memCall]
      rw [memSteps_memDeleteThread, memEvents_memDeleteThread, if_neg hu, if_neg hu]
      exact ⟨rfl, rfl, fun g a => hother ⟨g, u, a⟩ (Ne.symm hu)⟩
  | appendEvents t events =>
    obtain ⟨store', happ, hother, htied⟩ := tied_append (h t).tied events hc
    refine ⟨store', ?_, h.update ⟨htied, ?_, ?_⟩ ?_⟩
    · dsimp only [storeCall]
      rw [happ]
      rfl
    · dsimp only [memCall]
      rw [memEvents_memAppendEvents, if_pos rfl, (h t).events, flatten_append, flatten_singleton]
    · exact forall_mem_append.2 ⟨(h t).utf8, forall_mem_singleton.2 ha⟩
    · intro u hu
      dsimp only [memCall]
      rw [memEvents_memAppendEvents, if_neg hu]
      exact ⟨rfl, rfl, fun g a => hother ⟨g, u, a⟩ (Ne.symm hu)⟩
  | listEvents t =>
    refine ⟨store, ?_, h⟩
    dsimp only [storeCall, memCall]
    rw [tied_listEvents parser (h t).tied, foldlM_decodeEvents parser _ _ (h t).utf8,
      nil_append, memListEvents_eq, (h t).events]

theorem calls_refine (parser : JsonParser) (fuel : ℕ) (hfuel : 2 ^ 64 ≤ fuel)
    (calls : List (Int64 × CheckpointerCall)) (logs : Bytes → ThreadLog) (s : MemCheckpointer)
    (store : Store) (h : Refines logs s store) (ha : AllCalls Allowed logs calls)
    (hc : AllCalls CountersFit logs calls) : storeCalls parser fuel store calls = some (memCalls s calls) := by
  induction calls generalizing logs s store with
  | nil => rfl
  | cons c calls ih =>
    obtain ⟨now, call⟩ := c
    obtain ⟨store', hcall, hnext⟩ :=
      call_refines parser fuel hfuel now logs s store call h ha.1 hc.1
    have htail := ih _ _ store' hnext ha.2 hc.2
    rw [storeCalls, hcall]
    change (storeCalls parser fuel store' calls).bind _ = _
    rw [htail]
    rfl

def NoThreadKeys (store : Store) : Prop :=
  ∀ t suffix : Bytes, store[checkpointKey t suffix]? = none ∧ store[metaKey t suffix]? = none ∧
    store[eventsKey t suffix]? = none

theorem look_noThreadKeys (store : Store) (h : NoThreadKeys store) (k : Slot) : look store k = none := by
  obtain ⟨g, t, a⟩ := k
  obtain ⟨hb, hi, he⟩ := h t a.text
  cases g with
  | blob => exact hb
  | info => exact hi
  | events => exact he

theorem tied_fresh (store : Store) (h : NoThreadKeys store) (t : Bytes) : Tied (look store) t {} ∅ := by
  have hlook (k : Slot) : present (look store k) = none := by
    rw [look_noThreadKeys store h k]
    rfl
  exact tied_empty _ _ (fun _ _ _ => hlook _) (hlook _) (hlook _) (hlook _)

theorem noThreadKeys_empty : NoThreadKeys ∅ :=
  fun _ _ => ⟨get_empty _, get_empty _, get_empty _⟩

/-- Every admissible sequence of calls in which no counter wraps is answered by the adapter as by the
in-memory checkpointer. -/
theorem adapter_refines_in_memory (parser : JsonParser) (store : Store)
    (calls : List (Int64 × CheckpointerCall)) (hstore : NoThreadKeys store)
    (ha : AllCalls Allowed (fun _ => {}) calls) (hc : AllCalls CountersFit (fun _ => {}) calls)
    (fuel : ℕ) (hfuel : 2 ^ 64 ≤ fuel) : storeCalls parser fuel store calls = some (memCalls {} calls) := by
  refine calls_refine parser fuel hfuel calls (fun _ => {}) {} store ?_ ha hc
  exact fun t => ⟨tied_fresh store hstore t, rfl, nofun⟩

def twoThreads : List (Int64 × CheckpointerCall) :=
  [(5, .put (lit "t") 0 (lit "a") (lit "m")), (6, .put (lit "t:0") 7 (lit "b") []),
    (7, .appendEvents (lit "t") [{ node := lit "n" }]), (8, .deleteThread (lit "t")),
    (9, .put (lit "t") 2 (lit "c") []), (9, .list (lit "t")), (9, .getLatest (lit "t:0"))]

theorem adapter_refines_in_memory_twoThreads :
    storeCalls JsonReader.parser (2 ^ 64) ∅ twoThreads = some (memCalls {} twoThreads) := by
  exact adapter_refines_in_memory JsonReader.parser ∅ twoThreads noThreadKeys_empty
    (by decide) (by decide) (2 ^ 64) (Nat.le_refl _)

def endlessCalls : List (Int64 × CheckpointerCall) :=
  [(0, .put (lit "t") (-1) (lit "x") []), (0, .list (lit "t"))]

theorem adapter_list_never_returns : NoThreadKeys ∅ ∧ AllCalls Allowed (fun _ => {}) endlessCalls ∧
      memCalls {} endlessCalls = [.done, .infos [(-1, [])]] ∧
      ∀ fuel, storeCalls JsonReader.parser fuel ∅ endlessCalls = none := by
  refine ⟨noThreadKeys_empty, by decide, by decide, ?_⟩
  · intro fuel
    have hlist : storeList fuel (storePut ∅ 0 (lit "t") (-1) (lit "x") []) (lit "t") = none := by
      exact forSteps_wraps _ _ (storeListStep_eq _ _) fuel 0 []
    simp [storeCalls, endlessCalls, storeCall, hlist]

end AgentCpp
