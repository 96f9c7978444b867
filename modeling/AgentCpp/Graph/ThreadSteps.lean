import AgentCpp.Graph.ThreadLog

/-!
# The steps of a thread

The checkpoints of a thread reach the checkpointer in the order of their steps, so the last
one is the one a call goes on from. The bound is that of the step counter, which wraps.
-/

namespace AgentCpp
open Lib Option List Function

variable {out : GraphRun} {withProgress : Bool} {res : GraphRun × Option ParallelProgress}
  {disk : MemCheckpointer} {t : Bytes} {puts : List Job}

variable {parser : JsonParser}

theorem decodeCheckpoint_encoded {run : GraphRun} {name : Bytes} {progress : Option ParallelProgress}
    (h : decodeCheckpoint parser (encodeCheckpoint run name progress) out withProgress = .ok res) :
    res.1 = restoredRun run out := by
  by_cases hvalid : Utf8.Valid (encodeCheckpoint run name progress)
  · rw [decodeCheckpoint_encodeCheckpoint parser run out name progress withProgress hvalid] at h
    cases h
    rfl
  · unfold decodeCheckpoint at h
    rw [parser.rejects _ hvalid] at h
    cases h

theorem Encodes.step_eq {put : Job} (h : Encodes put)
    (hdecode : decodeCheckpoint parser put.blob out withProgress = .ok res) : res.1.step = put.step := by
  obtain ⟨run, name, progress, hblob, hstep⟩ := h
  rw [hblob] at hdecode
  rw [decodeCheckpoint_encoded hdecode, ← hstep]
  rfl

theorem optionRel_imp {α β : Type} {R S : α → β → Prop} (himp : ∀ a b, R a b → S a b) {x : Option α} {y : Option β}
    (h : Option.Rel R x y) : Option.Rel S x y := by
  cases h with
  | none => exact .none
  | some hab => exact .some (himp _ _ hab)

theorem Encodes.describes {put : Job} (h : Encodes put)
    (hdecode : decodeCheckpoint parser put.blob out withProgress = .ok res) : Describes put.blob res.1 := by
  obtain ⟨run, name, progress, hblob, -⟩ := h
  rw [hblob] at hdecode
  rw [decodeCheckpoint_encoded hdecode]
  refine ⟨run, name, progress, hblob, rfl, rfl, rfl, (dropTemp_dropTemp _).symm, fun key => ?_⟩
  exact optionRel_imp (fun _ _ hmemory => hmemory.2) (restores_restoredHistories out.threadId run.state.histories key)

theorem memGetLatest_eq (disk : MemCheckpointer) (t : Bytes) :
    memGetLatest disk t = match (memSteps disk t).toList.getLast? with
      | none => noCheckpoint t
      | some e => .ok e.2.blob := by
  unfold memGetLatest memSteps
  cases disk.threads[t]? with
  | none =>
    rfl
  | some steps =>
    dsimp only [getD_some]
    cases steps.toList.getLast? <;> rfl

theorem memGet_stored {blob : Bytes} {step : UInt64} (h : memGet disk t step = .ok blob) :
    ∃ cp, (memSteps disk t)[step]? = some cp := by
  unfold memGet at h
  unfold memSteps
  split at h
  · cases h
  · next steps hsteps =>
    rw [hsteps]
    split at h
    · cases h
    · next cp hcp => exact ⟨cp, hcp⟩

structure Held (disk : MemCheckpointer) (t : Bytes) (puts : List Job) : Prop where
  latest : memGetLatest disk t = match puts.getLast? with
    | none => noCheckpoint t
    | some put => .ok put.blob
  stored : ∀ step cp, (memSteps disk t)[step]? = some cp → ∃ put ∈ puts, put.step = step

theorem Held.congr {disk' : MemCheckpointer} (h : Held disk t puts)
    (hsteps : memSteps disk' t = memSteps disk t) : Held disk' t puts := by
  refine ⟨?_, ?_⟩
  · rw [← h.latest, memGetLatest_eq, memGetLatest_eq, hsteps]
  · rw [hsteps]
    exact h.stored

variable {job : Job}

theorem Held.put (h : Held disk job.threadId puts) (hle : ∀ put ∈ puts, put.step ≤ job.step) (now : Int64) :
    Held (memPut disk now job.threadId job.step job.blob job.metadata) job.threadId (puts ++ [job]) := by
  have hbelow : StepsBelow disk job.threadId job.step := by
    intro steps hsteps k cp hk
    obtain ⟨put, hput, rfl⟩ := h.stored k cp (by unfold memSteps; rw [hsteps]; exact hk)
    exact hle put hput
  refine ⟨?_, fun step cp hcp => ?_⟩
  · rw [memGetLatest_memPut hbelow, getLast?_concat]
  · rw [memSteps_memPut, if_pos rfl, steps_insert] at hcp
    split at hcp
    · next heq => exact ⟨job, mem_append_right _ (mem_singleton.2 rfl), heq⟩
    · obtain ⟨put, hput, hstep⟩ := h.stored step cp hcp
      exact ⟨put, mem_append_left _ hput, hstep⟩

theorem Held.execute (h : Held disk t puts)
    (hle : ∀ other ∈ putsOf (ofThread t [job]), ∀ put ∈ puts, put.step ≤ other.step) (now : Int64) :
    Held (memExecute disk now job) t (puts ++ putsOf (ofThread t [job])) := by
  unfold memExecute
  cases hevents : job.isEvents with
  | true =>
    have hnone : putsOf (ofThread t [job]) = [] := by
      refine filter_eq_nil_iff.2 fun other hother => ?_
      rw [mem_singleton.1 (mem_of_mem_filter hother), hevents]
      exact Bool.false_ne_true
    rw [hnone, append_nil]
    exact h.congr rfl
  | false =>
    by_cases ht : job.threadId = t
    · subst ht
      have hone : putsOf (ofThread job.threadId [job]) = [job] := by
        rw [ofThread_own rfl]
        unfold putsOf
        rw [filter_singleton, hevents]
        rfl
      rw [hone] at hle ⊢
      exact h.put (hle job (mem_singleton.2 rfl)) now
    · have hkept : Held (memPut disk now job.threadId job.step job.blob job.metadata) t puts := by
        refine h.congr ?_
        rw [memSteps_memPut, if_neg ht]
      rw [ofThread_none (noJobs_singleton ht)]
      exact (append_nil puts).symm ▸ hkept

namespace Runtime

variable {cfg : WriterConfig} {parser : JsonParser} {s s' : Runtime}

def intMax : ℕ := 2 ^ 31 - 1

def IntSteps {τ : Type} (_ : Runtime) : RuntimeAct τ → Prop
  | .call call => call.graph.maxSteps.toNat ≤ intMax
  | _ => True

structure Climbing (s : Runtime) : Prop where
  sorted : ∀ t, (putsOf (s.line t)).Pairwise fun a b => a.step.toNat ≤ b.step.toNat
  encodes : ∀ t, ∀ put ∈ putsOf (s.line t), Encodes put
  high : ∀ t, ∀ put ∈ putsOf (s.line t), put.step.toNat ≤ s.called * intMax
  last : ∀ t run, s.described t = some run →
    ∃ front put, putsOf (s.line t) = front ++ [put] ∧ Describes put.blob run
  held : ∀ t, Held s.disk t (putsOf (ofThread t s.reached))

theorem puts_line (s : Runtime) (t : Bytes) : ∃ rest, putsOf (s.line t) = putsOf (ofThread t s.reached) ++ rest := by
  unfold line
  rw [putsOf_append, putsOf_append, append_assoc]
  exact ⟨_, rfl⟩

theorem Climbing.ticks (h : Climbing s) (ht : Ticks s s') : Climbing s' := by
  have hline : ∀ t, putsOf (s'.line t) = putsOf (s.line t) := fun t => congrArg putsOf (ht.line t)
  refine ⟨fun t => ?_, fun t => ?_, fun t => ?_, fun t run hrun => ?_, fun t => ?_⟩
  · rw [hline t]
    exact h.sorted t
  · rw [hline t]
    exact h.encodes t
  · rw [hline t, ht.called]
    exact h.high t
  · rw [ht.described] at hrun
    rw [hline t]
    exact h.last t run hrun
  · rcases ht.reached with ⟨hreached, hdisk⟩ | ⟨now, job, hreached, hdisk⟩
    · rw [hreached, hdisk]
      exact h.held t
    · rw [hreached, hdisk, ofThread_append, putsOf_append]
      refine (h.held t).execute (fun other hother put hput => ?_) now
      -- the write stands in the line after those that have been made
      obtain ⟨rest, hrest⟩ := puts_line s' t
      have hsorted := h.sorted t
      rw [← hline t, hrest, hreached, ofThread_append, putsOf_append, append_assoc] at hsorted
      exact UInt64.le_iff_toNat_le.2 ((pairwise_append.1 hsorted).2.2 put hput other (mem_append_left _ hother))

theorem Climbing.latest (h : Climbing s) {blob : Bytes} (hline : s.line t = ofThread t s.reached)
    (hblob : memGetLatest s.disk t = .ok blob) (hdecode : decodeCheckpoint parser blob out withProgress = .ok res) :
    ∃ front put, putsOf (s.line t) = front ++ [put] ∧ put.step = res.1.step ∧ Describes put.blob res.1 := by
  have hlatest := (h.held t).latest
  rw [← hline, hblob] at hlatest
  cases hlast : (putsOf (s.line t)).getLast? with
  | none =>
    rw [hlast] at hlatest
    cases hlatest
  | some put =>
    rw [hlast] at hlatest
    cases hlatest
    obtain ⟨front, hfront⟩ := getLast?_eq_some_iff.1 hlast
    have hencodes := h.encodes t put (mem_of_getLast? hlast)
    exact ⟨front, put, hfront, (hencodes.step_eq hdecode).symm, hencodes.describes hdecode⟩

theorem Climbing.noPuts (h : Climbing s) {e : Error} (hline : s.line t = ofThread t s.reached)
    (hmissing : memGetLatest s.disk t = .error e) : putsOf (s.line t) = [] := by
  have hlatest := (h.held t).latest
  rw [← hline, hmissing] at hlatest
  cases hlast : (putsOf (s.line t)).getLast? with
  | none => exact getLast?_eq_none_iff.1 hlast
  | some put =>
    rw [hlast] at hlatest
    cases hlatest

theorem Climbing.start {τ : Type} (h : Climbing s) {call : GraphCall τ} {start : ℕ}
    (hline : s.line call.threadId = ofThread call.threadId s.reached) (hstart : call.Starts parser s.disk start) :
    (∀ put ∈ putsOf (s.line call.threadId), put.step.toNat ≤ start) ∧ start ≤ s.called * intMax := by
  have hgoes : ((memGetLatest s.disk call.threadId = noCheckpoint call.threadId ∧ start = 0) ∨
      ∃ blob out withProgress previous progress, memGetLatest s.disk call.threadId = .ok blob ∧
        decodeCheckpoint parser blob out withProgress = .ok (previous, progress) ∧ start = previous.step.toNat) →
      (∀ put ∈ putsOf (s.line call.threadId), put.step.toNat ≤ start) ∧ start ≤ s.called * intMax := by
    rintro (⟨hnone, rfl⟩ | ⟨blob, out, withProgress, previous, progress, hblob, hdecode, rfl⟩)
    · rw [h.noPuts hline hnone]
      exact ⟨nofun, Nat.zero_le _⟩
    · obtain ⟨front, put, hfront, hstep, -⟩ := h.latest hline hblob hdecode
      have hsorted := h.sorted call.threadId
      have hhigh := h.high call.threadId
      rw [hfront] at hsorted hhigh ⊢
      rw [← hstep]
      refine ⟨fun other hother => ?_, hhigh put (mem_append_right _ (mem_singleton.2 rfl))⟩
      rcases mem_append.1 hother with hother | hother
      · exact (pairwise_append.1 hsorted).2.2 other hother put (mem_singleton.2 rfl)
      · rw [mem_singleton.1 hother]
  cases call with
  | run env graph fuel input => exact hgoes hstart
  | resume env graph fuel threadId input req => exact hgoes hstart
  | fork env graph fuel threadId step target input =>
    obtain ⟨⟨e, hmissing⟩, ⟨blob, hblob⟩, rfl⟩ := hstart
    constructor
    · rw [h.noPuts hline hmissing]
      exact nofun
    · obtain ⟨cp, hcp⟩ := memGet_stored hblob
      obtain ⟨put, hput, rfl⟩ := (h.held (defaultThread threadId)).stored step cp hcp
      obtain ⟨rest, hrest⟩ := puts_line s (defaultThread threadId)
      refine h.high (defaultThread threadId) put ?_
      rw [hrest]
      exact mem_append_left _ hput

theorem Climbing.called_quiet {τ : Type} (h : Climbing s) {call : GraphCall τ} {d : RunCtx τ}
    (hc : Called parser call d s s') (hissued : d.issued = []) (hlast : call.reads parser ⟨s.disk, s.store⟩ = true →
      ∃ front put, putsOf (s.line call.threadId) = front ++ [put] ∧ Describes put.blob d.run) : Climbing s' := by
  have hline : ∀ t, s'.line t = s.line t := by
    intro t
    rw [hc.line t, hissued]
    split
    · exact append_nil _
    · rfl
  refine ⟨fun t => ?_, fun t => ?_, fun t put hput => ?_, fun t run hrun => ?_, fun t => ?_⟩
  · rw [hline t]
    exact h.sorted t
  · rw [hline t]
    exact h.encodes t
  · rw [hline t] at hput
    have hhigh := h.high t put hput
    rw [hc.called, Nat.add_one_mul]
    exact Nat.le_add_right_of_le hhigh
  · rw [hline t]
    rw [hc.described, hissued] at hrun
    cases hreads : call.reads parser ⟨s.disk, s.store⟩ with
    | false =>
      rw [hreads] at hrun
      exact h.last t run hrun
    | true =>
      rw [hreads] at hrun
      change Function.update s.described call.threadId (some d.run) t = some run at hrun
      by_cases ht : t = call.threadId
      · subst ht
        rw [update_self] at hrun
        cases hrun
        exact hlast hreads
      · rw [update_of_ne ht] at hrun
        exact h.last t run hrun
  · rw [hc.disk, hc.reached]
    exact h.held t

theorem Climbing.called_writes {τ : Type} (h : Climbing s) {call : GraphCall τ} {d : RunCtx τ} {start : ℕ}
    (hc : Called parser call d s s') (hline : s.line call.threadId = ofThread call.threadId s.reached)
    (hstart : call.Starts parser s.disk start) (hsteps : call.graph.maxSteps.toNat ≤ intMax)
    (hcalled : s'.called ≤ 2 ^ 33)
    (hw : CallWrites call.threadId call.given call.graph.maxSteps.toNat start d) : Climbing s' := by
  obtain ⟨hlow, hstartHigh⟩ := h.start hline hstart
  have hcount : s'.called * intMax = s.called * intMax + intMax := by
    rw [hc.called, Nat.add_one_mul]
  have hroom : s'.called * intMax ≤ 2 ^ 33 * intMax := Nat.mul_le_mul_right _ hcalled
  have hbound : 2 ^ 33 * intMax < 2 ^ 64 := by decide
  have hclimbed := hw.climbed (by omega)
  obtain ⟨hrising, hhigh, front, put, hfront, hdescribes⟩ := hclimbed
  have hown : putsOf (s'.line call.threadId) = putsOf (s.line call.threadId) ++ putsOf (jobsOf d.issued) := by
    rw [hc.line call.threadId, if_pos rfl, putsOf_append]
  have hother : ∀ t, t ≠ call.threadId → s'.line t = s.line t := by
    intro t ht
    rw [hc.line t, if_neg ht]
  have hissued : d.issued.isEmpty = false := by
    cases hops : d.issued with
    | nil =>
      rw [hops] at hfront
      exact absurd hfront.symm (append_ne_nil_of_right_ne_nil _ (cons_ne_nil _ _))
    | cons op ops => rfl
  refine ⟨fun t => ?_, fun t => ?_, fun t other hmem => ?_, fun t run hrun => ?_, fun t => ?_⟩
  · by_cases ht : t = call.threadId
    · subst ht
      rw [hown]
      refine pairwise_append.2 ⟨h.sorted _, hrising.sorted, fun a ha b hb => ?_⟩
      exact (hlow a ha).trans (hrising.low b hb)
    · rw [hother t ht]
      exact h.sorted t
  · by_cases ht : t = call.threadId
    · subst ht
      rw [hown]
      exact fun a ha => (mem_append.1 ha).elim (h.encodes _ a) (hrising.encodes a)
    · rw [hother t ht]
      exact h.encodes t
  · by_cases ht : t = call.threadId
    · subst ht
      rw [hown] at hmem
      rcases mem_append.1 hmem with hmem | hmem
      · have hold := h.high _ other hmem
        omega
      · have hnew := hrising.high other hmem
        omega
    · rw [hother t ht] at hmem
      have hold := h.high t other hmem
      omega
  · rw [hc.described, hissued] at hrun
    change Function.update s.described call.threadId (some d.run) t = some run at hrun
    by_cases ht : t = call.threadId
    · subst ht
      rw [update_self] at hrun
      cases hrun
      refine ⟨putsOf (s.line call.threadId) ++ front, put, ?_, hdescribes⟩
      rw [hown, hfront, append_assoc]
    · rw [update_of_ne ht] at hrun
      rw [hother t ht]
      exact h.last t run hrun
  · rw [hc.disk, hc.reached]
    exact h.held t

theorem Climbing.called {τ : Type} (h : Climbing s) (hq : Queued cfg s) {call : GraphCall τ} {d : RunCtx τ}
    (hc : Called parser call d s s') (hsteps : call.graph.maxSteps.toNat ≤ intMax)
    (hcalled : s'.called ≤ 2 ^ 33) : Climbing s' := by
  have hline := (idle_line hq hc.idle).1
  obtain ⟨r, hexec⟩ := hc.returns
  rcases GraphCall.exec_returns hexec with ⟨hissued, -, hreads⟩ | ⟨start, hstart, hwrites⟩
  · refine h.called_quiet hc hissued fun hread => ?_
    obtain ⟨blob, out, stored, progress, calls, hblob, hdecode, hrun⟩ := hreads hread
    obtain ⟨front, put, hfront, -, hdescribes⟩ := h.latest hline hblob hdecode
    rw [hrun]
    exact ⟨front, put, hfront, hdescribes⟩
  · exact h.called_writes hc hline hstart hsteps hcalled hwrites

theorem Climbing.deleted (h : Climbing s) (hd : Deleted t s s') : Climbing s' := by
  have hgone : s'.line t = [] := by rw [hd.line t, if_pos rfl]
  have hother : ∀ u, u ≠ t → s'.line u = s.line u := by
    intro u hu
    rw [hd.line u, if_neg hu]
  refine ⟨fun u => ?_, fun u => ?_, fun u => ?_, fun u run hrun => ?_, fun u => ?_⟩
  · by_cases hu : u = t
    · rw [hu, hgone]
      exact List.Pairwise.nil
    · rw [hother u hu]
      exact h.sorted u
  · by_cases hu : u = t
    · rw [hu, hgone]
      exact nofun
    · rw [hother u hu]
      exact h.encodes u
  · by_cases hu : u = t
    · rw [hu, hgone]
      exact nofun
    · rw [hother u hu, hd.called]
      exact h.high u
  · rw [hd.described] at hrun
    by_cases hu : u = t
    · rw [hu, update_self] at hrun
      cases hrun
    · rw [update_of_ne hu] at hrun
      rw [hother u hu]
      exact h.last u run hrun
  · rw [hd.reached, hd.disk, ofThread_filter_ne]
    have hsteps := memSteps_memDeleteThread s.disk t u
    by_cases hu : u = t
    · rw [if_pos hu.symm] at hsteps
      rw [if_pos hu]
      refine ⟨?_, fun step cp hcp => ?_⟩
      · rw [memGetLatest_eq, hsteps]
        rfl
      · rw [hsteps] at hcp
        cases hcp
    · rw [if_neg fun heq => hu heq.symm] at hsteps
      rw [if_neg hu]
      exact (h.held u).congr hsteps

theorem climbing_init (store : Store) : Climbing { store } := by
  refine ⟨fun _ => List.Pairwise.nil, fun _ => nofun, fun _ => nofun, fun _ _ => nofun, fun _ => ⟨rfl, ?_⟩⟩
  intro step cp hcp
  cases hcp

theorem step_called {τ : Type} (hq : Queued cfg s) {act : RuntimeAct τ} (h : s.step cfg parser act = some s') :
    s.called ≤ s'.called := by
  obtain ⟨-, hticks | ⟨call, d, -, hcalled⟩ | ⟨t, hdeleted⟩⟩ := step_cases hq h
  · exact le_of_eq hticks.called.symm
  · rw [hcalled.called]
    exact Nat.le_succ _
  · exact le_of_eq hdeleted.called.symm

theorem step_climbing {τ : Type} (hq : Queued cfg s) {act : RuntimeAct τ} (hok : s.IntSteps act)
    (h : s.called ≤ 2 ^ 33 → Climbing s) (hstep : s.step cfg parser act = some s') :
    Queued cfg s' ∧ (s'.called ≤ 2 ^ 33 → Climbing s') := by
  have hmono := step_called hq hstep
  obtain ⟨hq', hticks | ⟨call, d, rfl, hcalled⟩ | ⟨t, hdeleted⟩⟩ := step_cases hq hstep
  · exact ⟨hq', fun hle => (h (hmono.trans hle)).ticks hticks⟩
  · exact ⟨hq', fun hle => (h (hmono.trans hle)).called hq hcalled hok hle⟩
  · exact ⟨hq', fun hle => (h (hmono.trans hle)).deleted hdeleted⟩

/-- The checkpoints of a thread are put in the order of their steps, and the last one describes
the run that the last call to put or read one has returned. -/
theorem steps_only_grow {τ : Type} (cfg : WriterConfig) (parser : JsonParser) (store : Store)
    (acts : List (RuntimeAct τ)) (s : Runtime) (hmeets : Meets (step cfg parser) IntSteps { store } acts)
    (hrun : run (step cfg parser) { store } acts = some s) (hcalled : s.called ≤ 2 ^ 33) (t : Bytes) :
    (putsOf (ofThread t s.reached)).Pairwise (fun a b => a.step ≤ b.step) ∧
      ∀ returned, s.idle t = true → s.described t = some returned →
        ∃ front put, putsOf (ofThread t s.reached) = front ++ [put] ∧ (∀ a ∈ front, a.step ≤ put.step) ∧
          memGetLatest s.disk t = .ok put.blob ∧ Describes put.blob returned := by
  have hinv : Queued cfg s ∧ (s.called ≤ 2 ^ 33 → Climbing s) := by
    have hkeeps : ∀ s (a : RuntimeAct τ) s', Queued cfg s ∧ (s.called ≤ 2 ^ 33 → Climbing s) → IntSteps s a →
        step cfg parser s a = some s' → Queued cfg s' ∧ (s'.called ≤ 2 ^ 33 → Climbing s') :=
      fun s a s' hs hok hstep => step_climbing hs.1 hok hs.2 hstep
    exact run_invariant_of_meets hkeeps hrun hmeets ⟨queued_init store, fun _ => climbing_init store⟩
  have hclimbing := hinv.2 hcalled
  have hsorted : (putsOf (ofThread t s.reached)).Pairwise (fun a b => a.step ≤ b.step) := by
    obtain ⟨rest, hrest⟩ := puts_line s t
    have hall := hclimbing.sorted t
    rw [hrest] at hall
    exact (pairwise_append.1 hall).1.imp fun hab => UInt64.le_iff_toNat_le.2 hab
  refine ⟨hsorted, fun returned hidle hdescribed => ?_⟩
  obtain ⟨front, put, hfront, hdescribes⟩ := hclimbing.last t returned hdescribed
  rw [(idle_line hinv.1 hidle).1] at hfront
  refine ⟨front, put, hfront, fun a ha => ?_, ?_, hdescribes⟩
  · rw [hfront] at hsorted
    exact (pairwise_append.1 hsorted).2.2 a ha put (mem_singleton.2 rfl)
  · rw [(hclimbing.held t).latest, hfront, getLast?_concat]

theorem steps_only_grow_firstRun :
    ∃ s returned, run (step ⟨4, true⟩ JsonReader.parser) { store := ∅ } firstRun = some s ∧
      s.called ≤ 2 ^ 33 ∧ s.idle (lit "a") = true ∧ s.described (lit "a") = some returned ∧
      ∃ front put, putsOf (ofThread (lit "a") s.reached) = front ++ [put] ∧ (∀ a ∈ front, a.step ≤ put.step) ∧
        memGetLatest s.disk (lit "a") = .ok put.blob ∧ Describes put.blob returned := by
  have hends : (run (step ⟨4, true⟩ JsonReader.parser) { store := ∅ } firstRun).any
      (fun s => decide (s.called ≤ 2 ^ 33) && s.idle (lit "a") && (s.described (lit "a")).isSome) = true := by
    decide +kernel
  obtain ⟨s, hrun, hs⟩ := (any_eq_true _ _).1 hends
  rw [Bool.and_eq_true, Bool.and_eq_true, decide_eq_true_eq, isSome_iff_exists] at hs
  obtain ⟨⟨hcalled, hidle⟩, returned, hdescribed⟩ := hs
  have hmeets : Meets (step ⟨4, true⟩ JsonReader.parser) IntSteps { store := ∅ } firstRun := by
    have hint : oneNode.maxSteps.toNat ≤ intMax := by decide
    refine ⟨hint, fun t _ => meets_of_forall ?_⟩
    simp [finishWrites, IntSteps]
  have hgrow := steps_only_grow ⟨4, true⟩ JsonReader.parser ∅ firstRun s hmeets hrun hcalled (lit "a")
  exact ⟨s, returned, hrun, hcalled, hidle, hdescribed, hgrow.2 returned hidle hdescribed⟩

def refusedCall : GraphCall Unit := .run quietAgents {} 0 { threadId := lit "a" }

theorem refused_call_not_described :
    ∃ s d r front put, run (step ⟨4, true⟩ JsonReader.parser) { store := ∅ } firstRun = some s ∧
      s.idle refusedCall.threadId = true ∧
      refusedCall.exec JsonReader.parser ⟨s.disk, s.store⟩ = (d, some r) ∧ d.issued = [] ∧
      putsOf (ofThread refusedCall.threadId s.reached) = front ++ [put] ∧ ¬Describes put.blob d.run := by
  have hends : (run (step ⟨4, true⟩ JsonReader.parser) { store := ∅ } firstRun).any
      (fun s => s.idle refusedCall.threadId && (putsOf (ofThread refusedCall.threadId s.reached)).getLast?.any
        fun put => decide ((decodeCheckpoint JsonReader.parser put.blob {} false).toOption.map
          (fun res => res.1.status) = some .completed)) = true := by
    decide +kernel
  obtain ⟨s, hrun, hs⟩ := (any_eq_true _ _).1 hends
  rw [Bool.and_eq_true] at hs
  obtain ⟨put, hput, hlast⟩ := (any_eq_true _ _).1 hs.2
  rw [decide_eq_true_eq] at hlast
  obtain ⟨front, hfront⟩ := getLast?_eq_some_iff.1 hput
  refine ⟨s, _, _, front, put, hrun, hs.1, rfl, rfl, hfront, ?_⟩
  -- the checkpoint says `completed`, the run of the refused call `pending`
  rintro ⟨stored, name, progress, hblob, hstatus, -⟩
  cases hdecode : decodeCheckpoint JsonReader.parser put.blob {} false with
  | error e =>
    rw [hdecode] at hlast
    cases hlast
  | ok res =>
    rw [hdecode] at hlast
    rw [hblob] at hdecode
    have hcompleted : res.1.status = .completed := Option.some.inj hlast
    rw [decodeCheckpoint_encoded hdecode] at hcompleted
    change stored.status = .completed at hcompleted
    rw [hstatus] at hcompleted
    cases hcompleted

end Runtime

end AgentCpp
