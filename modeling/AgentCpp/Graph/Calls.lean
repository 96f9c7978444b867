import AgentCpp.Graph.Issued

/-!
# The calls on a thread

`run_graph`, `resume_graph` and `fork_graph_run` as one type of calls, and what each leaves behind:
the writes it has issued, the events it has appended, and the run itself.
-/

namespace AgentCpp
open Lib Lib.Json List

/- A call, with the callbacks of its graph and session. `fuel` bounds the nesting of fan-outs
   that is followed. -/
inductive GraphCall (τ : Type) where
  | run (env : AppendingEnv τ) (graph : Graph) (fuel : ℕ) (run : GraphRun)
  | resume (env : AppendingEnv τ) (graph : Graph) (fuel : ℕ) (threadId : Bytes) (run : GraphRun)
    (req : ResumeRequest)
  | fork (env : AppendingEnv τ) (graph : Graph) (fuel : ℕ) (threadId : Bytes) (step : UInt64) (target : Bytes)
    (run : GraphRun)

namespace GraphCall

variable {τ : Type}

def given : GraphCall τ → GraphRun
  | .run _ _ _ input => input
  | .resume _ _ _ _ input _ => input
  | .fork _ _ _ _ _ _ input => input

def graph : GraphCall τ → Graph
  | .run _ graph _ _ => graph
  | .resume _ graph _ _ _ _ => graph
  | .fork _ graph _ _ _ _ _ => graph

def threadId : GraphCall τ → Bytes
  | .run _ _ _ input => defaultThread input.threadId
  | .resume _ _ _ threadId _ _ => defaultThread threadId
  | .fork _ _ _ _ _ target _ => target

def exec (parser : JsonParser) (world : World) : GraphCall τ → RunCtx τ × Outcome Unit
  | .run env graph fuel input => runGraph env.toEnv graph parser fuel world input
  | .resume env graph fuel threadId input req => resumeGraph env.toEnv graph parser fuel world threadId input req
  | .fork env graph fuel threadId step target input =>
    forkGraphRun env.toEnv graph parser fuel world threadId step target input

end GraphCall

section Opened

variable {τ : Type} {env : Env τ} {graph : Graph}

structure Opened (given : GraphRun) (t : Bytes) (c : RunCtx τ) : Prop where
  threadId : c.run.threadId = t
  issued : c.issued = []
  persistedEvents : c.persistedEvents = given.events.length
  events : given.events <+: c.run.events

variable {given : GraphRun} {t : Bytes} {c d : RunCtx τ}

theorem Opened.inOrder (h : Opened given t c) : InOrder t c := by
  refine ⟨h.threadId, ?_, false, ?_, nofun⟩
  · rw [h.issued]
    exact nofun
  · rw [h.issued]
    rfl

theorem Opened.logs (h : Opened given t c) : Logs given.events.length c := by
  refine ⟨le_of_eq h.persistedEvents.symm, ?_, ?_⟩
  · rw [h.persistedEvents]
    exact h.events.length_le
  · rw [h.issued, h.persistedEvents]
    refine (drop_eq_nil_of_le ?_).symm
    rw [length_take]
    exact Nat.min_le_left _ _

theorem Opened.rising (h : Opened given t c) : Rising c.run.step.toNat c := by
  have hnone : putsOf (jobsOf c.issued) = [] := by
    rw [h.issued]
    rfl
  exact ⟨by simp [hnone], by simp [hnone], by simp [hnone], le_refl _, by simp [hnone]⟩

theorem Opened.worked (h : Opened given t c) (hw : Worked c d) : Opened given t d where
  threadId := hw.threadId.trans h.threadId
  issued := hw.issued.trans h.issued
  persistedEvents := hw.persistedEvents.trans h.persistedEvents
  events := h.events.trans hw.events

theorem worked_answerAbandonedCalls (c : RunCtx τ) : Worked c (answerAbandonedCalls env c) := by
  refine List.foldlRecOn (motive := Worked c) _ _ (.refl c) ?_
  intro d hd e _
  refine List.foldlRecOn (motive := Worked c) _ _ ?_ ?_
  · exact hd.trans ⟨rfl, rfl, rfl, rfl, rfl, prefix_rfl⟩
  · intro d' hd' call _
    exact hd'.trans ⟨rfl, rfl, rfl, rfl, rfl, prefix_append _ _⟩

variable {parser : JsonParser}

theorem worked_loadScoped {r : Result Unit} (h : loadScoped env parser c = (d, r)) : Worked c d := by
  rw [← show (loadScoped env parser c).1 = d by rw [h]]
  exact ⟨rfl, rfl, rfl, rfl, rfl, prefix_rfl⟩

theorem loadScoped_events {r : Result Unit} (h : loadScoped env parser c = (d, r)) : d.run.events = c.run.events := by
  rw [← show (loadScoped env parser c).1 = d by rw [h]]
  rfl

theorem opened_continueThread (hc : Opened given t c) (h : continueThread env parser c = .ok d) : Opened given t d ∧
      ((memGetLatest c.world.checkpoints t = noCheckpoint t ∧ d = c) ∨
        ∃ blob previous progress, memGetLatest c.world.checkpoints t = .ok blob ∧
          decodeCheckpoint parser blob { threadId := t } false = .ok (previous, progress) ∧
          d.run.step = previous.step) := by
  unfold continueThread at h
  rw [hc.threadId] at h
  split at h
  · next e hlatest =>
    split at h
    · cases h
      refine ⟨hc, .inl ⟨?_, rfl⟩⟩
      rw [hlatest]
      unfold memGetLatest at hlatest
      split at hlatest
      · exact hlatest.symm.trans rfl
      · split at hlatest
        · exact hlatest.symm.trans rfl
        · cases hlatest
    · cases h
  · next blob hlatest =>
    obtain ⟨⟨previous, progress⟩, hdecode, hr⟩ := bind_eq_ok.1 h
    cases hr
    let start : RunCtx τ := withRun c { c.run with
      state := { c.run.state with
        values := dropInternal previous.state.values
        histories := previous.state.histories }
      step := previous.step }
    have hw : Worked start (answerAbandonedCalls env start) := worked_answerAbandonedCalls start
    have hstart : Opened given t start := { hc with }
    exact ⟨hstart.worked hw, .inr ⟨blob, previous, progress, hlatest, hdecode, hw.step⟩⟩

end Opened

section Drove

variable {τ : Type} {env : AppendingEnv τ} {graph : Graph}

variable {c d : RunCtx τ} {r : Result Unit}

theorem Drove.inOrder (h : Drove env graph c d r) (hc : InOrder t c) :
    settle false d.issued = some false ∧ ∀ job ∈ jobsOf d.issued, job.threadId = t := by
  obtain ⟨n, c', error, -, hacts, hfin⟩ := h
  exact finish_inOrder (hc.acts hacts) hfin

theorem Drove.logs {n : ℕ} (h : Drove env graph c d r) (hc : Logs n c) :
    (jobsOf d.issued).flatMap Job.logged = d.run.events.drop n := by
  obtain ⟨k, c', error, -, hacts, hfin⟩ := h
  exact finish_logs (hc.acts hacts) hfin

structure Climbed (start steps : ℕ) (d : RunCtx τ) : Prop where
  rising : Rising start d
  high : d.run.step.toNat ≤ start + steps
  last : ∃ front put, putsOf (jobsOf d.issued) = front ++ [put] ∧ Describes put.blob d.run

theorem Drove.climbed {start : ℕ} (h : Drove env graph c d r) (hc : Rising start c)
    (hstart : c.run.step.toNat = start) (hroom : start + graph.maxSteps.toNat < 2 ^ 64) :
    Climbed start graph.maxSteps.toNat d := by
  obtain ⟨n, c', error, hle, hacts, hfin⟩ := h
  obtain ⟨hrising, hstep⟩ := Rising.acts hacts hc (by omega)
  obtain ⟨hd, hlast⟩ := finish_rising hrising hfin
  refine ⟨hd, ?_, hlast⟩
  have hsame : d.run.step = c'.run.step := by
    rw [finish_eq hfin]
    exact (worked_closed c' error).step
  rw [hsame]
  omega

/- What a call that has written its run leaves: it starts at `start` and completes at most
   `steps` nodes. -/
structure CallWrites (t : Bytes) (given : GraphRun) (steps start : ℕ) (d : RunCtx τ) : Prop where
  settled : settle false d.issued = some false
  jobs : ∀ job ∈ jobsOf d.issued, job.threadId = t
  log : (jobsOf d.issued).flatMap Job.logged = d.run.events.drop given.events.length
  climbed : start + steps < 2 ^ 64 → Climbed start steps d

theorem Drove.writes (h : Drove env graph c d r) (hc : Opened given t c) :
    CallWrites t given graph.maxSteps.toNat c.run.step.toNat d := by
  obtain ⟨hsettled, hjobs⟩ := h.inOrder hc.inOrder
  exact ⟨hsettled, hjobs, h.logs hc.logs, fun hroom => h.climbed hc.rising rfl hroom⟩

end Drove

section Run

variable {τ : Type} {env : AppendingEnv τ} {graph : Graph} {parser : JsonParser}

def openedRun (world : World) (run : GraphRun) : RunCtx τ :=
  openCall world { run with threadId := defaultThread run.threadId, state := {}, step := 0 }

theorem opened_openedRun (world : World) (run : GraphRun) :
    Opened run (defaultThread run.threadId) (openedRun world run : RunCtx τ) :=
  ⟨rfl, rfl, rfl, prefix_rfl⟩

/- A call that answers abandoned tool calls gets to write the events of the answers. -/
def RepairLoads (env : AppendingEnv τ) (parser : JsonParser) (world : World) (run : GraphRun) : Prop :=
  ∀ c, continueThread env.toEnv parser (openedRun world run : RunCtx τ) = .ok c → c.run.events ≠ run.events →
    (loadScoped env.toEnv parser c).2 = .ok ()

theorem runGraph_returns {fuel : ℕ} {world : World} {run : GraphRun}
    (h : runGraph env.toEnv graph parser fuel world run = (d, some r)) :
    (d.issued = [] ∧ (RepairLoads env parser world run → d.run.events = run.events)) ∨
    ∃ c c', continueThread env.toEnv parser (openedRun world run : RunCtx τ) = .ok c' ∧
      Opened run (defaultThread run.threadId) c ∧ c.run.step = c'.run.step ∧ Drove env graph c d r := by
  unfold runGraph at h
  split at h
  · cases h
    exact .inl ⟨rfl, fun _ => rfl⟩
  · cases hprep : prepareRun env.toEnv graph parser world run with
    | mk c res =>
      rw [hprep] at h
      unfold prepareRun at hprep
      simp only at hprep
      split at hprep
      · cases hprep
        cases h
        exact .inl ⟨rfl, fun _ => rfl⟩
      · next c' hcont =>
        obtain ⟨hopened, -⟩ := opened_continueThread (opened_openedRun world run) hcont
        split at hprep
        · next c₁ e hload =>
          have hw := worked_loadScoped hload
          have hevents := loadScoped_events hload
          cases hprep
          cases h
          refine .inl ⟨hw.issued.trans hopened.issued, fun hrepair => ?_⟩
          by_contra hne
          have hok := hrepair _ hcont (hevents ▸ hne)
          rw [hload] at hok
          cases hok
        · next c₁ hload =>
          cases hprep
          have hc := hopened.worked (worked_loadScoped hload)
          have hready : Worked c₁ (withRun c₁ (resetRunStatus { c₁.run with
              state := applySeed run.state c₁.run.state, nextNode := graph.entry })) :=
            ⟨rfl, rfl, rfl, rfl, rfl, prefix_rfl⟩
          exact .inr ⟨_, c', hcont, hc.worked hready, (worked_loadScoped hload).step,
            drive_drove env graph fuel none _ d r h⟩

end Run

theorem foldlM_invariant {α β : Type} {f : β → α → Result β} {Inv : β → Prop}
    (hf : ∀ b x b', Inv b → f b x = .ok b' → Inv b') {xs : List α} {b b' : β} (h : xs.foldlM f b = .ok b')
    (hb : Inv b) : Inv b' := by
  induction xs generalizing b with
  | nil =>
    cases h
    exact hb
  | cons x xs ih =>
    obtain ⟨b₁, hb₁, hrest⟩ := bind_eq_ok.1 h
    exact ih hrest (hf b x b₁ hb hb₁)

/- Reading a checkpoint leaves the thread and the events of the run alone. -/
structure Kept (run run' : GraphRun) : Prop where
  events : run'.events = run.events
  threadId : run'.threadId = run.threadId

variable {withProgress : Bool}

theorem decodeCheckpointField_kept {acc acc' : CheckpointAcc} {f : Bytes × Json}
    (h : decodeCheckpointField withProgress acc f = .ok acc') : Kept acc.out acc'.out := by
  unfold decodeCheckpointField at h
  simp only at h
  split at h
  · split at h
    · cases h
    · cases h
      exact ⟨rfl, rfl⟩
  · repeat' split at h
    all_goals first
      | cases h; exact ⟨rfl, rfl⟩
      | obtain ⟨x, -, hx⟩ := bind_eq_ok.1 h; cases hx; exact ⟨rfl, rfl⟩

theorem decodeCheckpoint_kept {blob : Bytes} {out run : GraphRun}
    {progress : Option ParallelProgress} (h : decodeCheckpoint parser blob out withProgress = .ok (run, progress)) :
    Kept out run := by
  unfold decodeCheckpoint at h
  split at h
  · cases h
  · split at h
    · cases h
    · obtain ⟨acc, hacc, h⟩ := bind_eq_ok.1 h
      have hfields : ∀ (b : CheckpointAcc) (x : Bytes × Json) (b' : CheckpointAcc), Kept out b.out →
          decodeCheckpointField withProgress b x = .ok b' → Kept out b'.out := by
        intro b x b' hb hx
        have hfield := decodeCheckpointField_kept hx
        exact ⟨hfield.events.trans hb.events, hfield.threadId.trans hb.threadId⟩
      have hkept : Kept out acc.out := foldlM_invariant hfields hacc ⟨rfl, rfl⟩
      obtain ⟨histories, -, h⟩ := bind_eq_ok.1 h
      split at h
      · obtain ⟨branches, -, h⟩ := bind_eq_ok.1 h
        cases h
        exact ⟨hkept.events, hkept.threadId⟩
      · cases h
        exact ⟨hkept.events, hkept.threadId⟩

section Resume

variable {τ : Type} {env : AppendingEnv τ} {graph : Graph} {parser : JsonParser}

def resumedRun (threadId : Bytes) (run : GraphRun) : GraphRun :=
  { run with threadId := defaultThread threadId, state := {}, pendingToolCalls := [] }

/- Each value the scoped index lists can be read, or is missing. -/
def valuesRead (storeGet : Bytes → Option Error) (parser : JsonParser) (store : Store) : Bool :=
  match readIndex storeGet parser store with
  | .error _ => true
  | .ok index => index.keys.all fun key => (storeGet (scopedValueKey key)).all fun e => e.code = .keyNotFound

/- The resume ends before it loads the scoped values, or no read of one of them fails. -/
def loadsWhole (env : Env τ) (parser : JsonParser) (world : World) (req : ResumeRequest) (stored : GraphRun)
    (progress : Option ParallelProgress) : Bool :=
  stored.status = .completed || !(resumeAnswers req stored progress).isOk || valuesRead env.storeGet parser world.store

theorem loadScopedKey_read {storeGet : Bytes → Option Error} {store : Store} {key : Bytes} (values : Table Bytes)
    (h : (storeGet (scopedValueKey key)).all (fun e => e.code = .keyNotFound) = true) :
    (loadScopedKey storeGet store values key).2 = .ok () := by
  unfold loadScopedKey readMemory
  cases hget : storeGet (scopedValueKey key) with
  | some e =>
    rw [hget] at h
    simpa using h
  | none =>
    unfold retrieveMemory
    cases store[scopedValueKey key]? with
    | some value => rfl
    | none => rfl

/- Only reading the index can fail then, and nothing is loaded yet. -/
theorem loadScoped_whole {env : Env τ} {e : Error} (hread : valuesRead env.storeGet parser c.world.store = true)
    (h : loadScoped env parser c = (d, .error e)) : d.run = c.run := by
  unfold valuesRead at hread
  unfold loadScoped loadScopedState at h
  cases hindex : readIndex env.storeGet parser c.world.store with
  | error e' =>
    rw [hindex] at h
    cases h
    rfl
  | ok index =>
    rw [hindex] at h hread
    have hok : ∀ values, ∀ key ∈ index.keys, (loadScopedKey env.storeGet c.world.store values key).2 = .ok () :=
      fun values key hkey => loadScopedKey_read values (all_eq_true.1 hread key hkey)
    have hall := (forEach_ok hok c.run.state.values).symm.trans (Prod.mk.inj h).2
    cases hall

/- A call that is about to load the scoped values. -/
structure Resuming (world : World) (t : Bytes) (given stored : GraphRun) (c : RunCtx τ) : Prop where
  run : c.run = stored
  threadId : stored.threadId = t
  world : c.world = world
  issued : c.issued = []
  persistedEvents : c.persistedEvents = given.events.length
  events : stored.events = given.events

theorem Resuming.returns {fuel : ℕ} {world : World} {run stored : GraphRun} (h : Resuming world t run stored c)
    (progress : Option ParallelProgress) (branchResume : Table PendingResume) (top : PendingResume)
    (hload : (match loadScoped env.toEnv parser { c with progress, branchResume } with
      | (c, .error e) => (c, some (.error e))
      | (c, .ok ()) => resumeRun env.toEnv graph fuel top c) = (d, some r)) :
    (d.issued = [] ∧ d.run.events = stored.events ∧
      (valuesRead env.storeGet parser world.store = true → d.run = stored)) ∨
    ∃ c, Opened run t c ∧ c.run.step = stored.step ∧ Drove env graph c d r := by
  split at hload
  · next c' e heq =>
    have hw := worked_loadScoped heq
    have hevents := loadScoped_events heq
    cases hload
    refine .inl ⟨hw.issued.trans h.issued, hevents.trans (congrArg GraphRun.events h.run), fun hread => ?_⟩
    have hsame := loadScoped_whole (c := { c with progress, branchResume }) (h.world ▸ hread) heq
    exact hsame.trans h.run
  · next c' heq =>
    have hw := worked_loadScoped heq
    have hopened : Opened run t c' := by
      refine ⟨hw.threadId.trans ?_, hw.issued.trans h.issued, hw.persistedEvents.trans h.persistedEvents, ?_⟩
      · rw [h.run]
        exact h.threadId
      · have hpre := hw.events
        rw [h.run, h.events] at hpre
        exact hpre
    have hstep : c'.run.step = stored.step := hw.step.trans (congrArg GraphRun.step h.run)
    refine .inr ⟨_, hopened.worked ?_, ?_, drive_drove env graph fuel _ _ d r hload⟩
    · split
      · exact ⟨rfl, rfl, rfl, rfl, rfl, prefix_append _ _⟩
      · exact ⟨rfl, rfl, rfl, rfl, rfl, prefix_append _ _⟩
    · split
      · exact hstep
      · exact hstep

/- If the resume gets as far as to read the thread's checkpoint, it leaves the run that is stored there. -/
def LeavesStored (env : Env τ) (graph : Graph) (parser : JsonParser) (world : World) (threadId : Bytes) (run : GraphRun)
    (req : ResumeRequest) (left : GraphRun) : Prop :=
  ∀ blob stored progress, validate graph = .ok () →
    memGetLatest world.checkpoints (defaultThread threadId) = .ok blob →
    decodeCheckpoint parser blob (resumedRun threadId run) true = .ok (stored, progress) →
    loadsWhole env parser world req stored progress = true → ∃ calls, left = { stored with pendingToolCalls := calls }

theorem resumeGraph_returns {fuel : ℕ} {world : World} {threadId : Bytes} {run : GraphRun} {req : ResumeRequest}
    (h : resumeGraph env.toEnv graph parser fuel world threadId run req = (d, some r)) :
    (d.issued = [] ∧ d.run.events = run.events) ∧ LeavesStored env.toEnv graph parser world threadId run req d.run ∨
    ∃ c blob stored progress, memGetLatest world.checkpoints (defaultThread threadId) = .ok blob ∧
      decodeCheckpoint parser blob (resumedRun threadId run) true = .ok (stored, progress) ∧
      Opened run (defaultThread threadId) c ∧ c.run.step = stored.step ∧ Drove env graph c d r := by
  unfold resumeGraph at h
  split at h
  · next e hvalid =>
    cases h
    refine .inl ⟨⟨rfl, rfl⟩, fun blob stored progress hok => ?_⟩
    rw [hok] at hvalid
    cases hvalid
  · simp only at h
    cases hlatest : memGetLatest world.checkpoints (defaultThread threadId) with
    | error e =>
      rw [hlatest] at h
      cases h
      exact .inl ⟨⟨rfl, rfl⟩, fun blob stored _ _ hblob => nomatch hlatest.symm.trans hblob⟩
    | ok blob =>
      rw [hlatest] at h
      simp only at h
      generalize hread : decodeCheckpoint parser blob _ true = read at h
      have hdecode : decodeCheckpoint parser blob (resumedRun threadId run) true = read := hread
      cases read with
      | error e =>
        cases h
        refine .inl ⟨⟨rfl, rfl⟩, fun b stored _ _ hblob hstored => ?_⟩
        cases hlatest.symm.trans hblob
        cases hdecode.symm.trans hstored
      | ok decoded =>
        obtain ⟨stored, progress⟩ := decoded
        simp only at h
        have hkept := decodeCheckpoint_kept hdecode
        have hstops : ∀ c : RunCtx τ, c.issued = [] → c.run.events = stored.events →
            (loadsWhole env.toEnv parser world req stored progress = true →
              ∃ calls, c.run = { stored with pendingToolCalls := calls }) →
            (c.issued = [] ∧ c.run.events = run.events) ∧
              LeavesStored env.toEnv graph parser world threadId run req c.run := by
          intro c hissued hevents hrun
          refine ⟨⟨hissued, hevents.trans hkept.events⟩, fun b x p _ hb hx hwhole => ?_⟩
          cases hlatest.symm.trans hb
          cases hdecode.symm.trans hx
          exact hrun hwhole
        split at h
        · cases h
          exact .inl (hstops _ rfl rfl fun _ => ⟨_, rfl⟩)
        · next hrunning =>
          cases hanswers : resumeAnswers req stored progress with
          | error e =>
            rw [hanswers] at h
            cases h
            exact .inl (hstops _ rfl rfl fun _ => ⟨_, rfl⟩)
          | ok answers =>
            have hread : loadsWhole env.toEnv parser world req stored progress = true →
                valuesRead env.storeGet parser world.store = true := by
              unfold loadsWhole
              rw [hanswers]
              simp [hrunning, Except.isOk, Except.toBool]
            rw [hanswers] at h
            simp only at h
            generalize hstart : (if answers.2.isSome then _ else _ : RunCtx τ) = c at h
            have hresuming : ∃ calls, Resuming world (defaultThread threadId) run
                { stored with pendingToolCalls := calls } c := by
              rw [← hstart]
              split
              · exact ⟨_, rfl, hkept.threadId, rfl, rfl, rfl, hkept.events⟩
              · exact ⟨_, rfl, hkept.threadId, rfl, rfl, rfl, hkept.events⟩
            obtain ⟨calls, hresuming⟩ := hresuming
            rcases hresuming.returns progress answers.1 (answers.2.getD {}) h with
              ⟨hissued, hevents, hsame⟩ | ⟨c, hopened, hstep, hdrove⟩
            · exact .inl (hstops d hissued hevents fun hwhole => ⟨calls, hsame (hread hwhole)⟩)
            · exact .inr ⟨c, blob, stored, progress, rfl, hdecode, hopened, hstep, hdrove⟩

end Resume

section Fork

variable {τ : Type} {env : AppendingEnv τ} {graph : Graph} {parser : JsonParser}

theorem InOrder.copy (h : Opened given t c) : InOrder t (writeCheckpoint env.toEnv graph false c) := by
  refine ⟨h.threadId, fun job hjob => ?_, false, ?_, nofun⟩
  · rw [writeCheckpoint_jobs, h.issued] at hjob
    exact (checkpointJobs_thread graph _ job hjob).trans h.threadId
  · rw [writeCheckpoint_issued, h.issued]
    exact settle_direct _

variable {fuel : ℕ} {step : UInt64}

theorem forkRun_writes {source : Bytes} {seed : GraphState} (hc : Opened given t c)
    (h : forkRun env.toEnv graph fuel source step seed c = (d, some r)) :
    CallWrites t given graph.maxSteps.toNat c.run.step.toNat d := by
  let c₁ : RunCtx τ := logRun env.toEnv { withState c (applySeed seed c.run.state) with
    forkedFrom := source ++ lit ":" ++ stepStr step } .fork c.run.nextNode (source ++ lit ":" ++ stepStr step) []
  have hw : Worked c c₁ := ⟨rfl, rfl, rfl, rfl, rfl, prefix_append _ _⟩
  have hopened := hc.worked hw
  have horder : InOrder t (writeCheckpoint env.toEnv graph false c₁) := .copy hopened
  have hlogs : Logs given.events.length (writeCheckpoint env.toEnv graph false c₁) := hopened.logs.write false
  have hrising : Rising c.run.step.toNat (writeCheckpoint env.toEnv graph false c₁) := hopened.rising.write false
  unfold forkRun at h
  simp only at h
  split at h
  · cases h
    have hclean : settle false (writeCheckpoint env.toEnv graph false c₁).issued = some false := by
      rw [writeCheckpoint_issued, hopened.issued]
      exact settle_direct _
    refine ⟨hclean, horder.jobs, hopened.logs.written false, fun _ => ⟨{ hrising with },
      Nat.le_add_right _ _, [], checkpointPut graph (noted env.toEnv c₁), ?_, ?_⟩⟩
    · change putsOf (jobsOf (writeCheckpoint env.toEnv graph false c₁).issued) = _
      rw [writeCheckpoint_jobs, putsOf_append, checkpointJobs_puts, hopened.issued]
      rfl
    · exact ⟨_, _, _, rfl, rfl, rfl, rfl, (dropTemp_clearTemp _).symm, SameHistories.refl _⟩
  · have hdrove := drive_drove env graph fuel none _ d r h
    have hreset : ∀ e : RunCtx τ, Worked e (withRun { e with forkedFrom := [] } (resetRunStatus e.run)) :=
      fun e => ⟨rfl, rfl, rfl, rfl, rfl, prefix_rfl⟩
    have hstart := hreset (writeCheckpoint env.toEnv graph false c₁)
    obtain ⟨hsettled, hjobs⟩ := hdrove.inOrder (horder.worked hstart)
    exact ⟨hsettled, hjobs, hdrove.logs (hlogs.worked hstart), fun hroom =>
      hdrove.climbed (hrising.worked hstart) rfl hroom⟩

theorem forkGraphRun_returns {world : World} {threadId target : Bytes} {run : GraphRun}
        (h : forkGraphRun env.toEnv graph parser fuel world threadId step target run = (d, some r)) :
    (d.issued = [] ∧ d.run.events = run.events) ∨ (∃ e, memGetLatest world.checkpoints target = .error e) ∧
      (∃ blob, memGet world.checkpoints (defaultThread threadId) step = .ok blob) ∧
      CallWrites target run graph.maxSteps.toNat step.toNat d := by
  unfold forkGraphRun at h
  split at h
  · cases h
    exact .inl ⟨rfl, rfl⟩
  · simp only at h
    split at h
    · cases h
      exact .inl ⟨rfl, rfl⟩
    · split at h
      · cases h
        exact .inl ⟨rfl, rfl⟩
      · next missing hmissing =>
        split at h
        · cases h
          exact .inl ⟨rfl, rfl⟩
        · split at h
          · cases h
            exact .inl ⟨rfl, rfl⟩
          · next blob hblob =>
            split at h
            · cases h
              exact .inl ⟨rfl, rfl⟩
            · next restored progress hdecode =>
              have hkept := decodeCheckpoint_kept hdecode
              split at h
              · next c e hload =>
                cases h
                exact .inl ⟨(worked_loadScoped hload).issued, (loadScoped_events hload).trans hkept.events⟩
              · next c hload =>
                have hw := worked_loadScoped hload
                have hopened : Opened run target c := by
                  refine ⟨hw.threadId.trans hkept.threadId, hw.issued, hw.persistedEvents, ?_⟩
                  have hpre := hw.events
                  rw [hkept.events] at hpre
                  exact hpre
                have hfork := forkRun_writes hopened h
                have hstep : c.run.step = step := hw.step
                rw [hstep] at hfork
                exact .inr ⟨⟨missing, hmissing⟩, ⟨blob, hblob⟩, hfork⟩

end Fork

namespace GraphCall

variable {τ : Type} {parser : JsonParser}

def Starts (parser : JsonParser) (disk : MemCheckpointer) (start : ℕ) : GraphCall τ → Prop
  | .fork _ _ _ threadId step target _ =>
    (∃ e, memGetLatest disk target = .error e) ∧ (∃ blob, memGet disk (defaultThread threadId) step = .ok blob) ∧
      start = step.toNat
  | call => (memGetLatest disk call.threadId = noCheckpoint call.threadId ∧ start = 0) ∨
    ∃ blob out withProgress previous progress, memGetLatest disk call.threadId = .ok blob ∧
      decodeCheckpoint parser blob out withProgress = .ok (previous, progress) ∧ start = previous.step.toNat

/- A run that answers abandoned tool calls gets to write the events of the answers. -/
def Repairs (parser : JsonParser) (world : World) : GraphCall τ → Prop
  | .run env _ _ input => RepairLoads env parser world input
  | _ => True

/- The call is a resume that reads the thread's checkpoint, and no scoped value it loads afterwards fails to be read. -/
def reads (parser : JsonParser) (world : World) : GraphCall τ → Bool
  | .resume env graph _ threadId input req =>
    match validate graph, memGetLatest world.checkpoints (defaultThread threadId) with
    | .ok (), .ok blob =>
      match decodeCheckpoint parser blob (resumedRun threadId input) true with
      | .ok (stored, progress) => loadsWhole env.toEnv parser world req stored progress
      | .error _ => false
    | _, _ => false
  | _ => false

theorem exec_returns {call : GraphCall τ} {world : World} (h : call.exec parser world = (d, some r)) :
    (d.issued = [] ∧ (call.Repairs parser world → d.run.events = call.given.events) ∧
      (call.reads parser world = true → ∃ blob out stored progress calls,
        memGetLatest world.checkpoints call.threadId = .ok blob ∧
        decodeCheckpoint parser blob out true = .ok (stored, progress) ∧
        d.run = { stored with pendingToolCalls := calls })) ∨
    ∃ start, call.Starts parser world.checkpoints start ∧
      CallWrites call.threadId call.given call.graph.maxSteps.toNat start d := by
  cases call with
  | run env graph fuel input =>
    rcases runGraph_returns h with ⟨hissued, hevents⟩ | ⟨c, c', hcont, hopened, hstep, hdrove⟩
    · exact .inl ⟨hissued, hevents, nofun⟩
    · refine .inr ⟨c.run.step.toNat, ?_, hdrove.writes hopened⟩
      obtain ⟨-, hfrom⟩ := opened_continueThread (opened_openedRun world input) hcont
      rw [hstep]
      rcases hfrom with ⟨hnone, rfl⟩ | ⟨blob, previous, progress, hblob, hdecode, hprev⟩
      · exact .inl ⟨hnone, rfl⟩
      · exact .inr ⟨blob, _, _, previous, progress, hblob, hdecode, congrArg UInt64.toNat hprev⟩
  | resume env graph fuel threadId input req =>
    rcases resumeGraph_returns h with ⟨⟨hissued, hevents⟩, hstored⟩ |
      ⟨c, blob, stored, progress, hblob, hdecode, hopened, hstep, hdrove⟩
    · refine .inl ⟨hissued, fun _ => hevents, fun hreads => ?_⟩
      unfold reads at hreads
      simp only at hreads
      split at hreads
      · next blob hvalid hblob =>
        split at hreads
        · next stored progress hdecode =>
          obtain ⟨calls, hrun⟩ := hstored blob stored progress hvalid hblob hdecode hreads
          exact ⟨blob, _, stored, progress, calls, hblob, hdecode, hrun⟩
        · cases hreads
      · cases hreads
    · exact .inr ⟨c.run.step.toNat,
        .inr ⟨blob, _, _, stored, progress, hblob, hdecode, congrArg UInt64.toNat hstep⟩, hdrove.writes hopened⟩
  | fork env graph fuel threadId step target input =>
    rcases forkGraphRun_returns h with ⟨hissued, hevents⟩ | ⟨hmissing, hblob, hwrites⟩
    · exact .inl ⟨hissued, fun _ => hevents, nofun⟩
    · exact .inr ⟨step.toNat, ⟨hmissing, hblob, rfl⟩, hwrites⟩

end GraphCall

end AgentCpp
