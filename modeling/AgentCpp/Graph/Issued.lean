import AgentCpp.Graph.CheckpointRoundTrip
import AgentCpp.Graph.Drive

/-!
# What a call writes

A call works on its run, writes checkpoints of it and goes from node to node; what it issues to its
sink follows from these three.
-/

namespace AgentCpp
open Lib List

def SinkOp.jobs : SinkOp → List Job
  | .queue job => [job]
  | .direct job => [job]
  | .flush => []

def jobsOf (ops : List SinkOp) : List Job := ops.flatMap SinkOp.jobs

def Job.logged (job : Job) : List GraphEvent := if job.isEvents then job.events else []

/- Whether queued writes may be left after the operations. Nothing is written directly while
   there may be some. -/
def settle : Bool → List SinkOp → Option Bool
  | dirty, [] => some dirty
  | _, .queue _ :: ops => settle true ops
  | dirty, .direct _ :: ops => if dirty then none else settle false ops
  | _, .flush :: ops => settle false ops

theorem settle_append (dirty : Bool) (xs ys : List SinkOp) :
    settle dirty (xs ++ ys) = (settle dirty xs).bind fun d => settle d ys := by
  induction xs generalizing dirty with
  | nil => rfl
  | cons op xs ih =>
    cases op with
    | queue job => exact ih true
    | flush => exact ih false
    | direct job =>
      cases dirty with
      | true => rfl
      | false => exact ih false

theorem settle_queue (dirty : Bool) (jobs : List Job) (h : jobs ≠ []) :
    settle dirty (jobs.map .queue) = some true := by
  induction jobs generalizing dirty with
  | nil => exact absurd rfl h
  | cons job jobs ih =>
    cases jobs with
    | nil => rfl
    | cons job' jobs => exact ih true (cons_ne_nil _ _)

theorem settle_direct (jobs : List Job) : settle false (jobs.map .direct) = some false := by
  induction jobs with
  | nil => rfl
  | cons job jobs ih => exact ih

theorem jobsOf_append (xs ys : List SinkOp) : jobsOf (xs ++ ys) = jobsOf xs ++ jobsOf ys :=
  flatMap_append

theorem jobsOf_map (throughWriter : Bool) (jobs : List Job) :
    jobsOf (jobs.map (if throughWriter then SinkOp.queue else SinkOp.direct)) = jobs := by
  induction jobs with
  | nil => rfl
  | cons job jobs ih =>
    unfold jobsOf at ih ⊢
    rw [map_cons, flatMap_cons, ih]
    cases throughWriter <;> rfl

section Acts

variable {τ : Type} (env : Env τ) (graph : Graph)

structure Worked (c d : RunCtx τ) : Prop where
  threadId : d.run.threadId = c.run.threadId
  durability : d.run.durability = c.run.durability
  step : d.run.step = c.run.step
  persistedEvents : d.persistedEvents = c.persistedEvents
  issued : d.issued = c.issued
  events : c.run.events <+: d.run.events

theorem Worked.refl (c : RunCtx τ) : Worked c c := ⟨rfl, rfl, rfl, rfl, rfl, prefix_rfl⟩

variable {c d e : RunCtx τ}

theorem Worked.trans (h : Worked c d) (h' : Worked d e) : Worked c e where
  threadId := h'.threadId.trans h.threadId
  durability := h'.durability.trans h.durability
  step := h'.step.trans h.step
  persistedEvents := h'.persistedEvents.trans h.persistedEvents
  issued := h'.issued.trans h.issued
  events := h.events.trans h'.events

inductive Acts (c : RunCtx τ) : ℕ → RunCtx τ → Prop
  | refl : Acts c 0 c
  | work {n : ℕ} {d e : RunCtx τ} (h : Acts c n d) (hw : Worked d e) : Acts c n e
  | put {n : ℕ} {d : RunCtx τ} (h : Acts c n d) :
    Acts c n (writeCheckpoint env graph (d.run.durability = .async) d)
  | next {n : ℕ} {d : RunCtx τ} (h : Acts c n d) (next : Bytes) :
    Acts c (n + 1) { d with run := { d.run with nextNode := next, step := d.run.step + 1 } }

variable {env graph}

theorem Acts.trans {m n : ℕ} (h : Acts env graph c m d) (h' : Acts env graph d n e) : Acts env graph c (m + n) e := by
  induction h' with
  | refl => exact h
  | work _ hw ih => exact ih.work hw
  | put _ ih => exact ih.put
  | next _ target ih => exact ih.next target

theorem Worked.acts (h : Worked c d) : Acts env graph c 0 d := .work .refl h

end Acts

/- Agent nodes only append to the event log, as `run_agent_node` does. -/
structure AppendingEnv (τ : Type) extends Env τ where
  appends : ∀ pos ctx node resume (c : Chain τ), c.events <+: (runAgentNode pos ctx node resume c).1.events

section Work

variable {τ : Type} (env : Env τ)

variable (pos : Pos) (node : GraphNode)

theorem emit_events (c : Chain τ) (type : GraphEventType) (node key payload : Bytes) :
    c.events <+: (emit env pos c type node key payload).events := prefix_append _ _

theorem endNode_events (c : Chain τ) (res : Outcome NodeResult) :
    c.events <+: (endNode env pos node c res).events := by
  unfold endNode
  split
  · exact prefix_rfl
  · exact emit_events env pos c _ _ _ _
  · split
    · exact emit_events env pos c _ _ _ _
    · exact emit_events env pos c _ _ _ _

theorem runToolNode_events (c : Chain τ) :
    c.events <+: (runToolNode env pos node c).1.events := by
  unfold runToolNode
  split
  · exact prefix_rfl
  · next args _ =>
    have hcall := emit_events env pos c .toolCall node.name node.toolName args
    simp only
    split
    · exact hcall
    · exact hcall.trans (prefix_append _ _)
    · exact hcall.trans (prefix_append _ _)

theorem runLoopNode_events (c : Chain τ) :
    (runLoopNode pos node c).1.events = c.events := by
  unfold runLoopNode
  split <;> rfl

theorem runFunctionNode_events (ctx : ChainCtx) (pos : Pos) (node : GraphNode) (c : Chain τ) :
    (runFunctionNode ctx pos node c).1.events = c.events := by
  unfold runFunctionNode
  split <;> rfl

theorem runLeaf_events (env : AppendingEnv τ) (ctx : ChainCtx) (pos : Pos) (node : GraphNode)
    (resume : Option PendingResume) (c : Chain τ) :
    c.events <+: (runLeaf env.toEnv ctx pos node resume c).1.events := by
  unfold runLeaf
  split
  · exact env.appends pos ctx node resume { c with visits := c.visits ++ [.mk node.name []] }
  · have hsame := runFunctionNode_events ctx pos node { c with visits := c.visits ++ [.mk node.name []] }
    exact ⟨[], (append_nil _).trans hsame.symm⟩
  · exact runToolNode_events env.toEnv pos node { c with visits := c.visits ++ [.mk node.name []] }
  · have hsame := runLoopNode_events pos node { c with visits := c.visits ++ [.mk node.name []] }
    exact ⟨[], (append_nil _).trans hsame.symm⟩
  · exact prefix_rfl

theorem closeFanOut_events (branches : List (Branch τ)) (c : Chain τ) :
    c.events <+: (closeFanOut node branches c).1.events := by
  unfold closeFanOut
  simp only
  repeat' split
  all_goals exact prefix_append _ _

theorem worked_withChain (c : RunCtx τ) (chain : Chain τ) (h : c.run.events <+: chain.events) :
    Worked c (withChain c chain) := ⟨rfl, rfl, rfl, rfl, rfl, h⟩

theorem worked_persistScoped (c : RunCtx τ) (key value : Bytes) : Worked c (persistScoped env c key value).1 := by
  unfold persistScoped
  split
  · exact ⟨rfl, rfl, rfl, rfl, rfl, prefix_rfl⟩
  · exact .refl c

theorem worked_drainTop (node : Bytes) (c : RunCtx τ) : Worked c (drainTop env pos node c).1 := by
  unfold drainTop
  refine forEach_keeps (fun d key hd => ?_) _ ⟨rfl, rfl, rfl, rfl, rfl, prefix_rfl⟩
  exact hd.trans ((worked_withChain d _ (emit_events env pos (chainOf d) _ _ _ _)).trans (worked_persistScoped env _ _ _))

theorem worked_mergeKeys (merged : List (Bytes × Bytes)) (c : RunCtx τ) :
    Worked c (forEach (mergeKey env) merged c).1 := by
  refine forEach_keeps (fun d entry hd => ?_) _ (.refl c)
  have hset : Worked d { d with run := { d.run with
      state := { d.run.state with values := d.run.state.values.insert entry.1 entry.2 } } } :=
    ⟨rfl, rfl, rfl, rfl, rfl, prefix_rfl⟩
  exact hd.trans (hset.trans (worked_persistScoped env _ _ _))

theorem worked_joinTop (branches : List (Branch τ)) (c : RunCtx τ) :
    Worked c (joinTop env node branches c).1 := by
  have hchain := closeFanOut_events node branches (chainOf c)
  unfold joinTop
  split
  · next chain heq =>
    rw [heq] at hchain
    exact worked_withChain c chain hchain
  · next chain e heq =>
    rw [heq] at hchain
    exact worked_withChain c chain hchain
  · next chain result merged heq =>
    rw [heq] at hchain
    split
    · exact worked_withChain c chain hchain
    · have hall := (worked_withChain c { chain with state := c.run.state } hchain).trans (worked_mergeKeys env merged _)
      split
      · next heq =>
        rw [heq] at hall
        exact hall
      · next heq =>
        rw [heq] at hall
        exact ⟨hall.threadId, hall.durability, hall.step, hall.persistedEvents, hall.issued, hchain⟩

end Work

section Loop

variable {τ : Type} (env : AppendingEnv τ) (graph : Graph)

theorem acts_saveBranch {c d : RunCtx τ} {n : ℕ} (h : Acts env.toEnv graph c n d) (s : ℕ × Save) :
    Acts env.toEnv graph c n (saveBranch env.toEnv graph d s) := by
  have hput : ∀ e : RunCtx τ, Worked d e →
      Acts env.toEnv graph c n (writeCheckpoint env.toEnv graph (e.run.durability = .async) e) :=
    fun e he => (h.work he).put
  unfold saveBranch
  simp only
  split
  · exact h.work ⟨rfl, rfl, rfl, rfl, rfl, prefix_rfl⟩
  · exact hput _ ⟨rfl, rfl, rfl, rfl, rfl, prefix_rfl⟩

variable (fuel : ℕ) (pos : Pos) (resume : Option PendingResume)

theorem acts_saveBranches (progress : ParallelProgress) (branches : List (Branch τ)) (c : RunCtx τ) :
    Acts env.toEnv graph c 0 (saveBranches env.toEnv graph pos progress branches c) := by
  have hstart : Acts env.toEnv graph c 0
      { c with progress := some progress, branchVisits := branches.map fun _ => [] } :=
    .work .refl ⟨rfl, rfl, rfl, rfl, rfl, prefix_rfl⟩
  have hfold := List.foldlRecOn (motive := Acts env.toEnv graph c 0)
    (interleave (env.order pos) (branches.map Branch.saves)) (saveBranch env.toEnv graph) hstart
    fun d hd s _ => acts_saveBranch env graph hd s
  exact hfold.work ⟨rfl, rfl, rfl, rfl, rfl, prefix_rfl⟩

theorem acts_runTopNode (node : GraphNode) (resume : Option PendingResume) (c : RunCtx τ) :
    Acts env.toEnv graph c 0 (runTopNode env.toEnv graph fuel pos node resume c).1 := by
  have hend : ∀ (d : RunCtx τ) (res : Outcome NodeResult),
      Worked d (withChain d (endNode env.toEnv pos node (chainOf d) res)) :=
    fun d res => worked_withChain d _ (endNode_events env.toEnv pos node (chainOf d) res)
  have hstart : Worked c (withChain c (emit env.toEnv pos (chainOf c) .nodeStart node.name [] [])) :=
    worked_withChain c _ (emit_events env.toEnv pos (chainOf c) _ _ _ _)
  have hparallel : ∀ d : RunCtx τ, Acts env.toEnv graph d 0 (runTopParallel env.toEnv graph fuel pos node d).1 :=
    fun d => (acts_saveBranches env graph pos _ _ d).work (worked_joinTop env.toEnv node _ _)
  have hleaf : ∀ d : RunCtx τ, Worked d (withChain d (runLeaf env.toEnv (topCtx d) pos node resume (chainOf d)).1) :=
    fun d => worked_withChain d _ (runLeaf_events env (topCtx d) pos node resume (chainOf d))
  unfold runTopNode
  split
  · exact ((hstart.acts).trans (hparallel _)).work (hend _ _)
  · exact ((hstart.trans (hleaf _)).acts).work (hend _ _)

theorem acts_stepTop (c d : RunCtx τ)
    (outcome : Option (Outcome Unit)) (h : stepTop env.toEnv graph fuel pos resume c = (d, outcome)) :
    (outcome = none ∧ Acts env.toEnv graph c 1 d) ∨ outcome = some none ∨
      ∃ r c' error, outcome = some (some r) ∧ Acts env.toEnv graph c 0 c' ∧
        finish env.toEnv graph c' error = (d, some r) := by
  have hfinish : ∀ (c' : RunCtx τ) (error : Option Error), Acts env.toEnv graph c 0 c' →
      endCall (finish env.toEnv graph c' error) = (d, outcome) →
      ∃ r c' error, outcome = some (some r) ∧ Acts env.toEnv graph c 0 c' ∧
        finish env.toEnv graph c' error = (d, some r) := by
    intro c' error hacts heq
    cases heq
    exact ⟨_, c', error, rfl, hacts, rfl⟩
  unfold stepTop at h
  split at h
  · exact .inr (.inr (hfinish c _ .refl h))
  · next node _ =>
    simp only at h
    have hnode := acts_runTopNode env graph fuel pos node (if node.kind = .agent then resume else none) c
    split at h
    · cases h
      exact .inr (.inl rfl)
    · next c' e hrun =>
      rw [hrun] at hnode
      have hdrop : Worked c' (dropWritten c') := ⟨rfl, rfl, rfl, rfl, rfl, prefix_rfl⟩
      exact .inr (.inr (hfinish _ _ (hnode.work hdrop) h))
    · next c' result hrun =>
      rw [hrun] at hnode
      have hdrain := hnode.work (worked_drainTop env.toEnv pos node.name c')
      have hpause : ∀ e : RunCtx τ, Worked e (interruptRun node result e) :=
        fun e => ⟨rfl, rfl, rfl, rfl, rfl, prefix_rfl⟩
      split at h
      · next heq =>
        rw [heq] at hdrain
        exact .inr (.inr (hfinish _ _ hdrain h))
      · next heq =>
        rw [heq] at hdrain
        split at h
        · exact .inr (.inr (hfinish _ _ (hdrain.work (hpause _)) h))
        · split at h
          · exact .inr (.inr (hfinish _ _ hdrain h))
          · next next _ =>
            cases h
            refine .inl ⟨rfl, ?_⟩
            have hnext := hdrain.next next
            unfold advance
            simp only
            split
            · exact hnext
            · exact hnext.put

/- A call that returns from its loop has ended with `finish`. -/
def Drove (c d : RunCtx τ) (r : Result Unit) : Prop :=
  ∃ n c' error, n ≤ graph.maxSteps.toNat ∧ Acts env.toEnv graph c n c' ∧
    finish env.toEnv graph c' error = (d, some r)

theorem acts_driveLoop (left : ℕ) (resume : Option PendingResume) (c d : RunCtx τ) (r : Result Unit)
    (h : driveLoop env.toEnv graph fuel left resume c = (d, some r)) :
    ∃ n c' error, n ≤ left ∧ Acts env.toEnv graph c n c' ∧ finish env.toEnv graph c' error = (d, some r) := by
  induction left generalizing resume c with
  | zero =>
    by_cases hend : c.run.nextNode = graphEnd
    · rw [driveLoop_atEnd env.toEnv graph fuel 0 resume c hend] at h
      exact ⟨0, completed c, none, le_refl _, .work .refl ⟨rfl, rfl, rfl, rfl, rfl, prefix_rfl⟩, h⟩
    · rw [driveLoop_zero env.toEnv graph fuel resume c hend] at h
      exact ⟨0, c, _, le_refl _, .refl, h⟩
  | succ left ih =>
    by_cases hend : c.run.nextNode = graphEnd
    · rw [driveLoop_atEnd env.toEnv graph fuel _ resume c hend] at h
      exact ⟨0, completed c, none, Nat.zero_le _, .work .refl ⟨rfl, rfl, rfl, rfl, rfl, prefix_rfl⟩, h⟩
    · obtain ⟨d', outcome, hstep⟩ : ∃ d' outcome, stepTop env.toEnv graph fuel [left] resume c = (d', outcome) :=
        ⟨_, _, rfl⟩
      rcases acts_stepTop env graph fuel [left] resume c d' outcome hstep with
        ⟨rfl, hacts⟩ | rfl | ⟨r', c', error, rfl, hacts, hfinish⟩
      · rw [driveLoop_step env.toEnv graph fuel left resume c d' hend hstep] at h
        obtain ⟨n, c', error, hle, hrest, hfinish⟩ := ih none d' h
        exact ⟨1 + n, c', error, by omega, hacts.trans hrest, hfinish⟩
      · rw [driveLoop_stop env.toEnv graph fuel left resume c d' none hend hstep] at h
        cases h
      · rw [driveLoop_stop env.toEnv graph fuel left resume c d' (some r') hend hstep] at h
        cases h
        exact ⟨0, c', error, Nat.zero_le _, hacts, hfinish⟩

theorem drive_drove (c d : RunCtx τ) (r : Result Unit)
    (h : drive env.toEnv graph fuel resume c = (d, some r)) : Drove env graph c d r := by
  have hdrain := worked_drainTop env.toEnv [] [] c
  unfold drive at h
  split at h
  · next c' e heq =>
    rw [heq] at hdrain
    obtain ⟨hd, hr⟩ := Prod.mk.inj h
    exact ⟨0, c', some e, Nat.zero_le _, hdrain.acts, Prod.ext hd hr⟩
  · next heq =>
    rw [heq] at hdrain
    obtain ⟨n, c', error, hle, hacts, hfinish⟩ := acts_driveLoop env graph fuel _ resume _ d r h
    refine ⟨n, c', error, hle, ?_, hfinish⟩
    have hall := (hdrain.acts).trans hacts
    rw [Nat.zero_add] at hall
    exact hall

end Loop

def putsOf (jobs : List Job) : List Job := jobs.filter fun job => !job.isEvents

theorem putsOf_append (xs ys : List Job) : putsOf (xs ++ ys) = putsOf xs ++ putsOf ys :=
  filter_append ..

section Writes

variable {τ : Type} (env : Env τ) (graph : Graph)

def noted (c : RunCtx τ) : RunCtx τ :=
  logRun env c .checkpoint c.run.nextNode (checkpointKey c.run.threadId (stepStr c.run.step)) []

def checkpointPut (c : RunCtx τ) : Job where
  threadId := c.run.threadId
  step := c.run.step
  blob := encodeCheckpoint c.run graph.name c.progress
  metadata := checkpointMetadata graph c

def checkpointEvents (c : RunCtx τ) : Job where
  threadId := c.run.threadId
  events := c.run.events.drop c.persistedEvents
  isEvents := true

theorem checkpointJobs_eq (c : RunCtx τ) : ∃ rest, checkpointJobs graph c = checkpointPut graph c :: rest ∧
    (∀ job ∈ rest, job = checkpointEvents c) ∧ rest.flatMap Job.logged = c.run.events.drop c.persistedEvents := by
  unfold checkpointJobs
  simp only
  split
  · next hnone =>
    rw [hnone]
    exact ⟨[], rfl, nofun, rfl⟩
  · exact ⟨[checkpointEvents c], rfl, fun job hjob => mem_singleton.1 hjob, append_nil _⟩

theorem writeCheckpoint_issued (throughWriter : Bool) (c : RunCtx τ) :
    (writeCheckpoint env graph throughWriter c).issued = c.issued ++
      (checkpointJobs graph (noted env c)).map (if throughWriter then .queue else .direct) := rfl

theorem writeCheckpoint_jobs (throughWriter : Bool) (c : RunCtx τ) :
    jobsOf (writeCheckpoint env graph throughWriter c).issued =
      jobsOf c.issued ++ checkpointJobs graph (noted env c) := by
  rw [writeCheckpoint_issued, jobsOf_append, jobsOf_map]

theorem checkpointJobs_thread (c : RunCtx τ) : ∀ job ∈ checkpointJobs graph c, job.threadId = c.run.threadId := by
  obtain ⟨rest, heq, hrest, -⟩ := checkpointJobs_eq graph c
  rw [heq]
  refine forall_mem_cons.2 ⟨rfl, fun job hjob => ?_⟩
  rw [hrest job hjob]
  rfl

theorem checkpointJobs_puts (c : RunCtx τ) : putsOf (checkpointJobs graph c) = [checkpointPut graph c] := by
  obtain ⟨rest, heq, hrest, -⟩ := checkpointJobs_eq graph c
  rw [heq]
  have hnone : putsOf rest = [] := by
    refine filter_eq_nil_iff.2 fun job hjob => ?_
    rw [hrest job hjob]
    exact Bool.false_ne_true
  exact congrArg (checkpointPut graph c :: ·) hnone

theorem checkpointJobs_events (c : RunCtx τ) :
    (checkpointJobs graph c).flatMap Job.logged = c.run.events.drop c.persistedEvents := by
  obtain ⟨rest, heq, -, hevents⟩ := checkpointJobs_eq graph c
  rw [heq]
  exact hevents

end Writes

section Order

variable {τ : Type} {env : Env τ} {graph : Graph}

/- A call writes on its own thread, and directly only when nothing of it is queued. -/
structure InOrder (t : Bytes) (c : RunCtx τ) : Prop where
  threadId : c.run.threadId = t
  jobs : ∀ job ∈ jobsOf c.issued, job.threadId = t
  settled : ∃ dirty, settle false c.issued = some dirty ∧ (dirty = true → c.run.durability = .async)

variable {t : Bytes} {c d : RunCtx τ} {n start : ℕ}

theorem InOrder.put (h : InOrder t c) : InOrder t (writeCheckpoint env graph (c.run.durability = .async) c) := by
  refine ⟨h.threadId, ?_, ?_⟩
  · rw [writeCheckpoint_jobs]
    exact forall_mem_append.2 ⟨h.jobs, fun job hjob => (checkpointJobs_thread graph _ job hjob).trans h.threadId⟩
  · obtain ⟨dirty, hset, hdirty⟩ := h.settled
    rw [writeCheckpoint_issued, settle_append, hset]
    change ∃ d, settle dirty _ = some d ∧ (d = true → c.run.durability = .async)
    by_cases hasync : c.run.durability = .async
    · obtain ⟨rest, heq, -⟩ := checkpointJobs_eq graph (noted env c)
      rw [heq, hasync]
      exact ⟨true, settle_queue dirty _ (cons_ne_nil _ _), fun _ => rfl⟩
    · have hclean : dirty = false := by
        cases dirty with
        | false => rfl
        | true => exact absurd (hdirty rfl) hasync
      rw [hclean, decide_eq_false hasync]
      exact ⟨false, settle_direct _, nofun⟩

theorem InOrder.worked (h : InOrder t c) (hw : Worked c d) : InOrder t d := by
  obtain ⟨dirty, hset, hdirty⟩ := h.settled
  refine ⟨hw.threadId.trans h.threadId, ?_, dirty, ?_, ?_⟩
  · rw [hw.issued]
    exact h.jobs
  · rw [hw.issued]
    exact hset
  · rw [hw.durability]
    exact hdirty

theorem InOrder.acts (hacts : Acts env graph c n d) (h : InOrder t c) : InOrder t d := by
  induction hacts with
  | refl => exact h
  | work _ hw ih => exact ih.worked hw
  | put _ ih => exact ih.put
  | next _ _ ih => exact { ih with }

/- The events of the call up to `persistedEvents` are among its writes. -/
structure Logs (n : ℕ) (c : RunCtx τ) : Prop where
  low : n ≤ c.persistedEvents
  high : c.persistedEvents ≤ c.run.events.length
  log : (jobsOf c.issued).flatMap Job.logged = (c.run.events.take c.persistedEvents).drop n

theorem drop_take_append {α : Type} (xs : List α) {m : ℕ} (h : n ≤ m) :
    (xs.take m).drop n ++ xs.drop m = xs.drop n := by
  obtain ⟨k, rfl⟩ := Nat.exists_eq_add_of_le h
  rw [drop_take, Nat.add_sub_cancel_left, ← drop_drop]
  exact take_append_drop k (xs.drop n)

theorem Logs.write (h : Logs n c) (throughWriter : Bool) : Logs n (writeCheckpoint env graph throughWriter c) := by
  have hlen : c.run.events.length ≤ (noted env c).run.events.length := (prefix_append _ _).length_le
  refine ⟨h.low.trans (h.high.trans hlen), le_refl _, ?_⟩
  rw [writeCheckpoint_jobs, flatMap_append, checkpointJobs_events, h.log]
  change _ = ((noted env c).run.events.take (noted env c).run.events.length).drop n
  rw [take_length]
  have htake : c.run.events.take c.persistedEvents = (noted env c).run.events.take c.persistedEvents :=
    (take_append_of_le_length h.high).symm
  rw [htake]
  exact drop_take_append _ h.low

theorem Logs.written (h : Logs n c) (throughWriter : Bool) :
    (jobsOf (writeCheckpoint env graph throughWriter c).issued).flatMap Job.logged =
      (writeCheckpoint env graph throughWriter c).run.events.drop n := by
  have hlog : _ = ((writeCheckpoint env graph throughWriter c).run.events.take
    (writeCheckpoint env graph throughWriter c).run.events.length).drop n := (h.write throughWriter).log
  rw [take_length] at hlog
  exact hlog

theorem Logs.worked (h : Logs n c) (hw : Worked c d) : Logs n d := by
  refine ⟨?_, ?_, ?_⟩
  · rw [hw.persistedEvents]
    exact h.low
  · rw [hw.persistedEvents]
    exact h.high.trans hw.events.length_le
  · obtain ⟨more, hmore⟩ := hw.events
    rw [hw.issued, hw.persistedEvents, h.log, ← hmore, take_append_of_le_length h.high]

theorem Logs.acts {k : ℕ} (hacts : Acts env graph c k d) (h : Logs n c) : Logs n d := by
  induction hacts with
  | refl => exact h
  | work _ hw ih => exact ih.worked hw
  | put _ ih => exact ih.write _
  | next _ _ ih => exact { ih with }

/- A checkpoint that can be read back as the run it was made of. -/
def Encodes (job : Job) : Prop :=
  ∃ run name progress, job.blob = encodeCheckpoint run name progress ∧ run.step = job.step

/- The steps put so far lie between the step the call started on and the one it is on. -/
structure Rising (start : ℕ) (c : RunCtx τ) : Prop where
  sorted : (putsOf (jobsOf c.issued)).Pairwise fun a b => a.step.toNat ≤ b.step.toNat
  low : ∀ job ∈ putsOf (jobsOf c.issued), start ≤ job.step.toNat
  high : ∀ job ∈ putsOf (jobsOf c.issued), job.step.toNat ≤ c.run.step.toNat
  step : start ≤ c.run.step.toNat
  encodes : ∀ job ∈ putsOf (jobsOf c.issued), Encodes job

theorem Rising.write (h : Rising start c) (throughWriter : Bool) :
    Rising start (writeCheckpoint env graph throughWriter c) := by
  have hputs : putsOf (jobsOf (writeCheckpoint env graph throughWriter c).issued) =
      putsOf (jobsOf c.issued) ++ [checkpointPut graph (noted env c)] := by
    rw [writeCheckpoint_jobs, putsOf_append, checkpointJobs_puts]
  refine ⟨?_, ?_, ?_, h.step, ?_⟩ <;> rw [hputs]
  · refine pairwise_append.2 ⟨h.sorted, pairwise_singleton _ _, fun a ha b hb => ?_⟩
    rw [mem_singleton.1 hb]
    exact h.high a ha
  · exact forall_mem_append.2 ⟨h.low, forall_mem_singleton.2 h.step⟩
  · exact forall_mem_append.2 ⟨h.high, forall_mem_singleton.2 (le_refl _)⟩
  · exact forall_mem_append.2 ⟨h.encodes, forall_mem_singleton.2 ⟨_, _, _, rfl, rfl⟩⟩

theorem Rising.congr (h : Rising start c) (hjobs : jobsOf d.issued = jobsOf c.issued)
    (hstep : d.run.step = c.run.step) : Rising start d := by
  obtain ⟨hsorted, hlow, hhigh, hle, hencodes⟩ := h
  rw [← hjobs] at hsorted hlow hhigh hencodes
  rw [← hstep] at hhigh hle
  exact ⟨hsorted, hlow, hhigh, hle, hencodes⟩

theorem Rising.worked (h : Rising start c) (hw : Worked c d) : Rising start d :=
  h.congr (by rw [hw.issued]) hw.step

theorem Rising.acts (hacts : Acts env graph c n d) (h : Rising start c)
    (hroom : c.run.step.toNat + n < 2 ^ 64) : Rising start d ∧ d.run.step.toNat = c.run.step.toNat + n := by
  induction hacts with
  | refl => exact ⟨h, rfl⟩
  | work _ hw ih =>
    obtain ⟨hr, hstep⟩ := ih hroom
    refine ⟨hr.worked hw, ?_⟩
    rw [hw.step]
    exact hstep
  | put _ ih =>
    obtain ⟨hr, hstep⟩ := ih hroom
    exact ⟨hr.write _, hstep⟩
  | @next n d _ target ih =>
    obtain ⟨hr, hstep⟩ := ih (by omega)
    have hsucc : (d.run.step + 1).toNat = d.run.step.toNat + 1 := by
      rw [UInt64.toNat_add, UInt64.toNat_one]
      exact Nat.mod_eq_of_lt (by omega)
    refine ⟨⟨hr.sorted, hr.low, fun job hjob => ?_, ?_, hr.encodes⟩, ?_⟩
    · change job.step.toNat ≤ (d.run.step + 1).toNat
      have hle := hr.high job hjob
      omega
    · change start ≤ (d.run.step + 1).toNat
      have hle := hr.step
      omega
    · change (d.run.step + 1).toNat = _
      omega

end Order

/- Every message of every conversation is stored. -/
def SameHistories (stored read : Table FlowMemory) : Prop :=
  ∀ name : Bytes, Option.Rel (fun s r => List.Forall₂ RestoresMessage s.history r.history) stored[name]? read[name]?

theorem SameHistories.refl (histories : Table FlowMemory) : SameHistories histories histories := by
  intro name
  cases histories[name]? with
  | none => exact .none
  | some memory => exact .some (forall₂_same.2 fun m _ => ⟨rfl, rfl, rfl, rfl, rfl⟩)

/- The checkpoint is one of the run: status, position, non-temp values and histories. -/
def Describes (blob : Bytes) (run : GraphRun) : Prop :=
  ∃ stored name progress, blob = encodeCheckpoint stored name progress ∧ stored.status = run.status ∧
    stored.nextNode = run.nextNode ∧ stored.step = run.step ∧
    dropTemp stored.state.values = dropTemp run.state.values ∧
    SameHistories stored.state.histories run.state.histories

section Finish

variable {τ : Type} {env : Env τ} {graph : Graph}

theorem dropTemp_clearTemp (state : GraphState) : dropTemp (clearTemp state).values = dropTemp state.values :=
  dropTemp_dropTemp _

def closed (c : RunCtx τ) (error : Option Error) : RunCtx τ :=
  match error with
  | none => c
  | some e => { c with run := { c.run with status := .failed, error := some e } }

theorem worked_closed (c : RunCtx τ) (error : Option Error) : Worked c (closed c error) := by
  cases error <;> exact ⟨rfl, rfl, rfl, rfl, rfl, prefix_rfl⟩

def flushedCall (c : RunCtx τ) (error : Option Error) : RunCtx τ :=
  { closed c error with issued := (closed c error).issued ++ [.flush] }

variable {c d : RunCtx τ} {error : Option Error} {r : Result Unit}

theorem finish_eq (h : finish env graph c error = (d, some r)) :
    d = { writeCheckpoint env graph false (flushedCall c error) with
      run := { (writeCheckpoint env graph false (flushedCall c error)).run with
        state := clearTemp (writeCheckpoint env graph false (flushedCall c error)).run.state } } := by
  cases error <;> cases h <;> rfl

theorem jobsOf_flushedCall (c : RunCtx τ) (error : Option Error) :
    jobsOf (flushedCall c error).issued = jobsOf c.issued := by
  change jobsOf ((closed c error).issued ++ [.flush]) = _
  rw [jobsOf_append, (worked_closed c error).issued]
  exact append_nil _

theorem settle_flushed (h : InOrder t c) :
    settle false (flushedCall c error).issued = some false := by
  obtain ⟨dirty, hset, -⟩ := h.settled
  change settle false ((closed c error).issued ++ [.flush]) = _
  rw [settle_append, (worked_closed c error).issued, hset]
  rfl

theorem finish_inOrder (h : InOrder t c) (hfin : finish env graph c error = (d, some r)) :
    settle false d.issued = some false ∧ ∀ job ∈ jobsOf d.issued, job.threadId = t := by
  rw [finish_eq hfin]
  have hthread := (worked_closed c error).threadId.trans h.threadId
  constructor
  · rw [writeCheckpoint_issued, settle_append, settle_flushed h]
    exact settle_direct _
  · rw [writeCheckpoint_jobs, jobsOf_flushedCall]
    exact forall_mem_append.2 ⟨h.jobs, fun job hjob => (checkpointJobs_thread graph _ job hjob).trans hthread⟩

theorem Logs.flushed (h : Logs n c) (error : Option Error) : Logs n (flushedCall c error) := by
  have hc := h.worked (worked_closed c error)
  refine ⟨hc.low, hc.high, ?_⟩
  rw [jobsOf_flushedCall, ← (worked_closed c error).issued]
  exact hc.log

theorem finish_logs (h : Logs n c) (hfin : finish env graph c error = (d, some r)) :
    (jobsOf d.issued).flatMap Job.logged = d.run.events.drop n := by
  rw [finish_eq hfin]
  exact (h.flushed error).written false

theorem Rising.flushed (h : Rising start c) (error : Option Error) : Rising start (flushedCall c error) :=
  h.congr (jobsOf_flushedCall c error) (worked_closed c error).step

theorem finish_rising (h : Rising start c) (hfin : finish env graph c error = (d, some r)) :
    Rising start d ∧ ∃ front last, putsOf (jobsOf d.issued) = front ++ [last] ∧ Describes last.blob d.run := by
  have hw : Rising start (writeCheckpoint env graph false (flushedCall c error)) := (h.flushed error).write false
  rw [finish_eq hfin]
  refine ⟨{ hw with }, putsOf (jobsOf (flushedCall c error).issued),
    checkpointPut graph (noted env (flushedCall c error)), ?_, ?_⟩
  · rw [writeCheckpoint_jobs, putsOf_append, checkpointJobs_puts]
  · refine ⟨_, _, _, rfl, rfl, rfl, rfl, ?_, SameHistories.refl _⟩
    exact (dropTemp_clearTemp _).symm

end Finish

end AgentCpp
