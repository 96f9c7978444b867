import AgentCpp.Graph.AsyncWriter
import AgentCpp.Graph.Checkpointer
import AgentCpp.Graph.Executor

/-!
# Runs of a graph (`graph_executor.cpp`, `graph_checkpoint.cpp`)

The top-level loop with its checkpoints, the tracked fan-out whose branches save their
progress, and the entry points `run_graph`, `resume_graph` and `fork_graph_run`.
-/

namespace AgentCpp
open Lib Lib.Json

/-- `std::set<std::string>`. -/
abbrev ScopedIndex := Table Unit

def scopedIndexKey : Bytes := lit "graph_state_keys"

def scopedValuePrefix : Bytes := lit "graph_state:"

def scopedValueKey (key : Bytes) : Bytes := scopedValuePrefix ++ key

/- The loop over the list, until a step fails. -/
def forEach {σ α : Type} (step : σ → α → σ × Result Unit) : List α → σ → σ × Result Unit
  | [], s => (s, .ok ())
  | a :: as, s =>
    match step s a with
    | (s, .error e) => (s, .error e)
    | (s, .ok ()) => forEach step as s

theorem forEach_ok {σ α : Type} {step : σ → α → σ × Result Unit} {as : List α}
    (h : ∀ s, ∀ a ∈ as, (step s a).2 = .ok ()) (s : σ) : (forEach step as s).2 = .ok () := by
  induction as generalizing s with
  | nil => rfl
  | cons a as ih =>
    have ha := h s a List.mem_cons_self
    unfold forEach
    split
    · next heq =>
      rw [heq] at ha
      cases ha
    · exact ih (fun s b hb => h s b (List.mem_cons_of_mem a hb)) _

theorem forEach_keeps {σ α : Type} {step : σ → α → σ × Result Unit} {I : σ → Prop}
    (hstep : ∀ s a, I s → I (step s a).1) (as : List α) {s : σ} (hs : I s) : I (forEach step as s).1 := by
  induction as generalizing s with
  | nil => exact hs
  | cons a as ih =>
    have hone := hstep s a hs
    unfold forEach
    split
    · next heq => rwa [heq] at hone
    · next heq =>
      rw [heq] at hone
      exact ih hone

def persistScopedValue (storePut : Bytes → Bool → Option Error) (store : Store) (index : ScopedIndex) (key value : Bytes) :
    Store × ScopedIndex × Result Unit :=
  match storePut key false with
  | some e => (store, index, .error e)
  | none =>
    let store := storeMemory store (scopedValueKey key) value
    if index.contains key then (store, index, .ok ())
    else
      let index := index.insert key ()
      match storePut key true with
      | some e => (store, index, .error e)
      | none => (storeMemory store scopedIndexKey (encodeStrings index.keys), index, .ok ())

/- `retrieve_memory` on a store whose reads may fail. -/
def readMemory (storeGet : Bytes → Option Error) (store : Store) (key : Bytes) : Result Bytes :=
  match storeGet key with
  | some e => .error e
  | none => retrieveMemory store key

def loadScopedKey (storeGet : Bytes → Option Error) (store : Store) (values : Table Bytes) (key : Bytes) :
    Table Bytes × Result Unit :=
  match readMemory storeGet store (scopedValueKey key) with
  | .ok value => (values.insert key value, .ok ())
  | .error e => (values, if e.code = .keyNotFound then .ok () else .error e)

def readIndex (storeGet : Bytes → Option Error) (parser : JsonParser) (store : Store) : Result ScopedIndex :=
  match readMemory storeGet store scopedIndexKey with
  | .error e => if e.code = .keyNotFound then .ok ∅ else .error e
  | .ok listed =>
    match (parser.parse listed).bind getArray with
    | none => fail .parseError (lit "graph state: stored scoped key index is not a JSON array.")
    | some items => .ok ((items.filterMap getString).foldl (fun (index : ScopedIndex) key =>
        index.insert key ()) ∅)

/- The values read before a failure stay. -/
def loadScopedState (storeGet : Bytes → Option Error) (parser : JsonParser) (store : Store) (values : Table Bytes) :
    Table Bytes × ScopedIndex × Result Unit :=
  match readIndex storeGet parser store with
  | .error e => (values, ∅, .error e)
  | .ok index =>
    let (values, result) := forEach (loadScopedKey storeGet store) index.keys values
    (values, index, result)

/- What outlives a call: the checkpointer and the session's store. -/
structure World where
  checkpoints : MemCheckpointer := {}
  store : Store := ∅

/- The world right after a checkpoint put, which is what a crash leaves behind, and the node
executions completed by then. -/
structure Snapshot where
  world : World
  completed : List Visit

/- What a call does to its `Sink`: it queues a write on the Async writer, makes it itself,
or flushes the writer. -/
inductive SinkOp where
  | queue (job : Job)
  | direct (job : Job)
  | flush

/- `durable` has one entry for each put of the call, `issued` all it did to its sink; `branchVisits`
are the nodes the branches of a fan-out had completed when they last saved. -/
structure RunCtx (τ : Type) where
  run : GraphRun
  persistedEvents : ℕ
  forkedFrom : Bytes := []
  progress : Option ParallelProgress := none
  branchResume : Table PendingResume := ∅
  index : ScopedIndex := ∅
  world : World
  durable : List Snapshot := []
  issued : List SinkOp := []
  trace : List τ := []
  visits : List Visit := []
  branchVisits : List (List Visit) := []

def openCall {τ : Type} (world : World) (run : GraphRun) : RunCtx τ :=
  { run, world, persistedEvents := run.events.length }

def checkpointMetadata {τ : Type} (graph : Graph) (c : RunCtx τ) : Bytes :=
  objText ([stringField (lit "graph") graph.name,
    rawField (lit "step") (decimalInt c.run.step.toNat),
    stringField (lit "next") c.run.nextNode,
    stringField (lit "status") (statusName c.run.status)] ++
    if c.forkedFrom = [] then [] else [stringField (lit "forked_from") c.forkedFrom])

section Drive

variable {τ : Type} (env : Env τ) (graph : Graph)

def logRun (c : RunCtx τ) (type : GraphEventType) (node key payload : Bytes) : RunCtx τ :=
  { c with run := { c.run with
      events := logEvent c.run.events ⟨type, node, key, payload, env.now [] c.run.events.length⟩ } }

def completedVisits (c : RunCtx τ) : List Visit :=
  if c.branchVisits = [] then c.visits else c.visits ++ [.mk c.run.nextNode c.branchVisits]

/- The writes of one checkpoint: the put, and the events logged since the last one. -/
def checkpointJobs (c : RunCtx τ) : List Job :=
  let fresh := c.run.events.drop c.persistedEvents
  let put : Job := {
    threadId := c.run.threadId
    step := c.run.step
    blob := encodeCheckpoint c.run graph.name c.progress
    metadata := checkpointMetadata graph c }
  if fresh = [] then [put] else [put, { threadId := c.run.threadId, events := fresh, isEvents := true }]

/- The Async writer keeps the order of the puts and is flushed before a call returns. -/
def writeCheckpoint (throughWriter : Bool) (c : RunCtx τ) : RunCtx τ :=
  let c := logRun env c .checkpoint c.run.nextNode (checkpointKey c.run.threadId (stepStr c.run.step)) []
  let json := encodeCheckpoint c.run graph.name c.progress
  let fresh := c.run.events.drop c.persistedEvents
  let put := memPut c.world.checkpoints (env.putTime c.run.events.length) c.run.threadId c.run.step
    json (checkpointMetadata graph c)
  let checkpoints := if fresh = [] then put else memAppendEvents put c.run.threadId fresh
  let world := { c.world with checkpoints }
  { c with
    persistedEvents := c.run.events.length, world
    durable := c.durable ++ [⟨world, completedVisits c⟩]
    issued := c.issued ++ (checkpointJobs graph c).map (if throughWriter then .queue else .direct) }

def chainOf (c : RunCtx τ) : Chain τ :=
  { state := c.run.state, events := c.run.events, trace := c.trace, visits := c.visits }

def withChain (c : RunCtx τ) (chain : Chain τ) : RunCtx τ :=
  { c with
    run := { c.run with state := chain.state, events := chain.events }
    trace := chain.trace
    visits := chain.visits }

def persistScoped (c : RunCtx τ) (key value : Bytes) : RunCtx τ × Result Unit :=
  if isScopedKey key then
    let (store, index, result) :=
      persistScopedValue (env.storePut c.run.events.length) c.world.store c.index key value
    ({ c with world := { c.world with store }, index }, result)
  else (c, .ok ())

def drainKey (pos : Pos) (node : Bytes) (c : RunCtx τ) (key : Bytes) : RunCtx τ × Result Unit :=
  let value := getState c.run.state key
  persistScoped env (withChain c (emit env pos (chainOf c) .stateWrite node key value)) key value

/- `drain_writes` on the top-level chain. -/
def drainTop (pos : Pos) (node : Bytes) (c : RunCtx τ) : RunCtx τ × Result Unit :=
  forEach (drainKey env pos node) c.run.state.written
    { c with run := { c.run with state := { c.run.state with written := [] } } }

variable {c d : RunCtx τ} (fuel : ℕ) (pos : Pos) (left : ℕ) (resume : Option PendingResume)

theorem persistScoped_frame (c : RunCtx τ) (key value : Bytes) : ∃ store index,
    (persistScoped env c key value).1 = { c with world := { c.world with store }, index } := by
  unfold persistScoped
  split
  · exact ⟨_, _, rfl⟩
  · exact ⟨_, _, rfl⟩

structure Drained (c d : RunCtx τ) : Prop where
  state : d.run.state = { c.run.state with written := [] }
  visits : d.visits = c.visits
  progress : d.progress = c.progress
  nextNode : d.run.nextNode = c.run.nextNode

theorem drainTop_drained (node : Bytes) (c : RunCtx τ) : Drained c (drainTop env pos node c).1 := by
  refine forEach_keeps (I := Drained c) (fun d key hd => ?_) _ ⟨rfl, rfl, rfl, rfl⟩
  obtain ⟨store, index, hpersist⟩ := persistScoped_frame env
    (withChain d (emit env pos (chainOf d) .stateWrite node key (getState d.run.state key))) key
    (getState d.run.state key)
  unfold drainKey
  simp only [hpersist]
  exact { hd with }

/- The non-temp values a branch added or changed. -/
def changedValues (parent values : Table Bytes) : Table Bytes :=
  values.filter fun key value => !isTempKey key && decide (parent[key]? ≠ some value)

def erasedKeys (parent values : Table Bytes) : List Bytes :=
  parent.keys.filter fun key => !isTempKey key && values[key]?.isNone

/- The update of a branch's record in `save_branch`; a failure keeps the values of
the last completed node. -/
def recordSave (parent : Table Bytes) (s : Save) (record : BranchProgress) : BranchProgress :=
  if s.status = .failed then
    { record with status := s.status, next := s.next, error := s.error }
  else
    { record with
      status := s.status
      next := s.next
      values := changedValues parent s.state.values
      erased := erasedKeys parent s.state.values
      writes := s.writes
      histories := s.state.histories
      error := []
      interruptNode := s.interruptNode
      interruptReason := s.interruptReason
      pendingToolCalls := s.pending }

def saveBranch (c : RunCtx τ) (s : ℕ × Save) : RunCtx τ :=
  let record := recordSave c.run.state.values s.2
  let progress := c.progress.map fun p => { p with branches := p.branches.modify s.1 record }
  let c : RunCtx τ := { c with progress, branchVisits := c.branchVisits.set s.1 s.2.visits }
  if c.run.durability = .exit then c else writeCheckpoint env graph (c.run.durability = .async) c

/- The saves of all branches in the order they take the lock: `order` names the branch whose turn it
is. -/
def interleave : List ℕ → List (List Save) → List (ℕ × Save)
  | [], streams => (streams.mapIdx fun i saves => saves.map fun s => (i, s)).flatten
  | i :: order, streams =>
    match streams[i]? with
    | some (s :: rest) => (i, s) :: interleave order (streams.set i rest)
    | _ => interleave order streams

def freshProgress (node : GraphNode) : ParallelProgress :=
  { node := node.name, branches := node.branches.map fun entry => { entry, next := entry } }

def openProgress (node : GraphNode) (progress : Option ParallelProgress) : ParallelProgress :=
  match progress with
  | none => freshProgress node
  | some p =>
    if p.node = node.name ∧ p.branches.map BranchProgress.entry = node.branches then p
    else freshProgress node

def humanInputKey : Bytes := lit "temp:human_input"

def restoredValues (values : Table Bytes) (record : BranchProgress) : Table Bytes :=
  record.erased.foldl (fun values key => values.erase key) (Table.assign values record.values)

def answerBranch (pos : Pos) (record : BranchProgress) (input : PendingResume) (b : Branch τ) :
    Branch τ :=
  let node := record.interruptNode
  let chain :=
    if input.humanInput = [] then b.chain
    else
      let values := b.chain.state.values.insert humanInputKey input.humanInput
      emit env pos { b.chain with state := { b.chain.state with values } } .stateWrite node
        humanInputKey input.humanInput
  { b with
    chain := emit env pos chain .resume node record.entry input.humanInput
    resume := if record.pendingToolCalls = [] then none
      else some { input with calls := record.pendingToolCalls }
    run := true }

def openBranch (pos : Pos) (values : Table Bytes) (answers : Table PendingResume)
    (record : BranchProgress) : Branch τ :=
  let state := { values := restoredValues values record, histories := record.histories }
  let b : Branch τ := { chain := { state, writes := record.writes }
                        next := if record.next = [] then record.entry else record.next }
  match record.status with
  | .done => { b with done := true }
  | .interrupted =>
    match answers[record.entry]? with
    | none => { b with
        interrupted := true
        interruptNode := record.interruptNode
        interruptReason := record.interruptReason
        pending := record.pendingToolCalls }
    | some input => answerBranch env pos record input b
  | _ => { b with run := true }

def runOpened (runNode : NodeRunner τ) (pos : Pos) (join : Bytes) (b : Branch τ) : Branch τ :=
  if b.run then runBranch env graph runNode pos join graph.maxSteps.toNat b.resume b.next b else b

def trackedBranches (runNode : NodeRunner τ) (pos : Pos) (node : GraphNode)
    (progress : ParallelProgress) (c : RunCtx τ) : List (Branch τ) :=
  progress.branches.mapIdx fun i record =>
    runOpened env graph runNode (i :: pos) node.name
      (openBranch env (i :: pos) c.run.state.values c.branchResume record)

def topCtx (c : RunCtx τ) : ChainCtx := { threadId := c.run.threadId }

def mergeKey (c : RunCtx τ) (entry : Bytes × Bytes) : RunCtx τ × Result Unit :=
  let state := { c.run.state with values := c.run.state.values.insert entry.1 entry.2 }
  persistScoped env { c with run := { c.run with state } } entry.1 entry.2

/- The join on the top-level chain: the merged keys are persisted one by one, and the fan-out is no longer in
progress. -/
def joinTop (node : GraphNode) (branches : List (Branch τ)) (c : RunCtx τ) :
    RunCtx τ × Outcome NodeResult :=
  match closeFanOut node branches (chainOf c) with
  | (chain, none) => (withChain c chain, none)
  | (chain, some (.error e)) => (withChain c chain, some (.error e))
  | (chain, some (.ok (result, merged))) =>
    if result.interrupted then (withChain c chain, some (.ok result))
    else
      match forEach (mergeKey env) merged (withChain c { chain with state := c.run.state }) with
      | (c, .error e) => (c, some (.error e))
      | (c, .ok ()) => ({ withChain c chain with progress := none }, some (.ok result))

def saveBranches (pos : Pos) (progress : ParallelProgress) (branches : List (Branch τ)) (c : RunCtx τ) :
    RunCtx τ :=
  let saves := interleave (env.order pos) (branches.map Branch.saves)
  let c := saves.foldl (saveBranch env graph)
    { c with progress := some progress, branchVisits := branches.map fun _ => [] }
  { c with branchVisits := [] }

/- `run_parallel_node` on the top-level chain. -/
def runTopParallel (fuel : ℕ) (pos : Pos) (node : GraphNode) (c : RunCtx τ) :
    RunCtx τ × Outcome NodeResult :=
  let progress := openProgress node c.progress
  let branches := trackedBranches env graph
    (runNode env graph fuel ((topCtx c).branch c.run.state.histories)) pos node progress c
  joinTop env node branches (saveBranches env graph pos progress branches c)

theorem openBranch_fresh (values : Table Bytes) (answers : Table PendingResume) (entry : Bytes) :
    openBranch env pos values answers { entry, next := entry } = freshBranch values entry := by
  unfold openBranch freshBranch restoredValues
  simp only [ite_self]
  rfl

theorem trackedBranches_fresh (runNode : NodeRunner τ) (pos : Pos) (node : GraphNode) (c : RunCtx τ) :
    trackedBranches env graph runNode pos node (freshProgress node) c =
      nestedBranches env graph runNode pos node c.run.state.values := by
  unfold trackedBranches nestedBranches freshProgress
  refine List.ext_getElem (by simp) ?_
  intro i _ _
  simp only [List.getElem_mapIdx, List.getElem_map, openBranch_fresh]
  rfl

structure Saved (c d : RunCtx τ) : Prop where
  run : ∃ events, d.run = { c.run with events }
  visits : d.visits = c.visits

theorem saveBranch_saved (c : RunCtx τ) (s : ℕ × Save) : Saved c (saveBranch env graph c s) := by
  unfold saveBranch
  simp only
  split
  · exact ⟨⟨_, rfl⟩, rfl⟩
  · exact ⟨⟨_, rfl⟩, rfl⟩

theorem Saved.trans {e : RunCtx τ} (h : Saved c d) (h' : Saved d e) : Saved c e := by
  obtain ⟨events, hrun⟩ := h.run
  obtain ⟨events', hrun'⟩ := h'.run
  refine ⟨⟨events', ?_⟩, h'.visits.trans h.visits⟩
  rw [hrun', hrun]

theorem saveBranches_saved (progress : ParallelProgress) (branches : List (Branch τ))
    (c : RunCtx τ) : Saved c (saveBranches env graph pos progress branches c) := by
  have hstart : Saved c { c with progress := some progress, branchVisits := branches.map fun _ => [] } :=
    ⟨⟨_, rfl⟩, rfl⟩
  have hfold := List.foldlRecOn (motive := Saved c)
    (interleave (env.order pos) (branches.map Branch.saves)) (saveBranch env graph) hstart fun d hd s _ =>
      hd.trans (saveBranch_saved env graph d s)
  exact ⟨hfold.run, hfold.visits⟩

def runTopNode (fuel : ℕ) (pos : Pos) (node : GraphNode) (resume : Option PendingResume)
    (c : RunCtx τ) : RunCtx τ × Outcome NodeResult :=
  let c := withChain c (emit env pos (chainOf c) .nodeStart node.name [] [])
  let (c, res) :=
    if node.kind = .parallel then runTopParallel env graph fuel pos node c
    else
      let (chain, res) := runLeaf env (topCtx c) pos node resume (chainOf c)
      (withChain c chain, res)
  (withChain c (endNode env pos node (chainOf c) res), res)

def finish (c : RunCtx τ) (error : Option Error) : RunCtx τ × Outcome Unit :=
  let c := match error with
    | none => c
    | some e => { c with run := { c.run with status := .failed, error := some e } }
  let c := writeCheckpoint env graph false { c with issued := c.issued ++ [.flush] }
  ({ c with run := { c.run with state := clearTemp c.run.state } },
    some (match error with
      | none => .ok ()
      | some e => .error e))

def completed (c : RunCtx τ) : RunCtx τ :=
  { c with run := { c.run with status := .completed, nextNode := [] } }

def interruptRun (node : GraphNode) (result : NodeResult) (c : RunCtx τ) : RunCtx τ :=
  { c with run := { c.run with
      status := .interrupted
      interruptNode := node.name
      interruptReason := result.reason
      pendingToolCalls := result.pending
      interrupts :=
        if result.interrupts = [] then
          c.run.interrupts ++ [⟨[], node.name, result.reason, result.pending⟩]
        else result.interrupts } }

def dropWritten (c : RunCtx τ) : RunCtx τ :=
  { c with run := { c.run with state := { c.run.state with written := [] } } }

def runSteps : Error :=
  ⟨.invalidConfig, lit "graph '" ++ graph.name ++ lit "' exceeded max_steps (" ++
    decimalInt graph.maxSteps ++ lit ")"⟩

/- A node has completed and `next` follows it; the last checkpoint is left to
`finish`. -/
def advance (next : Bytes) (c : RunCtx τ) : RunCtx τ :=
  let c := { c with run := { c.run with nextNode := next, step := c.run.step + 1 } }
  if next = graphEnd ∨ c.run.durability = .exit then c
  else writeCheckpoint env graph (c.run.durability = .async) c

structure Advanced (next : Bytes) (c d : RunCtx τ) : Prop where
  nextNode : d.run.nextNode = next
  state : d.run.state = c.run.state
  visits : d.visits = c.visits
  progress : d.progress = c.progress

theorem advance_advanced (next : Bytes) (c : RunCtx τ) : Advanced next c (advance env graph next c) := by
  unfold advance
  simp only
  split
  · exact ⟨rfl, rfl, rfl, rfl⟩
  · exact ⟨rfl, rfl, rfl, rfl⟩

def endCall (r : RunCtx τ × Outcome Unit) : RunCtx τ × Option (Outcome Unit) := (r.1, some r.2)

/- One turn of the `while` loop of `drive`: the result of the call, if it ends here. -/
def stepTop (fuel : ℕ) (pos : Pos) (resume : Option PendingResume) (c : RunCtx τ) :
    RunCtx τ × Option (Outcome Unit) :=
  match findNode graph c.run.nextNode with
  | none => endCall (finish env graph c (some (unknownNode c.run.nextNode)))
  | some node =>
    let answer := if node.kind = .agent then resume else none
    match runTopNode env graph fuel pos node answer c with
    | (c, none) => (c, some none)
    | (c, some (.error e)) => endCall (finish env graph (dropWritten c) (some e))
    | (c, some (.ok result)) =>
      match drainTop env pos node.name c with
      | (c, .error e) => endCall (finish env graph c (some e))
      | (c, .ok ()) =>
        if result.interrupted then endCall (finish env graph (interruptRun node result c) none)
        else match resolveNext graph pos c.run.state node result with
          | .error e => endCall (finish env graph c (some e))
          | .ok next => (advance env graph next c, none)

def driveLoop (fuel : ℕ) : ℕ → Option PendingResume → RunCtx τ → RunCtx τ × Outcome Unit
  | left, resume, c =>
    if c.run.nextNode = graphEnd then finish env graph (completed c) none
    else match left with
      | 0 => finish env graph c (some (runSteps graph))
      | left + 1 =>
        match stepTop env graph fuel [left] resume c with
        | (c, some outcome) => (c, outcome)
        | (c, none) => driveLoop fuel left none c

theorem driveLoop_atEnd (c : RunCtx τ)
    (h : c.run.nextNode = graphEnd) :
    driveLoop env graph fuel left resume c = finish env graph (completed c) none := by
  unfold driveLoop
  rw [if_pos h]

theorem driveLoop_zero (c : RunCtx τ) (h : c.run.nextNode ≠ graphEnd) :
    driveLoop env graph fuel 0 resume c = finish env graph c (some (runSteps graph)) := by
  unfold driveLoop
  rw [if_neg h]

theorem driveLoop_stop (c d : RunCtx τ)
    (outcome : Outcome Unit) (h : c.run.nextNode ≠ graphEnd)
    (hstep : stepTop env graph fuel [left] resume c = (d, some outcome)) :
    driveLoop env graph fuel (left + 1) resume c = (d, outcome) := by
  rw [driveLoop, if_neg h]
  simp only [hstep]

theorem driveLoop_step (c d : RunCtx τ)
    (h : c.run.nextNode ≠ graphEnd) (hstep : stepTop env graph fuel [left] resume c = (d, none)) :
    driveLoop env graph fuel (left + 1) resume c = driveLoop env graph fuel left none d := by
  rw [driveLoop, if_neg h]
  simp only [hstep]

def drive (fuel : ℕ) (resume : Option PendingResume) (c : RunCtx τ) : RunCtx τ × Outcome Unit :=
  match drainTop env [] [] c with
  | (c, .error e) => finish env graph c (some e)
  | (c, .ok ()) => driveLoop env graph fuel graph.maxSteps.toNat resume c

def resetRunStatus (run : GraphRun) : GraphRun :=
  { run with
    status := .running
    error := none
    interruptNode := []
    interruptReason := []
    pendingToolCalls := []
    interrupts := [] }

def abandonedCall : Bytes :=
  lit "Error: tool call not executed: the run was restarted with run_graph before the call was approved (use resume_graph to answer pending tool calls)"

def abandonedMessage (call : ToolCall) : Message :=
  { role := lit "tool", content := abandonedCall, toolCallId := call.id }

/- One call of the assistant message before index `i`: answered unless a message from `i` on carries
its id. -/
def answerCall (i : ℕ) (acc : List Message × List ToolCall) (call : ToolCall) :
    List Message × List ToolCall :=
  if (acc.1.drop i).any fun m => m.toolCallId = call.id then acc
  else (acc.1 ++ [abandonedMessage call], acc.2 ++ [call])

/- The repaired history and the calls that were answered. -/
def answerAbandoned (history : List Message) : List Message × List ToolCall :=
  let before := history.rdropWhile fun m => m.role = lit "tool"
  match before.getLast? with
  | none => (history, [])
  | some m =>
    if m.role = lit "assistant" then m.toolCalls.foldl (answerCall before.length) (history, [])
    else (history, [])

def answerAbandonedCalls (c : RunCtx τ) : RunCtx τ :=
  c.run.state.histories.toList.foldl (fun c (name, memory) =>
    let (history, answered) := answerAbandoned memory.history
    let histories := c.run.state.histories.insert name { memory with history }
    answered.foldl (fun c call => logRun env c .toolResult name call.name abandonedCall)
      { c with run := { c.run with state := { c.run.state with histories } } }) c

def defaultThread (threadId : Bytes) : Bytes := if threadId = [] then lit "default" else threadId

def dropInternal (values : Table Bytes) : Table Bytes := values.filter fun key _ => !isInternalKey key

/- The caller's seed over what the thread and the store hold. -/
def applySeed (seed state : GraphState) : GraphState :=
  { state with
    values := Table.assign state.values seed.values
    histories := Table.assign state.histories seed.histories
    written := seed.written }

def withState (c : RunCtx τ) (state : GraphState) : RunCtx τ := { c with run := { c.run with state } }

def withRun (c : RunCtx τ) (run : GraphRun) : RunCtx τ := { c with run }

variable (parser : JsonParser)

/- Per-thread values and histories of the thread's latest checkpoint. -/
def continueThread (c : RunCtx τ) : Result (RunCtx τ) :=
  match memGetLatest c.world.checkpoints c.run.threadId with
  | .error e => if e.code = .keyNotFound then .ok c else .error e
  | .ok blob => do
    let (previous, _) ← decodeCheckpoint parser blob { threadId := c.run.threadId } false
    let state := { c.run.state with
      values := dropInternal previous.state.values
      histories := previous.state.histories }
    return answerAbandonedCalls env (withRun c { c.run with state, step := previous.step })

def loadScoped (c : RunCtx τ) : RunCtx τ × Result Unit :=
  let (values, index, result) := loadScopedState env.storeGet parser c.world.store c.run.state.values
  ({ withState c { c.run.state with values } with index }, result)

/- `run_graph` up to the loop: the thread's values and histories, then the scoped
values, then the seed. -/
def prepareRun (world : World) (run : GraphRun) : RunCtx τ × Result Unit :=
  let c := openCall world { run with threadId := defaultThread run.threadId, state := {}, step := 0 }
  match continueThread env parser c with
  | .error e => (c, .error e)
  | .ok c =>
    match loadScoped env parser c with
    | (c, .error e) => (c, .error e)
    | (c, .ok ()) =>
      let state := applySeed run.state c.run.state
      (withRun c (resetRunStatus { c.run with state, nextNode := graph.entry }), .ok ())

def runGraph (fuel : ℕ) (world : World) (run : GraphRun) : RunCtx τ × Outcome Unit :=
  match validate graph with
  | .error e => (openCall world run, some (.error e))
  | .ok () =>
    match prepareRun env graph parser world run with
    | (c, .error e) => (c, some (.error e))
    | (c, .ok ()) => drive env graph fuel none c

/- What a call keeps while it prepares its run. -/
structure Fresh (c : RunCtx τ) : Prop where
  progress : c.progress = none
  visits : c.visits = []
  requested : c.run.state.interruptRequested = false
  reason : c.run.state.interruptReason = []

theorem answerAbandonedCalls_fresh (h : Fresh c) : Fresh (answerAbandonedCalls env c) := by
  refine List.foldlRecOn (motive := Fresh) _ _ h ?_
  intro d hd e _
  refine List.foldlRecOn (motive := Fresh) _ _ ?_ ?_
  · exact { hd with }
  · intro d hd call _
    exact { hd with }

theorem continueThread_fresh (hc : Fresh c) (h : continueThread env parser c = .ok d) : Fresh d := by
  unfold continueThread at h
  split at h
  · split at h
    · cases h
      exact hc
    · cases h
  · obtain ⟨r, -, hr⟩ := bind_eq_ok.1 h
    cases hr
    exact answerAbandonedCalls_fresh env { hc with }

theorem prepareRun_fresh (world : World) (run : GraphRun) (c : RunCtx τ)
    (h : prepareRun env graph parser world run = (c, .ok ())) : Fresh c ∧ c.run.nextNode = graph.entry := by
  unfold prepareRun at h
  simp only at h
  split at h
  · cases h
  · next d hcontinue =>
    have hd := continueThread_fresh env parser ⟨rfl, rfl, rfl, rfl⟩ hcontinue
    have he : Fresh (loadScoped env parser d).1 := { hd with }
    split at h
    · cases h
    · next e hload =>
      rw [hload] at he
      cases h
      exact ⟨{ he with }, rfl⟩

/- `isspace` and `tolower` of the "C" locale. -/
def isSpace (b : UInt8) : Bool := b = 32 || (9 ≤ b && b ≤ 13)

def toLower (b : UInt8) : UInt8 := if 65 ≤ b ∧ b ≤ 90 then b + 32 else b

def isApproval (text : Bytes) : Bool :=
  let lower := (text.filter fun b => !isSpace b).map toLower
  lower ∈ [lit "approve", lit "approved", lit "yes", lit "y", lit "allow", lit "ok"]

structure GraphBranchInput where
  branch : Bytes := []
  humanInput : Bytes := []
  decision : PermissionDecision := .ask

structure ResumeRequest where
  perBranch : Bool := false
  decision : Option PermissionDecision := none
  humanInput : Bytes := []
  inputs : List GraphBranchInput := []

def approves (decision : Option PermissionDecision) (humanInput : Bytes) : Bool :=
  match decision with
  | some .allow => true
  | some .deny => false
  | some .ask => isApproval humanInput
  | none => isApproval humanInput

def uniformAnswer (req : ResumeRequest) : PendingResume :=
  { approved := approves req.decision req.humanInput, humanInput := req.humanInput }

def inputAnswer (input : GraphBranchInput) : PendingResume :=
  { approved := approves (some input.decision) input.humanInput, humanInput := input.humanInput }

def noPausedBranch {α : Type} (branch threadId : Bytes) : Result α :=
  fail .invalidConfig (lit "resume_graph: no paused branch '" ++ branch ++ lit "' in thread '" ++
    threadId ++ lit "'")

/- The answers for the paused branches of an unfinished fan-out. With a checkpoint that is a failure
a uniform answer leaves them paused. -/
def branchAnswers (req : ResumeRequest) (interrupted : Bool) (threadId : Bytes)
    (progress : ParallelProgress) : Result (Table PendingResume) :=
  let paused := progress.branches.filter fun b => b.status = .interrupted
  let uniform : Table PendingResume :=
    if req.perBranch ∨ ¬interrupted then ∅
    else paused.foldl (fun answers b => answers.insert b.entry (uniformAnswer req)) ∅
  req.inputs.foldlM (fun answers input =>
    if paused.any fun b => b.entry = input.branch then
      .ok (answers.insert input.branch (inputAnswer input))
    else noPausedBranch input.branch threadId) uniform

/- The answer for an interrupt outside a fan-out, if there is one. -/
def topAnswer (req : ResumeRequest) (interrupted : Bool) (threadId : Bytes) :
    Result (Option PendingResume) :=
  if req.perBranch then
    req.inputs.foldlM (fun _ input =>
      if input.branch ≠ [] ∨ ¬interrupted then noPausedBranch input.branch threadId
      else .ok (some (inputAnswer input))) none
  else .ok (some (uniformAnswer req))

/- Which paused nodes get which answer. -/
def resumeAnswers (req : ResumeRequest) (run : GraphRun) (progress : Option ParallelProgress) :
    Result (Table PendingResume × Option PendingResume) :=
  let interrupted := run.status = .interrupted
  match progress with
  | some p => do
    let answers ← branchAnswers req interrupted run.threadId p
    return (answers, none)
  | none => do
    let top ← topAnswer req interrupted run.threadId
    return (∅, top.map fun t => { t with calls := run.pendingToolCalls })

/- `resume_impl` once the scoped values are loaded. -/
def resumeRun (fuel : ℕ) (top : PendingResume) (c : RunCtx τ) : RunCtx τ × Outcome Unit :=
  let c := logRun env (withRun c (resetRunStatus c.run)) .resume c.run.nextNode [] top.humanInput
  let c := if top.humanInput = [] then c
    else withState c (setState c.run.state humanInputKey top.humanInput)
  drive env graph fuel (if top.calls = [] then none else some top) c

def resumeGraph (fuel : ℕ) (world : World) (threadId : Bytes) (run : GraphRun) (req : ResumeRequest) :
    RunCtx τ × Outcome Unit :=
  match validate graph with
  | .error e => (openCall world run, some (.error e))
  | .ok () =>
    let threadId := defaultThread threadId
    let c := openCall world { run with threadId }
    match memGetLatest world.checkpoints threadId with
    | .error e =>
      let e := if e.code = .keyNotFound then
        ⟨.keyNotFound, lit "resume_graph: no checkpoint for thread '" ++ threadId ++ lit "'"⟩ else e
      (c, some (.error e))
    | .ok blob =>
      let c := withRun c { c.run with state := {}, pendingToolCalls := [] }
      match decodeCheckpoint parser blob c.run true with
      | .error e => (c, some (.error e))
      | .ok (run, progress) =>
        let c := withRun c run
        if run.status = .completed then (c, some (.ok ()))
        else match resumeAnswers req run progress with
          | .error e => (c, some (.error e))
          | .ok (branchResume, top) =>
            -- the pending calls are moved into the answer
            let c := if top.isSome then withRun c { run with pendingToolCalls := [] } else c
            match loadScoped env parser { c with progress, branchResume } with
            | (c, .error e) => (c, some (.error e))
            | (c, .ok ()) => resumeRun env graph fuel (top.getD {}) c

def pausedNodes (run : GraphRun) (progress : Option ParallelProgress) : List GraphInterrupt :=
  match progress with
  | some p => (p.branches.filter fun b => b.status = .interrupted).map fun b =>
      ⟨b.entry, b.interruptNode, b.interruptReason, b.pendingToolCalls⟩
  | none => [⟨[], run.interruptNode, run.interruptReason, run.pendingToolCalls⟩]

/- `fork_graph_run` once the scoped values are loaded: the copy becomes the first
checkpoint of the new thread, at the same step. -/
def forkRun (fuel : ℕ) (source : Bytes) (step : UInt64) (seed : GraphState) (c : RunCtx τ) :
    RunCtx τ × Outcome Unit :=
  let c := withState c (applySeed seed c.run.state)
  let forkedFrom := source ++ lit ":" ++ stepStr step
  let c := logRun env { c with forkedFrom } .fork c.run.nextNode forkedFrom []
  let c : RunCtx τ := { writeCheckpoint env graph false c with forkedFrom := [] }
  if c.run.status = .completed ∨ c.run.status = .interrupted then
    let interrupts := if c.run.status = .interrupted then pausedNodes c.run c.progress
      else c.run.interrupts
    (withRun c { c.run with interrupts, state := clearTemp c.run.state }, some (.ok ()))
  else drive env graph fuel none (withRun c (resetRunStatus c.run))

def forkGraphRun (fuel : ℕ) (world : World) (threadId : Bytes) (step : UInt64) (target : Bytes)
    (run : GraphRun) : RunCtx τ × Outcome Unit :=
  match validate graph with
  | .error e => (openCall world run, some (.error e))
  | .ok () =>
    let source := defaultThread threadId
    let c := openCall world run
    if target = [] ∨ target = source then
      (c, some (fail .invalidConfig
        (lit "fork_graph_run: the new thread id must be non-empty and differ from '" ++ source ++
          lit "'")))
    else match memGetLatest world.checkpoints target with
      | .ok _ => (c, some (fail .invalidConfig (lit "fork_graph_run: thread '" ++ target ++
          lit "' already has checkpoints (delete_graph_thread it first)")))
      | .error missing =>
        if missing.code ≠ .keyNotFound then (c, some (.error missing))
        else match memGet world.checkpoints source step with
          | .error e => (c, some (.error ⟨e.code, lit "fork_graph_run: " ++ e.message⟩))
          | .ok blob =>
            let c := withRun c { run with state := {}, pendingToolCalls := [], threadId := target }
            match decodeCheckpoint parser blob c.run true with
            | .error e => (c, some (.error e))
            | .ok (restored, progress) =>
              match loadScoped env parser { withRun c { restored with step } with progress } with
              | (c, .error e) => (c, some (.error e))
              | (c, .ok ()) => forkRun env graph fuel source step run.state c

end Drive

end AgentCpp
