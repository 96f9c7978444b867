import AgentCpp.Graph.Event
import AgentCpp.Graph.Graph

/-!
# Chains of nodes (`graph_executor.cpp`)

A chain is what one `Exec` runs: the top-level chain of a call, or one branch of a fan-out. Only
nested fan-outs are not bounded by `max_steps`: they take fuel, and `none` stands for a call that
has not returned.
-/

namespace AgentCpp
open Lib

structure PendingResume where
  calls : List ToolCall := []
  approved : Bool := false
  humanInput : Bytes := []

structure NodeResult where
  interrupted : Bool := false
  reason : Bytes := []
  pending : List ToolCall := []
  forcedNext : Bytes := []
  interrupts : List GraphInterrupt := []
  deriving DecidableEq

/- The result of an Agent node that paused before its tool calls. -/
structure AgentPause where
  reason : Bytes
  pending : List ToolCall

def agentResult : Option AgentPause → NodeResult
  | none => {}
  | some pause => { interrupted := true, reason := pause.reason, pending := pause.pending }

inductive Visit where
  | mk (node : Bytes) (branches : List (List Visit))

/- The part of an `Exec` that changes. `trace` collects inferences and tool dispatches, `visits` the
node executions; the source keeps neither. -/
structure Chain (τ : Type) where
  state : GraphState := {}
  events : List GraphEvent := []
  writes : List Bytes := []
  trace : List τ := []
  visits : List Visit := []

/- The part of an `Exec` that does not: `parents` are the histories of the enclosing
chains, innermost first. -/
structure ChainCtx where
  threadId : Bytes
  depth : ℕ := 0
  parents : List (Table FlowMemory) := []

def ChainCtx.branch (ctx : ChainCtx) (histories : Table FlowMemory) : ChainCtx :=
  { ctx with depth := ctx.depth + 1, parents := histories :: ctx.parents }

/- What a call takes from the session: the clock, tools, Agent nodes, the order in which the branches of a fan-out
get to save their progress, and the errors of the store: of reading a key, and, with so many events logged, of writing
the value of a scoped key or (`true`) the index that lists it. -/
structure Env (τ : Type) where
  now : Pos → ℕ → Int64 := fun _ _ => 0
  putTime : ℕ → Int64 := fun _ => 0
  executeTool : Pos → Bytes → Bytes → List τ × Outcome Bytes
  runAgentNode : Pos → ChainCtx → GraphNode → Option PendingResume → Chain τ →
    Chain τ × Outcome (Option AgentPause)
  order : Pos → List ℕ := fun _ => []
  storeGet : Bytes → Option Error := fun _ => none
  storePut : ℕ → Bytes → Bool → Option Error := fun _ _ _ => none

/- An environment whose tools and Agent nodes return at once and leave no trace. -/
def quietEnv : Env Unit where
  executeTool := fun _ _ _ => ([], some (.ok []))
  runAgentNode := fun _ _ _ _ c => (c, some (.ok none))

abbrev NodeRunner (τ : Type) :=
  Pos → GraphNode → Option PendingResume → Chain τ → Chain τ × Outcome NodeResult

section Nodes

variable {τ : Type} (env : Env τ)

def emit (pos : Pos) (c : Chain τ) (type : GraphEventType) (node key payload : Bytes) : Chain τ :=
  { c with events := logEvent c.events ⟨type, node, key, payload, env.now pos c.events.length⟩ }

def functionResult (ctx : ChainCtx) (node : GraphNode) (state : GraphState) : Result Unit → Result NodeResult
  | .error e => .error e
  | .ok () =>
    if state.interruptRequested then
      if 1 < ctx.depth then
        fail .invalidConfig (lit "function node '" ++ node.name ++
          lit "': interrupts are not supported inside nested parallel branches")
      else .ok { interrupted := true, reason := state.interruptReason }
    else .ok {}

/- `validate` rejects a Function node without a function. -/
def runFunctionNode (ctx : ChainCtx) (pos : Pos) (node : GraphNode) (c : Chain τ) :
    Chain τ × Result NodeResult :=
  match node.function with
  | none => (c, .ok {})
  | some function =>
    let (state, res) := function pos { c.state with interruptRequested := false }
    ({ c with state := { state with interruptRequested := false, interruptReason := [] } },
      functionResult ctx node state res)

def toolArguments (pos : Pos) (node : GraphNode) (state : GraphState) : Result Bytes :=
  match node.toolArgs with
  | some build => build pos state
  | none =>
    if node.inputKey ≠ [] ∧ hasState state node.inputKey then .ok (getState state node.inputKey)
    else .ok (lit "\x7b\x7d")

def storeOutput (node : GraphNode) (state : GraphState) (text : Bytes) : GraphState :=
  if node.outputKey = [] then state else setState state node.outputKey text

def runToolNode (pos : Pos) (node : GraphNode) (c : Chain τ) : Chain τ × Outcome NodeResult :=
  match toolArguments pos node c.state with
  | .error e => (c, some (.error e))
  | .ok args =>
    let c := emit env pos c .toolCall node.name node.toolName args
    let (trace, res) := env.executeTool pos node.toolName args
    let c := { c with trace := c.trace ++ trace }
    match res with
    | none => (c, none)
    | some (.error e) =>
      (emit env pos c .toolResult node.name node.toolName (lit "Error: " ++ e.message),
        some (.error e))
    | some (.ok text) =>
      let c := emit env pos c .toolResult node.name node.toolName text
      ({ c with state := storeOutput node c.state text }, some (.ok {}))

/- `from_chars` into an `int` that holds 0. -/
def loopCount (name : Bytes) (state : GraphState) : ℤ :=
  (fromCharsInt (2 ^ 31) (getState state (loopKey name) (lit "0"))).getD 0

def loopExits (pos : Pos) (node : GraphNode) (state : GraphState) : Result Bool :=
  if node.maxIterations ≤ loopCount node.name state then .ok true
  else if 0 < loopCount node.name state then
    match node.until_ with
    | none => .ok false
    | some stop => stop pos state
  else .ok false

def runLoopNode (pos : Pos) (node : GraphNode) (c : Chain τ) : Chain τ × Result NodeResult :=
  match loopExits pos node c.state with
  | .error e => (c, .error e)
  | .ok true =>
    ({ c with state := { c.state with values := c.state.values.erase (loopKey node.name) } }, .ok {})
  | .ok false =>
    let count := decimalInt (loopCount node.name c.state + 1)
    ({ c with state := { c.state with values := c.state.values.insert (loopKey node.name) count } },
      .ok { forcedNext := node.loopBody })

def edgeTarget (graph : Graph) (pos : Pos) (state : GraphState) (name : Bytes) : Result Bytes :=
  match findEdge graph name with
  | none => .ok graphEnd
  | some edge =>
    match edge.router with
    | none => .ok edge.dst
    | some router => do
      let routed ← router pos state
      if routed ≠ graphEnd ∧ (findNode graph routed).isNone then
        fail .invalidConfig (lit "router of node '" ++ name ++ lit "' returned unknown node '" ++
          routed ++ lit "'")
      else .ok routed

/- A node that would end its chain goes to its `exit_to` instead. -/
def leaveTo (node : GraphNode) (next : Bytes) : Bytes :=
  if next = graphEnd ∧ node.exitTo ≠ [] then node.exitTo else next

def resolveNext (graph : Graph) (pos : Pos) (state : GraphState) (node : GraphNode)
    (result : NodeResult) : Result Bytes :=
  if result.forcedNext ≠ [] then .ok result.forcedNext
  else (edgeTarget graph pos state node.name).map (leaveTo node)

variable (graph : Graph) (pos : Pos)

theorem resolveNext_forced (state : GraphState) (node : GraphNode)
    (result : NodeResult) (h : result.forcedNext ≠ []) :
    resolveNext graph pos state node result = .ok result.forcedNext := if_pos h

theorem resolveNext_edge (state : GraphState) (node : GraphNode)
    (result : NodeResult) (h : result.forcedNext = []) : resolveNext graph pos state node result =
      (edgeTarget graph pos state node.name).map (leaveTo node) := if_neg (not_not_intro h)

theorem edgeTarget_none (state : GraphState) (name : Bytes)
    (h : findEdge graph name = none) : edgeTarget graph pos state name = .ok graphEnd := by
  unfold edgeTarget
  rw [h]

/- What `save_branch` reads of a branch when it is called, with the nodes it has run. -/
structure Save where
  status : BranchStatus
  next : Bytes
  state : GraphState
  writes : List Bytes
  interruptNode : Bytes
  interruptReason : Bytes
  pending : List ToolCall
  error : Bytes
  visits : List Visit

structure Branch (τ : Type) where
  chain : Chain τ
  result : Option Error := none
  next : Bytes
  run : Bool := false
  done : Bool := false
  interrupted : Bool := false
  interruptNode : Bytes := []
  interruptReason : Bytes := []
  pending : List ToolCall := []
  resume : Option PendingResume := none
  returned : Bool := true
  saves : List Save := []

/- The branch asks for its progress to be saved; only the fan-out of the top-level chain carries it
out (`saveBranch`). -/
def Branch.save (b : Branch τ) (status : BranchStatus) (next : Bytes) : Branch τ :=
  { b with saves := b.saves ++ [{
      status, next
      state := b.chain.state
      writes := b.chain.writes
      interruptNode := b.interruptNode
      interruptReason := b.interruptReason
      pending := b.pending
      error := (b.result.map Error.message).getD []
      visits := b.chain.visits }] }

def Branch.failed (b : Branch τ) (current : Bytes) (error : Error) : Branch τ :=
  let chain := { b.chain with state := { b.chain.state with written := [] } }
  Branch.save { b with chain, result := some error, next := current } .failed current

def drainBranch (pos : Pos) (node : Bytes) (c : Chain τ) : Chain τ :=
  c.state.written.foldl (fun c key =>
    { emit env pos c .stateWrite node key (getState c.state key) with writes := c.writes ++ [key] })
    { c with state := { c.state with written := [] } }

theorem drainBranch_eq (node : Bytes) (c : Chain τ) : ∃ events, drainBranch env pos node c = { c with
      state := { c.state with written := [] }, events, writes := c.writes ++ c.state.written } := by
  have hfold : ∀ (keys : List Bytes) (d : Chain τ), ∃ events, keys.foldl (fun c key =>
      { emit env pos c .stateWrite node key (getState c.state key) with writes := c.writes ++ [key] }) d =
        { d with events, writes := d.writes ++ keys } := by
    intro keys
    induction keys with
    | nil =>
      intro d
      exact ⟨d.events, by simp⟩
    | cons key keys ih =>
      intro d
      obtain ⟨events, h⟩ := ih { emit env pos d .stateWrite node key (getState d.state key) with
        writes := d.writes ++ [key] }
      rw [List.foldl_cons, h]
      simp [emit]
  exact hfold c.state.written { c with state := { c.state with written := [] } }

def branchSteps (graph : Graph) : Bytes :=
  lit "branch exceeded max_steps (" ++ decimalInt graph.maxSteps ++ lit ")"

def unknownNode (current : Bytes) : Error :=
  ⟨.invalidConfig, lit "unknown node '" ++ current ++ lit "'"⟩

def atEnd (join current : Bytes) : Bool := current = graphEnd || current = join

/- The branch after `node` has run and did not fail, up to the next turn of the loop:
`none` when the branch stops here. -/
def afterNode (graph : Graph) (pos : Pos) (join current : Bytes) (node : GraphNode)
    (result : NodeResult) (b : Branch τ) : Branch τ × Option Bytes :=
  let b := { b with chain := drainBranch env pos node.name b.chain }
  if result.interrupted then
    (Branch.save { b with
        interrupted := true
        interruptNode := node.name
        interruptReason := result.reason
        pending := result.pending
        next := current } .interrupted current, none)
  else
    match resolveNext graph pos b.chain.state node result with
    | .error e => (b.failed current e, none)
    | .ok next => (b.save (if atEnd join next then .done else .running) next, some next)

/- One turn of the loop of `run_branch`: the branch, and where it goes on unless it
stops here. -/
def stepBranch (graph : Graph) (runNode : NodeRunner τ) (pos : Pos) (join : Bytes)
    (resume : Option PendingResume) (current : Bytes) (b : Branch τ) : Branch τ × Option Bytes :=
  match findNode graph current with
  | none => (b.failed current (unknownNode current), none)
  | some node =>
    let answer := if node.kind = .agent then resume else none
    match runNode pos node answer b.chain with
    | (chain, none) => ({ b with chain, returned := false }, none)
    | (chain, some (.error e)) => (Branch.failed { b with chain } current e, none)
    | (chain, some (.ok result)) => afterNode env graph pos join current node result { b with chain }

/- `run_branch`, by the number of steps it may still take. -/
def runBranch (graph : Graph) (runNode : NodeRunner τ) (pos : Pos) (join : Bytes) :
    ℕ → Option PendingResume → Bytes → Branch τ → Branch τ
  | left, resume, current, b =>
    if atEnd join current then { b with done := true }
    else match left with
      | 0 => b.failed current ⟨.invalidConfig, branchSteps graph⟩
      | left + 1 =>
        match stepBranch env graph runNode (left :: pos) join resume current b with
        | (b, none) => b
        | (b, some next) => runBranch graph runNode pos join left none next b

theorem runBranch_atEnd (runNode : NodeRunner τ) (pos : Pos) (join : Bytes) (left : ℕ)
    (resume : Option PendingResume) (current : Bytes) (b : Branch τ) (h : atEnd join current = true) :
    runBranch env graph runNode pos join left resume current b = { b with done := true } := by
  unfold runBranch
  rw [if_pos h]

theorem runBranch_stop (runNode : NodeRunner τ) (pos : Pos) (join : Bytes) (left : ℕ)
    (resume : Option PendingResume) (current : Bytes) (b b' : Branch τ) (h : atEnd join current = false)
    (hstep : stepBranch env graph runNode (left :: pos) join resume current b = (b', none)) :
    runBranch env graph runNode pos join (left + 1) resume current b = b' := by
  rw [runBranch, if_neg (by rw [h]; simp)]
  simp only [hstep]

theorem runBranch_step (runNode : NodeRunner τ) (pos : Pos) (join : Bytes) (left : ℕ)
    (resume : Option PendingResume) (current next : Bytes) (b b' : Branch τ) (h : atEnd join current = false)
    (hstep : stepBranch env graph runNode (left :: pos) join resume current b = (b', some next)) :
    runBranch env graph runNode pos join (left + 1) resume current b =
      runBranch env graph runNode pos join left none next b' := by
  rw [runBranch, if_neg (by rw [h]; simp)]
  simp only [hstep]

def entryAt (node : GraphNode) (i : ℕ) : Bytes := node.branches[i]?.getD []

def firstFailure (node : GraphNode) (branches : List (Branch τ)) : Option Error :=
  (node.branches.zip branches).findSome? fun (entry, b) => b.result.map fun e =>
    ⟨e.code, lit "parallel '" ++ node.name ++ lit "' branch '" ++ entry ++ lit "': " ++ e.message⟩

def pausedResult (node : GraphNode) (branches : List (Branch τ)) : NodeResult :=
  (node.branches.zip branches).foldl (fun paused (entry, b) =>
    if b.interrupted then
      { paused with
        interrupted := true
        reason := (if paused.interrupted then paused.reason ++ lit "; " else []) ++
          lit "branch '" ++ entry ++ lit "': " ++ b.interruptReason
        pending := paused.pending ++ b.pending
        interrupts := paused.interrupts ++ [⟨entry, b.interruptNode, b.interruptReason, b.pending⟩] }
    else paused) {}

def claimKey (node : GraphNode) (i : ℕ) (owners : Table ℕ) (key : Bytes) : Result (Table ℕ) :=
  match owners[key]? with
  | none => .ok (owners.insert key i)
  | some j =>
    if j = i then .ok owners
    else fail .invalidConfig (lit "parallel '" ++ node.name ++ lit "': state key '" ++ key ++
      lit "' written by branches '" ++ entryAt node j ++ lit "' and '" ++ entryAt node i ++
      lit "'; parallel branches must write unique keys")

def claimHistory (node : GraphNode) (i : ℕ) (owners : Table ℕ) (name : Bytes) : Result (Table ℕ) :=
  match owners[name]? with
  | none => .ok (owners.insert name i)
  | some j => fail .invalidConfig (lit "parallel '" ++ node.name ++ lit "': agent history '" ++ name ++
      lit "' used in branches '" ++ entryAt node j ++ lit "' and '" ++ entryAt node i ++ lit "'")

def keyOwners (node : GraphNode) (branches : List (Branch τ)) : Result (Table ℕ) :=
  branches.zipIdx.foldlM (fun owners (b, i) => b.chain.writes.foldlM (claimKey node i) owners) ∅

def historyOwners (node : GraphNode) (branches : List (Branch τ)) : Result (Table ℕ) :=
  branches.zipIdx.foldlM (fun owners (b, i) =>
    b.chain.state.histories.keys.foldlM (claimHistory node i) owners) ∅

def mergedValues (owners : Table ℕ) (branches : List (Branch τ)) : List (Bytes × Bytes) :=
  owners.toList.filterMap fun (key, i) =>
    (branches[i]?.bind fun b => b.chain.state.values[key]?).map fun value => (key, value)

def joinBranches (node : GraphNode) (branches : List (Branch τ)) (state : GraphState) :
    Result (GraphState × List (Bytes × Bytes)) := do
  let owners ← keyOwners node branches
  let _ ← historyOwners node branches
  let merged := mergedValues owners branches
  return ({ state with
    values := Table.insertAll state.values merged
    histories := branches.foldl (fun histories b =>
      Table.assign histories b.chain.state.histories) state.histories }, merged)

/- `run_parallel_node` after the branches have run; what happens to the merged keys depends on the
chain. -/
def closeFanOut (node : GraphNode) (branches : List (Branch τ)) (c : Chain τ) :
    Chain τ × Outcome (NodeResult × List (Bytes × Bytes)) :=
  let c := { c with
    events := c.events ++ branches.flatMap fun b => b.chain.events
    trace := c.trace ++ branches.flatMap fun b => b.chain.trace
    visits := c.visits ++ [.mk node.name (branches.map fun b => b.chain.visits)] }
  if branches.any fun b => !b.returned then (c, none)
  else match firstFailure node branches with
    | some e => (c, some (.error e))
    | none =>
      let paused := pausedResult node branches
      if paused.interrupted then (c, some (.ok (paused, [])))
      else match joinBranches node branches c.state with
        | .error e => (c, some (.error e))
        | .ok (state, merged) => ({ c with state }, some (.ok ({}, merged)))

def runLeaf (ctx : ChainCtx) (pos : Pos) (node : GraphNode) (resume : Option PendingResume)
    (c : Chain τ) : Chain τ × Outcome NodeResult :=
  let c := { c with visits := c.visits ++ [.mk node.name []] }
  match node.kind with
  | .agent =>
    let (c, res) := env.runAgentNode pos ctx node resume c
    (c, res.map fun r => r.map agentResult)
  | .function =>
    let (c, res) := runFunctionNode ctx pos node c
    (c, some res)
  | .tool => runToolNode env pos node c
  | .loop =>
    let (c, res) := runLoopNode pos node c
    (c, some res)
  | .parallel => (c, none)

def endNode (pos : Pos) (node : GraphNode) (c : Chain τ) : Outcome NodeResult → Chain τ
  | none => c
  | some (.error e) => emit env pos c .nodeFailed node.name [] e.message
  | some (.ok result) =>
    if result.interrupted then emit env pos c .interrupt node.name [] result.reason
    else emit env pos c .nodeEnd node.name [] []

theorem endNode_eq (node : GraphNode) (c : Chain τ) (res : Outcome NodeResult) :
    ∃ events, endNode env pos node c res = { c with events } := by
  unfold endNode
  split
  · exact ⟨_, rfl⟩
  · exact ⟨_, rfl⟩
  · split
    · exact ⟨_, rfl⟩
    · exact ⟨_, rfl⟩

def freshBranch (values : Table Bytes) (entry : Bytes) : Branch τ :=
  { chain := { state := { values } }, next := entry, run := true }

def nestedBranches (graph : Graph) (runNode : NodeRunner τ) (pos : Pos) (node : GraphNode)
    (values : Table Bytes) : List (Branch τ) :=
  node.branches.mapIdx fun i entry =>
    runBranch env graph runNode (i :: pos) node.name graph.maxSteps.toNat none entry
      (freshBranch values entry)

def runNestedParallel (graph : Graph) (runNode : NodeRunner τ) (pos : Pos) (node : GraphNode)
    (c : Chain τ) : Chain τ × Outcome NodeResult :=
  let branches := nestedBranches env graph runNode pos node c.state.values
  match closeFanOut node branches c with
  | (c, none) => (c, none)
  | (c, some (.error e)) => (c, some (.error e))
  | (c, some (.ok (result, merged))) =>
    ({ c with writes := c.writes ++ merged.map Prod.fst }, some (.ok result))

/- `run_node` in a branch; each nested fan-out takes one unit of fuel. -/
def runNode (graph : Graph) : ℕ → ChainCtx → NodeRunner τ
  | fuel, ctx, pos, node, resume, c =>
    let c := emit env pos c .nodeStart node.name [] []
    let (c, res) :=
      if node.kind = .parallel then
        match fuel with
        | 0 => ({ c with visits := c.visits ++ [.mk node.name []] }, none)
        | fuel + 1 =>
          runNestedParallel env graph (runNode graph fuel (ctx.branch c.state.histories)) pos node c
      else runLeaf env ctx pos node resume c
    (endNode env pos node c res, res)

end Nodes

end AgentCpp
