import AgentCpp.Core.HistoryJson
import AgentCpp.Graph.State

/-!
# Checkpoints (`graph_checkpoint.cpp`)

`encodeCheckpoint` writes the resumable part of a run as JSON, `decodeCheckpoint` reads it
back field by field into a given run. Between the two stands the document `checkpointJson`.
-/

namespace AgentCpp
open Lib Lib.Json

def checkpointKey (threadId suffix : Bytes) : Bytes :=
  lit "checkpoint:" ++ threadId ++ lit ":" ++ suffix

def statusName : GraphRunStatus → Bytes
  | .pending => lit "pending"
  | .running => lit "running"
  | .completed => lit "completed"
  | .interrupted => lit "interrupted"
  | .failed => lit "failed"

def parseStatus (s : Bytes) : GraphRunStatus :=
  if s = lit "running" then .running
  else if s = lit "completed" then .completed
  else if s = lit "interrupted" then .interrupted
  else if s = lit "failed" then .failed
  else .pending

def branchStatusName : BranchStatus → Bytes
  | .pending => lit "pending"
  | .running => lit "running"
  | .done => lit "done"
  | .interrupted => lit "interrupted"
  | .failed => lit "failed"

def parseBranchStatus (s : Bytes) : BranchStatus :=
  if s = lit "running" then .running
  else if s = lit "done" then .done
  else if s = lit "interrupted" then .interrupted
  else if s = lit "failed" then .failed
  else .pending

theorem parseStatus_statusName (s : GraphRunStatus) : parseStatus (statusName s) = s := by
  cases s <;> decide

theorem parseBranchStatus_branchStatusName (s : BranchStatus) : parseBranchStatus (branchStatusName s) = s := by
  cases s <;> decide

theorem valid_statusName (s : GraphRunStatus) : Utf8.Valid (statusName s) := by
  cases s <;> decide

theorem valid_branchStatusName (s : BranchStatus) : Utf8.Valid (branchStatusName s) := by
  cases s <;> decide

def encodeValues (values : Table Bytes) : Bytes :=
  objText ((values.toList.filter fun e => !isTempKey e.1).map fun e => keyedField e.1 (jsonString e.2))

def encodeStrings (items : List Bytes) : Bytes := arrText (items.map jsonString)

def encodeHistories (histories : Table FlowMemory) : Bytes :=
  objText (histories.toList.map fun e => keyedField e.1 (encodeHistoryJson e.2))

def encodeBranch (b : BranchProgress) : Bytes :=
  objText [stringField (lit "entry") b.entry,
    stringField (lit "status") (branchStatusName b.status),
    stringField (lit "next") b.next,
    rawField (lit "values") (encodeValues b.values),
    rawField (lit "erased") (encodeStrings b.erased),
    rawField (lit "writes") (encodeStrings b.writes),
    rawField (lit "histories") (encodeHistories b.histories),
    stringField (lit "interrupt_node") b.interruptNode,
    stringField (lit "interrupt_reason") b.interruptReason,
    rawField (lit "pending_tool_calls") (encodeCalls b.pendingToolCalls),
    stringField (lit "error") b.error]

def encodeProgress (progress : ParallelProgress) : Bytes :=
  objText [stringField (lit "node") progress.node,
    rawField (lit "branches") (arrText (progress.branches.map encodeBranch))]

def encodeCheckpoint (run : GraphRun) (graphName : Bytes) (progress : Option ParallelProgress) :
    Bytes :=
  objText ([rawField (lit "version") (decimalInt 1),
    stringField (lit "graph") graphName,
    stringField (lit "thread_id") run.threadId,
    rawField (lit "step") (decimalInt run.step.toNat),
    stringField (lit "next") run.nextNode,
    stringField (lit "status") (statusName run.status),
    stringField (lit "interrupt_node") run.interruptNode,
    stringField (lit "interrupt_reason") run.interruptReason,
    rawField (lit "pending_tool_calls") (encodeCalls run.pendingToolCalls),
    rawField (lit "state") (encodeValues run.state.values),
    rawField (lit "histories") (encodeHistories run.state.histories)] ++
    match progress with
    | none => []
    | some progress => [rawField (lit "parallel") (encodeProgress progress)])

/-- Histories are collected first and decoded once the document is read. -/
abbrev RawHistories := List (Bytes × Json)

def bad {α : Type} (what : Bytes) : Result α :=
  fail .parseError (lit "graph checkpoint: " ++ what)

def decodeCalls (value : Json) : Result (List ToolCall) :=
  match value.getArray with
  | none => bad (lit "bad pending_tool_calls.")
  | some items => .ok (decodeCallItems items)

def decodeValues (value : Json) (out : Table Bytes) : Result (Table Bytes) :=
  match value.getObject with
  | none => bad (lit "bad state.")
  | some fields => fields.foldlM (fun out e =>
      match e.2.getString with
      | none => bad (lit "bad state value: " ++ e.1)
      | some v => .ok (out.insert e.1 v)) out

def decodeStrings (value : Json) (out : List Bytes) : Result (List Bytes) :=
  match value.getArray with
  | none => bad (lit "bad string array.")
  | some items => items.foldlM (fun out item =>
      match item.getString with
      | none => bad (lit "bad string array item.")
      | some text => .ok (out ++ [text])) out

def collectHistories (value : Json) (out : RawHistories) : Result RawHistories :=
  match value.getObject with
  | none => bad (lit "bad histories.")
  | some fields => .ok (out ++ fields)

def buildHistories (raw : RawHistories) (threadId : Bytes) (out : Table FlowMemory) :
    Result (Table FlowMemory) :=
  raw.foldlM (fun out e =>
    match decodeHistoryValue e.2 with
    | .error err => fail err.code
        (lit "graph checkpoint: history of '" ++ e.1 ++ lit "': " ++ err.message)
    | .ok messages => .ok (out.insert e.1 ⟨threadId ++ lit ":" ++ e.1, messages⟩)) out

/-- `if (!v.get_string().get(text)) out = text`. -/
def stringOr (value : Json) (out : Bytes) : Bytes := value.getString.getD out

/-- One field of a branch record. -/
def decodeBranchField (acc : BranchProgress × RawHistories) (f : Bytes × Json) :
    Result (BranchProgress × RawHistories) :=
  let (b, histories) := acc
  let (bk, bv) := f
  if bk = lit "entry" then .ok ({ b with entry := stringOr bv b.entry }, histories)
  else if bk = lit "status" then
    .ok ({ b with status := (bv.getString.map parseBranchStatus).getD b.status }, histories)
  else if bk = lit "next" then .ok ({ b with next := stringOr bv b.next }, histories)
  else if bk = lit "values" then do
    let values ← decodeValues bv b.values
    return ({ b with values }, histories)
  else if bk = lit "erased" then do
    let erased ← decodeStrings bv b.erased
    return ({ b with erased }, histories)
  else if bk = lit "writes" then do
    let writes ← decodeStrings bv b.writes
    return ({ b with writes }, histories)
  else if bk = lit "histories" then do
    let histories ← collectHistories bv histories
    return (b, histories)
  else if bk = lit "interrupt_node" then
    .ok ({ b with interruptNode := stringOr bv b.interruptNode }, histories)
  else if bk = lit "interrupt_reason" then
    .ok ({ b with interruptReason := stringOr bv b.interruptReason }, histories)
  else if bk = lit "pending_tool_calls" then do
    let pendingToolCalls ← decodeCalls bv
    return ({ b with pendingToolCalls }, histories)
  else if bk = lit "error" then .ok ({ b with error := stringOr bv b.error }, histories)
  else .ok (b, histories)

def decodeBranch (item : Json) : Result (BranchProgress × RawHistories) :=
  match item.getObject with
  | none => bad (lit "bad parallel branch.")
  | some fields => fields.foldlM decodeBranchField ({}, [])

/-- Branches are read in order; each brings its undecoded histories. -/
abbrev ProgressAcc := Bytes × List (BranchProgress × RawHistories)

def decodeProgressField (acc : ProgressAcc) (f : Bytes × Json) : Result ProgressAcc :=
  let (node, branches) := acc
  let (key, v) := f
  if key = lit "node" then .ok (stringOr v node, branches)
  else if key = lit "branches" then
    match v.getArray with
    | none => bad (lit "bad parallel branches.")
    | some items => do
      let read ← items.mapM decodeBranch
      return (node, branches ++ read)
  else .ok (node, branches)

def decodeProgress (value : Json) (acc : ProgressAcc) : Result ProgressAcc :=
  match value.getObject with
  | none => bad (lit "bad parallel progress.")
  | some fields => fields.foldlM decodeProgressField acc

/-- What `decode_checkpoint` has read so far. -/
structure CheckpointAcc where
  out : GraphRun
  values : Table Bytes := ∅
  rawHistories : RawHistories := []
  parallel : ProgressAcc := ([], [])
  foundProgress : Bool := false

def decodeCheckpointField (withProgress : Bool) (acc : CheckpointAcc) (f : Bytes × Json) :
    Result CheckpointAcc :=
  let (name, value) := f
  if name = lit "step" then
    match value.getUint64 with
    | none => bad (lit "bad step.")
    | some step => .ok { acc with out.step := step }
  else if name = lit "next" then
    .ok { acc with out.nextNode := stringOr value acc.out.nextNode }
  else if name = lit "status" then
    .ok { acc with out.status := (value.getString.map parseStatus).getD acc.out.status }
  else if name = lit "interrupt_node" then
    .ok { acc with out.interruptNode := stringOr value acc.out.interruptNode }
  else if name = lit "interrupt_reason" then
    .ok { acc with out.interruptReason := stringOr value acc.out.interruptReason }
  else if name = lit "pending_tool_calls" then do
    let calls ← decodeCalls value
    return { acc with out.pendingToolCalls := calls }
  else if name = lit "state" then do
    let values ← decodeValues value acc.values
    return { acc with values }
  else if name = lit "histories" then do
    let rawHistories ← collectHistories value acc.rawHistories
    return { acc with rawHistories }
  else if name = lit "parallel" ∧ withProgress then do
    let parallel ← decodeProgress value acc.parallel
    return { acc with parallel, foundProgress := true }
  else .ok acc

def buildBranch (threadId : Bytes) (b : BranchProgress × RawHistories) : Result BranchProgress := do
  let histories ← buildHistories b.2 threadId b.1.histories
  return { b.1 with histories }

/-- `decode_checkpoint`: the restored run, and the branch progress when it is
asked for and found. -/
def decodeCheckpoint (parser : JsonParser) (json : Bytes) (out : GraphRun) (withProgress : Bool) :
    Result (GraphRun × Option ParallelProgress) :=
  match parser.parse json with
  | none => bad (lit "invalid JSON.")
  | some doc =>
    match doc.getObject with
    | none => bad (lit "not a JSON object.")
    | some root => do
      let acc ← root.foldlM (decodeCheckpointField withProgress) { out }
      let histories ← buildHistories acc.rawHistories acc.out.threadId ∅
      let run := { acc.out with
        state := { acc.out.state with values := acc.values, histories } }
      if acc.foundProgress then do
        let branches ← acc.parallel.2.mapM (buildBranch acc.out.threadId)
        return (run, some ⟨acc.parallel.1, branches⟩)
      else return (run, none)

end AgentCpp
