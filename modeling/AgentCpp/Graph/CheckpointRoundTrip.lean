import AgentCpp.Graph.Checkpoint
import AgentCpp.Lib.JsonReader

/-!
# What a checkpoint restores
-/

namespace AgentCpp
open Lib Lib.Json List

def valuesJson (values : Table Bytes) : Json :=
  .obj ((values.toList.filter fun e => !isTempKey e.1).map fun e => (e.1, .str e.2))

def stringsJson (items : List Bytes) : Json := .arr (items.map .str)

def historiesFields (histories : Table FlowMemory) : RawHistories :=
  histories.toList.map fun e => (e.1, historyJson e.2)

def callsJson (calls : List ToolCall) : Json := .arr (calls.map callJson)

def branchFields (b : BranchProgress) : List (Bytes × Json) :=
  [(lit "entry", .str b.entry),
    (lit "status", .str (branchStatusName b.status)),
    (lit "next", .str b.next),
    (lit "values", valuesJson b.values),
    (lit "erased", stringsJson b.erased),
    (lit "writes", stringsJson b.writes),
    (lit "histories", .obj (historiesFields b.histories)),
    (lit "interrupt_node", .str b.interruptNode),
    (lit "interrupt_reason", .str b.interruptReason),
    (lit "pending_tool_calls", callsJson b.pendingToolCalls),
    (lit "error", .str b.error)]

def progressFields (progress : ParallelProgress) : List (Bytes × Json) :=
  [(lit "node", .str progress.node),
    (lit "branches", .arr (progress.branches.map fun b => .obj (branchFields b)))]

def checkpointFields (run : GraphRun) (graphName : Bytes) (progress : Option ParallelProgress) :
    List (Bytes × Json) :=
  [(lit "version", .int 1),
    (lit "graph", .str graphName),
    (lit "thread_id", .str run.threadId),
    (lit "step", .int run.step.toNat),
    (lit "next", .str run.nextNode),
    (lit "status", .str (statusName run.status)),
    (lit "interrupt_node", .str run.interruptNode),
    (lit "interrupt_reason", .str run.interruptReason),
    (lit "pending_tool_calls", callsJson run.pendingToolCalls),
    (lit "state", valuesJson run.state.values),
    (lit "histories", .obj (historiesFields run.state.histories))] ++
    match progress with
    | none => []
    | some progress => [(lit "parallel", .obj (progressFields progress))]

variable (progress : ParallelProgress) (values : Table Bytes) (threadId : Bytes) (b : BranchProgress)

theorem denotes_encodeValues : Denotes (encodeValues values) (valuesJson values) :=
  denotes_objText _ _ (forall₂_map _ _ _ fun e _ => fieldDenotes_keyed e.1 _ _ (denotes_jsonString e.2))

variable (run : GraphRun) (items : List Bytes) (out : GraphRun) (graphName : Bytes)

theorem denotes_encodeStrings : Denotes (encodeStrings items) (stringsJson items) :=
  denotes_arrText _ _ (forall₂_map _ _ _ fun s _ => denotes_jsonString s)

theorem denotes_encodeHistories (histories : Table FlowMemory) :
    Denotes (encodeHistories histories) (.obj (historiesFields histories)) :=
  denotes_objText _ _ (forall₂_map _ _ _ fun e _ => fieldDenotes_keyed e.1 _ _ (denotes_encodeHistoryJson e.2))

theorem denotes_encodeBranch : Denotes (encodeBranch b) (.obj (branchFields b)) :=
  denotes_objText _ _ <| .cons (fieldDenotes_string _ _ (by decide)) <| .cons (fieldDenotes_string _ _ (by decide)) <|
    .cons (fieldDenotes_string _ _ (by decide)) <|
    .cons (fieldDenotes_raw _ _ _ (by decide) (denotes_encodeValues _)) <|
    .cons (fieldDenotes_raw _ _ _ (by decide) (denotes_encodeStrings _)) <|
    .cons (fieldDenotes_raw _ _ _ (by decide) (denotes_encodeStrings _)) <|
    .cons (fieldDenotes_raw _ _ _ (by decide) (denotes_encodeHistories _)) <|
    .cons (fieldDenotes_string _ _ (by decide)) <| .cons (fieldDenotes_string _ _ (by decide)) <|
    .cons (fieldDenotes_raw _ _ _ (by decide) (denotes_encodeCalls _)) <|
    .cons (fieldDenotes_string _ _ (by decide)) .nil

theorem denotes_encodeProgress : Denotes (encodeProgress progress) (.obj (progressFields progress)) :=
  denotes_objText _ _ <| .cons (fieldDenotes_string _ _ (by decide)) <|
    .cons (fieldDenotes_raw _ _ _ (by decide) (denotes_arrText _ _
      (forall₂_map _ _ _ fun b _ => denotes_encodeBranch b))) .nil

theorem denotes_encodeCheckpoint (progress : Option ParallelProgress) :
    Denotes (encodeCheckpoint run graphName progress)
      (.obj (checkpointFields run graphName progress)) := by
  apply denotes_objText
  apply rel_append
  · exact .cons (fieldDenotes_raw _ _ _ (by decide) (.int 1)) <| .cons (fieldDenotes_string _ _ (by decide)) <|
      .cons (fieldDenotes_string _ _ (by decide)) <|
      .cons (fieldDenotes_raw _ _ _ (by decide) (.int run.step.toNat)) <|
      .cons (fieldDenotes_string _ _ (by decide)) <| .cons (fieldDenotes_string _ _ (by decide)) <|
      .cons (fieldDenotes_string _ _ (by decide)) <| .cons (fieldDenotes_string _ _ (by decide)) <|
      .cons (fieldDenotes_raw _ _ _ (by decide) (denotes_encodeCalls _)) <|
      .cons (fieldDenotes_raw _ _ _ (by decide) (denotes_encodeValues _)) <|
      .cons (fieldDenotes_raw _ _ _ (by decide) (denotes_encodeHistories _)) .nil
  · cases progress with
    | none => exact .nil
    | some progress =>
      exact .cons (fieldDenotes_raw _ _ _ (by decide) (denotes_encodeProgress progress)) .nil

theorem foldlM_ok {α β : Type} (f : β → α → Result β) (g : β → α → β) (xs : List α) (acc : β)
    (h : ∀ acc, ∀ x ∈ xs, f acc x = .ok (g acc x)) : xs.foldlM f acc = .ok (xs.foldl g acc) := by
  induction xs generalizing acc with
  | nil => rfl
  | cons x xs ih =>
    rw [foldlM_cons, h acc x (mem_cons_self ..)]
    exact ih _ fun acc y hy => h acc y (mem_cons_of_mem _ hy)

theorem foldl_snoc {α : Type} (xs out : List α) : xs.foldl (fun acc x => acc ++ [x]) out = out ++ xs := by
  induction xs generalizing out with
  | nil => rw [foldl_nil, append_nil]
  | cons x xs ih => rw [foldl_cons, ih, append_assoc, singleton_append]

theorem foldlM_step {α β : Type} {f : β → α → Result β} {x : α} {xs : List α} {acc acc' : β}
    (h : f acc x = .ok acc') : (x :: xs).foldlM f acc = xs.foldlM f acc' := by
  rw [foldlM_cons, h]
  rfl

theorem bind_ok {α β : Type} {x : Result α} {a : α} (f : α → Result β) (h : x = .ok a) : (x >>= f) = f a := by
  rw [h]
  rfl

theorem mapM_ok {α β : Type} (f : α → Result β) (g : α → β) (xs : List α)
    (h : ∀ x ∈ xs, f x = .ok (g x)) : xs.mapM f = .ok (xs.map g) := by
  induction xs with
  | nil => rfl
  | cons x xs ih =>
    rw [mapM_cons, h x (mem_cons_self ..), ih fun y hy => h y (mem_cons_of_mem _ hy)]
    rfl

theorem insertAll_filter_temp :
    Table.insertAll ∅ (values.toList.filter fun e => !isTempKey e.1) = dropTemp values := by
  rw [← Table.empty_insertAll_toList (dropTemp values), dropTemp, Std.ExtTreeMap.toList_filter]

theorem decodeValues_valuesJson : decodeValues (valuesJson values) ∅ = .ok (dropTemp values) := by
  simp only [decodeValues, valuesJson, getObject, foldlM_map]
  refine (foldlM_ok _ (fun (acc : Table Bytes) (e : Bytes × Bytes) => acc.insert e.1 e.2) _ _ (fun _ _ _ => rfl)).trans ?_
  exact congrArg Except.ok (insertAll_filter_temp values)

theorem decodeStrings_stringsJson : decodeStrings (stringsJson items) [] = .ok items := by
  simp only [decodeStrings, stringsJson, getArray, foldlM_map]
  refine (foldlM_ok _ (fun (acc : List Bytes) s => acc ++ [s]) _ _ (fun _ _ _ => rfl)).trans ?_
  rw [foldl_snoc, nil_append]

theorem decodeCalls_callsJson (calls : List ToolCall) : decodeCalls (callsJson calls) = .ok calls :=
  congrArg Except.ok (decodeCallItems_callJson calls)

/-- The conversations a decoder rebuilds: ids from the thread, messages as stored. -/
def restoredHistories (threadId : Bytes) (histories : Table FlowMemory) : Table FlowMemory :=
  histories.map fun name memory => ⟨threadId ++ lit ":" ++ name, memory.history.map storedMessage⟩

theorem buildHistories_historiesFields (histories : Table FlowMemory) :
    buildHistories (historiesFields histories) threadId ∅ =
      .ok (restoredHistories threadId histories) := by
  simp only [buildHistories, historiesFields, foldlM_map, decodeHistoryValue_historyJson]
  refine (foldlM_ok _ (fun (acc : Table FlowMemory) (e : Bytes × FlowMemory) =>
    acc.insert e.1 ⟨threadId ++ lit ":" ++ e.1, e.2.history.map storedMessage⟩) _ _ (fun _ _ _ => rfl)).trans ?_
  rw [← Table.empty_insertAll_toList (restoredHistories threadId histories), restoredHistories,
    Std.ExtTreeMap.toList_map, Table.insertAll, foldl_map]

def restoredBranch (threadId : Bytes) (b : BranchProgress) : BranchProgress :=
  { b with values := dropTemp b.values, histories := restoredHistories threadId b.histories }

def restoredProgress (threadId : Bytes) (progress : ParallelProgress) : ParallelProgress :=
  { progress with branches := progress.branches.map (restoredBranch threadId) }

def restoredRun (run out : GraphRun) : GraphRun :=
  { out with
    step := run.step
    nextNode := run.nextNode
    status := run.status
    interruptNode := run.interruptNode
    interruptReason := run.interruptReason
    pendingToolCalls := run.pendingToolCalls
    state := { out.state with
      values := dropTemp run.state.values
      histories := restoredHistories out.threadId run.state.histories } }

/-- A branch record before its conversations are decoded. -/
def readBranch (b : BranchProgress) : BranchProgress × RawHistories :=
  ({ b with values := dropTemp b.values, histories := ∅ }, historiesFields b.histories)

theorem decodeBranch_branchFields : decodeBranch (.obj (branchFields b)) = .ok (readBranch b) := by
  refine (foldlM_step rfl).trans ?_
  refine (foldlM_step rfl).trans ?_
  refine (foldlM_step rfl).trans ?_
  refine (foldlM_step (bind_ok _ (decodeValues_valuesJson b.values))).trans ?_
  refine (foldlM_step (bind_ok _ (decodeStrings_stringsJson b.erased))).trans ?_
  refine (foldlM_step (bind_ok _ (decodeStrings_stringsJson b.writes))).trans ?_
  refine (foldlM_step rfl).trans ?_
  refine (foldlM_step rfl).trans ?_
  refine (foldlM_step rfl).trans ?_
  refine (foldlM_step (bind_ok _ (decodeCalls_callsJson b.pendingToolCalls))).trans ?_
  refine (foldlM_step rfl).trans ?_
  change Except.ok (({ b with
    status := parseBranchStatus (branchStatusName b.status)
    values := dropTemp b.values
    histories := ∅ } : BranchProgress), historiesFields b.histories) = _
  rw [parseBranchStatus_branchStatusName]
  rfl

theorem decodeProgress_progressFields : decodeProgress (.obj (progressFields progress)) ([], []) =
      .ok (progress.node, progress.branches.map readBranch) := by
  have hread : (progress.branches.map fun b => Json.obj (branchFields b)).mapM decodeBranch =
      .ok (progress.branches.map readBranch) := by
    rw [mapM_map]
    exact mapM_ok _ _ _ fun b _ => decodeBranch_branchFields b
  refine (foldlM_step rfl).trans ?_
  refine (foldlM_step (bind_ok _ hread)).trans ?_
  rfl

theorem buildBranch_readBranch : buildBranch threadId (readBranch b) = .ok (restoredBranch threadId b) :=
  bind_ok _ (buildHistories_historiesFields threadId b.histories)

theorem buildBranches (branches : List BranchProgress) : (branches.map readBranch).mapM (buildBranch threadId) =
      .ok (branches.map (restoredBranch threadId)) := by
  rw [mapM_map]
  exact mapM_ok _ _ _ fun b _ => buildBranch_readBranch threadId b

/-- What the loop over the root fields has read at the end. -/
def readRoot (run out : GraphRun) : CheckpointAcc :=
  { out := { out with
      step := run.step
      nextNode := run.nextNode
      status := run.status
      interruptNode := run.interruptNode
      interruptReason := run.interruptReason
      pendingToolCalls := run.pendingToolCalls }
    values := dropTemp run.state.values
    rawHistories := historiesFields run.state.histories }

theorem foldlM_rootFields (withProgress : Bool) :
    (checkpointFields run graphName none).foldlM (decodeCheckpointField withProgress) { out } =
      .ok (readRoot run out) := by
  have hstep : decodeCheckpointField withProgress { out } (lit "step", .int run.step.toNat) =
      .ok { out := { out with step := run.step } } := by
    simp only [decodeCheckpointField, ite_true, getUint64_toNat]
  refine (foldlM_step rfl).trans ?_
  refine (foldlM_step rfl).trans ?_
  refine (foldlM_step rfl).trans ?_
  refine (foldlM_step hstep).trans ?_
  refine (foldlM_step rfl).trans ?_
  refine (foldlM_step rfl).trans ?_
  refine (foldlM_step rfl).trans ?_
  refine (foldlM_step rfl).trans ?_
  refine (foldlM_step (bind_ok _ (decodeCalls_callsJson run.pendingToolCalls))).trans ?_
  refine (foldlM_step (bind_ok _ (decodeValues_valuesJson run.state.values))).trans ?_
  refine (foldlM_step rfl).trans ?_
  change Except.ok ({
    out := { out with
      step := run.step
      nextNode := run.nextNode
      status := parseStatus (statusName run.status)
      interruptNode := run.interruptNode
      interruptReason := run.interruptReason
      pendingToolCalls := run.pendingToolCalls }
    values := dropTemp run.state.values
    rawHistories := historiesFields run.state.histories } : CheckpointAcc) = _
  rw [parseStatus_statusName]
  rfl

theorem decodeCheckpoint_encodeCheckpoint (parser : JsonParser) (run out : GraphRun)
    (graphName : Bytes) (progress : Option ParallelProgress) (withProgress : Bool)
    (h : Utf8.Valid (encodeCheckpoint run graphName progress)) :
    decodeCheckpoint parser (encodeCheckpoint run graphName progress) out withProgress =
      .ok (restoredRun run out,
        if withProgress then progress.map (restoredProgress out.threadId) else none) := by
  have hparse := parser.parses _ _ (denotes_encodeCheckpoint run graphName progress) h
  have hroot := foldlM_rootFields run out graphName withProgress
  have hhist := buildHistories_historiesFields out.threadId run.state.histories
  simp only [decodeCheckpoint, hparse, getObject]
  cases progress with
  | none =>
    refine (bind_ok _ hroot).trans ((bind_ok _ hhist).trans ?_)
    cases withProgress <;> rfl
  | some progress =>
    have hfields : checkpointFields run graphName (some progress) =
        checkpointFields run graphName none ++ [(lit "parallel", .obj (progressFields progress))] :=
      rfl
    rw [hfields, foldlM_append]
    cases withProgress with
    | false => exact (bind_ok _ ((bind_ok _ hroot).trans rfl)).trans (bind_ok _ hhist)
    | true =>
      have hlast : decodeCheckpointField true (readRoot run out)
          (lit "parallel", .obj (progressFields progress)) = .ok { readRoot run out with
            parallel := (progress.node, progress.branches.map readBranch)
            foundProgress := true } :=
        bind_ok _ (decodeProgress_progressFields progress)
      refine (bind_ok _ ((bind_ok _ hroot).trans (foldlM_step hlast))).trans ?_
      refine (bind_ok _ hhist).trans ?_
      exact bind_ok _ (buildBranches out.threadId progress.branches)

def ValuesUtf8 (values : Table Bytes) : Prop :=
  ∀ e ∈ values.toList, Utf8.Valid e.1 ∧ Utf8.Valid e.2

instance (values : Table Bytes) : Decidable (ValuesUtf8 values) :=
  inferInstanceAs (Decidable (∀ e ∈ values.toList, Utf8.Valid e.1 ∧ Utf8.Valid e.2))

def HistoriesUtf8 (histories : Table FlowMemory) : Prop :=
  ∀ e ∈ histories.toList, Utf8.Valid e.1 ∧ ∀ msg ∈ e.2.history, msg.Utf8

instance (histories : Table FlowMemory) : Decidable (HistoriesUtf8 histories) :=
  inferInstanceAs (Decidable
    (∀ e ∈ histories.toList, Utf8.Valid e.1 ∧ ∀ msg ∈ e.2.history, msg.Utf8))

@[mk_iff] structure BranchProgress.Utf8 (b : BranchProgress) : Prop where
  entry : Utf8.Valid b.entry
  next : Utf8.Valid b.next
  values : ValuesUtf8 b.values
  erased : ∀ key ∈ b.erased, Utf8.Valid key
  writes : ∀ key ∈ b.writes, Utf8.Valid key
  histories : HistoriesUtf8 b.histories
  interruptNode : Utf8.Valid b.interruptNode
  interruptReason : Utf8.Valid b.interruptReason
  pendingToolCalls : ∀ tc ∈ b.pendingToolCalls, tc.Utf8
  error : Utf8.Valid b.error

instance (b : BranchProgress) : Decidable b.Utf8 :=
  decidable_of_iff _ (BranchProgress.utf8_iff b).symm

@[mk_iff] structure ParallelProgress.Utf8 (progress : ParallelProgress) : Prop where
  node : Utf8.Valid progress.node
  branches : ∀ b ∈ progress.branches, b.Utf8

instance (progress : ParallelProgress) : Decidable progress.Utf8 :=
  decidable_of_iff _ (ParallelProgress.utf8_iff progress).symm

@[mk_iff] structure GraphRun.Utf8 (run : GraphRun) : Prop where
  threadId : Utf8.Valid run.threadId
  nextNode : Utf8.Valid run.nextNode
  interruptNode : Utf8.Valid run.interruptNode
  interruptReason : Utf8.Valid run.interruptReason
  pendingToolCalls : ∀ tc ∈ run.pendingToolCalls, tc.Utf8
  values : ValuesUtf8 run.state.values
  histories : HistoriesUtf8 run.state.histories

instance (run : GraphRun) : Decidable run.Utf8 := decidable_of_iff _ (GraphRun.utf8_iff run).symm

theorem valid_encodeValues (h : ValuesUtf8 values) : Utf8.Valid (encodeValues values) := by
  rw [encodeValues, valid_objText, forall_mem_map]
  intro e he
  have hv := h e (mem_of_mem_filter he)
  simp only [valid_keyedField, valid_jsonString]
  exact hv

theorem valid_encodeStrings (h : ∀ s ∈ items, Utf8.Valid s) :
    Utf8.Valid (encodeStrings items) := by
  rw [encodeStrings, valid_arrText, forall_mem_map]
  intro s hs
  exact (valid_jsonString s).2 (h s hs)

theorem valid_encodeHistories (histories : Table FlowMemory) (h : HistoriesUtf8 histories) :
    Utf8.Valid (encodeHistories histories) := by
  rw [encodeHistories, valid_objText, forall_mem_map]
  intro e he
  obtain ⟨hk, hm⟩ := h e he
  exact (valid_keyedField _ _).2 ⟨hk, valid_encodeHistoryJson e.2 hm⟩

theorem valid_encodeBranch (h : b.Utf8) : Utf8.Valid (encodeBranch b) := by
  rw [encodeBranch, valid_objText]
  simp only [forall_mem_cons, not_mem_nil, false_implies, implies_true, and_true]
  exact ⟨(valid_stringField _ _ (by decide)).2 h.entry,
    (valid_stringField _ _ (by decide)).2 (valid_branchStatusName _), (valid_stringField _ _ (by decide)).2 h.next,
    (valid_rawField _ _ (by decide)).2 (valid_encodeValues _ h.values),
    (valid_rawField _ _ (by decide)).2 (valid_encodeStrings _ h.erased),
    (valid_rawField _ _ (by decide)).2 (valid_encodeStrings _ h.writes),
    (valid_rawField _ _ (by decide)).2 (valid_encodeHistories _ h.histories),
    (valid_stringField _ _ (by decide)).2 h.interruptNode, (valid_stringField _ _ (by decide)).2 h.interruptReason,
    (valid_rawField _ _ (by decide)).2 (valid_encodeCalls _ h.pendingToolCalls),
    (valid_stringField _ _ (by decide)).2 h.error⟩

theorem valid_encodeProgress (h : progress.Utf8) : Utf8.Valid (encodeProgress progress) := by
  rw [encodeProgress, valid_objText]
  simp only [forall_mem_cons, not_mem_nil, false_implies, implies_true, and_true]
  refine ⟨(valid_stringField _ _ (by decide)).2 h.node, (valid_rawField _ _ (by decide)).2 ?_⟩
  rw [valid_arrText, forall_mem_map]
  exact fun b hb => valid_encodeBranch b (h.branches b hb)

theorem valid_encodeCheckpoint
    (progress : Option ParallelProgress) (hname : Utf8.Valid graphName) (hrun : run.Utf8)
    (hprogress : ∀ p ∈ progress, p.Utf8) : Utf8.Valid (encodeCheckpoint run graphName progress) := by
  unfold encodeCheckpoint
  rw [valid_objText, forall_mem_append]
  simp only [forall_mem_cons, not_mem_nil, false_implies, implies_true, and_true]
  refine ⟨⟨(valid_rawField _ _ (by decide)).2 (valid_decimalInt _), (valid_stringField _ _ (by decide)).2 hname,
    (valid_stringField _ _ (by decide)).2 hrun.threadId, (valid_rawField _ _ (by decide)).2 (valid_decimalInt _),
    (valid_stringField _ _ (by decide)).2 hrun.nextNode, (valid_stringField _ _ (by decide)).2 (valid_statusName _),
    (valid_stringField _ _ (by decide)).2 hrun.interruptNode,
    (valid_stringField _ _ (by decide)).2 hrun.interruptReason,
    (valid_rawField _ _ (by decide)).2 (valid_encodeCalls _ hrun.pendingToolCalls),
    (valid_rawField _ _ (by decide)).2 (valid_encodeValues _ hrun.values),
    (valid_rawField _ _ (by decide)).2 (valid_encodeHistories _ hrun.histories)⟩, ?_⟩
  cases progress with
  | none => simp
  | some p =>
    rw [forall_mem_singleton, valid_rawField _ _ (by decide)]
    exact valid_encodeProgress p (hprogress p rfl)

structure RestoresMessage (stored read : Message) : Prop where
  role : read.role = stored.role
  content : read.content = stored.content
  toolCallId : read.toolCallId = stored.toolCallId
  toolCalls : read.toolCalls = stored.toolCalls
  media : read.media = stored.media

/-- The conversations of the same names, message by message, with ids `<thread>:<name>`. -/
def RestoresHistories (threadId : Bytes) (stored read : Table FlowMemory) : Prop :=
  ∀ name : Bytes, Option.Rel (fun s r => r.id = threadId ++ lit ":" ++ name ∧
    List.Forall₂ RestoresMessage s.history r.history) stored[name]? read[name]?

/-- Exactly the values whose key is no `temp:` key. -/
def RestoresValues (stored read : Table Bytes) : Prop :=
  ∀ key : Bytes, read[key]? = if isTempKey key then none else stored[key]?

structure RestoresBranch (threadId : Bytes) (stored read : BranchProgress) : Prop where
  entry : read.entry = stored.entry
  status : read.status = stored.status
  next : read.next = stored.next
  values : RestoresValues stored.values read.values
  erased : read.erased = stored.erased
  writes : read.writes = stored.writes
  histories : RestoresHistories threadId stored.histories read.histories
  interruptNode : read.interruptNode = stored.interruptNode
  interruptReason : read.interruptReason = stored.interruptReason
  pendingToolCalls : read.pendingToolCalls = stored.pendingToolCalls
  error : read.error = stored.error

structure RestoresProgress (threadId : Bytes) (stored read : ParallelProgress) : Prop where
  node : read.node = stored.node
  branches : List.Forall₂ (RestoresBranch threadId) stored.branches read.branches

structure RestoresRun (threadId : Bytes) (stored read : GraphRun) : Prop where
  step : read.step = stored.step
  nextNode : read.nextNode = stored.nextNode
  status : read.status = stored.status
  interruptNode : read.interruptNode = stored.interruptNode
  interruptReason : read.interruptReason = stored.interruptReason
  pendingToolCalls : read.pendingToolCalls = stored.pendingToolCalls
  values : RestoresValues stored.state.values read.state.values
  histories : RestoresHistories threadId stored.state.histories read.state.histories

theorem restores_restoredHistories (histories : Table FlowMemory) :
    RestoresHistories threadId histories (restoredHistories threadId histories) := by
  intro name
  rw [restoredHistories, Std.ExtTreeMap.getElem?_map]
  cases histories[name]? with
  | none => exact .none
  | some memory =>
    refine .some ⟨rfl, ?_⟩
    rw [forall₂_map_right_iff, forall₂_same]
    exact fun msg _ => ⟨rfl, rfl, rfl, rfl, rfl⟩

theorem restores_dropTemp : RestoresValues values (dropTemp values) :=
  get_dropTemp values

theorem restores_restoredBranch : RestoresBranch threadId b (restoredBranch threadId b) :=
  ⟨rfl, rfl, rfl, restores_dropTemp _, rfl, rfl, restores_restoredHistories _ _, rfl, rfl, rfl, rfl⟩

theorem restores_restoredProgress (progress : ParallelProgress) :
    RestoresProgress threadId progress (restoredProgress threadId progress) := by
  refine ⟨rfl, ?_⟩
  rw [restoredProgress, forall₂_map_right_iff, forall₂_same]
  exact fun b _ => restores_restoredBranch threadId b

theorem restores_restoredRun : RestoresRun out.threadId run (restoredRun run out) :=
  ⟨rfl, rfl, rfl, rfl, rfl, rfl, restores_dropTemp _, restores_restoredHistories _ _⟩

/-- Every run and progress of valid strings comes back from its checkpoint,
whatever the run it is decoded into held before. -/
theorem checkpoint_round_trip (parser : JsonParser) (run out : GraphRun) (graphName : Bytes)
    (progress : Option ParallelProgress) (hname : Utf8.Valid graphName) (hrun : run.Utf8)
    (hprogress : ∀ p ∈ progress, p.Utf8) : ∃ run' progress',
      decodeCheckpoint parser (encodeCheckpoint run graphName progress) out true = .ok (run', progress') ∧
      RestoresRun out.threadId run run' ∧
      Option.Rel (RestoresProgress out.threadId) progress progress' := by
  have hvalid := valid_encodeCheckpoint run graphName progress hname hrun hprogress
  refine ⟨_, _, decodeCheckpoint_encodeCheckpoint parser run out graphName progress true hvalid,
    restores_restoredRun run out, ?_⟩
  cases progress with
  | none => exact .none
  | some p => exact .some (restores_restoredProgress out.threadId p)

/-- A paused run: quotes, control characters and a `temp:` key among the values,
a conversation with an open call, a branch that is still running. -/
def pausedRun : GraphRun :=
  { threadId := lit "t:1"
    status := .interrupted
    nextNode := lit "ask"
    step := 3
    interruptNode := lit "ask"
    interruptReason := lit "say \"yes\""
    state :=
      { values := (∅ : Table Bytes).insert (lit "k\n") (lit "\\v\"") |>.insert (lit "temp:x") (lit "1")
        histories := (∅ : Table FlowMemory).insert (lit "ask")
          ⟨[], [{ role := lit "assistant", toolCalls := [⟨lit "c1", lit "rm", lit "\x7b\x7d"⟩] }]⟩ } }

def runningBranch : BranchProgress :=
  { entry := lit "b", status := .running, next := lit "c", erased := [lit "k"], writes := [lit "w"] }

theorem checkpoint_round_trip_pausedRun : ∃ run' progress', decodeCheckpoint JsonReader.parser
        (encodeCheckpoint pausedRun (lit "g") (some ⟨lit "ask", [runningBranch]⟩))
        { threadId := lit "t:1" } true = .ok (run', progress') ∧
      RestoresRun (lit "t:1") pausedRun run' ∧
      Option.Rel (RestoresProgress (lit "t:1")) (some ⟨lit "ask", [runningBranch]⟩) progress' := by
  exact checkpoint_round_trip JsonReader.parser pausedRun { threadId := lit "t:1" } (lit "g")
    (some ⟨lit "ask", [runningBranch]⟩) (by decide) (by decide) (by decide)

end AgentCpp
