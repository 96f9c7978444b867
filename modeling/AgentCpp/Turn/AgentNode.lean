import AgentCpp.Graph.Executor
import AgentCpp.Turn.SystemPrompt

/-!
# The turn of an Agent node (`run_turn_with_media`, `run_agent_node`)

With `interrupt_before_tools` the node installs `pause_before_tools` for its thread; a turn that
pauses raises the thread's flag `tools_paused`, which the node reads when its turn returns.
-/

namespace AgentCpp.AgentNode
open Lib

structure Ambient where
  pauseFn : Bool := false
  toolsPaused : Bool := false

structure TurnState where
  ambient : Ambient
  history : List CountedMessage

structure TurnEnv where
  cfg : TurnConfig := {}
  summarize : Bytes → Result Bytes
  maxToolCallRounds : ℤ := 10
  permissionCheck : Option (ToolCall → PermissionDecision) := none

mutual

/- What the provider answers in one turn; `retried`: a request failed and is sent again without
media from tools. -/
inductive Replies where
  | failed (error : Error)
  | retried (next : Replies)
  | text (content : Bytes)
  | calls (content : Bytes) (calls : Calls) (next : Replies)

/- Tool calls, each with what its callback runs, what it does to the history, and its result. -/
inductive Calls where
  | nil
  | cons (call : ToolCall) (callback : Activity) (edits : List CountedMessage → List CountedMessage)
      (result : ToolResult) (rest : Calls)

/- The turns a tool callback runs on other conversations: `run_turn` of its own, or Agent
nodes of a graph. -/
inductive Activity where
  | done
  | turn (history : List CountedMessage) (prompt : Bytes) (replies : Replies) (rest : Activity)
  | node (interruptBeforeTools : Bool) (history : List CountedMessage) (prompt : Bytes) (replies : Replies)
      (rest : Activity)

end

def Calls.toolCalls : Calls → List ToolCall
  | .nil => []
  | .cons call _ _ _ rest => call :: rest.toolCalls

/- How a turn ends. `run_turn` returns ok both when it is finished and when it pauses. -/
inductive TurnEnd where
  | failed (error : Error)
  | finished (text : Bytes)
  | paused (text : Bytes)
  deriving DecidableEq

def TurnEnd.reply : TurnEnd → Result Bytes
  | .failed error => .error error
  | .finished text => .ok text
  | .paused text => .ok text

def TurnEnd.isPaused : TurnEnd → Bool
  | .paused _ => true
  | _ => false

def TurnEnd.isFinished : TurnEnd → Bool
  | .finished _ => true
  | _ => false

def pauseBeforeTools (permissionCheck : Option (ToolCall → PermissionDecision)) (calls : List ToolCall) : Bool :=
  match permissionCheck with
  | none => true
  | some check => calls.any fun call => check call = .ask

def assistantMessage (content : Bytes) (calls : List ToolCall) : CountedMessage :=
  { role := lit "assistant", content, toolCalls := calls }

/- The user message, and the compression of a history that has grown long. A `keep_recent` of
6 does not wrap. -/
def startTurn (env : TurnEnv) (prompt : Bytes) (history : List CountedMessage) : List CountedMessage :=
  let history := if prompt.isEmpty then history else history ++ [{ role := lit "user", content := prompt }]
  let counted := history.map (cacheTokens env.cfg)
  if (int32 (env.cfg.contextWindow * 7)).tdiv 10 < historyTokens env.cfg counted ∧ 6 < counted.length then
    (compressContext env.summarize counted 6).getD counted
  else counted

def TurnState.answered (env : TurnEnv) (s : TurnState) (content : Bytes) (calls : List ToolCall) : TurnState :=
  { s with history := pruneHistoryState env.cfg s.history ++ [assistantMessage content calls] }

def roundLimitError (env : TurnEnv) : Error :=
  ⟨.toolCallLimitExceeded,
    lit "Exceeded max_tool_call_rounds (" ++ decimalInt env.maxToolCallRounds ++ lit ")"⟩

/- `~AmbientScope` puts back what the node found, whatever its turn left. -/
def leaveAmbient (found : Ambient) (_ : TurnEnd × TurnState) : Ambient := found

mutual

def runReplies (env : TurnEnv) : Replies → ℕ → TurnState → TurnEnd × TurnState
  | .failed error, _, s => (.failed error, { s with history := pruneHistoryState env.cfg s.history })
  | .retried next, rounds, s => runReplies env next rounds { s with history := pruneHistoryState env.cfg s.history }
  | .text content, _, s => (.finished content, s.answered env content [])
  | .calls content calls next, rounds, s =>
    let s := s.answered env content calls.toolCalls
    if calls.toolCalls.isEmpty then (.finished content, s)
    else if s.ambient.pauseFn && pauseBeforeTools env.permissionCheck calls.toolCalls then
      (.paused content, { s with ambient := { s.ambient with toolsPaused := true } })
    else if env.maxToolCallRounds ≤ rounds then (.failed (roundLimitError env), s)
    else runReplies env next (rounds + 1) (runCalls env calls s)

def runCalls (env : TurnEnv) : Calls → TurnState → TurnState
  | .nil, s => s
  | .cons call callback edits result rest, s =>
    runCalls env rest
      { ambient := runActivity env callback s.ambient, history := edits s.history ++ [toolMessage call result] }

def runActivity (env : TurnEnv) : Activity → Ambient → Ambient
  | .done, ambient => ambient
  | .turn history prompt replies rest, ambient =>
    runActivity env rest (runReplies env replies 0 ⟨ambient, startTurn env prompt history⟩).2.ambient
  | .node interruptBeforeTools history prompt replies rest, ambient =>
    runActivity env rest (leaveAmbient ambient
      (runReplies env replies 0 ⟨{ pauseFn := interruptBeforeTools }, startTurn env prompt history⟩))

end

def runTurn (env : TurnEnv) (prompt : Bytes) (replies : Replies) (s : TurnState) : TurnEnd × TurnState :=
  runReplies env replies 0 { s with history := startTurn env prompt s.history }

/- `PendingResume` with the calls a paused turn left; `approved` is the human's answer. -/
structure ApprovedCalls where
  calls : Calls
  approved : Bool
  humanInput : Bytes := []

def deniedText (humanInput : Bytes) : Bytes :=
  lit "Error: tool call denied by human reviewer" ++ if humanInput.isEmpty then [] else lit ": " ++ humanInput

def callPolicy (env : TurnEnv) (call : ToolCall) : PermissionDecision :=
  match env.permissionCheck with
  | none => .ask
  | some check => check call

/- `run_approved_call` for each call, and its result message. -/
def runApprovedCalls (env : TurnEnv) (approved : Bool) (humanInput : Bytes) : Calls → TurnState → TurnState
  | .nil, s => s
  | .cons call callback edits result rest, s =>
    runApprovedCalls env approved humanInput rest
      (if callPolicy env call = .ask ∧ approved = false then
        { s with history := s.history ++ [toolMessage call { text := deniedText humanInput }] }
      else
        { ambient := runActivity env callback s.ambient, history := edits s.history ++ [toolMessage call result] })

def agentSystemPrompt (pos : Pos) (node : GraphNode) (state : GraphState) : Result Bytes :=
  match node.contextProvider with
  | none => .ok node.systemPrompt
  | some provider =>
    match provider pos state with
    | .error e => .error e
    | .ok extra =>
      .ok (if extra.isEmpty then node.systemPrompt
        else if node.systemPrompt.isEmpty then extra else extra ++ lit "\n" ++ node.systemPrompt)

def agentPrompt (node : GraphNode) (state : GraphState) : Bytes :=
  if node.inputKey ≠ [] ∧ hasState state node.inputKey then getState state node.inputKey else node.prompt

/- The calls of the last message are taken for the pending ones. -/
def agentPause (s : TurnState) : Option AgentPause :=
  if s.ambient.toolsPaused then
    let pending := (s.history.getLast?.map (·.toolCalls)).getD []
    some { pending, reason := lit "approval required for tool call:" ++ pending.flatMap fun tc => lit " " ++ tc.name }
  else none

def agentTurn (env : TurnEnv) (node : GraphNode) (prompt : Bytes) (resume : Option ApprovedCalls)
    (history : List CountedMessage) (replies : Replies) : TurnEnd × TurnState :=
  let s : TurnState := { ambient := { pauseFn := node.interruptBeforeTools }, history }
  match resume with
  | none => runTurn env prompt replies s
  | some resume => runTurn env [] replies (runApprovedCalls env resume.approved resume.humanInput resume.calls s)

/- The node's own turn, if it is run: with the node's system prompt in place (`Turn/SystemPrompt`). -/
def nodeTurn (env : TurnEnv) (pos : Pos) (ctx : ChainCtx) (node : GraphNode) (state : GraphState)
    (resume : Option ApprovedCalls) (history : List CountedMessage) (replies : Replies) :
    Result (TurnEnd × TurnState) :=
  if node.interruptBeforeTools ∧ 1 < ctx.depth then
    fail .invalidConfig (lit "agent node '" ++ node.name ++
      lit "': interrupt_before_tools is not supported inside nested parallel branches")
  else match agentSystemPrompt pos node state with
    | .error e => .error e
    | .ok systemPrompt =>
      .ok (agentTurn env node (agentPrompt node state) resume (SystemPromptScope.enter systemPrompt history).2 replies)

def turnReport (r : TurnEnd × TurnState) : Result (Option AgentPause) :=
  match r.1.reply with
  | .error e => .error e
  | .ok _ => .ok (agentPause r.2)

def runAgentNode (env : TurnEnv) (pos : Pos) (ctx : ChainCtx) (node : GraphNode) (state : GraphState)
    (resume : Option ApprovedCalls) (history : List CountedMessage) (replies : Replies) :
    Result (Option AgentPause) :=
  match nodeTurn env pos ctx node state resume history replies with
  | .error e => .error e
  | .ok r => turnReport r

/-!
What a turn does is decided by the answers alone: which of its rounds are executed, whether it
waits or finishes, and whether a turn that one of its callbacks runs waits.
-/

section
variable (env : TurnEnv) (pauseFn : Bool)

def waitsFor (calls : List ToolCall) : Bool := pauseFn && pauseBeforeTools env.permissionCheck calls

def executes (calls : List ToolCall) (rounds : ℕ) : Bool :=
  !calls.isEmpty && !waitsFor env pauseFn calls && !decide (env.maxToolCallRounds ≤ rounds)

def Replies.waits : Replies → ℕ → Bool
  | .failed _, _ => false
  | .retried next, rounds => next.waits rounds
  | .text _, _ => false
  | .calls _ asked next, rounds =>
    if executes env pauseFn asked.toolCalls rounds then next.waits (rounds + 1)
    else !asked.toolCalls.isEmpty && waitsFor env pauseFn asked.toolCalls

def Replies.finishes : Replies → ℕ → Bool
  | .failed _, _ => false
  | .retried next, rounds => next.finishes rounds
  | .text _, _ => true
  | .calls _ asked next, rounds =>
    if executes env pauseFn asked.toolCalls rounds then next.finishes (rounds + 1) else asked.toolCalls.isEmpty

mutual

def Replies.callbackWaits : Replies → ℕ → Bool
  | .failed _, _ => false
  | .retried next, rounds => next.callbackWaits rounds
  | .text _, _ => false
  | .calls _ asked next, rounds =>
    executes env pauseFn asked.toolCalls rounds && (asked.callbackWaits || next.callbackWaits (rounds + 1))

def Calls.callbackWaits : Calls → Bool
  | .nil => false
  | .cons _ callback _ _ rest => callback.waits || rest.callbackWaits

/- An Agent node inside the callback keeps its pauses to itself. -/
def Activity.waits : Activity → Bool
  | .done => false
  | .turn _ _ replies rest => replies.waits env pauseFn 0 || replies.callbackWaits 0 || rest.waits
  | .node _ _ _ _ rest => rest.waits

end

def approvedCallbackWaits (approved : Bool) : Calls → Bool
  | .nil => false
  | .cons call callback _ _ rest =>
    (!decide (callPolicy env call = .ask ∧ approved = false) && callback.waits env pauseFn) ||
      approvedCallbackWaits approved rest

def resumeWaits : Option ApprovedCalls → Bool
  | none => false
  | some resume => approvedCallbackWaits env pauseFn resume.approved resume.calls

end

/- The flag is up after a turn if it was before, or the turn has waited, or a callback's turn has. -/
structure Foretold (env : TurnEnv) (replies : Replies) (rounds : ℕ) (s : TurnState) (r : TurnEnd × TurnState) :
    Prop where
  pauseFn : r.2.ambient.pauseFn = s.ambient.pauseFn
  toolsPaused : r.2.ambient.toolsPaused = (s.ambient.toolsPaused ||
    (replies.waits env s.ambient.pauseFn rounds || replies.callbackWaits env s.ambient.pauseFn rounds))
  paused : r.1.isPaused = replies.waits env s.ambient.pauseFn rounds
  finished : r.1.isFinished = replies.finishes env s.ambient.pauseFn rounds
  last : r.1.isPaused = true → ∃ last ∈ r.2.history.getLast?, last.hasCalls = true

/- The ambient state after callbacks, of which one waits or none does. -/
structure Ambient.After (ambient : Ambient) (waits : Bool) (ambient' : Ambient) : Prop where
  pauseFn : ambient'.pauseFn = ambient.pauseFn
  toolsPaused : ambient'.toolsPaused = (ambient.toolsPaused || waits)

theorem Ambient.After.refl (ambient : Ambient) : ambient.After false ambient := ⟨rfl, (Bool.or_false _).symm⟩

theorem Ambient.After.trans {a b c : Ambient} {first second : Bool} (h : a.After first b) (h' : b.After second c) :
    a.After (first || second) c :=
  ⟨h'.pauseFn.trans h.pauseFn, by rw [h'.toolsPaused, h.toolsPaused, Bool.or_assoc]⟩

theorem assistantMessage_hasCalls (content : Bytes) (calls : List ToolCall) :
    (assistantMessage content calls).hasCalls = !calls.isEmpty := rfl

/- The rest of a turn after an executed round. -/
theorem Foretold.executed {env : TurnEnv} {content : Bytes} {calls : Calls} {next : Replies} {rounds : ℕ}
    {s s' : TurnState} {r : TurnEnd × TurnState}
    (hexecutes : executes env s.ambient.pauseFn calls.toolCalls rounds = true)
    (hcalls : s.ambient.After (calls.callbackWaits env s.ambient.pauseFn) s'.ambient)
    (h : Foretold env next (rounds + 1) s' r) : Foretold env (.calls content calls next) rounds s r := by
  obtain ⟨hpause, hflag, hpaused, hfinished, hlast⟩ := h
  rw [hcalls.pauseFn] at hpause hflag hpaused hfinished
  refine ⟨hpause, ?_, ?_, ?_, hlast⟩
  · rw [hflag, hcalls.toolsPaused, Replies.waits, if_pos hexecutes, Replies.callbackWaits, hexecutes, Bool.true_and,
      Bool.or_assoc]
    congr 1
    exact Bool.or_left_comm _ _ _
  · rw [hpaused, Replies.waits, if_pos hexecutes]
  · rw [hfinished, Replies.finishes, if_pos hexecutes]

mutual

theorem runReplies_foretold (env : TurnEnv) (replies : Replies) (rounds : ℕ) (s : TurnState) :
    Foretold env replies rounds s (runReplies env replies rounds s) := by
  cases replies with
  | failed error =>
    rw [runReplies]
    exact ⟨rfl, (Bool.or_false _).symm, rfl, rfl, nofun⟩
  | retried next =>
    rw [runReplies]
    have h := runReplies_foretold env next rounds { s with history := pruneHistoryState env.cfg s.history }
    exact { h with }
  | text content =>
    rw [runReplies]
    exact ⟨rfl, (Bool.or_false _).symm, rfl, rfl, nofun⟩
  | calls content calls next =>
    rw [runReplies]
    -- the same tests in the same order: no calls, a pause, the limit of rounds
    cases hempty : calls.toolCalls.isEmpty with
    | true =>
      refine ⟨rfl, ?_, ?_, ?_, nofun⟩ <;>
        simp [Replies.waits, Replies.finishes, Replies.callbackWaits, executes, hempty, TurnState.answered,
          TurnEnd.isPaused, TurnEnd.isFinished]
    | false =>
      have hask : ((s.answered env content calls.toolCalls).ambient.pauseFn &&
          pauseBeforeTools env.permissionCheck calls.toolCalls) = waitsFor env s.ambient.pauseFn calls.toolCalls := rfl
      simp only [hask, Bool.false_eq_true, if_false]
      cases hwait : waitsFor env s.ambient.pauseFn calls.toolCalls with
      | true =>
        refine ⟨rfl, ?_, ?_, ?_, fun _ => ⟨assistantMessage content calls.toolCalls, List.getLast?_concat, ?_⟩⟩
        · simp [Replies.waits, executes, hempty, hwait]
        · simp [Replies.waits, executes, hempty, hwait, TurnEnd.isPaused]
        · simp [Replies.finishes, executes, hempty, hwait, TurnEnd.isFinished]
        · rw [assistantMessage_hasCalls, hempty]
          rfl
      | false =>
        simp only [Bool.false_eq_true, if_false]
        split
        · next hlimit =>
          refine ⟨rfl, ?_, ?_, ?_, nofun⟩ <;>
            simp [Replies.waits, Replies.finishes, Replies.callbackWaits, executes, hempty, hwait, hlimit,
              TurnState.answered, TurnEnd.isPaused, TurnEnd.isFinished]
        · next hlimit =>
          have hexecutes : executes env s.ambient.pauseFn calls.toolCalls rounds = true := by
            simp [executes, hempty, hwait, hlimit]
          exact .executed hexecutes (runCalls_after env calls (s.answered env content calls.toolCalls))
            (runReplies_foretold env next _ _)

theorem runCalls_after (env : TurnEnv) (calls : Calls) (s : TurnState) :
    s.ambient.After (calls.callbackWaits env s.ambient.pauseFn) (runCalls env calls s).ambient := by
  cases calls with
  | nil =>
    rw [runCalls, Calls.callbackWaits]
    exact .refl _
  | cons call callback edits result rest =>
    rw [runCalls, Calls.callbackWaits]
    have hcallback := runActivity_after env callback s.ambient
    have hrest := runCalls_after env rest
      ⟨runActivity env callback s.ambient, edits s.history ++ [toolMessage call result]⟩
    rw [hcallback.pauseFn] at hrest
    exact hcallback.trans hrest

theorem runActivity_after (env : TurnEnv) (activity : Activity) (ambient : Ambient) :
    ambient.After (activity.waits env ambient.pauseFn) (runActivity env activity ambient) := by
  cases activity with
  | done =>
    rw [runActivity, Activity.waits]
    exact .refl _
  | turn history prompt replies rest =>
    rw [runActivity, Activity.waits]
    have hturn := runReplies_foretold env replies 0 ⟨ambient, startTurn env prompt history⟩
    have hrest := runActivity_after env rest (runReplies env replies 0 ⟨ambient, startTurn env prompt history⟩).2.ambient
    rw [hturn.pauseFn] at hrest
    exact Ambient.After.trans ⟨hturn.pauseFn, hturn.toolsPaused⟩ hrest
  | node interruptBeforeTools history prompt replies rest =>
    rw [runActivity, Activity.waits]
    exact runActivity_after env rest ambient

end

theorem runApprovedCalls_after (env : TurnEnv) (approved : Bool) (humanInput : Bytes) (calls : Calls)
    (s : TurnState) : s.ambient.After (approvedCallbackWaits env s.ambient.pauseFn approved calls)
      (runApprovedCalls env approved humanInput calls s).ambient := by
  match calls with
  | .nil =>
    rw [runApprovedCalls, approvedCallbackWaits]
    exact .refl _
  | .cons call callback edits result rest =>
    rw [runApprovedCalls, approvedCallbackWaits]
    by_cases hdenied : callPolicy env call = .ask ∧ approved = false
    · rw [if_pos hdenied, decide_eq_true hdenied]
      exact runApprovedCalls_after env approved humanInput rest
        { s with history := s.history ++ [toolMessage call { text := deniedText humanInput }] }
    · rw [if_neg hdenied, decide_eq_false hdenied]
      have hcallback := runActivity_after env callback s.ambient
      have hrest := runApprovedCalls_after env approved humanInput rest
        ⟨runActivity env callback s.ambient, edits s.history ++ [toolMessage call result]⟩
      rw [hcallback.pauseFn] at hrest
      exact hcallback.trans hrest

/- The node's turn: how it ends, and the flag it leaves. -/
structure TurnForetold (env : TurnEnv) (pauseFn : Bool) (resume : Option ApprovedCalls) (replies : Replies)
    (r : TurnEnd × TurnState) : Prop where
  toolsPaused : r.2.ambient.toolsPaused =
    (replies.waits env pauseFn 0 || (resumeWaits env pauseFn resume || replies.callbackWaits env pauseFn 0))
  paused : r.1.isPaused = replies.waits env pauseFn 0
  finished : r.1.isFinished = replies.finishes env pauseFn 0
  last : r.1.isPaused = true → ∃ last ∈ r.2.history.getLast?, last.hasCalls = true

theorem Foretold.turnForetold {env : TurnEnv} {pauseFn : Bool} {resume : Option ApprovedCalls} {replies : Replies}
    {s : TurnState} {r : TurnEnd × TurnState} (h : Foretold env replies 0 s r)
    (hs : Ambient.After { pauseFn } (resumeWaits env pauseFn resume) s.ambient) :
    TurnForetold env pauseFn resume replies r := by
  obtain ⟨-, hflag, hpaused, hfinished, hlast⟩ := h
  rw [hs.pauseFn] at hflag hpaused hfinished
  rw [hs.toolsPaused, Bool.false_or, Bool.or_left_comm] at hflag
  exact ⟨hflag, hpaused, hfinished, hlast⟩

theorem agentTurn_foretold (env : TurnEnv) (node : GraphNode) (prompt : Bytes) (resume : Option ApprovedCalls)
    (history : List CountedMessage) (replies : Replies) :
    TurnForetold env node.interruptBeforeTools resume replies
      (agentTurn env node prompt resume history replies) := by
  cases resume with
  | none => exact (runReplies_foretold env replies 0 _).turnForetold (.refl _)
  | some resume =>
    let start : TurnState := ⟨{ pauseFn := node.interruptBeforeTools }, history⟩
    have hresumed := runApprovedCalls_after env resume.approved resume.humanInput resume.calls start
    exact (runReplies_foretold env replies 0 _).turnForetold hresumed

theorem agentPause_isSome (s : TurnState) : (agentPause s).isSome = s.ambient.toolsPaused := by
  unfold agentPause
  cases s.ambient.toolsPaused <;> rfl

theorem agentPause_pending {s : TurnState} {pause : AgentPause} {last : CountedMessage}
    (h : agentPause s = some pause) (hlast : s.history.getLast? = some last) : pause.pending = last.toolCalls := by
  unfold agentPause at h
  split at h
  · cases h
    rw [hlast]
    rfl
  · cases h

theorem toolCalls_ne_nil_of_hasCalls {m : Message} (h : m.hasCalls = true) : m.toolCalls ≠ [] := by
  unfold Message.hasCalls at h
  have hcalls := (Bool.and_eq_true _ _ ▸ h).2
  intro hnil
  rw [hnil] at hcalls
  cases hcalls

/- The turn has paused: the last message holds calls that were not executed. -/
def CallsWaiting (turn : Result (TurnEnd × TurnState)) (calls : List ToolCall) : Prop :=
  ∃ turnEnd s last, turn = .ok (turnEnd, s) ∧ turnEnd.isPaused = true ∧ s.history.getLast? = some last ∧
    last.hasCalls = true ∧ last.toolCalls = calls

/- What the caller of the node learns of its turn: interrupted exactly if calls are waiting, and then
which. -/
def ReportsWaiting (turn : Result (TurnEnd × TurnState)) (report : Result (Option AgentPause)) : Prop :=
  ((∃ pause, report = .ok (some pause)) ↔ ∃ calls, CallsWaiting turn calls) ∧
    ∀ pause, report = .ok (some pause) → CallsWaiting turn pause.pending ∧ pause.pending ≠ []

/- A turn that a callback runs waits, and the node's own turn goes on and finishes. -/
def FinishesAfterWait (env : TurnEnv) (pauseFn : Bool) (resume : Option ApprovedCalls) (replies : Replies) : Prop :=
  (resumeWaits env pauseFn resume = true ∨ replies.callbackWaits env pauseFn 0 = true) ∧
    replies.finishes env pauseFn 0 = true

theorem callsWaiting_iff {r : TurnEnd × TurnState} (calls : List ToolCall) :
    CallsWaiting (.ok r) calls ↔ r.1.isPaused = true ∧
      ∃ last ∈ r.2.history.getLast?, last.hasCalls = true ∧ last.toolCalls = calls := by
  constructor
  · rintro ⟨turnEnd, s, last, hturn, hpaused, hlast, hcalls⟩
    cases hturn
    exact ⟨hpaused, last, hlast, hcalls⟩
  · rintro ⟨hpaused, last, hlast, hcalls⟩
    exact ⟨r.1, r.2, last, rfl, hpaused, hlast, hcalls⟩

/- A turn that is not paused reports well unless it has finished with the flag up. -/
theorem reportsWaiting_of_not_paused {r : TurnEnd × TurnState} (hpaused : r.1.isPaused = false) :
    ReportsWaiting (.ok r) (turnReport r) ↔ ¬ (r.2.ambient.toolsPaused = true ∧ r.1.isFinished = true) := by
  have hnone : ∀ calls, ¬ CallsWaiting (.ok r) calls := by
    intro calls h
    rw [callsWaiting_iff, hpaused] at h
    cases h.1
  have hreport : (∃ pause, turnReport r = .ok (some pause)) ↔
      r.2.ambient.toolsPaused = true ∧ r.1.isFinished = true := by
    rw [← agentPause_isSome, Option.isSome_iff_exists]
    unfold turnReport
    cases hend : r.1 with
    | failed e => simp [TurnEnd.reply, TurnEnd.isFinished]
    | finished text => simp [TurnEnd.reply, TurnEnd.isFinished]
    | paused text =>
      rw [hend] at hpaused
      cases hpaused
  unfold ReportsWaiting
  rw [hreport]
  constructor
  · rintro ⟨hiff, -⟩ hup
    obtain ⟨calls, hcalls⟩ := hiff.1 hup
    exact hnone calls hcalls
  · intro hdown
    refine ⟨iff_of_false hdown fun ⟨calls, hcalls⟩ => hnone calls hcalls, fun pause hpause => ?_⟩
    exact absurd (hreport.1 ⟨pause, hpause⟩) hdown

theorem reportsWaiting_of_paused {r : TurnEnd × TurnState} (hpaused : r.1.isPaused = true)
    (hflag : r.2.ambient.toolsPaused = true) (hlast : ∃ last ∈ r.2.history.getLast?, last.hasCalls = true) :
    ReportsWaiting (.ok r) (turnReport r) := by
  obtain ⟨last, hlast, hcalls⟩ := hlast
  have hwaiting : CallsWaiting (.ok r) last.toolCalls := (callsWaiting_iff _).2 ⟨hpaused, last, hlast, hcalls, rfl⟩
  have hreport : turnReport r = .ok (agentPause r.2) := by
    unfold turnReport
    cases hend : r.1 with
    | failed e => rw [hend] at hpaused; cases hpaused
    | finished text => rw [hend] at hpaused; cases hpaused
    | paused text => rfl
  obtain ⟨pause, hpause⟩ := Option.isSome_iff_exists.1 ((agentPause_isSome r.2).trans hflag)
  refine ⟨iff_of_true ⟨pause, by rw [hreport, hpause]⟩ ⟨_, hwaiting⟩, ?_⟩
  intro p hp
  have hpending := agentPause_pending (Except.ok.inj (hreport.symm.trans hp)) hlast
  rw [hpending]
  exact ⟨hwaiting, toolCalls_ne_nil_of_hasCalls hcalls⟩

theorem reportsWaiting_error (error error' : Error) : ReportsWaiting (.error error) (.error error') := by
  have hnone : ∀ pause, ¬ (Except.error error' : Result (Option AgentPause)) = .ok (some pause) := nofun
  refine ⟨iff_of_false (fun ⟨pause, h⟩ => hnone pause h) ?_, fun pause h => absurd h (hnone pause)⟩
  rintro ⟨calls, turnEnd, s, last, h, -⟩
  cases h

def askToDelete : TurnEnv where
  summarize := fun _ => .ok []
  permissionCheck := some fun call => if call.name = lit "delete" then .ask else .allow

def approvalNode : GraphNode := { name := lit "agent", kind := .agent, interruptBeforeTools := true }

def deleteCall : ToolCall := ⟨lit "d", lit "delete", []⟩

/- A search whose callback runs a turn on another conversation, which asks for a deletion. -/
def searchCalls : Calls :=
  .cons ⟨lit "s", lit "search", []⟩
    (.turn [] (lit "q") (.calls [] (.cons deleteCall .done id { text := [] } .nil) (.text [])) .done)
    id { text := lit "found" } .nil

end AgentCpp.AgentNode
