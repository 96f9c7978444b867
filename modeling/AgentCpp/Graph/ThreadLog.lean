import AgentCpp.Graph.Drive
import AgentCpp.Graph.CheckpointerRefinement
import AgentCpp.Graph.Threads
import AgentCpp.Lib.JsonReader

/-!
# The event log of a thread

The persisted log of a thread is what the calls on it have appended, in their order, as long as each
call that answers abandoned tool calls comes to its first checkpoint.
-/

namespace AgentCpp
open Lib List

namespace Runtime

variable {cfg : WriterConfig} {parser : JsonParser} {s s' : Runtime}

def eventsOf (s : Runtime) (t : Bytes) : List GraphEvent := (s.appended.filter (·.1 = t)).flatMap (·.2)

def Repairs {τ : Type} (parser : JsonParser) (s : Runtime) : RuntimeAct τ → Prop
  | .call call => call.Repairs parser ⟨s.disk, s.store⟩
  | _ => True

structure Logged (s : Runtime) : Prop where
  persisted : ∀ t, memEvents s.disk t = (ofThread t s.reached).flatMap Job.logged
  line : ∀ t, (s.line t).flatMap Job.logged = s.eventsOf t

theorem memEvents_memExecute (disk : MemCheckpointer) (now : Int64) (job : Job) (t : Bytes) :
    memEvents (memExecute disk now job) t = memEvents disk t ++ (ofThread t [job]).flatMap Job.logged := by
  have hown : job.threadId = t → (ofThread t [job]).flatMap Job.logged = job.logged := by
    intro ht
    rw [ofThread_own ht]
    exact append_nil _
  have hother : job.threadId ≠ t → (ofThread t [job]).flatMap Job.logged = [] := by
    intro ht
    rw [ofThread_none (noJobs_singleton ht)]
    rfl
  cases hevents : job.isEvents with
  | true =>
    have hlogged : job.logged = job.events := if_pos hevents
    unfold memExecute
    rw [if_pos hevents, memEvents_memAppendEvents]
    split
    · next ht => rw [hown ht, hlogged, ht]
    · next ht => rw [hother ht, append_nil]
  | false =>
    have hlogged : job.logged = [] := if_neg (ne_true_of_eq_false hevents)
    unfold memExecute
    rw [if_neg (ne_true_of_eq_false hevents)]
    change memEvents disk t = _
    by_cases ht : job.threadId = t
    · rw [hown ht, hlogged, append_nil]
    · rw [hother ht, append_nil]

theorem Logged.ticks (h : Logged s) (ht : Ticks s s') : Logged s' := by
  have hevents : ∀ t, s'.eventsOf t = s.eventsOf t := by
    intro t
    unfold eventsOf
    rw [ht.appended]
  refine ⟨fun t => ?_, fun t => ?_⟩
  · rcases ht.reached with ⟨hreached, hdisk⟩ | ⟨now, job, hreached, hdisk⟩
    · rw [hreached, hdisk]
      exact h.persisted t
    · rw [hreached, hdisk, memEvents_memExecute, h.persisted t, ofThread_append, flatMap_append]
  · rw [ht.line t, hevents t]
    exact h.line t

theorem exec_logged {τ : Type} {call : GraphCall τ} {world : World} {d : RunCtx τ} {r : Result Unit}
    (hrepairs : call.Repairs parser world) (h : call.exec parser world = (d, some r)) :
    (jobsOf d.issued).flatMap Job.logged = d.run.events.drop call.given.events.length := by
  rcases GraphCall.exec_returns h with ⟨hissued, hevents, -⟩ | ⟨start, -, hwrites⟩
  · rw [hissued, hevents hrepairs, drop_length]
    rfl
  · exact hwrites.log

theorem Logged.called {τ : Type} {call : GraphCall τ} {d : RunCtx τ} (h : Logged s)
    (hrepairs : call.Repairs parser ⟨s.disk, s.store⟩) (hc : Called parser call d s s') : Logged s' := by
  obtain ⟨r, hexec⟩ := hc.returns
  refine ⟨fun t => ?_, fun t => ?_⟩
  · rw [hc.disk, hc.reached]
    exact h.persisted t
  · rw [hc.line t]
    unfold eventsOf
    rw [hc.appended, filter_append, flatMap_append]
    split
    · next ht =>
      rw [flatMap_append, h.line t, exec_logged hrepairs hexec, filter_singleton,
        decide_eq_true ht.symm]
      exact congrArg (s.eventsOf t ++ ·) (append_nil _).symm
    · next ht =>
      rw [h.line t, filter_singleton, decide_eq_false fun heq => ht heq.symm]
      exact (append_nil _).symm

theorem Logged.deleted {t : Bytes} (h : Logged s) (hd : Deleted t s s') : Logged s' := by
  refine ⟨fun u => ?_, fun u => ?_⟩
  · rw [hd.disk, hd.reached, memEvents_memDeleteThread, ofThread_filter_ne]
    by_cases htu : u = t
    · rw [if_pos htu, if_pos htu.symm]
      rfl
    · rw [if_neg htu, if_neg fun heq => htu heq.symm]
      exact h.persisted u
  · rw [hd.line u]
    unfold eventsOf
    rw [hd.appended, filter_filter]
    split
    · next htu =>
      refine List.flatMap_eq_nil_iff.2 ?_ |>.symm
      intro entry hentry
      simp [htu] at hentry
    · next htu =>
      rw [h.line u]
      unfold eventsOf
      refine congrArg (List.flatMap _) (filter_congr fun entry _ => ?_)
      by_cases hentry : entry.1 = u
      · simp [hentry, htu]
      · simp [hentry]

theorem step_logged {τ : Type} (hq : Queued cfg s) (h : Logged s) {act : RuntimeAct τ} (hok : s.Repairs parser act)
    (hstep : s.step cfg parser act = some s') : Queued cfg s' ∧ Logged s' := by
  obtain ⟨hq', hticks | ⟨call, d, rfl, hcalled⟩ | ⟨t, hdeleted⟩⟩ := step_cases hq hstep
  · exact ⟨hq', h.ticks hticks⟩
  · exact ⟨hq', h.called hok hcalled⟩
  · exact ⟨hq', h.deleted hdeleted⟩

/-- The log of a thread at any time is a beginning of what its calls have appended, and all of
it when no call on the thread is under way. -/
theorem persisted_log_complete {τ : Type} (cfg : WriterConfig) (parser : JsonParser) (store : Store)
    (acts : List (RuntimeAct τ)) (s : Runtime) (hmeets : Meets (step cfg parser) (Repairs parser) { store } acts)
    (hrun : run (step cfg parser) { store } acts = some s) (t : Bytes) :
    ∃ log, memListEvents s.disk t = .ok log ∧ log <+: s.eventsOf t ∧
      (s.idle t = true → log = s.eventsOf t) := by
  have hinv : Queued cfg s ∧ Logged s := by
    have hkeeps : ∀ s (a : RuntimeAct τ) s', Queued cfg s ∧ Logged s → Repairs parser s a →
        step cfg parser s a = some s' → Queued cfg s' ∧ Logged s' :=
      fun s a s' hs hok hstep => step_logged hs.1 hs.2 hok hstep
    exact run_invariant_of_meets hkeeps hrun hmeets ⟨queued_init store, fun _ => rfl, fun _ => rfl⟩
  obtain ⟨hq, hlogged⟩ := hinv
  refine ⟨_, memListEvents_eq s.disk t, ?_, fun hidle => ?_⟩
  · rw [hlogged.persisted t, ← hlogged.line t]
    unfold line
    rw [append_assoc, flatMap_append]
    exact prefix_append _ _
  · rw [hlogged.persisted t, ← hlogged.line t, (idle_line hq hidle).1]

def quietAgents : AppendingEnv Unit where
  toEnv := quietEnv
  appends := fun _ _ _ _ _ => prefix_rfl

def doNothing (name : String) : GraphNode where
  name := lit name
  function := some fun _ state => (state, .ok ())

def oneNode : Graph where
  name := lit "g"
  entry := lit "n"
  nodes := [doNothing "n"]

/- `finish` flushes, then puts the checkpoint and the events. -/
def finishWrites (t : Bytes) : List (RuntimeAct Unit) := [.op t 0, .flushed t, .op t 0, .op t 0]

def firstRun : List (RuntimeAct Unit) :=
  .call (.run quietAgents oneNode 0 { threadId := lit "a" }) :: finishWrites (lit "a")

theorem persisted_log_complete_firstRun :
    ∃ s, run (step ⟨4, true⟩ JsonReader.parser) { store := ∅ } firstRun = some s ∧
      s.idle (lit "a") = true ∧ (s.eventsOf (lit "a")).length = 3 ∧
      ∃ log, memListEvents s.disk (lit "a") = .ok log ∧ log <+: s.eventsOf (lit "a") ∧
        (s.idle (lit "a") = true → log = s.eventsOf (lit "a")) := by
  have hends : (run (step ⟨4, true⟩ JsonReader.parser) { store := ∅ } firstRun).any
      (fun s => s.idle (lit "a") && decide ((s.eventsOf (lit "a")).length = 3)) = true := by decide +kernel
  obtain ⟨s, hrun, hs⟩ := (Option.any_eq_true _ _).1 hends
  rw [Bool.and_eq_true, decide_eq_true_eq] at hs
  refine ⟨s, hrun, hs.1, hs.2, persisted_log_complete ⟨4, true⟩ JsonReader.parser ∅ firstRun s ?_ hrun _⟩
  refine ⟨fun c hc hne => ?_, fun t _ => meets_of_forall ?_⟩
  · -- the thread is new, so there is no call to answer
    obtain ⟨-, ⟨-, rfl⟩ | ⟨blob, -, -, hblob, -⟩⟩ := opened_continueThread (opened_openedRun _ _) hc
    · exact absurd rfl hne
    · cases hblob
  · simp [finishWrites, Repairs]

def unanswered : GraphState where
  histories := (∅ : Table FlowMemory).insert (lit "h")
    { history := [{ role := lit "assistant", toolCalls := [⟨lit "1", lit "f", lit "x"⟩] }] }

/- A run with a scoped key that is not UTF-8 leaves an index that cannot be read, on which the next
run fails. -/
def unreadIndex : List (RuntimeAct Unit) :=
  .call (.run quietAgents oneNode 0 { threadId := lit "a", state := unanswered }) :: finishWrites (lit "a") ++
    .call (.run quietAgents oneNode 0 { threadId := lit "b", state := setState {} (lit "user:" ++ [255]) [] }) ::
      finishWrites (lit "b") ++
    [.call (.run quietAgents oneNode 0 { threadId := lit "a" })]

def answerEvent : GraphEvent := LogCall.event ⟨.toolResult, lit "h", lit "f", abandonedCall, 0⟩

theorem persisted_log_lacks_answer :
    ∃ s log, run (step ⟨4, true⟩ JsonReader.parser) { store := ∅ } unreadIndex = some s ∧
      s.idle (lit "a") = true ∧ memListEvents s.disk (lit "a") = .ok log ∧
      s.eventsOf (lit "a") = log ++ [answerEvent] := by
  have hends : (run (step ⟨4, true⟩ JsonReader.parser) { store := ∅ } unreadIndex).any
      (fun s => s.idle (lit "a") && decide (s.eventsOf (lit "a") =
        memEvents s.disk (lit "a") ++ [answerEvent])) = true := by
    decide +kernel
  obtain ⟨s, hrun, hs⟩ := (Option.any_eq_true _ _).1 hends
  rw [Bool.and_eq_true, decide_eq_true_eq] at hs
  exact ⟨s, _, hrun, hs.1, memListEvents_eq s.disk (lit "a"), hs.2⟩

end Runtime

end AgentCpp
