import AgentCpp.Lib.Machine
import AgentCpp.Graph.State

/-!
# The Async writer (`graph_checkpointer.cpp`)

The critical sections of the producers, of `loop` and of the destructor are the actions; the call of
the checkpointer, which `loop` makes without the lock, is one of its own.
-/

namespace AgentCpp
open Lib List Function

structure Job where
  threadId : Bytes
  step : UInt64 := 0
  blob : Bytes := []
  metadata : Bytes := []
  events : List GraphEvent := []
  isEvents : Bool := false
  deriving DecidableEq

/- Where `loop` stands: it waits for work, has taken a job, has the answer of the
checkpointer for it, or has returned. -/
inductive LoopAt where
  | waiting
  | took (job : Job)
  | called (put : Result Unit)
  | returned

/- `flushing` are the targets of the flushes that have not returned. `enqueued` and `executed` are
the jobs so far; the source keeps neither. -/
structure AsyncWriter where
  queue : List Job := []
  queued : ℕ := 0
  written : ℕ := 0
  stop : Bool := false
  started : Bool := false
  error : Error := ⟨.ok, []⟩
  loop : LoopAt := .waiting
  flushing : ℕ → Option ℕ := fun _ => none
  destroyed : Bool := false
  enqueued : List Job := []
  executed : List Job := []

/- What the writer is opened with; `hasEvents`: the checkpointer has `append_events`. -/
structure WriterConfig where
  capacity : ℕ
  hasEvents : Bool := true

inductive WriterAct where
  | put (threadId : Bytes) (step : UInt64) (blob metadata : Bytes)
  | appendEvents (threadId : Bytes) (events : List GraphEvent)
  | flush (producer : ℕ)
  | flushed (producer : ℕ)
  | take
  | call (put : Result Unit)
  | account
  | leave
  | destroy
  | join

def WriterAct.jobs (cfg : WriterConfig) : WriterAct → List Job
  | .put threadId step blob metadata => [{ threadId, step, blob, metadata }]
  | .appendEvents threadId events =>
    if cfg.hasEvents = false ∨ events = [] then [] else [{ threadId, events, isEvents := true }]
  | _ => []

namespace AsyncWriter

variable (cfg : WriterConfig) (w : AsyncWriter)

/- Nobody holds a writer whose destructor runs. -/
def enqueue (job : Job) : Option AsyncWriter :=
  if w.stop = false ∧ w.queue.length < cfg.capacity then
    some { w with
      started := true
      queue := w.queue ++ [job]
      queued := w.queued + 1
      enqueued := w.enqueued ++ [job] }
  else none

def put (threadId : Bytes) (step : UInt64) (blob metadata : Bytes) : Option AsyncWriter :=
  w.enqueue cfg { threadId, step, blob, metadata }

def appendEvents (threadId : Bytes) (events : List GraphEvent) : Option AsyncWriter :=
  if cfg.hasEvents = false ∨ events = [] then some w
  else w.enqueue cfg { threadId, events, isEvents := true }

def flush (producer : ℕ) : Option AsyncWriter :=
  if w.stop = false ∧ w.flushing producer = none then
    some { w with flushing := update w.flushing producer (some w.queued) }
  else none

def flushResult : Result Unit := if w.error.code = .ok then .ok () else .error w.error

def flushed (producer : ℕ) : Option AsyncWriter :=
  match w.flushing producer with
  | none => none
  | some target =>
    if target ≤ w.written then
      some { w with
        flushing := update w.flushing producer none
        error := if w.error.code = .ok then w.error else ⟨.ok, []⟩ }
    else none

def take : Option AsyncWriter :=
  match w.started, w.loop, w.queue with
  | true, .waiting, job :: queue => some { w with queue, loop := .took job }
  | _, _, _ => none

def call (put : Result Unit) : Option AsyncWriter :=
  match w.loop with
  | .took job => some { w with loop := .called put, executed := w.executed ++ [job] }
  | _ => none

/- The slot keeps the first error. -/
def slot (put : Result Unit) : Error :=
  match put with
  | .error e => if w.error.code = .ok then e else w.error
  | .ok () => w.error

def account : Option AsyncWriter :=
  match w.loop with
  | .called put => some { w with loop := .waiting, error := w.slot put, written := w.written + 1 }
  | _ => none

def leave : Option AsyncWriter :=
  match w.started, w.loop, w.queue with
  | true, .waiting, [] => if w.stop then some { w with loop := .returned } else none
  | _, _, _ => none

def destroy : Option AsyncWriter := if w.stop then none else some { w with stop := true }

def join : Option AsyncWriter :=
  match w.started, w.loop with
  | false, _ => if w.stop then some { w with destroyed := true } else none
  | true, .returned => if w.stop then some { w with destroyed := true } else none
  | _, _ => none

def step : WriterAct → Option AsyncWriter
  | .put threadId step blob metadata => w.put cfg threadId step blob metadata
  | .appendEvents threadId events => w.appendEvents cfg threadId events
  | .flush producer => w.flush producer
  | .flushed producer => w.flushed producer
  | .take => w.take
  | .call put => w.call put
  | .account => w.account
  | .leave => w.leave
  | .destroy => w.destroy
  | .join => w.join

variable {cfg} {w} {w' : AsyncWriter}

theorem enqueue_some {job : Job} (h : w.enqueue cfg job = some w') :
    w.stop = false ∧ w.queue.length < cfg.capacity ∧ w' = { w with
      started := true
      queue := w.queue ++ [job]
      queued := w.queued + 1
      enqueued := w.enqueued ++ [job] } := by
  unfold enqueue at h
  split at h
  · next hc =>
    cases h
    exact ⟨hc.1, hc.2, rfl⟩
  · cases h

theorem appendEvents_some {threadId : Bytes} {events : List GraphEvent}
    (h : w.appendEvents cfg threadId events = some w') : w' = w ∨ ∃ job, w.enqueue cfg job = some w' := by
  unfold appendEvents at h
  split at h
  · cases h
    exact Or.inl rfl
  · exact Or.inr ⟨_, h⟩

variable {p : ℕ} {put : Result Unit} {as : List WriterAct}

theorem flush_some (h : w.flush p = some w') :
    w.flushing p = none ∧ w' = { w with flushing := update w.flushing p (some w.queued) } := by
  unfold flush at h
  split at h
  · next hc =>
    cases h
    exact ⟨hc.2, rfl⟩
  · cases h

theorem flushed_some (h : w.flushed p = some w') :
    ∃ target, w.flushing p = some target ∧ target ≤ w.written ∧ w' = { w with
      flushing := update w.flushing p none
      error := if w.error.code = .ok then w.error else ⟨.ok, []⟩ } := by
  unfold flushed at h
  split at h
  · cases h
  · next target ht =>
    split at h
    · next hle =>
      cases h
      exact ⟨target, ht, hle, rfl⟩
    · cases h

theorem take_some (h : w.take = some w') : ∃ job queue, w.loop = .waiting ∧ w.queue = job :: queue ∧
      w' = { w with queue, loop := .took job } := by
  unfold take at h
  split at h
  · next job queue _ hloop hqueue =>
    cases h
    exact ⟨job, queue, hloop, hqueue, rfl⟩
  · cases h

theorem call_some (h : w.call put = some w') :
    ∃ job, w.loop = .took job ∧ w' = { w with loop := .called put, executed := w.executed ++ [job] } := by
  unfold call at h
  split at h
  · next job hloop =>
    cases h
    exact ⟨job, hloop, rfl⟩
  · cases h

theorem account_some (h : w.account = some w') : ∃ put, w.loop = .called put ∧
      w' = { w with loop := .waiting, error := w.slot put, written := w.written + 1 } := by
  unfold account at h
  split at h
  · next put hloop =>
    cases h
    exact ⟨put, hloop, rfl⟩
  · cases h

theorem leave_some (h : w.leave = some w') : w.started = true ∧ w.loop = .waiting ∧ w.queue = [] ∧ w.stop = true ∧
      w' = { w with loop := .returned } := by
  unfold leave at h
  split at h
  · next hstarted hloop hqueue =>
    split at h
    · next hstop =>
      cases h
      exact ⟨hstarted, hloop, hqueue, hstop, rfl⟩
    · cases h
  · cases h

theorem destroy_some (h : w.destroy = some w') : w' = { w with stop := true } := by
  unfold destroy at h
  split at h
  · cases h
  · cases h
    rfl

theorem join_some (h : w.join = some w') :
    (w.started = false ∨ w.loop = .returned) ∧ w' = { w with destroyed := true } := by
  unfold join at h
  split at h
  · next hstarted =>
    split at h
    · cases h
      exact ⟨Or.inl hstarted, rfl⟩
    · cases h
  · next _ hloop =>
    split at h
    · cases h
      exact ⟨Or.inr hloop, rfl⟩
    · cases h
  · cases h

def inHand (w : AsyncWriter) : List Job :=
  match w.loop with
  | .took job => [job]
  | _ => []

/- Jobs handed over that `written` does not count yet. -/
def uncounted (w : AsyncWriter) : ℕ :=
  match w.loop with
  | .called _ => 1
  | _ => 0

structure Consistent (cfg : WriterConfig) (w : AsyncWriter) : Prop where
  order : w.enqueued = w.executed ++ w.inHand ++ w.queue
  queued : w.queued = w.enqueued.length
  written : w.executed.length = w.written + w.uncounted
  room : w.queue.length ≤ cfg.capacity
  idle : w.started = false → w.loop = .waiting ∧ w.queue = []
  returned : w.loop = .returned → w.stop = true ∧ w.queue = []

theorem consistent_init : Consistent cfg {} := ⟨rfl, rfl, rfl, Nat.zero_le _, fun _ => ⟨rfl, rfl⟩, nofun⟩

theorem enqueue_consistent (hw : Consistent cfg w) {job : Job} (h : w.enqueue cfg job = some w') :
    Consistent cfg w' := by
  obtain ⟨hstop, hroom, rfl⟩ := enqueue_some h
  constructor
  · have horder := hw.order
    simp only [inHand] at horder ⊢
    rw [horder]
    simp
  · simp only [length_append, length_cons, length_nil]
    have hqueued := hw.queued
    omega
  · exact hw.written
  · simp only [length_append, length_cons, length_nil]
    omega
  · intro hstarted
    cases hstarted
  · intro hloop
    rw [(hw.returned hloop).1] at hstop
    cases hstop

theorem take_consistent (hw : Consistent cfg w) (h : w.take = some w') : Consistent cfg w' := by
  obtain ⟨job, queue, hloop, hqueue, rfl⟩ := take_some h
  have horder := hw.order
  have hroom := hw.room
  have hwritten := hw.written
  simp only [inHand, hloop, hqueue, uncounted, length_cons] at horder hroom hwritten
  refine ⟨?_, hw.queued, hwritten, by simp only; omega, ?_, nofun⟩
  · simp only [inHand, horder]
    simp
  · intro hstarted
    have hidle := (hw.idle hstarted).2
    rw [hqueue] at hidle
    cases hidle

theorem call_consistent (hw : Consistent cfg w) (h : w.call put = some w') : Consistent cfg w' := by
  obtain ⟨job, hloop, rfl⟩ := call_some h
  have horder := hw.order
  have hwritten := hw.written
  simp only [inHand, hloop, uncounted] at horder hwritten
  refine ⟨?_, hw.queued, ?_, hw.room, ?_, nofun⟩
  · simp only [inHand, horder]
    simp
  · simp only [uncounted, length_append, length_cons, length_nil]
    omega
  · intro hstarted
    have hidle := (hw.idle hstarted).1
    rw [hloop] at hidle
    cases hidle

theorem account_consistent (hw : Consistent cfg w) (h : w.account = some w') : Consistent cfg w' := by
  obtain ⟨put, hloop, rfl⟩ := account_some h
  have horder := hw.order
  have hwritten := hw.written
  simp only [inHand, hloop, uncounted] at horder hwritten
  refine ⟨horder, hw.queued, ?_, hw.room, ?_, nofun⟩
  · simp only [uncounted]
    omega
  · intro hstarted
    exact ⟨rfl, (hw.idle hstarted).2⟩

theorem leave_consistent (hw : Consistent cfg w) (h : w.leave = some w') : Consistent cfg w' := by
  obtain ⟨hstarted, hloop, hqueue, hstop, rfl⟩ := leave_some h
  have horder := hw.order
  have hwritten := hw.written
  simp only [inHand, hloop, uncounted] at horder hwritten
  refine ⟨horder, hw.queued, hwritten, hw.room, ?_, fun _ => ⟨hstop, hqueue⟩⟩
  intro hidle
  rw [hstarted] at hidle
  cases hidle

theorem step_consistent (w : AsyncWriter) (a : WriterAct) (w' : AsyncWriter) (hw : Consistent cfg w)
    (h : step cfg w a = some w') : Consistent cfg w' := by
  cases a with
  | put threadId n blob metadata => exact enqueue_consistent hw h
  | appendEvents threadId events =>
    rcases appendEvents_some h with rfl | ⟨job, hjob⟩
    · exact hw
    · exact enqueue_consistent hw hjob
  | flush p =>
    obtain ⟨-, rfl⟩ := flush_some h
    exact { hw with }
  | flushed p =>
    obtain ⟨target, -, -, rfl⟩ := flushed_some h
    exact { hw with }
  | take => exact take_consistent hw h
  | call put => exact call_consistent hw h
  | account => exact account_consistent hw h
  | leave => exact leave_consistent hw h
  | destroy =>
    obtain rfl := destroy_some h
    exact { hw with returned := fun hloop => ⟨rfl, (hw.returned hloop).2⟩ }
  | join =>
    obtain ⟨-, rfl⟩ := join_some h
    exact { hw with }

theorem run_consistent (h : run (step cfg) {} as = some w) : Consistent cfg w :=
  run_invariant step_consistent h consistent_init

theorem step_frame {a : WriterAct} (h : step cfg w a = some w') : w'.enqueued = w.enqueued ++ a.jobs cfg ∧
      ∀ p target, w.flushing p = some target → a ≠ .flushed p → w'.flushing p = some target := by
  have hsame : w'.enqueued = w.enqueued → w'.flushing = w.flushing → a.jobs cfg = [] →
      w'.enqueued = w.enqueued ++ a.jobs cfg ∧
        ∀ p target, w.flushing p = some target → a ≠ .flushed p → w'.flushing p = some target := by
    intro henq hflush hjobs
    rw [henq, hflush, hjobs, append_nil]
    exact ⟨rfl, fun _ _ hp _ => hp⟩
  cases a with
  | put threadId n blob metadata =>
    obtain ⟨-, -, rfl⟩ := enqueue_some h
    exact ⟨rfl, fun _ _ hp _ => hp⟩
  | appendEvents threadId events =>
    change w.appendEvents cfg threadId events = some w' at h
    unfold appendEvents at h
    split at h
    · next hnone =>
      cases h
      exact hsame rfl rfl (if_pos hnone)
    · next hsome =>
      obtain ⟨-, -, rfl⟩ := enqueue_some h
      refine ⟨?_, fun _ _ hp _ => hp⟩
      simp only [WriterAct.jobs, if_neg hsome]
  | flush q =>
    obtain ⟨hq, rfl⟩ := flush_some h
    refine ⟨(append_nil _).symm, fun p target hp _ => (update_of_ne ?_ _ _).trans hp⟩
    rintro rfl
    rw [hp] at hq
    cases hq
  | flushed q =>
    obtain ⟨t, -, -, rfl⟩ := flushed_some h
    exact ⟨(append_nil _).symm, fun p target hp ha =>
      (update_of_ne (fun heq => ha (by rw [heq])) _ _).trans hp⟩
  | take =>
    obtain ⟨job, queue, -, -, rfl⟩ := take_some h
    exact hsame rfl rfl rfl
  | call put =>
    obtain ⟨job, -, rfl⟩ := call_some h
    exact hsame rfl rfl rfl
  | account =>
    obtain ⟨put, -, rfl⟩ := account_some h
    exact hsame rfl rfl rfl
  | leave =>
    obtain ⟨-, -, -, -, rfl⟩ := leave_some h
    exact hsame rfl rfl rfl
  | destroy =>
    obtain rfl := destroy_some h
    exact hsame rfl rfl rfl
  | join =>
    obtain ⟨-, rfl⟩ := join_some h
    exact hsame rfl rfl rfl

theorem enqueued_run (h : run (step cfg) w as = some w') :
    w'.enqueued = w.enqueued ++ as.flatMap (WriterAct.jobs cfg) := by
  induction as generalizing w with
  | nil =>
    cases h
    exact (append_nil _).symm
  | cons a as ih =>
    obtain ⟨u, hu, hrest⟩ := run_cons h
    rw [ih hrest, (step_frame hu).1, flatMap_cons, append_assoc]

theorem Consistent.executed_prefix (hw : Consistent cfg w) : w.executed <+: w.enqueued := by
  rw [hw.order, append_assoc]
  exact prefix_append _ _

theorem flushing_run {target : ℕ} (h : run (step cfg) w as = some w') (hp : w.flushing p = some target)
    (has : WriterAct.flushed p ∉ as) : w'.flushing p = some target := by
  induction as generalizing w with
  | nil =>
    cases h
    exact hp
  | cons a as ih =>
    obtain ⟨u, hu, hrest⟩ := run_cons h
    obtain ⟨hne, hrest'⟩ := not_or.1 (mt List.mem_cons.2 has)
    exact ih hrest ((step_frame hu).2 p target hp fun heq => hne heq.symm) hrest'

theorem flush_covers {bs : List WriterAct} {w₁ w₂ w₃ : AsyncWriter} (h : run (step cfg) {} as = some w)
    (hflush : w.flush p = some w₁) (hrun : run (step cfg) w₁ bs = some w₂) (hbs : WriterAct.flushed p ∉ bs)
    (hdone : w₂.flushed p = some w₃) : w.enqueued <+: w₂.executed := by
  have hw := run_consistent h
  have hflushed : run (step cfg) {} (as ++ [.flush p]) = some w₁ := run_snoc h hflush
  have hw₂ := run_consistent (run_append_eq hflushed hrun)
  obtain ⟨-, rfl⟩ := flush_some hflush
  have htarget := flushing_run hrun (update_self p (some w.queued) w.flushing) hbs
  obtain ⟨target, hp, hle, -⟩ := flushed_some hdone
  rw [htarget] at hp
  cases hp
  -- both are prefixes of what has been enqueued by now, and the flush counted the jobs
  refine prefix_of_prefix_length_le ?_ hw₂.executed_prefix ?_
  · rw [enqueued_run hrun]
    exact prefix_append _ _
  · have hqueued := hw.queued
    have hwritten := hw₂.written
    omega

theorem join_covers (hw : Consistent cfg w) (h : w.join = some w') : w'.executed = w.enqueued := by
  obtain ⟨hover, rfl⟩ := join_some h
  have horder := hw.order
  rcases hover with hidle | hreturned
  · obtain ⟨hloop, hqueue⟩ := hw.idle hidle
    simp only [inHand, hloop, hqueue, append_nil] at horder
    exact horder.symm
  · have hqueue := (hw.returned hreturned).2
    simp only [inHand, hreturned, hqueue, append_nil] at horder
    exact horder.symm

structure Drained (w w' : AsyncWriter) : Prop where
  executed : w'.executed = w.enqueued
  enqueued : w'.enqueued = w.enqueued
  written : w'.written = w.queued

theorem drained_empty (hw : Consistent cfg w) (hqueue : w.queue = []) (hhand : w.inHand = [])
    (hcounted : w.uncounted = 0) : Drained w w := by
  have horder := hw.order
  have hwritten := hw.written
  rw [hqueue, hhand, append_nil, append_nil] at horder
  refine ⟨horder.symm, rfl, ?_⟩
  rw [hw.queued, horder]
  omega

/- `loop` can write all that is left, when the checkpointer answers `put` each time. -/
def Drains (cfg : WriterConfig) (put : Result Unit) (w : AsyncWriter) : Prop :=
  ∃ as w', (∀ a ∈ as, a ∈ [.take, .call put, .account]) ∧ run (step cfg) w as = some w' ∧ Drained w w'

theorem Drains.cons {a : WriterAct} (ha : a ∈ [.take, .call put, .account]) (hstep : step cfg w a = some w')
    (henqueued : w'.enqueued = w.enqueued) (hqueued : w'.queued = w.queued) (h : Drains cfg put w') :
    Drains cfg put w := by
  obtain ⟨as, u, has, hrun, hd⟩ := h
  refine ⟨a :: as, u, List.forall_mem_cons.2 ⟨ha, has⟩, ?_, hd.executed.trans henqueued,
    hd.enqueued.trans henqueued, hd.written.trans hqueued⟩
  rw [run, hstep]
  exact hrun

theorem drain_waiting (put : Result Unit) (hw : Consistent cfg w) (hloop : w.loop = .waiting) : Drains cfg put w := by
  induction hn : w.queue.length generalizing w with
  | zero =>
    refine ⟨[], w, by simp, rfl, drained_empty hw (eq_nil_of_length_eq_zero hn) ?_ ?_⟩
    · rw [inHand, hloop]
    · rw [uncounted, hloop]
  | succ n ih =>
    obtain ⟨job, queue, hqueue⟩ := exists_cons_of_length_eq_add_one hn
    have hstarted : w.started = true := by
      by_contra hnot
      have hidle := (hw.idle (by simpa using hnot)).2
      rw [hqueue] at hidle
      cases hidle
    have h₁ : step cfg w .take = some { w with queue, loop := .took job } := by
      change w.take = _
      unfold take
      rw [hstarted, hloop, hqueue]
    have hw₁ := step_consistent _ _ _ hw h₁
    have hw₂ := step_consistent _ (.call put) _ hw₁ rfl
    have hw₃ := step_consistent _ .account _ hw₂ rfl
    rw [hqueue, length_cons] at hn
    refine .cons (by simp) h₁ rfl rfl (.cons (a := .call put) (by simp) rfl rfl rfl
      (.cons (a := .account) (by simp) rfl rfl rfl (ih hw₃ rfl ?_)))
    change queue.length = n
    omega

theorem drain (put : Result Unit) (hw : Consistent cfg w) : Drains cfg put w := by
  cases hloop : w.loop with
  | waiting => exact drain_waiting put hw hloop
  | took job =>
    have h₁ : step cfg w (.call put) = some { w with
        loop := .called put, executed := w.executed ++ [job] } := by
      change w.call put = _
      unfold call
      rw [hloop]
    have hw₂ := step_consistent _ .account _ (step_consistent _ _ _ hw h₁) rfl
    exact .cons (by simp) h₁ rfl rfl (.cons (a := .account) (by simp) rfl rfl rfl (drain_waiting put hw₂ rfl))
  | called done =>
    have h₁ : step cfg w .account = some { w with
        loop := .waiting, error := w.slot done, written := w.written + 1 } := by
      change w.account = _
      unfold account
      rw [hloop]
    exact .cons (by simp) h₁ rfl rfl (drain_waiting put (step_consistent _ _ _ hw h₁) rfl)
  | returned =>
    refine ⟨[], w, by simp, rfl, drained_empty hw (hw.returned hloop).2 ?_ ?_⟩
    · rw [inHand, hloop]
    · rw [uncounted, hloop]

end AsyncWriter

def twoPuts : List WriterAct :=
  [.put (lit "a") 1 [] [], .take, .put (lit "b") 2 [] [], .flush 0, .call (.ok ()), .account, .take,
    .call (fail .networkError []), .account]

end AgentCpp
