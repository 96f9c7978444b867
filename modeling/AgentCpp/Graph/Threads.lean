import AgentCpp.Graph.AsyncErrors
import AgentCpp.Graph.Calls

/-!
# Threads and their writes

Calls on any number of threads, one at a time per thread, over one checkpointer. For each thread the
writes stand in one line: those that have reached the checkpointer, those in the writer's queue,
and those still to issue. Only calls and deletes change the line.
-/

namespace AgentCpp
open Lib List Function AsyncWriter

/- A write that has reached the checkpointer. -/
def memExecute (disk : MemCheckpointer) (now : Int64) (job : Job) : MemCheckpointer :=
  if job.isEvents then memAppendEvents disk job.threadId job.events
  else memPut disk now job.threadId job.step job.blob job.metadata

/- `ops` are what the call on a thread still has to do to its sink, `described` is the run last
returned, `reached` and `appended` are the writes and events so far, without those of deleted
threads. The source keeps none of the last four. -/
structure Runtime where
  writer : AsyncWriter := {}
  disk : MemCheckpointer := {}
  store : Store := ∅
  ops : Bytes → List SinkOp := fun _ => []
  called : ℕ := 0
  described : Bytes → Option GraphRun := fun _ => none
  reached : List Job := []
  appended : List (Bytes × List GraphEvent) := []

inductive RuntimeAct (τ : Type) where
  | call (call : GraphCall τ)
  | delete (threadId : Bytes)
  | op (threadId : Bytes) (now : Int64)
  | flushed (threadId : Bytes)
  | take
  | write (now : Int64)
  | account

namespace Runtime

variable {τ : Type} (cfg : WriterConfig) (parser : JsonParser) (s : Runtime)

def idle (t : Bytes) : Bool := (s.ops t).isEmpty && (s.writer.flushing (number t)).isNone

def call (call : GraphCall τ) : Option Runtime :=
  if s.idle call.threadId then
    match call.exec parser ⟨s.disk, s.store⟩ with
    | (_, none) => none
    | (d, some _) =>
      some { s with
        store := d.world.store
        ops := update s.ops call.threadId d.issued
        called := s.called + 1
        described := if !d.issued.isEmpty || call.reads parser ⟨s.disk, s.store⟩
          then update s.described call.threadId (some d.run) else s.described
        appended := s.appended ++ [(call.threadId, d.run.events.drop call.given.events.length)] }
  else none

/- `delete_graph_thread` -/
def delete (threadId : Bytes) : Option Runtime :=
  let t := defaultThread threadId
  if s.idle t then
    some { s with
      disk := memDeleteThread s.disk t
      described := update s.described t none
      reached := s.reached.filter (·.threadId ≠ t)
      appended := s.appended.filter (·.1 ≠ t) }
  else none

def op (t : Bytes) (now : Int64) : Option Runtime :=
  match s.ops t, s.writer.flushing (number t) with
  | .queue job :: rest, none =>
    (s.writer.enqueue cfg job).map fun writer => { s with writer, ops := update s.ops t rest }
  | .direct job :: rest, none =>
    some { s with
      disk := memExecute s.disk now job
      reached := s.reached ++ [job]
      ops := update s.ops t rest }
  | .flush :: rest, none =>
    (s.writer.flush (number t)).map fun writer => { s with writer, ops := update s.ops t rest }
  | _, _ => none

def write (now : Int64) : Option Runtime :=
  match s.writer.loop with
  | .took job =>
    (s.writer.call (.ok ())).map fun writer =>
      { s with writer, disk := memExecute s.disk now job, reached := s.reached ++ [job] }
  | _ => none

def step : RuntimeAct τ → Option Runtime
  | .call call => s.call parser call
  | .delete threadId => s.delete threadId
  | .op t now => s.op cfg t now
  | .flushed t => (s.writer.flushed (number t)).map fun writer => { s with writer }
  | .take => s.writer.take.map fun writer => { s with writer }
  | .write now => s.write now
  | .account => s.writer.account.map fun writer => { s with writer }

end Runtime

def ofThread (t : Bytes) (jobs : List Job) : List Job := jobs.filter (·.threadId = t)

theorem ofThread_append (t : Bytes) (xs ys : List Job) : ofThread t (xs ++ ys) = ofThread t xs ++ ofThread t ys :=
  filter_append ..

variable {job : Job}

theorem ofThread_own {t : Bytes} (h : job.threadId = t) : ofThread t [job] = [job] := by
  unfold ofThread
  rw [filter_singleton, decide_eq_true h]
  rfl

theorem ofThread_none {t : Bytes} {jobs : List Job} (h : NoJobs t jobs) : ofThread t jobs = [] := by
  refine filter_eq_nil_iff.2 fun job hjob => ?_
  rw [decide_eq_true_eq]
  exact h job hjob

theorem noJobs_singleton {t : Bytes} (h : job.threadId ≠ t) : NoJobs t [job] := by
  intro j hj
  rw [mem_singleton.1 hj]
  exact h

namespace Runtime

variable (cfg : WriterConfig) (parser : JsonParser) (s : Runtime)

def pending : List Job := s.writer.inHand ++ s.writer.queue

def line (t : Bytes) : List Job :=
  ofThread t s.reached ++ ofThread t s.pending ++ jobsOf (s.ops t)

/- What is in the queue was there before the flush that is going on, or the call will flush before
it writes directly. -/
def Phase (t : Bytes) : Prop :=
  match s.writer.flushing (number t) with
  | some target => NoJobs t (s.writer.enqueued.drop target) ∧ settle false (s.ops t) = some false
  | none => ∃ dirty, settle dirty (s.ops t) = some false ∧ (dirty = false → NoJobs t s.pending)

structure Queued : Prop where
  consistent : AsyncWriter.Consistent cfg s.writer
  own : ∀ t, ∀ job ∈ jobsOf (s.ops t), job.threadId = t
  phase : ∀ t, s.Phase t

/- What the writer and the calls do between two calls. -/
structure Ticks (s s' : Runtime) : Prop where
  line : ∀ t, s'.line t = s.line t
  called : s'.called = s.called
  described : s'.described = s.described
  appended : s'.appended = s.appended
  reached : (s'.reached = s.reached ∧ s'.disk = s.disk) ∨
    ∃ now job, s'.reached = s.reached ++ [job] ∧ s'.disk = memExecute s.disk now job

variable {cfg} {parser} {s} {s' : Runtime}

theorem phase_none {t : Bytes} (h : s.Phase t) (hf : s.writer.flushing (number t) = none) :
    ∃ dirty, settle dirty (s.ops t) = some false ∧ (dirty = false → NoJobs t s.pending) := by
  unfold Phase at h
  rw [hf] at h
  exact h

theorem phase_some {t : Bytes} {target : ℕ} (h : s.Phase t) (hf : s.writer.flushing (number t) = some target) :
    NoJobs t (s.writer.enqueued.drop target) ∧ settle false (s.ops t) = some false := by
  unfold Phase at h
  rw [hf] at h
  exact h

theorem Phase.congr {t : Bytes} (h : s.Phase t) (hops : s'.ops t = s.ops t)
    (hflush : s'.writer.flushing (number t) = s.writer.flushing (number t))
    (henq : ∀ n, NoJobs t (s.writer.enqueued.drop n) → NoJobs t (s'.writer.enqueued.drop n))
    (hpend : NoJobs t s.pending → NoJobs t s'.pending) : s'.Phase t := by
  unfold Phase at h ⊢
  rw [hflush, hops]
  split at h
  · exact ⟨henq _ h.1, h.2⟩
  · obtain ⟨dirty, hset, hclean⟩ := h
    exact ⟨dirty, hset, fun hd => hpend (hclean hd)⟩

variable {w : AsyncWriter}

theorem tick_writer (hq : Queued cfg s) (hw : AsyncWriter.Consistent cfg w)
    (hpend : w.inHand ++ w.queue = s.pending) (henq : w.enqueued = s.writer.enqueued)
    (hflush : w.flushing = s.writer.flushing) :
    Queued cfg { s with writer := w } ∧ Ticks s { s with writer := w } := by
  have hsame : ({ s with writer := w } : Runtime).pending = s.pending := hpend
  refine ⟨⟨hw, hq.own, fun t => ?_⟩, fun t => ?_, rfl, rfl, rfl, .inl ⟨rfl, rfl⟩⟩
  · refine (hq.phase t).congr rfl (congrFun hflush _) (fun n hn => ?_) fun hn => ?_
    · rw [henq]
      exact hn
    · rw [hsame]
      exact hn
  · unfold line
    rw [hsame]

theorem tick_take (hq : Queued cfg s) (h : s.writer.take = some w) :
    Queued cfg { s with writer := w } ∧ Ticks s { s with writer := w } := by
  have hw := take_consistent hq.consistent h
  obtain ⟨job, queue, hloop, hqueue, rfl⟩ := take_some h
  refine tick_writer hq hw ?_ rfl rfl
  unfold pending AsyncWriter.inHand
  rw [hloop, hqueue]
  rfl

theorem tick_account (hq : Queued cfg s) (h : s.writer.account = some w) :
    Queued cfg { s with writer := w } ∧ Ticks s { s with writer := w } := by
  have hw := account_consistent hq.consistent h
  obtain ⟨put, hloop, rfl⟩ := account_some h
  refine tick_writer hq hw ?_ rfl rfl
  unfold pending AsyncWriter.inHand
  rw [hloop]

theorem noJobs_pending (hq : Queued cfg s) {t : Bytes} {target : ℕ} (hle : target ≤ s.writer.written)
    (hn : NoJobs t (s.writer.enqueued.drop target)) : NoJobs t s.pending := by
  have hdrop : s.pending = s.writer.enqueued.drop s.writer.executed.length := by
    rw [hq.consistent.order, append_assoc, drop_left]
    rfl
  rw [hdrop]
  have hwritten := hq.consistent.written
  exact hn.mono (by omega)

theorem tick_flushed (hq : Queued cfg s) {t : Bytes} (h : s.writer.flushed (number t) = some w) :
    Queued cfg { s with writer := w } ∧ Ticks s { s with writer := w } := by
  obtain ⟨target, hf, hle, rfl⟩ := flushed_some h
  refine ⟨⟨{ hq.consistent with }, hq.own, fun u => ?_⟩, fun u => rfl, rfl, rfl, rfl, .inl ⟨rfl, rfl⟩⟩
  by_cases htu : u = t
  · subst htu
    obtain ⟨hn, hset⟩ := phase_some (hq.phase u) hf
    unfold Phase
    simp only [update_self]
    exact ⟨false, hset, fun _ => noJobs_pending hq hle hn⟩
  · refine (hq.phase u).congr rfl ?_ (fun _ hn => hn) id
    exact update_of_ne (fun heq => htu (number_injective heq)) _ _

variable {now : Int64}

theorem tick_write (hq : Queued cfg s) (h : s.write now = some s') : Queued cfg s' ∧ Ticks s s' := by
  unfold write at h
  split at h
  swap
  · cases h
  next job hloop =>
  obtain ⟨w, hcall, rfl⟩ := Option.map_eq_some_iff.1 h
  have hw := call_consistent hq.consistent hcall
  obtain ⟨job', hloop', rfl⟩ := call_some hcall
  have hold : s.pending = job :: s.writer.queue := by
    unfold pending AsyncWriter.inHand
    rw [hloop]
    rfl
  refine ⟨⟨hw, hq.own, fun t => ?_⟩, fun t => ?_, rfl, rfl, rfl, .inr ⟨now, job, rfl, rfl⟩⟩
  · refine (hq.phase t).congr rfl rfl (fun _ hn => hn) fun hn => ?_
    rw [hold] at hn
    exact fun j hj => hn j (mem_cons_of_mem _ hj)
  · unfold line
    rw [hold]
    rw [ofThread_append, append_assoc (ofThread t s.reached), ← ofThread_append]
    rfl

variable {rest : List SinkOp}

theorem own_rest (hq : Queued cfg s) {t : Bytes} {o : SinkOp} (hops : s.ops t = o :: rest) :
    (∀ job ∈ o.jobs, job.threadId = t) ∧
      ∀ u, ∀ job ∈ jobsOf (update s.ops t rest u), job.threadId = u := by
  have hall : jobsOf (s.ops t) = o.jobs ++ jobsOf rest := by
    rw [hops]
    rfl
  refine ⟨fun job hjob => hq.own t job ?_, fun u job hjob => ?_⟩
  · rw [hall]
    exact mem_append_left _ hjob
  · by_cases htu : u = t
    · subst htu
      rw [update_self] at hjob
      refine hq.own u job ?_
      rw [hall]
      exact mem_append_right _ hjob
    · rw [update_of_ne htu] at hjob
      exact hq.own u job hjob

variable {job : Job}

theorem tick_queue (hq : Queued cfg s) {t : Bytes}
    (hops : s.ops t = .queue job :: rest) (hf : s.writer.flushing (number t) = none)
    (h : s.writer.enqueue cfg job = some w) : Queued cfg { s with writer := w, ops := update s.ops t rest } ∧
      Ticks s { s with writer := w, ops := update s.ops t rest } := by
  have hw := enqueue_consistent hq.consistent h
  obtain ⟨-, -, hw'⟩ := enqueue_some h
  obtain ⟨hjob, hown⟩ := own_rest hq hops
  replace hjob : job.threadId = t := hjob job (mem_singleton.2 rfl)
  have hflush : w.flushing = s.writer.flushing := by rw [hw']
  have henq : w.enqueued = s.writer.enqueued ++ [job] := by rw [hw']
  have hpend : w.inHand ++ w.queue = s.pending ++ [job] := by
    rw [hw']
    exact (append_assoc _ _ _).symm
  have hother : ∀ u, u ≠ t → job.threadId ≠ u := fun u htu heq => htu (heq.symm.trans hjob)
  refine ⟨⟨hw, hown, fun u => ?_⟩, fun u => ?_, rfl, rfl, rfl, .inl ⟨rfl, rfl⟩⟩
  · by_cases htu : u = t
    · subst htu
      obtain ⟨dirty, hset, -⟩ := phase_none (hq.phase u) hf
      rw [hops] at hset
      unfold Phase
      simp only [hflush, hf, update_self]
      exact ⟨true, hset, nofun⟩
    · refine (hq.phase u).congr (update_of_ne htu _ _) (congrFun hflush _) (fun n hn => ?_) fun hn => ?_
      · rw [henq]
        exact hn.snoc (hother u htu)
      · intro j hj
        change j ∈ w.inHand ++ w.queue at hj
        rw [hpend] at hj
        rcases mem_append.1 hj with hj | hj
        · exact hn j hj
        · exact noJobs_singleton (hother u htu) j hj
  · unfold line
    change ofThread u s.reached ++ ofThread u (w.inHand ++ w.queue) ++ jobsOf (update s.ops t rest u) = _
    rw [hpend, ofThread_append]
    by_cases htu : u = t
    · subst htu
      rw [update_self, hops, ofThread_own hjob, ← append_assoc, append_assoc _ [job]]
      rfl
    · rw [update_of_ne htu, ofThread_none (noJobs_singleton (hother u htu)), append_nil]

theorem tick_direct (hq : Queued cfg s) {t : Bytes} (now : Int64)
    (hops : s.ops t = .direct job :: rest) (hf : s.writer.flushing (number t) = none) : Queued cfg { s with
      disk := memExecute s.disk now job, reached := s.reached ++ [job], ops := update s.ops t rest } ∧
      Ticks s { s with
        disk := memExecute s.disk now job, reached := s.reached ++ [job], ops := update s.ops t rest } := by
  obtain ⟨hjob, hown⟩ := own_rest hq hops
  replace hjob : job.threadId = t := hjob job (mem_singleton.2 rfl)
  obtain ⟨dirty, hset, hclean⟩ := phase_none (hq.phase t) hf
  rw [hops] at hset
  have hdirty : dirty = false := by
    cases dirty with
    | false => rfl
    | true => cases hset
  subst hdirty
  have hnone := hclean rfl
  refine ⟨⟨hq.consistent, hown, fun u => ?_⟩, fun u => ?_, rfl, rfl, rfl, .inr ⟨now, job, rfl, rfl⟩⟩
  · by_cases htu : u = t
    · subst htu
      unfold Phase
      simp only [hf, update_self]
      exact ⟨false, hset, fun _ => hnone⟩
    · exact (hq.phase u).congr (update_of_ne htu _ _) rfl (fun _ hn => hn) id
  · unfold line
    change ofThread u (s.reached ++ [job]) ++ ofThread u s.pending ++ jobsOf (update s.ops t rest u) = _
    rw [ofThread_append]
    by_cases htu : u = t
    · subst htu
      rw [ofThread_none hnone, ofThread_own hjob, update_self, hops, append_nil, append_nil, append_assoc]
      rfl
    · have hother : job.threadId ≠ u := fun heq => htu (heq.symm.trans hjob)
      rw [ofThread_none (noJobs_singleton hother), append_nil, update_of_ne htu]

theorem tick_flush (hq : Queued cfg s) {t : Bytes}
    (hops : s.ops t = .flush :: rest) (hf : s.writer.flushing (number t) = none)
    (h : s.writer.flush (number t) = some w) :
    Queued cfg { s with writer := w, ops := update s.ops t rest } ∧
      Ticks s { s with writer := w, ops := update s.ops t rest } := by
  obtain ⟨-, rfl⟩ := flush_some h
  obtain ⟨-, hown⟩ := own_rest hq hops
  obtain ⟨dirty, hset, -⟩ := phase_none (hq.phase t) hf
  rw [hops] at hset
  refine ⟨⟨{ hq.consistent with }, hown, fun u => ?_⟩, fun u => ?_, rfl, rfl, rfl, .inl ⟨rfl, rfl⟩⟩
  · by_cases htu : u = t
    · subst htu
      unfold Phase
      simp only [update_self]
      refine ⟨?_, hset⟩
      rw [hq.consistent.queued, drop_length]
      exact nofun
    · refine (hq.phase u).congr (update_of_ne htu _ _) ?_ (fun _ hn => hn) id
      exact update_of_ne (fun heq => htu (number_injective heq)) _ _
  · unfold line
    change ofThread u s.reached ++ ofThread u s.pending ++ jobsOf (update s.ops t rest u) = _
    by_cases htu : u = t
    · subst htu
      rw [update_self, hops]
      rfl
    · rw [update_of_ne htu]

theorem tick_op (hq : Queued cfg s) {t : Bytes} (h : s.op cfg t now = some s') : Queued cfg s' ∧ Ticks s s' := by
  unfold op at h
  split at h
  · next job rest hops hf =>
    obtain ⟨w, hw, rfl⟩ := Option.map_eq_some_iff.1 h
    exact tick_queue hq hops hf hw
  · next job rest hops hf =>
    cases h
    exact tick_direct hq now hops hf
  · next rest hops hf =>
    obtain ⟨w, hw, rfl⟩ := Option.map_eq_some_iff.1 h
    exact tick_flush hq hops hf hw
  · cases h

theorem idle_line (hq : Queued cfg s) {t : Bytes} (h : s.idle t = true) :
    s.line t = ofThread t s.reached ∧ s.ops t = [] ∧ s.writer.flushing (number t) = none ∧ NoJobs t s.pending := by
  unfold idle at h
  rw [Bool.and_eq_true, List.isEmpty_iff, Option.isNone_iff_eq_none] at h
  obtain ⟨dirty, hset, hclean⟩ := phase_none (hq.phase t) h.2
  rw [h.1] at hset
  have hdirty : dirty = false := Option.some.inj hset
  have hnone := hclean hdirty
  refine ⟨?_, h.1, h.2, hnone⟩
  unfold line
  rw [h.1, ofThread_none hnone, List.append_nil]
  exact List.append_nil _

/- A call that returns: what it issues is added to the line of its thread. -/
structure Called {τ : Type} (parser : JsonParser) (call : GraphCall τ) (d : RunCtx τ) (s s' : Runtime) : Prop where
  idle : s.idle call.threadId = true
  returns : ∃ r, call.exec parser ⟨s.disk, s.store⟩ = (d, some r)
  line : ∀ t, s'.line t = if t = call.threadId then s.line t ++ jobsOf d.issued else s.line t
  disk : s'.disk = s.disk
  reached : s'.reached = s.reached
  called : s'.called = s.called + 1
  described : s'.described = if !d.issued.isEmpty || call.reads parser ⟨s.disk, s.store⟩
    then update s.described call.threadId (some d.run) else s.described
  appended : s'.appended = s.appended ++ [(call.threadId, d.run.events.drop call.given.events.length)]

variable {call : GraphCall τ}

theorem exec_orderly {world : World} {d : RunCtx τ} {r : Result Unit} (h : call.exec parser world = (d, some r)) :
    settle false d.issued = some false ∧ ∀ job ∈ jobsOf d.issued, job.threadId = call.threadId := by
  rcases GraphCall.exec_returns h with ⟨hnone, -⟩ | ⟨start, -, hwrites⟩
  · rw [hnone]
    exact ⟨rfl, nofun⟩
  · exact ⟨hwrites.settled, hwrites.jobs⟩

theorem step_call (hq : Queued cfg s) (h : s.call parser call = some s') :
    Queued cfg s' ∧ ∃ d, Called parser call d s s' := by
  unfold Runtime.call at h
  split at h
  swap
  · cases h
  next hidle =>
  obtain ⟨-, hops, hf, hnone⟩ := idle_line hq hidle
  split at h
  · cases h
  · next d r hexec =>
    cases h
    obtain ⟨hset, hjobs⟩ := exec_orderly hexec
    refine ⟨⟨hq.consistent, fun u j hj => ?_, fun u => ?_⟩, d, hidle, ⟨r, hexec⟩, fun u => ?_, rfl, rfl, rfl, rfl, rfl⟩
    · change j ∈ jobsOf (update s.ops call.threadId d.issued u) at hj
      by_cases htu : u = call.threadId
      · subst htu
        rw [update_self] at hj
        exact hjobs j hj
      · rw [update_of_ne htu] at hj
        exact hq.own u j hj
    · by_cases htu : u = call.threadId
      · subst htu
        unfold Phase
        simp only [hf, update_self]
        exact ⟨false, hset, fun _ => hnone⟩
      · exact (hq.phase u).congr (update_of_ne htu _ _) rfl (fun _ hn => hn) id
    · unfold line
      change ofThread u s.reached ++ ofThread u s.pending ++ jobsOf (update s.ops call.threadId d.issued u) = _
      by_cases htu : u = call.threadId
      · subst htu
        rw [if_pos rfl, update_self, hops]
        exact congrArg (· ++ jobsOf d.issued) (append_nil _).symm
      · rw [if_neg htu, update_of_ne htu]

structure Deleted (t : Bytes) (s s' : Runtime) : Prop where
  line : ∀ u, s'.line u = if u = t then [] else s.line u
  disk : s'.disk = memDeleteThread s.disk t
  reached : s'.reached = s.reached.filter (·.threadId ≠ t)
  called : s'.called = s.called
  described : s'.described = update s.described t none
  appended : s'.appended = s.appended.filter (·.1 ≠ t)

theorem ofThread_filter_ne (t u : Bytes) (jobs : List Job) :
    ofThread u (jobs.filter (·.threadId ≠ t)) = if u = t then [] else ofThread u jobs := by
  unfold ofThread
  rw [filter_filter]
  split
  · next htu =>
    simp [htu]
  · next htu =>
    refine filter_congr fun job _ => ?_
    by_cases hjob : job.threadId = u
    · simp [hjob, htu]
    · simp [hjob]

theorem step_delete (hq : Queued cfg s) {threadId : Bytes} (h : s.delete threadId = some s') :
    Queued cfg s' ∧ Deleted (defaultThread threadId) s s' := by
  unfold delete at h
  simp only at h
  split at h
  swap
  · cases h
  next hidle =>
  obtain ⟨-, hops, -, hnone⟩ := idle_line hq hidle
  cases h
  refine ⟨⟨hq.consistent, hq.own, fun u => (hq.phase u).congr rfl rfl (fun _ hn => hn) id⟩,
    fun u => ?_, rfl, rfl, rfl, rfl, rfl⟩
  change ofThread u (s.reached.filter _) ++ ofThread u s.pending ++ jobsOf (s.ops u) = _
  rw [ofThread_filter_ne]
  split
  · next htu =>
    rw [htu, ofThread_none hnone, hops]
    rfl
  · rfl

theorem step_cases (hq : Queued cfg s) {act : RuntimeAct τ} (h : s.step cfg parser act = some s') :
    Queued cfg s' ∧ (Ticks s s' ∨ (∃ call d, act = .call call ∧ Called parser call d s s') ∨
      ∃ t, Deleted t s s') := by
  cases act with
  | call call =>
    obtain ⟨hq', d, hcalled⟩ := step_call hq h
    exact ⟨hq', .inr (.inl ⟨call, d, rfl, hcalled⟩)⟩
  | delete threadId =>
    obtain ⟨hq', hdel⟩ := step_delete hq h
    exact ⟨hq', .inr (.inr ⟨_, hdel⟩)⟩
  | op t now =>
    obtain ⟨hq', htick⟩ := tick_op hq h
    exact ⟨hq', .inl htick⟩
  | flushed t =>
    obtain ⟨w, hw, rfl⟩ := Option.map_eq_some_iff.1 h
    obtain ⟨hq', htick⟩ := tick_flushed hq hw
    exact ⟨hq', .inl htick⟩
  | take =>
    obtain ⟨w, hw, rfl⟩ := Option.map_eq_some_iff.1 h
    obtain ⟨hq', htick⟩ := tick_take hq hw
    exact ⟨hq', .inl htick⟩
  | write now =>
    obtain ⟨hq', htick⟩ := tick_write hq h
    exact ⟨hq', .inl htick⟩
  | account =>
    obtain ⟨w, hw, rfl⟩ := Option.map_eq_some_iff.1 h
    obtain ⟨hq', htick⟩ := tick_account hq hw
    exact ⟨hq', .inl htick⟩

theorem queued_init (store : Store) : Queued cfg { store } :=
  ⟨consistent_init, fun _ => nofun, fun _ => ⟨false, rfl, fun _ => nofun⟩⟩

end Runtime

end AgentCpp
