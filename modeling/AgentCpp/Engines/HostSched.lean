import AgentCpp.Lib.Machine

/-!
# Scheduling in the engine host (`engine_host.cpp`)

A reader thread takes frames off the pipe. Runs go to a queue that a growing set of workers serves,
other commands to the control thread. Every section under `g_mutex`, and every step between two of
them that touches `g_instance` or the engine, is one action.
-/

namespace AgentCpp.HostSched
open Lib Function List

inductive Command where
  | run
  | cancel
  | release
  | create
  | countTokens
  | resetCache
  | destroy
  | shutdown
  | unknown
  deriving DecidableEq

/- What a worker does next. `arriving` is on its way to the queue: just started, or done with a run. -/
inductive WorkerAt where
  | arriving
  | idle
  | taken (job : ℕ)
  | executing (job inst : ℕ)
  | ending (job : ℕ)
  | exited
  deriving DecidableEq

/- What follows `destroy_instance` on the control thread. -/
inductive After where
  | create (job : ℕ)
  | destroy (job : ℕ)
  | leave
  deriving DecidableEq

inductive ControlAt where
  | waiting
  | handling (job : ℕ)
  | draining (inst : ℕ) (after : After)
  | destroying (inst : ℕ) (after : After)
  | creating (job : ℕ)
  | stopped
  deriving DecidableEq

/- Jobs are numbered by their place in `g_jobs`. The last three fields are a record of the run: the
ids read, the ids taken with their workers, and the instances whose destroy was entered. -/
structure Host where
  runQueue : List ℕ := []
  ctlQueue : List ℕ := []
  running : List ℕ := []
  jobs : ℕ := 0
  freeJobs : List ℕ := []
  ids : ℕ → ℕ := fun _ => 0
  types : ℕ → Command := fun _ => .unknown
  cancels : ℕ → Bool := fun _ => false
  workers : List WorkerAt := []
  idleWorkers : ℕ := 0
  eof : Bool := false
  inst : Option ℕ := none
  created : ℕ := 0
  control : ControlAt := .waiting
  received : List ℕ := []
  taken : List (ℕ × ℕ) := []
  destroyed : List ℕ := []

inductive Act where
  | frame (type : Command) (id : ℕ)
  | eof
  | arrive (worker : ℕ)
  | wake (worker : ℕ)
  | load (worker : ℕ)
  | finish (worker : ℕ)
  | done (worker : ℕ)
  | command
  | handle (wellFormed : Bool)
  | drained
  | timeout
  | destroyed
  | created (ok : Bool)
  deriving DecidableEq

def Act.runId : Act → Option ℕ
  | .frame .run id => some id
  | _ => none

namespace Host

/- `take_job`: a pooled job, or a new one. -/
def takeJob (s : Host) : ℕ × Host :=
  match s.freeJobs with
  | job :: rest => (job, { s with freeJobs := rest })
  | [] => (s.jobs, { s with jobs := s.jobs + 1 })

def freeJob (s : Host) (job : ℕ) : Host := { s with freeJobs := job :: s.freeJobs }

/- `g_workers`. -/
def workerCount (s : Host) : ℕ := s.workers.length

def setCancel (s : Host) (id : ℕ) : Host :=
  { s with cancels := fun job =>
      s.cancels job || ((s.running.contains job || s.runQueue.contains job) && s.ids job == id) }

variable (maxWorkers : ℕ)

/- A Run frame: the job is queued, and a worker started if there are more runs than idle workers.
The length of the queue is cast to `int`; `Host.Scheduled` bounds it. -/
def queueRun (s : Host) (job : ℕ) : Host :=
  let s := { s with runQueue := s.runQueue ++ [job] }
  if s.runQueue.length > s.idleWorkers ∧ s.workerCount < maxWorkers then { s with workers := s.workers ++ [.arriving] }
  else s

/- One round of `reader_main`. -/
def frame (s : Host) (type : Command) (id : ℕ) : Host :=
  match type with
  | .cancel => s.setCancel id
  | .release => s
  | _ =>
    let (job, s) := s.takeJob
    let s := { s with
      ids := update s.ids job id
      types := update s.types job type
      cancels := update s.cancels job false }
    if type = .run then queueRun maxWorkers { s with received := s.received ++ [id] } job
    else { s with ctlQueue := s.ctlQueue ++ [job] }

/- The section of `worker_main` that takes the first run or, at the end of input, leaves. -/
def takeRun (s : Host) (worker : ℕ) : Host :=
  match s.runQueue with
  | [] => { s with workers := s.workers.set worker .exited }
  | job :: rest => { s with
      runQueue := rest
      running := s.running ++ [job]
      taken := s.taken ++ [(worker, s.ids job)]
      workers := s.workers.set worker (.taken job) }

def ready (s : Host) : Bool := !s.runQueue.isEmpty || s.eof

def arrive (s : Host) (worker : ℕ) : Host :=
  if s.ready then s.takeRun worker
  else { s with idleWorkers := s.idleWorkers + 1, workers := s.workers.set worker .idle }

/- What `destroy_instance` waits for. -/
def drained (s : Host) : Bool := s.running.isEmpty && s.runQueue.isEmpty

/- What comes after `destroy_instance`, which returned `ok`. -/
def after (s : Host) (next : After) (ok : Bool) : Host :=
  match next with
  | .create job => if ok then { s with control := .creating job } else { s.freeJob job with control := .waiting }
  | .destroy job => { s.freeJob job with control := .waiting }
  | .leave => { s with control := .stopped }

def destroyInstance (s : Host) (next : After) : Host :=
  match s.inst with
  | none => s.after next true
  | some inst => { s with control := .draining inst next }

/- One command of `serve`, up to where it may have to wait for the runs. A malformed Create is answered with an error. -/
def handle (s : Host) (job : ℕ) (wellFormed : Bool) : Host :=
  match s.types job with
  | .create => if wellFormed then s.destroyInstance (.create job) else { s.freeJob job with control := .waiting }
  | .destroy => s.destroyInstance (.destroy job)
  | .shutdown => s.destroyInstance .leave
  | _ => { s.freeJob job with control := .waiting }

def step (s : Host) : Act → Option Host
  | .frame type id => if s.eof then none else some (s.frame maxWorkers type id)
  | .eof => if s.eof then none else some { s with eof := true }
  | .arrive worker => match s.workers[worker]? with
    | some .arriving => some (s.arrive worker)
    | _ => none
  | .wake worker => match s.workers[worker]? with
    | some .idle => if s.ready then some (takeRun { s with idleWorkers := s.idleWorkers - 1 } worker) else none
    | _ => none
  | .load worker => match s.workers[worker]? with
    | some (.taken job) => match s.inst with
      | some inst => some { s with workers := s.workers.set worker (.executing job inst) }
      | none => some { s with workers := s.workers.set worker (.ending job) }
    | _ => none
  | .finish worker => match s.workers[worker]? with
    | some (.executing job _) => some { s with workers := s.workers.set worker (.ending job) }
    | _ => none
  | .done worker => match s.workers[worker]? with
    | some (.ending job) => some { s with
        running := s.running.filter (· ≠ job)
        freeJobs := job :: s.freeJobs
        workers := s.workers.set worker .arriving }
    | _ => none
  | .command => match s.control with
    | .waiting => match s.ctlQueue with
      | job :: rest => some { s with ctlQueue := rest, control := .handling job }
      | [] => if s.eof then some (s.destroyInstance .leave) else none
    | _ => none
  | .handle wellFormed => match s.control with
    | .handling job => some (s.handle job wellFormed)
    | _ => none
  | .drained => match s.control with
    | .draining inst next =>
      if s.drained then
        some { s with inst := none, destroyed := s.destroyed ++ [inst], control := .destroying inst next }
      else none
    | _ => none
  | .timeout => match s.control with
    | .draining _ next => if s.drained then none else some (s.after next false)
    | _ => none
  | .destroyed => match s.control with
    | .destroying _ next => some (s.after next true)
    | _ => none
  | .created ok => match s.control with
    | .creating job =>
      if ok then some { s.freeJob job with inst := some s.created, created := s.created + 1, control := .waiting }
      else some { s.freeJob job with control := .waiting }
    | _ => none

/- Where `take_job` finds the job it returns, and the pool and the number of jobs it leaves. -/
inductive Pooled (s : Host) : ℕ → List ℕ → ℕ → Prop
  | reused {job : ℕ} {free : List ℕ} (h : s.freeJobs = job :: free) : Pooled s job free s.jobs
  | fresh (h : s.freeJobs = []) : Pooled s s.jobs [] (s.jobs + 1)

end Host

def WorkerAt.job : WorkerAt → Option ℕ
  | .taken job | .executing job _ | .ending job => some job
  | _ => none

def WorkerAt.free : WorkerAt → ℕ
  | .arriving | .idle => 1
  | _ => 0

def WorkerAt.waits : WorkerAt → ℕ
  | .idle => 1
  | _ => 0

def After.jobs : After → List ℕ
  | .create job | .destroy job => [job]
  | .leave => []

def ControlAt.jobs : ControlAt → List ℕ
  | .handling job | .creating job => [job]
  | .draining _ next | .destroying _ next => next.jobs
  | _ => []

def ControlAt.clear : ControlAt → Bool
  | .destroying .. | .creating _ => true
  | _ => false

namespace Host

variable {maxWorkers : ℕ}

/- The workers after a run is queued: one more, if the queue outgrew the idle ones and the limit allows it. -/
inductive Staffs (maxWorkers queued idle : ℕ) (workers : List WorkerAt) : List WorkerAt → Prop
  | hired (h : workers.length < maxWorkers) : Staffs maxWorkers queued idle workers (workers ++ [.arriving])
  | enough (h : queued < idle) : Staffs maxWorkers queued idle workers workers
  | full (h : maxWorkers ≤ workers.length) : Staffs maxWorkers queued idle workers workers

/- One step, with the id of the Run frame it read if it read one. -/
inductive Moves (maxWorkers : ℕ) (s : Host) : Option ℕ → Host → Prop
  | cancel (cancels : ℕ → Bool) : Moves maxWorkers s none { s with cancels }
  | release : Moves maxWorkers s none s
  | run {job : ℕ} {free : List ℕ} {jobs : ℕ} (hpool : s.Pooled job free jobs) (id : ℕ)
      (types : ℕ → Command) (cancels : ℕ → Bool) {workers : List WorkerAt}
      (hstaff : Staffs maxWorkers s.runQueue.length s.idleWorkers s.workers workers) :
      Moves maxWorkers s (some id) { s with
        freeJobs := free, jobs, ids := update s.ids job id, types, cancels
        runQueue := s.runQueue ++ [job], received := s.received ++ [id], workers }
  | control {job : ℕ} {free : List ℕ} {jobs : ℕ} (hpool : s.Pooled job free jobs) (id : ℕ)
      (types : ℕ → Command) (cancels : ℕ → Bool) :
      Moves maxWorkers s none { s with
        freeJobs := free, jobs, ids := update s.ids job id, types, cancels, ctlQueue := s.ctlQueue ++ [job] }
  | eof : Moves maxWorkers s none { s with eof := true }
  | take {worker job : ℕ} {rest : List ℕ} {w : WorkerAt} (hat : s.workers[worker]? = some w) (hfree : w.free = 1)
      (hqueue : s.runQueue = job :: rest) :
      Moves maxWorkers s none { s with
        runQueue := rest, running := s.running ++ [job], taken := s.taken ++ [(worker, s.ids job)]
        idleWorkers := s.idleWorkers - w.waits, workers := s.workers.set worker (.taken job) }
  | leave {worker : ℕ} {w : WorkerAt} (hat : s.workers[worker]? = some w) (hfree : w.free = 1)
      (hqueue : s.runQueue = []) :
      Moves maxWorkers s none { s with
        idleWorkers := s.idleWorkers - w.waits, workers := s.workers.set worker .exited }
  | rest {worker : ℕ} (hat : s.workers[worker]? = some .arriving) :
      Moves maxWorkers s none { s with
        idleWorkers := s.idleWorkers + 1, workers := s.workers.set worker .idle }
  | load {worker job inst : ℕ} (hat : s.workers[worker]? = some (.taken job)) (hinst : s.inst = some inst) :
      Moves maxWorkers s none { s with workers := s.workers.set worker (.executing job inst) }
  | finish {worker job : ℕ} {w : WorkerAt} (hat : s.workers[worker]? = some w) (hjob : w.job = some job) :
      Moves maxWorkers s none { s with workers := s.workers.set worker (.ending job) }
  | done {worker job : ℕ} (hat : s.workers[worker]? = some (.ending job)) :
      Moves maxWorkers s none { s with
        running := s.running.filter (· ≠ job), freeJobs := job :: s.freeJobs
        workers := s.workers.set worker .arriving }
  | command {job : ℕ} {rest : List ℕ} (hat : s.control = .waiting) (hqueue : s.ctlQueue = job :: rest) :
      Moves maxWorkers s none { s with ctlQueue := rest, control := .handling job }
  | turn {free : List ℕ} {control : ControlAt}
      (hjobs : ∀ p, free.count p + control.jobs.count p ≤ s.freeJobs.count p + s.control.jobs.count p)
      (hdrain : ∀ inst next, control = .draining inst next → s.inst = some inst)
      (hclear : control.clear = true → s.inst = none ∨ s.control.clear = true) :
      Moves maxWorkers s none { s with freeJobs := free, control }
  | drained {inst : ℕ} {next : After} (hat : s.control = .draining inst next) (hrunning : s.running = []) :
      Moves maxWorkers s none { s with
        inst := none, destroyed := s.destroyed ++ [inst], control := .destroying inst next }
  | created {job : ℕ} (hat : s.control = .creating job) :
      Moves maxWorkers s none { s with
        freeJobs := job :: s.freeJobs, inst := some s.created, created := s.created + 1, control := .waiting }

theorem pooled_takeJob (s : Host) : s.Pooled s.takeJob.1 s.takeJob.2.freeJobs s.takeJob.2.jobs := by
  unfold takeJob
  split
  · exact .reused ‹_›
  · refine cast ?_ (Pooled.fresh ‹_›)
    rw [‹s.freeJobs = []›]

theorem takeJob_snd (s : Host) :
    s.takeJob.2 = { s with freeJobs := s.takeJob.2.freeJobs, jobs := s.takeJob.2.jobs } := by
  unfold takeJob
  split <;> rfl

theorem queueRun_cases (maxWorkers : ℕ) (s : Host) (job : ℕ) :
    ∃ workers, Staffs maxWorkers s.runQueue.length s.idleWorkers s.workers workers ∧
      s.queueRun maxWorkers job = { s with runQueue := s.runQueue ++ [job], workers } := by
  by_cases hspawn : (s.runQueue ++ [job]).length > s.idleWorkers ∧ s.workers.length < maxWorkers
  · exact ⟨_, .hired hspawn.2, if_pos hspawn⟩
  · refine ⟨_, ?_, if_neg hspawn⟩
    rw [length_append, length_singleton] at hspawn
    by_cases hfull : maxWorkers ≤ s.workers.length
    · exact .full hfull
    · exact .enough (by omega)

theorem frame_moves (s : Host) (type : Command) (id : ℕ) :
    Moves maxWorkers s (Act.frame type id).runId (s.frame maxWorkers type id) := by
  have hpool := pooled_takeJob s
  have htake := takeJob_snd s
  have hcontrol : type ≠ .run → type ≠ .cancel → type ≠ .release → Moves maxWorkers s none (s.frame maxWorkers type id) := by
    intro hrun hcancel hrelease
    cases type <;> first
      | contradiction
      | (dsimp only [frame]
         rw [htake]
         exact .control hpool id _ _)
  cases type with
  | cancel => exact .cancel _
  | release => exact .release
  | run =>
    dsimp only [frame]
    rw [htake]
    obtain ⟨workers, hstaff, hqueue⟩ := queueRun_cases maxWorkers { s with
      freeJobs := s.takeJob.2.freeJobs, jobs := s.takeJob.2.jobs, ids := update s.ids s.takeJob.1 id
      types := update s.types s.takeJob.1 .run, cancels := update s.cancels s.takeJob.1 false
      received := s.received ++ [id] } s.takeJob.1
    refine cast (congrArg _ hqueue.symm) ?_
    exact .run hpool id _ _ hstaff
  | create | countTokens | resetCache | destroy | shutdown | unknown =>
    exact hcontrol nofun nofun nofun

theorem takeRun_moves {s : Host} {worker : ℕ} {w : WorkerAt} (hat : s.workers[worker]? = some w) (hfree : w.free = 1) :
    Moves maxWorkers s none (takeRun { s with idleWorkers := s.idleWorkers - w.waits } worker) := by
  dsimp only [takeRun]
  split
  · next hqueue => exact .leave hat hfree hqueue
  · next hqueue => exact .take hat hfree hqueue

theorem freeJob_moves {s : Host} {job : ℕ} (hjobs : ∀ p, [job].count p ≤ s.control.jobs.count p) :
    Moves maxWorkers s none { s.freeJob job with control := .waiting } := by
  refine .turn (fun p => ?_) nofun nofun
  have hjob := hjobs p
  change (job :: s.freeJobs).count p + 0 ≤ _
  rw [count_cons]
  rw [count_singleton] at hjob
  omega

theorem after_moves {s : Host} {next : After} {ok : Bool} (hjobs : ∀ p, next.jobs.count p ≤ s.control.jobs.count p)
    (hclear : ok = true → s.inst = none ∨ s.control.clear = true) : Moves maxWorkers s none (s.after next ok) := by
  cases next with
  | create job =>
    dsimp only [after]
    split
    · next hok => exact .turn (fun p => Nat.add_le_add_left (hjobs p) _) nofun fun _ => hclear hok
    · exact freeJob_moves hjobs
  | destroy job => exact freeJob_moves hjobs
  | leave => exact .turn (fun p => Nat.le_add_right _ _) nofun nofun

theorem destroyInstance_moves {s : Host} {next : After} (hjobs : ∀ p, next.jobs.count p ≤ s.control.jobs.count p) :
    Moves maxWorkers s none (s.destroyInstance next) := by
  unfold destroyInstance
  split
  · next hinst => exact after_moves hjobs fun _ => .inl hinst
  · next inst hinst =>
    refine .turn (fun p => Nat.add_le_add_left (hjobs p) _) ?_ nofun
    rintro _ _ ⟨⟩
    exact hinst

theorem handle_moves {s : Host} {job : ℕ} (hat : s.control = .handling job) (wellFormed : Bool) :
    Moves maxWorkers s none (s.handle job wellFormed) := by
  have hjobs : ∀ p, [job].count p ≤ s.control.jobs.count p := fun p => by rw [hat]; exact Nat.le_refl _
  unfold handle
  split
  · split
    · exact destroyInstance_moves hjobs
    · exact freeJob_moves hjobs
  · exact destroyInstance_moves hjobs
  · exact destroyInstance_moves fun p => Nat.zero_le _
  · exact freeJob_moves hjobs

theorem step_moves {s t : Host} {a : Act} (h : s.step maxWorkers a = some t) : Moves maxWorkers s a.runId t := by
  cases a with
  | frame type id =>
    dsimp only [step] at h
    split at h <;> cases h
    exact frame_moves s type id
  | eof =>
    dsimp only [step] at h
    split at h <;> cases h
    exact .eof
  | arrive worker =>
    dsimp only [step] at h
    split at h <;> cases h
    next hat =>
    unfold arrive
    split
    · exact takeRun_moves hat rfl
    · exact .rest hat
  | wake worker =>
    dsimp only [step] at h
    split at h
    · next hat =>
      split at h <;> cases h
      exact takeRun_moves hat rfl
    · cases h
  | load worker =>
    dsimp only [step] at h
    split at h
    · next hat =>
      split at h <;> cases h
      · next hinst => exact .load hat hinst
      · exact .finish hat rfl
    · cases h
  | finish worker =>
    dsimp only [step] at h
    split at h <;> cases h
    next hat => exact .finish hat rfl
  | done worker =>
    dsimp only [step] at h
    split at h <;> cases h
    next hat => exact .done hat
  | command =>
    dsimp only [step] at h
    split at h
    · next hat =>
      split at h
      · next hqueue =>
        cases h
        exact .command hat hqueue
      · split at h <;> cases h
        exact destroyInstance_moves fun p => Nat.zero_le _
    · cases h
  | handle wellFormed =>
    dsimp only [step] at h
    split at h <;> cases h
    next hat => exact handle_moves hat wellFormed
  | drained =>
    dsimp only [step] at h
    split at h
    · next hat =>
      split at h <;> cases h
      next hdrained =>
      have hrunning := (Bool.and_eq_true _ _ ▸ hdrained).1
      exact .drained hat (isEmpty_iff.1 hrunning)
    · cases h
  | timeout =>
    dsimp only [step] at h
    split at h
    · next hat =>
      split at h <;> cases h
      exact after_moves (fun p => by rw [hat]; exact Nat.le_refl _) nofun
    · cases h
  | destroyed =>
    dsimp only [step] at h
    split at h <;> cases h
    next hat => exact after_moves (fun p => by rw [hat]; exact Nat.le_refl _) fun _ => .inr (by rw [hat]; rfl)
  | created ok =>
    dsimp only [step] at h
    split at h
    · next hat =>
      split at h <;> cases h
      · exact .created hat
      · exact freeJob_moves fun p => by rw [hat]; exact Nat.le_refl _
    · cases h

end Host

end AgentCpp.HostSched
