import AgentCpp.Graph.AsyncWriter

/-!
# Errors of queued checkpoints (`graph_checkpointer.cpp`, `graph_executor.cpp`)

Calls on different threads share one writer, which has a single slot for the first error.
-/

namespace AgentCpp
open Lib List Function AsyncWriter Option

/- Where the call of a run stands; `finish` gets the error of a node, if there is one. -/
inductive CallAt where
  | closed
  | running
  | flushing (error : Option Error)
  | flushed (error : Option Error) (cp : Result Unit)
  | returned (result : Result Unit)

/- `failed r`: a queued write of the call of run `r` has failed. The source does not
keep track of it. -/
structure WriterCalls where
  writer : AsyncWriter := {}
  calls : ℕ → CallAt := fun _ => .closed
  failed : ℕ → Bool := fun _ => false

inductive CallAct where
  | start (r : ℕ)
  | put (r : ℕ) (step : UInt64) (blob metadata : Bytes)
  | appendEvents (r : ℕ) (events : List GraphEvent)
  | finish (r : ℕ) (error : Option Error)
  | flushed (r : ℕ)
  | last (r : ℕ) (put : Result Unit)
  | take
  | call (put : Result Unit)
  | account

/- What `finish` returns. -/
def finishResult (error : Option Error) (cp last : Result Unit) : Result Unit :=
  match error, cp with
  | some e, _ => .error e
  | none, .error e => .error e
  | none, .ok () => last

namespace WriterCalls

variable (cfg : WriterConfig) (threadOf : ℕ → Bytes) (s : WriterCalls)

def start (r : ℕ) : Option WriterCalls :=
  match s.calls r with
  | .closed | .returned _ =>
    some { s with calls := update s.calls r .running, failed := update s.failed r false }
  | _ => none

def queue (r : ℕ) (enqueued : Option AsyncWriter) : Option WriterCalls :=
  match s.calls r with
  | .running => enqueued.map fun writer => { s with writer }
  | _ => none

def finish (r : ℕ) (error : Option Error) : Option WriterCalls :=
  match s.calls r with
  | .running => (s.writer.flush r).map fun writer =>
      { s with writer, calls := update s.calls r (.flushing error) }
  | _ => none

def flushed (r : ℕ) : Option WriterCalls :=
  match s.calls r with
  | .flushing error => (s.writer.flushed r).map fun writer =>
      { s with writer, calls := update s.calls r (.flushed error s.writer.flushResult) }
  | _ => none

def last (r : ℕ) (put : Result Unit) : Option WriterCalls :=
  match s.calls r with
  | .flushed error cp =>
    some { s with calls := update s.calls r (.returned (finishResult error cp put)) }
  | _ => none

def fails (r : ℕ) : Bool :=
  match s.writer.loop, s.writer.executed.getLast? with
  | .called (.error _), some job => job.threadId = threadOf r
  | _, _ => false

def account : Option WriterCalls :=
  s.writer.account.map fun writer => { s with writer, failed := fun r => s.failed r || s.fails threadOf r }

def step : CallAct → Option WriterCalls
  | .start r => s.start r
  | .put r n blob metadata => s.queue r (s.writer.put cfg (threadOf r) n blob metadata)
  | .appendEvents r events => s.queue r (s.writer.appendEvents cfg (threadOf r) events)
  | .finish r error => s.finish r error
  | .flushed r => s.flushed r
  | .last r put => s.last r put
  | .take => s.writer.take.map fun writer => { s with writer }
  | .call put => (s.writer.call put).map fun writer => { s with writer }
  | .account => s.account threadOf

end WriterCalls

/- A call whose flush has not returned. -/
def CallAt.Waiting : CallAt → Prop
  | .running => True
  | .flushing _ => True
  | _ => False

/- Whether the failure of a queued write is on its way to the caller. -/
def CallAt.Told (slot : Error) : CallAt → Prop
  | .closed => True
  | .running => slot.code ≠ .ok
  | .flushing _ => slot.code ≠ .ok
  | .flushed _ cp => cp ≠ .ok ()
  | .returned result => result ≠ .ok ()

def NoJobs (threadId : Bytes) (jobs : List Job) : Prop := ∀ job ∈ jobs, job.threadId ≠ threadId

/- Where no jobs of the thread are left: behind the target of its flush, then among the jobs
`written` does not count. -/
def CallAt.Quiet (threadId : Bytes) (w : AsyncWriter) (r : ℕ) : CallAt → Prop
  | .running => True
  | .flushing _ => ∃ target, w.flushing r = some target ∧ NoJobs threadId (w.enqueued.drop target)
  | _ => NoJobs threadId (w.enqueued.drop w.written)

variable {threadId : Bytes} {jobs : List Job} {n : ℕ}

theorem NoJobs.snoc (h : NoJobs threadId (jobs.drop n))
    {job : Job} (hjob : job.threadId ≠ threadId) : NoJobs threadId ((jobs ++ [job]).drop n) := by
  intro j hj
  rw [drop_append] at hj
  rcases List.mem_append.1 hj with hj | hj
  · exact h j hj
  · rw [List.mem_singleton.1 (mem_of_mem_drop hj)]
    exact hjob

theorem NoJobs.mono {m : ℕ} (h : NoJobs threadId (jobs.drop m)) (hmn : m ≤ n) : NoJobs threadId (jobs.drop n) := by
  intro j hj
  obtain ⟨k, rfl⟩ := Nat.exists_eq_add_of_le hmn
  rw [← drop_drop] at hj
  exact h j (mem_of_mem_drop hj)

variable {c : CallAt}

theorem CallAt.Quiet.frame {w w' : AsyncWriter} {r : ℕ}
    (h : c.Quiet threadId w r) (hflushing : w'.flushing r = w.flushing r)
    (henqueued : w'.enqueued = w.enqueued) (hwritten : w.written ≤ w'.written) : c.Quiet threadId w' r := by
  cases c with
  | running => trivial
  | flushing error =>
    obtain ⟨target, htarget, hnone⟩ := h
    exact ⟨target, hflushing.trans htarget, henqueued ▸ hnone⟩
  | closed | flushed error cp | returned result =>
    have hnone : NoJobs threadId (w.enqueued.drop w.written) := h
    rw [← henqueued] at hnone
    exact hnone.mono hwritten

theorem CallAt.Told.frame {slot slot' : Error} (h : c.Told slot)
    (hslot : c.Waiting → slot.code ≠ .ok → slot'.code ≠ .ok) : c.Told slot' := by
  cases c with
  | closed => trivial
  | running | flushing error => exact hslot trivial h
  | flushed error cp | returned result => exact h

namespace WriterCalls

variable {cfg : WriterConfig} {threadOf : ℕ → Bytes} {s t : WriterCalls}

/- A flush takes an error out of the slot only when no other call that still has to flush has a
failed write. -/
def Attributed (s : WriterCalls) : CallAct → Prop
  | .flushed r => s.writer.error.code ≠ .ok → ∀ q, q ≠ r → (s.calls q).Waiting → s.failed q = false
  | .call put => ∀ e, put = .error e → e.code ≠ .ok
  | _ => True

structure Reported (cfg : WriterConfig) (threadOf : ℕ → Bytes) (s : WriterCalls) : Prop where
  consistent : AsyncWriter.Consistent cfg s.writer
  quiet : ∀ r, (s.calls r).Quiet (threadOf r) s.writer r
  told : ∀ r, s.failed r = true → (s.calls r).Told s.writer.error
  codes : ∀ e, s.writer.loop = .called (.error e) → e.code ≠ .ok

theorem reported_init : Reported cfg threadOf {} := by
  refine ⟨consistent_init, ?_, ?_, ?_⟩
  · intro r job hjob
    cases hjob
  · intro r h
    cases h
  · intro e h
    cases h

variable {r : ℕ}

theorem start_reported (hs : Reported cfg threadOf s) (h : s.start r = some t) : Reported cfg threadOf t := by
  have ht : t = { s with
      calls := update s.calls r .running, failed := update s.failed r false } := by
    unfold start at h
    split at h
    · cases h
      rfl
    · cases h
      rfl
    · cases h
  subst ht
  refine ⟨hs.consistent, fun q => ?_, fun q hq => ?_, hs.codes⟩
  · simp only [update_apply]
    split
    · trivial
    · exact hs.quiet q
  · obtain ⟨-, ⟨⟩⟩ | ⟨hne, hq⟩ := update_cases hq
    simp only [update_of_ne hne]
    exact hs.told q hq

variable {job : Job} {w : AsyncWriter}

theorem enqueue_reported (hinj : Function.Injective threadOf) (hs : Reported cfg threadOf s)
    (hr : s.calls r = .running) (hjob : job.threadId = threadOf r)
    (h : s.writer.enqueue cfg job = some w) : Reported cfg threadOf { s with writer := w } := by
  have hw := enqueue_consistent hs.consistent h
  obtain ⟨-, -, rfl⟩ := enqueue_some h
  refine ⟨hw, fun q => ?_, hs.told, hs.codes⟩
  have hquiet := hs.quiet q
  have hother : s.calls q ≠ .running → job.threadId ≠ threadOf q := by
    intro hne heq
    exact hne (hinj (heq.symm.trans hjob) ▸ hr)
  cases hq : s.calls q with
  | running => trivial
  | flushing error =>
    rw [hq] at hquiet hother
    obtain ⟨target, htarget, hnone⟩ := hquiet
    exact ⟨target, htarget, hnone.snoc (hother nofun)⟩
  | closed | flushed error cp | returned result =>
    rw [hq] at hquiet hother
    exact NoJobs.snoc hquiet (hother nofun)

theorem queue_some {enqueued : Option AsyncWriter} (h : s.queue r enqueued = some t) :
    s.calls r = .running ∧ ∃ w, enqueued = some w ∧ t = { s with writer := w } := by
  unfold queue at h
  split at h
  · next hr =>
    obtain ⟨w, hw, rfl⟩ := map_eq_some_iff.1 h
    exact ⟨hr, w, hw, rfl⟩
  · cases h

theorem finish_reported (hs : Reported cfg threadOf s) {error : Option Error}
    (h : s.finish r error = some t) : Reported cfg threadOf t := by
  unfold finish at h
  split at h
  · next hr =>
    obtain ⟨w, hw, rfl⟩ := map_eq_some_iff.1 h
    obtain ⟨-, rfl⟩ := flush_some hw
    refine ⟨{ hs.consistent with }, fun q => ?_, fun q hq => ?_, hs.codes⟩
    · simp only [update_apply]
      split
      · next heq =>
        subst heq
        refine ⟨s.writer.queued, update_self .., ?_⟩
        intro job hjob
        rw [hs.consistent.queued, drop_length] at hjob
        cases hjob
      · next heq => exact (hs.quiet q).frame (update_of_ne heq _ _) rfl (Nat.le_refl _)
    · have htold := hs.told q hq
      simp only [update_apply]
      split
      · next heq =>
        rw [heq, hr] at htold
        exact htold
      · exact htold
  · cases h

theorem flushed_reported (hs : Reported cfg threadOf s) (hok : Attributed s (.flushed r))
    (h : s.flushed r = some t) : Reported cfg threadOf t := by
  unfold flushed at h
  split at h
  · next error hr =>
    obtain ⟨w, hw, rfl⟩ := map_eq_some_iff.1 h
    obtain ⟨target, htarget, hle, rfl⟩ := flushed_some hw
    refine ⟨{ hs.consistent with }, fun q => ?_, fun q hq => ?_, hs.codes⟩
    · have hquiet := hs.quiet q
      by_cases heq : q = r
      · subst heq
        rw [hr] at hquiet
        obtain ⟨target', htarget', hnone⟩ := hquiet
        rw [htarget] at htarget'
        cases htarget'
        simp only [update_self]
        exact hnone.mono hle
      · simp only [update_of_ne heq]
        exact hquiet.frame (update_of_ne heq _ _) rfl (Nat.le_refl _)
    · have htold := hs.told q hq
      by_cases heq : q = r
      · subst heq
        rw [hr] at htold
        simp only [update_self]
        change s.writer.flushResult ≠ .ok ()
        unfold AsyncWriter.flushResult
        rw [if_neg htold]
        exact nofun
      · simp only [update_of_ne heq]
        -- the slot is emptied only when no other call still relies on it
        refine htold.frame fun hwaiting hcode => ?_
        rw [hok hcode q heq hwaiting] at hq
        cases hq
  · cases h

variable {put : Result Unit}

theorem last_reported (hs : Reported cfg threadOf s) (h : s.last r put = some t) : Reported cfg threadOf t := by
  unfold last at h
  split at h
  · next error cp hr =>
    cases h
    refine ⟨hs.consistent, fun q => ?_, fun q hq => ?_, hs.codes⟩
    · have hquiet := hs.quiet q
      simp only [update_apply]
      split
      · next heq =>
        rw [heq, hr] at hquiet
        exact heq ▸ hquiet
      · exact hquiet
    · have htold := hs.told q hq
      simp only [update_apply]
      split
      · next heq =>
        rw [heq, hr] at htold
        cases error with
        | some e => exact nofun
        | none =>
          cases cp with
          | error e => exact nofun
          | ok u => exact absurd rfl htold
      · exact htold
  · cases h

theorem accounted_mem (hw : AsyncWriter.Consistent cfg w)
    (hloop : w.loop = .called put) (hjob : w.executed.getLast? = some job) : job ∈ w.enqueued.drop w.written := by
  have hlen := hw.written
  simp only [AsyncWriter.uncounted, hloop] at hlen
  obtain ⟨rest, hrest⟩ := hw.executed_prefix
  obtain ⟨before, hbefore⟩ := List.getLast?_eq_some_iff.1 hjob
  rw [hbefore, length_append] at hlen
  have hwritten : w.written = before.length := by
    simp only [length_cons, length_nil] at hlen
    omega
  rw [← hrest, hbefore, append_assoc, hwritten, drop_left]
  exact mem_append_left _ (mem_singleton_self job)

theorem account_reported (hs : Reported cfg threadOf s) (h : s.account threadOf = some t) :
    Reported cfg threadOf t := by
  obtain ⟨w, hw, rfl⟩ := map_eq_some_iff.1 h
  have hconsistent := account_consistent hs.consistent hw
  obtain ⟨put, hloop, rfl⟩ := account_some hw
  refine ⟨hconsistent, fun q => ?_, fun q hq => ?_, ?_⟩
  · exact (hs.quiet q).frame rfl rfl (Nat.le_succ _)
  · simp only [Bool.or_eq_true] at hq
    rcases hq with hq | hq
    · refine (hs.told q hq).frame fun _ hcode => ?_
      unfold AsyncWriter.slot
      cases put with
      | ok u => exact hcode
      | error e =>
        simp only [if_neg hcode]
        exact hcode
    · unfold fails at hq
      split at hq
      · next e job hcalled hjob =>
        have howner : job.threadId = threadOf q := by simpa using hq
        rw [hloop] at hcalled
        cases hcalled
        have hmem := accounted_mem hs.consistent hloop hjob
        have hquiet := hs.quiet q
        have hslot : (s.writer.slot (.error e)).code ≠ .ok := by
          unfold AsyncWriter.slot
          simp only
          split
          · exact hs.codes e hloop
          · next hcode => exact hcode
        cases hcall : s.calls q with
        | running | flushing error => exact hslot
        | closed | flushed error cp | returned result =>
          rw [hcall] at hquiet
          exact absurd howner (hquiet job hmem)
      · cases hq
  · intro e he
    cases he

theorem step_reported (hinj : Function.Injective threadOf) (s : WriterCalls) (a : CallAct) (t : WriterCalls)
    (hs : Reported cfg threadOf s) (hok : Attributed s a) (h : step cfg threadOf s a = some t) :
    Reported cfg threadOf t := by
  cases a with
  | start r => exact start_reported hs h
  | put r n blob metadata =>
    obtain ⟨hr, w, hw, rfl⟩ := queue_some h
    exact enqueue_reported hinj hs hr rfl hw
  | appendEvents r events =>
    obtain ⟨hr, w, hw, rfl⟩ := queue_some h
    unfold AsyncWriter.appendEvents at hw
    split at hw
    · cases hw
      exact hs
    · exact enqueue_reported hinj hs hr rfl hw
  | finish r error => exact finish_reported hs h
  | flushed r => exact flushed_reported hs hok h
  | last r put => exact last_reported hs h
  | take =>
    obtain ⟨w, hw, rfl⟩ := map_eq_some_iff.1 h
    have hconsistent := take_consistent hs.consistent hw
    obtain ⟨job, queue, -, -, rfl⟩ := take_some hw
    exact ⟨hconsistent, hs.quiet, hs.told, nofun⟩
  | call put =>
    obtain ⟨w, hw, rfl⟩ := map_eq_some_iff.1 h
    have hconsistent := call_consistent hs.consistent hw
    obtain ⟨job, -, rfl⟩ := call_some hw
    refine ⟨hconsistent, hs.quiet, hs.told, fun e he => ?_⟩
    cases he
    exact hok e rfl
  | account => exact account_reported hs h

end WriterCalls

/-- No call returns ok after one of its queued writes has failed, as long as no flush takes
an error out of the slot while another call in flight has a failed write. -/
theorem failedWrite_reported (cfg : WriterConfig) (threadOf : ℕ → Bytes)
    (hinj : Function.Injective threadOf) (as : List CallAct) (s : WriterCalls)
    (h : run (WriterCalls.step cfg threadOf) {} as = some s)
    (hok : Meets (WriterCalls.step cfg threadOf) WriterCalls.Attributed {} as) (r : ℕ)
    (hfailed : s.failed r = true) : s.calls r ≠ .returned (.ok ()) := by
  have hs := run_invariant_of_meets (WriterCalls.step_reported hinj) h hok WriterCalls.reported_init
  intro hret
  have htold := hs.told r hfailed
  rw [hret] at htold
  exact htold rfl

def stolenError : List CallAct :=
  [.start 0, .start 1, .put 0 1 [] [], .take, .call (fail .networkError []), .account,
    .finish 1 none, .flushed 1, .last 1 (.ok ()), .finish 0 none, .flushed 0, .last 0 (.ok ())]

theorem stolenError_unreported :
    ∃ s, run (WriterCalls.step ⟨64, true⟩ decimal) {} stolenError = some s ∧ s.failed 0 = true ∧
      s.calls 0 = .returned (.ok ()) ∧ s.calls 1 = .returned (fail .networkError []) :=
  ⟨_, rfl, rfl, rfl, rfl⟩

def ownError : List CallAct :=
  [.start 0, .put 0 1 [] [], .take, .call (fail .networkError []), .account, .finish 0 none, .flushed 0,
    .last 0 (.ok ()), .start 1, .finish 1 none, .flushed 1, .last 1 (.ok ())]

theorem failedWrite_reported_ownError :
    ∃ s, run (WriterCalls.step ⟨64, true⟩ decimal) {} ownError = some s ∧ s.failed 0 = true ∧
      s.calls 0 ≠ .returned (.ok ()) := by
  refine ⟨_, rfl, rfl, ?_⟩
  refine failedWrite_reported ⟨64, true⟩ decimal decimal_injective ownError _ rfl ?_ 0 rfl
  have hcode : WriterCalls.Attributed {} (.call (fail .networkError [])) := by
    intro e he
    cases he
    decide
  refine .cons trivial rfl (.cons trivial rfl (.cons trivial rfl (.cons hcode rfl (.cons trivial rfl
    (.cons trivial rfl (.cons ?_ rfl (.cons trivial rfl (.cons trivial rfl (.cons trivial rfl
    (.cons ?_ rfl (.cons trivial rfl trivial)))))))))))
  · intro _ q hq hwaiting
    simp only [update_of_ne hq] at hwaiting
    exact hwaiting.elim
  · intro herror
    exact absurd rfl herror

end AgentCpp
