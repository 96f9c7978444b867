import AgentCpp.Engines.HostSched

/-!
# Runs in the engine host

A job is in one place, the queue never outgrows the workers that can come to it, and the
instance is destroyed only when no job is in a worker's hands.
-/

namespace AgentCpp.HostSched
open Lib List Function

namespace Host

variable {maxWorkers : ℕ} {s t : Host} {read : Option ℕ}

/- How often a job is in a queue, in `g_running`, in the pool or with the control thread. -/
def places (s : Host) (p : ℕ) : ℕ :=
  s.runQueue.count p + s.ctlQueue.count p + s.running.count p + s.freeJobs.count p + s.control.jobs.count p

def Holds (workers : List WorkerAt) (worker p : ℕ) : Prop :=
  ∃ w, workers[worker]? = some w ∧ w.job = some p

variable {i j p job jobs : ℕ} {w : WorkerAt} {free : List ℕ}

theorem Holds.of_set {workers : List WorkerAt} (h : Holds (workers.set i w) j p) :
    j = i ∧ w.job = some p ∨ j ≠ i ∧ Holds workers j p := by
  obtain ⟨w', hat, hjob⟩ := h
  by_cases hj : j = i
  · subst hj
    rw [getElem?_set] at hat
    split at hat
    · split at hat
      · cases hat
        exact .inl ⟨rfl, hjob⟩
      · cases hat
    · contradiction
  · rw [getElem?_set_ne (Ne.symm hj)] at hat
    exact .inr ⟨hj, w', hat, hjob⟩

theorem Holds.of_append {workers : List WorkerAt} (h : Holds (workers ++ [.arriving]) j p) : Holds workers j p := by
  obtain ⟨w, hat, hjob⟩ := h
  rw [getElem?_append] at hat
  split at hat
  · exact ⟨w, hat, hjob⟩
  · have hw := mem_of_getElem? hat
    rw [mem_singleton] at hw
    subst hw
    cases hjob

theorem Holds.of_staffs {queued idle : ℕ} {workers workers' : List WorkerAt}
    (hstaff : Staffs maxWorkers queued idle workers workers') (h : Holds workers' j p) : Holds workers j p := by
  cases hstaff with
  | hired => exact h.of_append
  | enough | full => exact h

theorem Holds.of_set_same {workers : List WorkerAt} {w' : WorkerAt} (hat : workers[i]? = some w)
    (hjob : w'.job = w.job ∨ w'.job = none) (h : Holds (workers.set i w') j p) : Holds workers j p := by
  obtain ⟨rfl, hp⟩ | ⟨-, h⟩ := h.of_set
  · obtain hjob | hjob := hjob
    · exact ⟨w, hat, hjob ▸ hp⟩
    · rw [hjob] at hp
      cases hp
  · exact h

/- Every job is in one place, and what a worker holds is in `g_running` and held by no other. -/
structure Placed (s : Host) : Prop where
  once : ∀ p, s.places p ≤ 1
  made : ∀ p, s.jobs ≤ p → s.places p = 0
  held : ∀ i p, Holds s.workers i p → p ∈ s.running
  single : ∀ i j p, Holds s.workers i p → Holds s.workers j p → i = j

theorem Pooled.count (hpool : s.Pooled job free jobs) (p : ℕ) :
    free.count p + [job].count p = s.freeJobs.count p ∧ jobs = s.jobs ∨
      free.count p + [job].count p = s.freeJobs.count p + [s.jobs].count p ∧ jobs = s.jobs + 1 := by
  cases hpool with
  | reused h =>
    left
    refine ⟨?_, rfl⟩
    rw [h, count_singleton, count_cons]
  | fresh h =>
    right
    rw [h, count_nil]
    exact ⟨rfl, rfl⟩

theorem Placed.pooled (h : s.Placed) (hpool : s.Pooled job free jobs) (p n : ℕ)
    (hn : n + s.freeJobs.count p = s.places p) :
    n + free.count p + [job].count p ≤ 1 ∧ (jobs ≤ p → n + free.count p + [job].count p = 0) := by
  have honce := h.once p
  have hmade := h.made p
  obtain ⟨hcount, rfl⟩ | ⟨hcount, rfl⟩ := hpool.count p
  · exact ⟨by omega, fun hp => by have := hmade hp; omega⟩
  · rw [count_singleton (a := p) (b := s.jobs)] at hcount
    split at hcount
    · next hp =>
      rw [beq_iff_eq] at hp
      have := hmade (by omega)
      exact ⟨by omega, fun hp => by omega⟩
    · exact ⟨by omega, fun hp => by have := hmade (by omega); omega⟩

theorem Placed.pooled_new (h : s.Placed) (hpool : s.Pooled job free jobs) : job ∉ s.runQueue ∧ job ∉ s.running := by
  have hle := (h.pooled hpool job (s.runQueue.count job + s.ctlQueue.count job + s.running.count job +
    s.control.jobs.count job) (by unfold places; omega)).1
  rw [count_singleton_self] at hle
  exact ⟨count_eq_zero.1 (by omega), count_eq_zero.1 (by omega)⟩

theorem count_filter_ne (xs : List ℕ) (job p : ℕ) :
    (xs.filter (· ≠ job)).count p = if p = job then 0 else xs.count p := by
  split
  · next h =>
    subst h
    rw [count_eq_zero]
    intro hmem
    simp at hmem
  · next h =>
    rw [count_filter]
    exact decide_eq_true h

theorem Placed.of_le (h : s.Placed) (hplaces : ∀ p, t.places p ≤ s.places p) (hjobs : t.jobs = s.jobs)
    (hheld : ∀ i p, Holds t.workers i p → p ∈ t.running)
    (hsingle : ∀ i j p, Holds t.workers i p → Holds t.workers j p → i = j) : t.Placed where
  once p := Nat.le_trans (hplaces p) (h.once p)
  made p hp := by
    have := h.made p (hjobs ▸ hp)
    have := hplaces p
    omega
  held := hheld
  single := hsingle

theorem Placed.set (h : s.Placed) {w' : WorkerAt} (hat : s.workers[i]? = some w)
    (hjob : w'.job = w.job ∨ w'.job = none) (idleWorkers : ℕ) :
    Placed { s with idleWorkers, workers := s.workers.set i w' } where
  once := h.once
  made := h.made
  held j p hj := h.held j p (hj.of_set_same hat hjob)
  single j k p hj hk := h.single j k p (hj.of_set_same hat hjob) (hk.of_set_same hat hjob)

theorem Moves.placed (hm : Moves maxWorkers s read t) (h : s.Placed) : t.Placed := by
  cases hm with
  | cancel | release | eof => exact { h with }
  | rest hat => exact h.set hat (.inr rfl) _
  | leave hat => exact h.set hat (.inr rfl) _
  | load hat => exact h.set hat (.inl (by rfl)) _
  | finish hat hjob => exact h.set hat (.inl (by exact hjob.symm)) _
  | run hpool id types cancels hstaff =>
    have hpooled := fun p => h.pooled hpool p (s.runQueue.count p + s.ctlQueue.count p + s.running.count p +
      s.control.jobs.count p) (by unfold places; omega)
    refine ⟨fun p => ?_, fun p hp => ?_, fun i p hi => h.held i p (hi.of_staffs hstaff),
      fun i j p hi hj => h.single i j p (hi.of_staffs hstaff) (hj.of_staffs hstaff)⟩
    · have := (hpooled p).1
      dsimp only [places]
      rw [count_append]
      omega
    · have := (hpooled p).2 hp
      dsimp only [places]
      rw [count_append]
      omega
  | control hpool id types cancels =>
    have hpooled := fun p => h.pooled hpool p (s.runQueue.count p + s.ctlQueue.count p + s.running.count p +
      s.control.jobs.count p) (by unfold places; omega)
    refine ⟨fun p => ?_, fun p hp => ?_, h.held, h.single⟩
    · have := (hpooled p).1
      dsimp only [places]
      rw [count_append]
      omega
    · have := (hpooled p).2 hp
      dsimp only [places]
      rw [count_append]
      omega
  | @take worker job rest w hat hfree hqueue =>
    -- The job comes from the queue, so that no worker has it yet.
    have hnew : ∀ i, ¬ Holds s.workers i job := by
      intro i hi
      have hrunning := count_pos_iff.2 (h.held i job hi)
      have hle := h.once job
      unfold places at hle
      rw [hqueue, count_cons_self] at hle
      omega
    refine h.of_le (fun p => ?_) rfl (fun i p hi => ?_) (fun i j p hi hj => ?_)
    · dsimp only [places]
      rw [hqueue, count_append, count_singleton, count_cons]
      omega
    · obtain ⟨-, hp⟩ | ⟨-, hi⟩ := hi.of_set
      · cases hp
        exact mem_append_right _ (mem_singleton_self job)
      · exact mem_append_left _ (h.held i p hi)
    · obtain ⟨rfl, hp⟩ | ⟨-, hi'⟩ := hi.of_set <;> obtain ⟨rfl, hp'⟩ | ⟨-, hj'⟩ := hj.of_set
      · rfl
      · cases hp
        exact (hnew j hj').elim
      · cases hp'
        exact (hnew i hi').elim
      · exact h.single i j p hi' hj'
  | @done worker job hat =>
    have hjob : Holds s.workers worker job := ⟨_, hat, rfl⟩
    have hmem := h.held worker job hjob
    have hother : ∀ i p, Holds (s.workers.set worker .arriving) i p → i ≠ worker ∧ Holds s.workers i p := by
      intro i p hi
      obtain ⟨-, hp⟩ | hi := hi.of_set
      · cases hp
      · exact hi
    refine h.of_le (fun p => ?_) rfl (fun i p hi => ?_) (fun i j p hi hj => ?_)
    · have hcount := count_pos_iff.2 hmem
      dsimp only [places]
      rw [count_filter_ne, count_cons]
      split
      · next hp =>
        subst hp
        rw [beq_self_eq_true, if_pos rfl]
        omega
      · next hp =>
        rw [if_neg (by simpa using Ne.symm hp)]
        omega
    · obtain ⟨hne, hi'⟩ := hother i p hi
      refine mem_filter.2 ⟨h.held i p hi', decide_eq_true ?_⟩
      rintro rfl
      exact hne (h.single i worker p hi' hjob)
    · exact h.single i j p (hother i p hi).2 (hother j p hj).2
  | command hat hqueue =>
    refine h.of_le (fun p => ?_) rfl h.held h.single
    dsimp only [places]
    rw [hat, hqueue, count_cons]
    simp only [ControlAt.jobs, count_nil, count_singleton]
    omega
  | turn hjobs =>
    refine h.of_le (fun p => ?_) rfl h.held h.single
    have := hjobs p
    dsimp only [places]
    omega
  | drained hat hrunning =>
    refine h.of_le (fun p => ?_) rfl h.held h.single
    dsimp only [places]
    rw [hat]
    exact Nat.le_refl _
  | created hat =>
    refine h.of_le (fun p => ?_) rfl h.held h.single
    dsimp only [places]
    rw [hat, count_cons]
    simp only [ControlAt.jobs, count_nil, count_singleton]
    omega

def lastTaken (s : Host) (worker : ℕ) : Option ℕ := ((s.taken.filter (·.1 = worker)).getLast?).map Prod.snd

/- The runs taken, then those still queued, are the runs read; a worker's job is the one it took last. -/
structure Ordered (s : Host) : Prop where
  order : s.taken.map Prod.snd ++ s.runQueue.map s.ids = s.received
  last : ∀ i p, Holds s.workers i p → s.lastTaken i = some (s.ids p)

theorem Ordered.pooled (h : s.Ordered) (hs : s.Placed) (hpool : s.Pooled job free jobs) (id : ℕ) :
    s.runQueue.map (Function.update s.ids job id) = s.runQueue.map s.ids ∧
      ∀ i p, Holds s.workers i p → s.lastTaken i = some (Function.update s.ids job id p) := by
  obtain ⟨hqueue, hrunning⟩ := hs.pooled_new hpool
  refine ⟨map_congr_left fun p hp => ?_, fun i p hi => ?_⟩
  · rw [update_of_ne]
    rintro rfl
    exact hqueue hp
  · rw [update_of_ne, h.last i p hi]
    rintro rfl
    exact hrunning (hs.held i p hi)

theorem Moves.ordered (hm : Moves maxWorkers s read t) (hs : s.Placed) (h : s.Ordered) : t.Ordered := by
  cases hm with
  | cancel | release | eof | command | turn | drained | created => exact ⟨h.order, h.last⟩
  | rest hat => exact ⟨h.order, fun i p hi => h.last i p (hi.of_set_same hat (.inr rfl))⟩
  | leave hat => exact ⟨h.order, fun i p hi => h.last i p (hi.of_set_same hat (.inr rfl))⟩
  | load hat => exact ⟨h.order, fun i p hi => h.last i p (hi.of_set_same hat (.inl (by rfl)))⟩
  | finish hat hjob => exact ⟨h.order, fun i p hi => h.last i p (hi.of_set_same hat (.inl (by exact hjob.symm)))⟩
  | done hat => exact ⟨h.order, fun i p hi => h.last i p (hi.of_set_same hat (.inr rfl))⟩
  | @run job free jobs hpool id types cancels workers hstaff =>
    obtain ⟨hids, hlast⟩ := h.pooled hs hpool id
    refine ⟨?_, fun i p hi => hlast i p (hi.of_staffs hstaff)⟩
    dsimp only
    rw [map_append, hids, ← append_assoc, h.order, map_singleton, update_self]
  | control hpool id types cancels =>
    obtain ⟨hids, hlast⟩ := h.pooled hs hpool id
    refine ⟨?_, hlast⟩
    dsimp only
    rw [hids, h.order]
  | @take worker job rest w hat hfree hqueue =>
    refine ⟨?_, fun i p hi => ?_⟩
    · have horder := h.order
      rw [hqueue, map_cons] at horder
      dsimp only
      rw [← horder, map_append, map_singleton, append_assoc, singleton_append]
    · dsimp only [lastTaken]
      rw [filter_append]
      obtain ⟨rfl, hp⟩ | ⟨hne, hi'⟩ := hi.of_set
      · cases hp
        rw [filter_singleton, decide_eq_true rfl, cond_true, getLast?_concat]
        rfl
      · rw [filter_singleton, decide_eq_false (Ne.symm hne), cond_false, append_nil]
        exact h.last i p hi'

def freeWorkers (workers : List WorkerAt) : ℕ := (workers.map WorkerAt.free).sum

structure Staffed (maxWorkers queued idleWorkers : ℕ) (workers : List WorkerAt) : Prop where
  idle : idleWorkers = (workers.map WorkerAt.waits).sum
  enough : queued ≤ freeWorkers workers ∨ workers.length = maxWorkers
  bounded : workers.length ≤ maxWorkers

theorem waits_le_free (workers : List WorkerAt) : (workers.map WorkerAt.waits).sum ≤ freeWorkers workers := by
  induction workers with
  | nil => exact Nat.le_refl _
  | cons w workers ih =>
    have hw : w.waits ≤ w.free := by
      cases w with
      | idle => exact Nat.le_refl _
      | _ => exact Nat.zero_le _
    unfold freeWorkers at ih ⊢
    rw [map_cons, map_cons, sum_cons, sum_cons]
    omega

variable {queued idleWorkers : ℕ} {workers : List WorkerAt}

/- The counter may lag behind workers that come to the queue: it counts no worker that will not look at the queue again. -/
theorem Staffed.queue (h : Staffed maxWorkers queued idleWorkers workers) {workers' : List WorkerAt}
    (hstaff : Staffs maxWorkers queued idleWorkers workers workers') :
    Staffed maxWorkers (queued + 1) idleWorkers workers' := by
  obtain ⟨hidle, henough, hbounded⟩ := h
  cases hstaff with
  | hired hlt =>
    have hfree : freeWorkers (workers ++ [.arriving]) = freeWorkers workers + 1 := by
      unfold freeWorkers
      rw [map_append, sum_append]
      rfl
    refine ⟨?_, .inl ?_, ?_⟩
    · rw [map_append, sum_append, hidle]
      rfl
    · omega
    · rw [length_append, length_singleton]
      omega
  | enough hlt =>
    have := waits_le_free workers
    exact ⟨hidle, .inl (by omega), hbounded⟩
  | full hfull => exact ⟨hidle, .inr (by omega), hbounded⟩

theorem Staffed.set (h : Staffed maxWorkers queued idleWorkers workers) (w' : WorkerAt) {queued' idle' : ℕ}
    (hat : workers[i]? = some w) (hidle : idle' + w.waits = idleWorkers + w'.waits)
    (hqueued : queued' = 0 ∨ queued' + w.free ≤ queued + w'.free) :
    Staffed maxWorkers queued' idle' (workers.set i w') := by
  have hwaits := sum_map_set WorkerAt.waits workers i w w' hat
  have hfree := sum_map_set WorkerAt.free workers i w w' hat
  have hold := h.idle
  have hlength : (workers.set i w').length = workers.length := length_set
  refine ⟨by omega, ?_, hlength ▸ h.bounded⟩
  rw [hlength]
  obtain henough | hfull := h.enough
  · left
    unfold freeWorkers at henough ⊢
    omega
  · exact .inr hfull

theorem WorkerAt.counts_of_job (h : w.job = some job) : w.waits = 0 ∧ w.free = 0 := by
  cases w with
  | taken | executing | ending => exact ⟨rfl, rfl⟩
  | arriving | idle | exited => cases h

theorem Staffed.waits_le (h : Staffed maxWorkers queued idleWorkers workers) (hat : workers[i]? = some w) :
    w.waits ≤ idleWorkers := by
  have hsum := sum_map_set WorkerAt.waits workers i w .exited hat
  have hidle := h.idle
  change _ = _ + 0 at hsum
  omega

theorem Moves.staffed (hm : Moves maxWorkers s read t)
    (h : Staffed maxWorkers s.runQueue.length s.idleWorkers s.workers) :
    Staffed maxWorkers t.runQueue.length t.idleWorkers t.workers := by
  cases hm with
  | cancel | release | eof | command | turn | drained | created | control => exact h
  | run hpool id types cancels hstaff =>
    rw [length_append]
    exact h.queue hstaff
  | @take worker job rest w hat hfree hqueue =>
    have hwaits := h.waits_le hat
    rw [hqueue] at h
    refine h.set (.taken job) hat ?_ (.inr ?_)
    · change s.idleWorkers - w.waits + w.waits = s.idleWorkers + 0
      omega
    · change rest.length + w.free ≤ rest.length + 1 + 0
      omega
  | @leave worker w hat hfree hqueue =>
    have hwaits := h.waits_le hat
    refine h.set .exited hat ?_ (.inl ?_)
    · change s.idleWorkers - w.waits + w.waits = s.idleWorkers + 0
      omega
    · rw [hqueue, length_nil]
  | rest hat => exact h.set .idle hat rfl (.inr (Nat.le_refl _))
  | load hat => exact h.set _ hat rfl (.inr (Nat.le_refl _))
  | @finish worker job w hat hjob =>
    obtain ⟨hwaits, hfree⟩ := WorkerAt.counts_of_job hjob
    refine h.set (.ending job) hat ?_ (.inr ?_)
    · rw [hwaits]
      rfl
    · rw [hfree]
      exact Nat.le_refl _
  | done hat => exact h.set .arriving hat rfl (.inr (Nat.le_succ _))

/- No worker is in the engine with any other instance than the current one, and that one was not destroyed. -/
structure Engaged (s : Host) : Prop where
  uses : ∀ i p inst : ℕ, s.workers[i]? = some (.executing p inst) → s.inst = some inst
  draining : ∀ inst next, s.control = .draining inst next → s.inst = some inst
  clear : s.control.clear = true → s.inst = none
  current : ∀ inst, s.inst = some inst → inst < s.created ∧ inst ∉ s.destroyed
  past : ∀ inst ∈ s.destroyed, inst < s.created

theorem Engaged.uses_set (h : s.Engaged) (hw : ∀ p inst, w = .executing p inst → s.inst = some inst)
    (j p inst : ℕ) (hj : (s.workers.set i w)[j]? = some (.executing p inst)) : s.inst = some inst := by
  rw [getElem?_set] at hj
  split at hj
  · split at hj
    · cases hj
      exact hw p inst rfl
    · cases hj
  · exact h.uses j p inst hj

theorem Engaged.uses_staffs (h : s.Engaged) {workers : List WorkerAt}
    (hstaff : Staffs maxWorkers s.runQueue.length s.idleWorkers s.workers workers)
    (j p inst : ℕ) (hj : workers[j]? = some (.executing p inst)) : s.inst = some inst := by
  cases hstaff with
  | enough | full => exact h.uses j p inst hj
  | hired =>
    rw [getElem?_append] at hj
    split at hj
    · exact h.uses j p inst hj
    · have hw := mem_of_getElem? hj
      rw [mem_singleton] at hw
      cases hw

theorem Moves.engaged (hm : Moves maxWorkers s read t) (hs : s.Placed) (h : s.Engaged) : t.Engaged := by
  cases hm with
  | cancel | release | eof | control => exact { h with }
  | run hpool id types cancels hstaff =>
    exact { h with uses := h.uses_staffs hstaff }
  | take | leave | rest | finish | done =>
    exact { h with uses := h.uses_set nofun }
  | load hat hinst =>
    refine { h with uses := h.uses_set ?_ }
    rintro p inst ⟨⟩
    exact hinst
  | command => exact { h with draining := nofun, clear := nofun }
  | turn hjobs hdrain hclear =>
    refine { h with draining := hdrain, clear := fun hc => ?_ }
    obtain hnone | hc := hclear hc
    · exact hnone
    · exact h.clear hc
  | @drained inst next hat hrunning =>
    have hinst := h.draining inst next hat
    refine ⟨fun i p inst' hi => ?_, nofun, fun _ => rfl, nofun, fun inst' hmem => ?_⟩
    · have hmem := hs.held i p ⟨_, hi, rfl⟩
      rw [hrunning] at hmem
      cases hmem
    · rw [mem_append, mem_singleton] at hmem
      obtain hmem | rfl := hmem
      · exact h.past inst' hmem
      · exact (h.current _ hinst).1
  | created hat =>
    have hnone : s.inst = none := h.clear (by rw [hat]; rfl)
    refine ⟨fun i p inst hi => ?_, nofun, nofun, ?_, fun inst hmem => Nat.lt_succ_of_lt (h.past inst hmem)⟩
    · have := h.uses i p inst hi
      rw [hnone] at this
      cases this
    · rintro inst ⟨⟩
      exact ⟨Nat.lt_succ_self _, fun hmem => absurd (h.past _ hmem) (Nat.lt_irrefl _)⟩

structure Scheduled (maxWorkers : ℕ) (s : Host) : Prop where
  placed : s.Placed
  ordered : s.Ordered
  staffed : Staffed maxWorkers s.runQueue.length s.idleWorkers s.workers
  engaged : s.Engaged

theorem scheduled_initial (maxWorkers : ℕ) : Scheduled maxWorkers {} where
  placed := ⟨fun _ => Nat.zero_le _, fun _ _ => rfl, nofun, nofun⟩
  ordered := ⟨rfl, nofun⟩
  staffed := ⟨rfl, .inl (Nat.le_refl _), Nat.zero_le _⟩
  engaged := ⟨nofun, nofun, nofun, nofun, nofun⟩

theorem step_scheduled {a : Act} (h : s.Scheduled maxWorkers) (hstep : s.step maxWorkers a = some t) :
    t.Scheduled maxWorkers := by
  have hm := step_moves hstep
  exact ⟨hm.placed h.placed, hm.ordered h.placed h.ordered, hm.staffed h.staffed, hm.engaged h.placed h.engaged⟩

theorem Moves.received (hm : Moves maxWorkers s read t) : t.received = s.received ++ read.toList := by
  cases hm with
  | run => rfl
  | _ => exact (append_nil _).symm

theorem run_received {as : List Act} (h : run (step maxWorkers) s as = some t) :
    t.received = s.received ++ as.filterMap Act.runId := by
  induction as generalizing s with
  | nil =>
    cases h
    exact (append_nil _).symm
  | cons a as ih =>
    obtain ⟨u, hu, ht⟩ := run_cons h
    rw [ih ht, (step_moves hu).received, append_assoc]
    cases ha : a.runId with
    | none => rw [filterMap_cons_none ha, Option.toList_none, nil_append]
    | some id => rw [filterMap_cons_some ha, Option.toList_some, singleton_append]

/-- After any interleaving: the runs taken followed by those still queued are the Run frames in the order they were read;
a job is with at most one worker; the runs queued are no more than the workers free for them, unless the host has as
many workers as it may have; and no worker is in the engine with an instance whose destroy was entered. -/
theorem host_schedules (maxWorkers : ℕ) (as : List Act) (s : Host) (h : run (step maxWorkers) {} as = some s) :
    s.taken.map Prod.snd ++ s.runQueue.map s.ids = as.filterMap Act.runId ∧
    (∀ i j p, Holds s.workers i p → Holds s.workers j p → i = j) ∧
    (∀ i p, Holds s.workers i p → s.lastTaken i = some (s.ids p)) ∧
    (s.runQueue.length ≤ freeWorkers s.workers ∨ s.workerCount = maxWorkers) ∧ s.workerCount ≤ maxWorkers ∧
    ∀ inst ∈ s.destroyed, ∀ i p : ℕ, s.workers[i]? ≠ some (.executing p inst) := by
  have hs : s.Scheduled maxWorkers := run_invariant (fun _ _ _ h hstep => step_scheduled h hstep) h
    (scheduled_initial maxWorkers)
  refine ⟨?_, hs.placed.single, hs.ordered.last, hs.staffed.enough, hs.staffed.bounded, fun inst hmem i p hat => ?_⟩
  · rw [hs.ordered.order, run_received h]
    rfl
  · exact (hs.engaged.current inst (hs.engaged.uses i p inst hat)).2 hmem

def destroyWhileBusy : List Act :=
  [.frame .create 0, .command, .handle true, .created true, .frame .run 1, .frame .run 2, .frame .run 3,
    .arrive 0, .load 0, .arrive 1, .frame .destroy 4, .command, .handle true, .finish 0, .done 0, .arrive 0,
    .load 1, .finish 1, .done 1, .load 0, .finish 0, .done 0, .drained]

theorem host_schedules_destroyWhileBusy :
    ∃ s, run (step 2) {} destroyWhileBusy = some s ∧ s.taken = [(0, 1), (1, 2), (0, 3)] ∧ s.destroyed = [0] ∧
      s.taken.map Prod.snd ++ s.runQueue.map s.ids = [1, 2, 3] ∧ s.workerCount ≤ 2 ∧
      ∀ i p : ℕ, s.workers[i]? ≠ some (.executing p 0) := by
  have hends : (run (step 2) {} destroyWhileBusy).any
      (fun s => decide (s.taken = [(0, 1), (1, 2), (0, 3)] ∧ s.destroyed = [0])) = true := by decide +kernel
  obtain ⟨s, hrun, hs⟩ := (Option.any_eq_true _ _).1 hends
  rw [decide_eq_true_eq] at hs
  obtain ⟨horder, -, -, -, hbounded, hdestroyed⟩ := host_schedules 2 destroyWhileBusy s hrun
  refine ⟨s, hrun, hs.1, hs.2, horder, hbounded, hdestroyed 0 ?_⟩
  rw [hs.2]
  exact mem_singleton_self 0

end Host

end AgentCpp.HostSched
