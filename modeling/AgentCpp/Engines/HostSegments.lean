import AgentCpp.Engines.Host

/-!
# Response segments of the engine host

A request owns at most one thing between its Run frame and its Release frame (`tokens`), and a
segment that something names is busy with that request.
-/

namespace AgentCpp
open Lib List

def HostFrame.segment (f : HostFrame) : Option SegmentName :=
  match f.msg with
  | .response shm => shm.segment.map Prod.fst
  | _ => none

def HostFrame.retire (f : HostFrame) : Option SegmentName :=
  match f.msg with
  | .response shm => shm.retire
  | _ => none

def HostJob.segment (job : HostJob) : Option SegmentName := job.answer.bind fun shm => shm.segment.map Prod.fst

def HostJob.retire (job : HostJob) : Option SegmentName := job.answer.bind ShmHeader.retire

def CoreFrame.token (i : ℕ) (f : CoreFrame) : ℕ := if f.id = i ∧ (f.msg = .run ∨ f.msg = .release) then 1 else 0

def HostJob.token (i : ℕ) (job : HostJob) : ℕ :=
  if job.id = i ∧ (job.answer = none ∨ job.segment.isSome) then 1 else 0

def HostFrame.token (i : ℕ) (f : HostFrame) : ℕ := if f.id = i ∧ f.segment.isSome then 1 else 0

namespace EngineHost

def pending (h : EngineHost) (i : ℕ) : ℕ := (h.input.map (CoreFrame.token i)).sum

def working (h : EngineHost) (i : ℕ) : ℕ :=
  (h.queue.map (HostJob.token i)).sum + (h.running.map (HostJob.token i)).sum + (h.output.map (HostFrame.token i)).sum

def Busy (h : EngineHost) (i : ℕ) (n : SegmentName) : Prop :=
  ∃ seg ∈ h.segments, seg.name = n ∧ seg.busyId = some i

structure Gone (h : EngineHost) (r : SegmentName) : Prop where
  host : r.host = h.pid
  seq : r.seq < h.nextSeq
  absent : r ∉ h.segments.map ResponseSegment.name

end EngineHost

/- What the core still holds of the host: the uses and the retire names in its slots. -/
structure CoreView where
  tokens : ℕ → ℕ
  uses : ℕ → SegmentName → Prop
  retires : SegmentName → Prop

/- A running job, a frame on its way to the core or the core itself tells of a segment. -/
def Told (running : List HostJob) (output : List HostFrame) (job : HostJob → Prop) (frame : HostFrame → Prop)
    (core : Prop) : Prop :=
  (∃ x ∈ running, job x) ∨ (∃ f ∈ output, frame f) ∨ core

def InUse (v : CoreView) (h : EngineHost) (i : ℕ) (n : SegmentName) : Prop :=
  Told h.running h.output (fun job => job.id = i ∧ job.segment = some n) (fun f => f.id = i ∧ f.segment = some n)
    (v.uses i n)

def Retiring (v : CoreView) (h : EngineHost) (r : SegmentName) : Prop :=
  Told h.running h.output (·.retire = some r) (·.retire = some r) (v.retires r)

structure Tracked (v : CoreView) (h : EngineHost) : Prop where
  one : ∀ i, v.tokens i + h.pending i + h.working i ≤ 1
  held : ∀ i n, v.uses i n → 1 ≤ v.tokens i
  queued : ∀ job ∈ h.queue, job.answer = none
  names : ∀ seg ∈ h.segments, seg.name.host = h.pid ∧ seg.name.seq < h.nextSeq
  nodup : (h.segments.map ResponseSegment.name).Nodup
  busy : ∀ i n, InUse v h i n → h.Busy i n
  gone : ∀ r, Retiring v h r → h.Gone r

theorem one_le_sum {α : Type} {f : α → ℕ} {xs : List α} {x : α} (hx : x ∈ xs) (hf : 1 ≤ f x) : 1 ≤ (xs.map f).sum :=
  hf.trans (single_le_sum (by simp) (f x) (mem_map_of_mem hx))

section Told

variable {running : List HostJob} {output rest : List HostFrame} {x : HostJob} {f : HostFrame} {P : HostJob → Prop}
  {Q : HostFrame → Prop} {core core' : Prop}

theorem of_mem_snoc {α : Type} {p : α → Prop} {xs : List α} {y : α} (h : ∃ x ∈ xs ++ [y], p x) (hy : ¬p y) :
    ∃ x ∈ xs, p x := by
  obtain ⟨x, hx, hp⟩ := h
  rcases mem_append.1 hx with hx | hx
  · exact ⟨x, hx, hp⟩
  · exact absurd (mem_singleton.1 hx ▸ hp) hy

theorem Told.of_started (h : Told (running ++ [x]) output P Q core) (hx : ¬P x) : Told running output P Q core :=
  Or.imp_left (fun hjob => of_mem_snoc hjob hx) h

theorem Told.of_sent (h : Told running (output ++ [f]) P Q core) (hf : ¬Q f) : Told running output P Q core :=
  Or.imp_right (Or.imp_left fun hframe => of_mem_snoc hframe hf) h

theorem Told.of_finished {j : ℕ} (hj : running[j]? = some x) (h : Told (running.eraseIdx j) (output ++ [f]) P Q core)
    (hf : Q f → P x) : Told running output P Q core := by
  by_cases hQ : Q f
  · exact .inl ⟨x, mem_of_getElem? hj, hf hQ⟩
  · refine Or.imp_left ?_ (h.of_sent hQ)
    rintro ⟨y, hy, hP⟩
    exact ⟨y, mem_of_mem_eraseIdx hy, hP⟩

theorem Told.of_map {g : HostJob → HostJob} (h : Told (running.map g) output P Q core) (hg : ∀ x, P (g x) → P x) :
    Told running output P Q core := by
  refine Or.imp_left ?_ h
  rintro ⟨_, hjob, hP⟩
  obtain ⟨x, hx, rfl⟩ := mem_map.1 hjob
  exact ⟨x, hx, hg x hP⟩

theorem Told.of_handed (h : Told running rest P Q core') (hcore : core' → core ∨ Q f) :
    Told running (f :: rest) P Q core := by
  rcases h with hjob | ⟨x, hx, hQ⟩ | hcore'
  · exact .inl hjob
  · exact .inr (.inl ⟨x, mem_cons_of_mem _ hx, hQ⟩)
  · exact .inr ((hcore hcore').symm.imp_left fun hQ => ⟨f, mem_cons_self, hQ⟩)

end Told

variable {i : ℕ} {n : SegmentName}

theorem token_job {job : HostJob} (hid : job.id = i) (hn : job.segment = some n) : 1 ≤ job.token i := by
  unfold HostJob.token
  rw [if_pos ⟨hid, .inr (by rw [hn]; rfl)⟩]

theorem token_hostFrame {f : HostFrame} (hid : f.id = i) (hn : f.segment = some n) : 1 ≤ f.token i := by
  unfold HostFrame.token
  rw [if_pos ⟨hid, by rw [hn]; rfl⟩]

variable {v : CoreView} {h : EngineHost}

theorem inUse_pos (hheld : ∀ i n, v.uses i n → 1 ≤ v.tokens i)
    (hu : InUse v h i n) : 1 ≤ v.tokens i + h.working i := by
  unfold EngineHost.working
  rcases hu with ⟨job, hjob, hid, hn⟩ | ⟨f, hf, hid, hn⟩ | huse
  · have := one_le_sum hjob (token_job hid hn)
    omega
  · have := one_le_sum hf (token_hostFrame hid hn)
    omega
  · have := hheld i n huse
    omega

theorem Tracked.busy_unique (ht : Tracked v h) {j : ℕ} (hi : h.Busy i n) (hj : h.Busy j n) : i = j := by
  obtain ⟨a, ha, han, hai⟩ := hi
  obtain ⟨b, hb, hbn, hbj⟩ := hj
  have hab : a = b := inj_on_of_nodup_map ht.nodup ha hb (han.trans hbn.symm)
  subst hab
  rw [hai] at hbj
  exact Option.some.inj hbj

theorem Tracked.free_unused (ht : Tracked v h) {seg : ResponseSegment}
    (hseg : seg ∈ h.segments) (hfree : seg.busyId = none) (hu : InUse v h i n) : n ≠ seg.name := by
  rintro rfl
  obtain ⟨a, ha, han, hai⟩ := ht.busy i _ hu
  have hab : a = seg := inj_on_of_nodup_map ht.nodup ha hseg han
  rw [hab, hfree] at hai
  cases hai

theorem Tracked.gone_unused (ht : Tracked v h) {r : SegmentName} (hr : h.Gone r) (hu : InUse v h i n) : n ≠ r := by
  rintro rfl
  obtain ⟨a, ha, han, -⟩ := ht.busy i _ hu
  exact hr.absent (mem_map.2 ⟨a, ha, han⟩)

section Steps

variable {v : CoreView} {h h' : EngineHost}

/- The core's part may change as well, as long as no token is made. -/
theorem Tracked.same_names {v' : CoreView} (ht : Tracked v h) (hpid : h'.pid = h.pid) (hseq : h'.nextSeq = h.nextSeq)
    (hnames : h'.segments.map ResponseSegment.name = h.segments.map ResponseSegment.name)
    (htokens : ∀ i, v'.tokens i + h'.pending i + h'.working i ≤ v.tokens i + h.pending i + h.working i)
    (hheld : ∀ i n, v'.uses i n → 1 ≤ v'.tokens i) (hqueue : ∀ job ∈ h'.queue, job.answer = none)
    (hbusy : ∀ i n, InUse v' h' i n → h'.Busy i n) (hret : ∀ r, Retiring v' h' r → Retiring v h r) : Tracked v' h' := by
  refine ⟨fun i => (htokens i).trans (ht.one i), hheld, hqueue, fun seg hseg => ?_, ?_, hbusy, fun r hr => ?_⟩
  · have hmem : seg.name ∈ h.segments.map ResponseSegment.name := hnames ▸ mem_map_of_mem hseg
    obtain ⟨x, hx, hxn⟩ := mem_map.1 hmem
    rw [← hxn, hpid, hseq]
    exact ht.names x hx
  · rw [hnames]
    exact ht.nodup
  · have hg := ht.gone r (hret r hr)
    refine ⟨hg.host.trans hpid.symm, hseq ▸ hg.seq, ?_⟩
    rw [hnames]
    exact hg.absent

theorem Tracked.same_segments (ht : Tracked v h) (hpid : h'.pid = h.pid) (hseq : h'.nextSeq = h.nextSeq)
    (hsegs : h'.segments = h.segments) (htokens : ∀ i, h'.pending i + h'.working i ≤ h.pending i + h.working i)
    (hqueue : ∀ job ∈ h'.queue, job.answer = none)
    (huse : ∀ i n, InUse v h' i n → InUse v h i n) (hret : ∀ r, Retiring v h' r → Retiring v h r) : Tracked v h' := by
  refine ht.same_names hpid hseq (by rw [hsegs]) (fun i => ?_) ht.held hqueue (fun i n hu => ?_) hret
  · have hle := htokens i
    omega
  · unfold EngineHost.Busy
    rw [hsegs]
    exact ht.busy i n (huse i n hu)

theorem Tracked.send (ht : Tracked v h) (id : ℕ) (msg : HostMsg) (hn : (HostFrame.mk id msg).segment = none)
    (hr : (HostFrame.mk id msg).retire = none) : Tracked v (h.send id msg) := by
  refine ht.same_segments rfl rfl rfl (fun i => ?_) ht.queued (fun i n hu => ?_) (fun r hret => ?_)
  · have hzero : (HostFrame.mk id msg).token i = 0 := by
      unfold HostFrame.token
      rw [hn]
      simp
    change h.pending i + ((h.queue.map _).sum + (h.running.map _).sum + ((h.output ++ [_]).map _).sum) ≤ _
    rw [map_append, sum_append, map_singleton, hzero]
    exact le_refl _
  · exact Told.of_sent hu fun hf => nomatch hn.symm.trans hf.2
  · exact Told.of_sent hret fun hf => nomatch hr.symm.trans hf

theorem setCancel_same (id : ℕ) (job : HostJob) :
    (EngineHost.setCancel id job).id = job.id ∧ (EngineHost.setCancel id job).answer = job.answer := by
  unfold EngineHost.setCancel
  split <;> exact ⟨rfl, rfl⟩

variable {job : HostJob} {segments : List ResponseSegment} {j : ℕ}

theorem token_of_same {job' : HostJob} (hid : job'.id = job.id) (ha : job'.answer = job.answer) (i : ℕ) :
    job'.token i = job.token i := by
  unfold HostJob.token HostJob.segment
  rw [hid, ha]

theorem sum_setCancel (id i : ℕ) (jobs : List HostJob) :
    ((jobs.map (EngineHost.setCancel id)).map (HostJob.token i)).sum = (jobs.map (HostJob.token i)).sum := by
  rw [map_map]
  refine congrArg List.sum (map_congr_left fun job _ => ?_)
  obtain ⟨hid, ha⟩ := setCancel_same id job
  exact token_of_same hid ha i

theorem tracked_cancel (ht : Tracked v h) (id : ℕ) (rest : List CoreFrame) (stray : List ℕ)
    (hrest : ∀ i, ((rest.map (CoreFrame.token i)).sum) ≤ h.pending i) : Tracked v { h with
      input := rest, running := h.running.map (EngineHost.setCancel id),
      queue := h.queue.map (EngineHost.setCancel id), stray := stray } := by
  refine ht.same_segments rfl rfl rfl (fun i => ?_) (fun job hjob => ?_) (fun i n hu => ?_) (fun r hr => ?_)
  · have hle := hrest i
    change (rest.map (CoreFrame.token i)).sum + (((h.queue.map _).map _).sum + ((h.running.map _).map _).sum +
      (h.output.map _).sum) ≤ _
    rw [sum_setCancel, sum_setCancel]
    unfold EngineHost.working
    omega
  · obtain ⟨x, hx, rfl⟩ := mem_map.1 hjob
    rw [(setCancel_same id x).2]
    exact ht.queued x hx
  · refine Told.of_map hu fun x hx => ?_
    unfold HostJob.segment at hx ⊢
    rwa [(setCancel_same id x).1, (setCancel_same id x).2] at hx
  · refine Told.of_map hr fun x hx => ?_
    unfold HostJob.retire at hx ⊢
    rwa [(setCancel_same id x).2] at hx

theorem names_map {f : ResponseSegment → ResponseSegment} (hf : ∀ seg, (f seg).name = seg.name)
    (segments : List ResponseSegment) :
    (segments.map f).map ResponseSegment.name = segments.map ResponseSegment.name := by
  rw [map_map]
  exact map_congr_left fun seg _ => hf seg

theorem releaseBusy_name (id : ℕ) (seg : ResponseSegment) : (EngineHost.releaseBusy id seg).name = seg.name := by
  unfold EngineHost.releaseBusy
  split <;> rfl

theorem tracked_release (ht : Tracked v h) {id : ℕ} {rest : List CoreFrame} (hi : h.input = ⟨.release, id⟩ :: rest) :
    Tracked v { h with input := rest, segments := h.segments.map (EngineHost.releaseBusy id) } := by
  have hpending : ∀ i, h.pending i = CoreFrame.token i ⟨.release, id⟩ + (rest.map (CoreFrame.token i)).sum := by
    intro i
    unfold EngineHost.pending
    rw [hi, map_cons, sum_cons]
  refine ht.same_names rfl rfl (names_map (releaseBusy_name id) _) (fun i => ?_) ht.held ht.queued (fun i n hu => ?_)
    (fun r hr => hr)
  · have := hpending i
    change v.tokens i + (rest.map (CoreFrame.token i)).sum + h.working i ≤ _
    omega
  · have hne : i ≠ id := by
      rintro rfl
      have hone := ht.one i
      have hpos := inUse_pos ht.held hu
      have htoken : CoreFrame.token i ⟨.release, i⟩ = 1 := if_pos ⟨rfl, .inr rfl⟩
      have := hpending i
      change 1 ≤ v.tokens i + h.working i at hpos
      omega
    obtain ⟨seg, hseg, hn, hb⟩ := ht.busy i n hu
    refine ⟨EngineHost.releaseBusy id seg, mem_map_of_mem hseg, ?_⟩
    unfold EngineHost.releaseBusy
    rw [if_neg (by rw [hb]; exact fun heq => hne (Option.some.inj heq))]
    exact ⟨hn, hb⟩

theorem tracked_read (ht : Tracked v h) {f : CoreFrame} {rest : List CoreFrame} (hi : h.input = f :: rest) :
    Tracked v ({ h with input := rest }.take f) := by
  obtain ⟨msg, id⟩ := f
  have hpending : ∀ i, h.pending i = CoreFrame.token i ⟨msg, id⟩ + (rest.map (CoreFrame.token i)).sum := by
    intro i
    unfold EngineHost.pending
    rw [hi, map_cons, sum_cons]
  cases msg with
  | cancel =>
    refine tracked_cancel ht id rest _ fun i => ?_
    have := hpending i
    omega
  | release => exact tracked_release ht hi
  | run =>
    refine ht.same_segments rfl rfl rfl (fun i => ?_) (fun job hjob => ?_) (fun i n hu => hu) (fun r hr => hr)
    · have hnew : HostJob.token i { id := id } = CoreFrame.token i ⟨.run, id⟩ := by
        unfold HostJob.token CoreFrame.token
        simp
      have hp := hpending i
      change (rest.map (CoreFrame.token i)).sum + (((h.queue ++ [_]).map (HostJob.token i)).sum +
        (h.running.map (HostJob.token i)).sum + (h.output.map (HostFrame.token i)).sum) ≤ _
      rw [map_append, sum_append, map_singleton, sum_singleton, hnew]
      unfold EngineHost.working
      omega
    · rcases mem_append.1 hjob with hjob | hjob
      · exact ht.queued job hjob
      · rw [mem_singleton] at hjob
        rw [hjob]
  | countTokens | resetCache =>
    refine ht.same_segments rfl rfl rfl (fun i => ?_) ht.queued (fun i n hu => hu) (fun r hr => hr)
    have := hpending i
    change (rest.map (CoreFrame.token i)).sum + h.working i ≤ _
    omega

theorem tracked_start (ht : Tracked v h) {rest : List HostJob} (hq : h.queue = job :: rest) :
    Tracked v { h with queue := rest, running := h.running ++ [job] } := by
  have hnone : job.answer = none := ht.queued job (by rw [hq]; exact mem_cons_self)
  refine ht.same_segments rfl rfl rfl (fun i => ?_) (fun x hx => ?_) (fun i n hu => ?_) (fun r hr => ?_)
  · change h.pending i + ((rest.map _).sum + ((h.running ++ [job]).map _).sum + (h.output.map _).sum) ≤ _
    unfold EngineHost.working
    rw [hq, map_append, sum_append, map_singleton, sum_singleton, map_cons, sum_cons]
    omega
  · exact ht.queued x (by rw [hq]; exact mem_cons_of_mem _ hx)
  · refine Told.of_started hu fun hp => ?_
    unfold HostJob.segment at hp
    rw [hnone] at hp
    cases hp.2
  · refine Told.of_started hr fun hp => ?_
    unfold HostJob.retire at hp
    rw [hnone] at hp
    cases hp

theorem tracked_finish (ht : Tracked v h) (hj : h.running[j]? = some job) (msg : HostMsg)
    (hn : (HostFrame.mk job.id msg).segment = none ∨ (HostFrame.mk job.id msg).segment = job.segment)
    (hr : (HostFrame.mk job.id msg).retire = none ∨ (HostFrame.mk job.id msg).retire = job.retire) :
    Tracked v (h.finish j job msg) := by
  refine ht.same_segments rfl rfl rfl (fun i => ?_) ht.queued (fun i n hu => ?_) (fun r hret => ?_)
  · have hle : (HostFrame.mk job.id msg).token i ≤ job.token i := by
      unfold HostFrame.token HostJob.token
      split
      · next hc =>
        rcases hn with hn | hn
        · rw [hn] at hc
          cases hc.2
        · have hkeeps : job.id = i ∧ (job.answer = none ∨ job.segment.isSome = true) := ⟨hc.1, .inr (hn ▸ hc.2)⟩
          rw [if_pos hkeeps]
      · exact Nat.zero_le _
    have herase := sum_map_eraseIdx (HostJob.token i) h.running j job hj
    change h.pending i + ((h.queue.map _).sum + ((h.running.eraseIdx j).map _).sum +
      ((h.output ++ [HostFrame.mk job.id msg]).map _).sum) ≤ _
    rw [map_append, sum_append, map_singleton, sum_singleton]
    unfold EngineHost.working
    omega
  · refine Told.of_finished hj hu fun hf => ⟨hf.1, ?_⟩
    rcases hn with hn | hn
    · exact nomatch hn.symm.trans hf.2
    · exact hn ▸ hf.2
  · refine Told.of_finished hj hret fun hf => ?_
    rcases hr with hr | hr
    · exact nomatch hr.symm.trans hf
    · exact hr ▸ hf

theorem tracked_answer (ht : Tracked v h) (hj : h.running[j]? = some job) (hnone : job.answer = none)
    (shm : ShmHeader) (segments : List ResponseSegment) (seq : ℕ)
    (hnames : ∀ seg ∈ segments, seg.name.host = h.pid ∧ seg.name.seq < seq)
    (hnodup : (segments.map ResponseSegment.name).Nodup)
    (hbusy : ∀ i n, InUse v h i n → ∃ seg ∈ segments, seg.name = n ∧ seg.busyId = some i)
    (hgone : ∀ r, h.Gone r → r.seq < seq ∧ r ∉ segments.map ResponseSegment.name)
    (huse : ∀ n, shm.segment.map Prod.fst = some n → ∃ seg ∈ segments, seg.name = n ∧ seg.busyId = some job.id)
    (hretire : ∀ r, shm.retire = some r → r.host = h.pid ∧ r.seq < seq ∧ r ∉ segments.map ResponseSegment.name) :
    Tracked v { h with
      segments := segments, nextSeq := seq, running := h.running.set j { job with answer := some shm } } := by
  refine ⟨fun i => ?_, ht.held, ht.queued, hnames, hnodup, fun i n hu => ?_, fun r hr => ?_⟩
  · have hset := sum_map_set (HostJob.token i) h.running j job { job with answer := some shm } hj
    have hle : HostJob.token i { job with answer := some shm } ≤ job.token i := by
      unfold HostJob.token
      split
      · next hc =>
        have hkeeps : job.id = i ∧ (job.answer = none ∨ job.segment.isSome = true) := ⟨hc.1, .inl hnone⟩
        rw [if_pos hkeeps]
      · exact Nat.zero_le _
    have hone := ht.one i
    unfold EngineHost.working at hone
    change v.tokens i + h.pending i + ((h.queue.map _).sum + ((h.running.set j _).map _).sum +
      (h.output.map _).sum) ≤ 1
    omega
  · rcases hu with ⟨x, hx, hid, hn⟩ | hrest
    · rcases mem_or_eq_of_mem_set hx with hx | rfl
      · exact hbusy i n (.inl ⟨x, hx, hid, hn⟩)
      · obtain rfl : job.id = i := hid
        exact huse n hn
    · exact hbusy i n (.inr hrest)
  · have hold : Retiring v h r → EngineHost.Gone { h with
        segments := segments, nextSeq := seq, running := h.running.set j { job with answer := some shm } } r := by
      intro hr
      have hg := ht.gone r hr
      exact ⟨hg.host, (hgone r hg).1, (hgone r hg).2⟩
    rcases hr with ⟨x, hx, hn⟩ | hrest
    · rcases mem_or_eq_of_mem_set hx with hx | rfl
      · exact hold (.inl ⟨x, hx, hn⟩)
      · obtain ⟨hhost, hseq, habsent⟩ := hretire r hn
        exact ⟨hhost, hseq, habsent⟩
    · exact hold (.inr hrest)

variable {s : ResponseSegment}

theorem bestFit_spec {bytes : ℕ} (h : EngineHost.bestFit segments bytes = some s) :
    s ∈ segments ∧ s.busyId = none := by
  have hfold : ∀ (xs : List ResponseSegment) (best : Option ResponseSegment),
      xs.foldl (EngineHost.better bytes) best = some s → (s ∈ xs ∧ s.busyId = none) ∨ best = some s := by
    intro xs
    induction xs with
    | nil => exact fun best hbest => .inr hbest
    | cons x xs ih =>
      intro best hbest
      rcases ih (EngineHost.better bytes best x) hbest with ⟨hmem, hfree⟩ | hstep
      · exact .inl ⟨mem_cons_of_mem _ hmem, hfree⟩
      · unfold EngineHost.better at hstep
        split at hstep
        · next hc =>
          cases hstep
          exact .inl ⟨mem_cons_self, hc.1⟩
        · exact .inr hstep
  rcases hfold segments none h with hs | hs
  · exact hs
  · cases hs

theorem markBusy_name (id : ℕ) (name : SegmentName) (seg : ResponseSegment) :
    (EngineHost.markBusy id name seg).name = seg.name := by
  unfold EngineHost.markBusy
  split <;> rfl

theorem tracked_reuse (ht : Tracked v h) (hj : h.running[j]? = some job) (hnone : job.answer = none)
    (hs : s ∈ h.segments) (hfree : s.busyId = none) : Tracked v { h with
      segments := h.segments.map (EngineHost.markBusy job.id s.name)
      running := h.running.set j { job with answer := some ⟨some (s.name, s.size), none⟩ } } := by
  refine tracked_answer ht hj hnone ⟨some (s.name, s.size), none⟩ _ h.nextSeq (fun seg hseg => ?_) ?_ ?_ ?_ ?_ nofun
  · obtain ⟨x, hx, rfl⟩ := mem_map.1 hseg
    rw [markBusy_name]
    exact ht.names x hx
  · rw [names_map (markBusy_name job.id s.name)]
    exact ht.nodup
  · intro i n hu
    obtain ⟨seg, hseg, hn, hb⟩ := ht.busy i n hu
    have hne := ht.free_unused hs hfree hu
    refine ⟨EngineHost.markBusy job.id s.name seg, mem_map_of_mem hseg, ?_⟩
    unfold EngineHost.markBusy
    rw [if_neg (by rw [hn]; exact hne)]
    exact ⟨hn, hb⟩
  · intro r hg
    rw [names_map (markBusy_name job.id s.name)]
    exact ⟨hg.seq, hg.absent⟩
  · intro n hn
    cases hn
    refine ⟨EngineHost.markBusy job.id s.name s, mem_map_of_mem hs, ?_⟩
    unfold EngineHost.markBusy
    rw [if_pos rfl]
    exact ⟨rfl, rfl⟩

theorem find_not_mem_eraseP {p : ResponseSegment → Bool} (hnodup : (segments.map ResponseSegment.name).Nodup)
    {f : ResponseSegment} (hf : segments.find? p = some f) :
    f.name ∉ (segments.eraseP p).map ResponseSegment.name := by
  induction segments with
  | nil => cases hf
  | cons x xs ih =>
    rw [map_cons, nodup_cons] at hnodup
    by_cases hp : p x = true
    · rw [find?_cons_of_pos hp] at hf
      cases hf
      rw [eraseP_cons_of_pos hp]
      exact hnodup.1
    · rw [find?_cons_of_neg hp] at hf
      rw [eraseP_cons_of_neg hp, map_cons, mem_cons, not_or]
      refine ⟨fun heq => hnodup.1 ?_, ih hnodup.2 hf⟩
      exact mem_map.2 ⟨f, mem_of_find?_eq_some hf, heq⟩

theorem tracked_replace (ht : Tracked v h) (hj : h.running[j]? = some job) (hnone : job.answer = none)
    (bytes : ℕ) (created : Bool) : Tracked v { (h.replaceSegment job.id bytes created).1 with
      running := h.running.set j { job with answer := some (h.replaceSegment job.id bytes created).2 } } := by
  have hsub : (h.segments.eraseP (·.busyId = none)).Sublist h.segments := eraseP_sublist
  have hkept : ∀ i n, InUse v h i n →
      ∃ seg ∈ h.segments.eraseP (·.busyId = none), seg.name = n ∧ seg.busyId = some i := by
    intro i n hu
    obtain ⟨seg, hseg, hn, hb⟩ := ht.busy i n hu
    refine ⟨seg, (mem_eraseP_of_neg ?_).2 hseg, hn, hb⟩
    rw [hb]
    simp
  have hnodup : ((h.segments.eraseP (·.busyId = none)).map ResponseSegment.name).Nodup :=
    ht.nodup.sublist (hsub.map _)
  have habsent : ∀ r, r ∉ h.segments.map ResponseSegment.name →
      r ∉ (h.segments.eraseP (·.busyId = none)).map ResponseSegment.name :=
    fun r hr hmem => hr ((hsub.map _).subset hmem)
  have hretired : ∀ r, (h.segments.find? (·.busyId = none)).map ResponseSegment.name = some r →
      r.host = h.pid ∧ r.seq < h.nextSeq ∧ r ∉ (h.segments.eraseP (·.busyId = none)).map ResponseSegment.name := by
    intro r hr
    obtain ⟨f, hf, rfl⟩ := Option.map_eq_some_iff.1 hr
    have hn := ht.names f (mem_of_find?_eq_some hf)
    exact ⟨hn.1, hn.2, find_not_mem_eraseP ht.nodup hf⟩
  unfold EngineHost.replaceSegment
  split
  · have hfresh : ∀ r : SegmentName, r.seq < h.nextSeq → r ≠ ⟨h.pid, h.nextSeq⟩ := by
      rintro r hlt rfl
      exact absurd hlt (Nat.lt_irrefl _)
    refine tracked_answer ht hj hnone _ _ (h.nextSeq + 1) (fun seg hseg => ?_) ?_ ?_ ?_ ?_ ?_
    · rcases mem_append.1 hseg with hseg | hseg
      · have hn := ht.names seg (hsub.subset hseg)
        exact ⟨hn.1, Nat.lt_succ_of_lt hn.2⟩
      · rw [mem_singleton] at hseg
        rw [hseg]
        exact ⟨rfl, Nat.lt_succ_self _⟩
    · rw [map_append, map_singleton, nodup_append]
      refine ⟨hnodup, nodup_singleton _, fun a ha b hb => ?_⟩
      rw [mem_singleton] at hb
      obtain ⟨seg, hseg, rfl⟩ := mem_map.1 ha
      rw [hb]
      exact hfresh _ (ht.names seg (hsub.subset hseg)).2
    · intro i n hu
      obtain ⟨seg, hseg, hrest⟩ := hkept i n hu
      exact ⟨seg, mem_append_left _ hseg, hrest⟩
    · intro r hg
      refine ⟨Nat.lt_succ_of_lt hg.seq, ?_⟩
      rw [map_append, mem_append, not_or, map_singleton, mem_singleton]
      exact ⟨habsent r hg.absent, hfresh r hg.seq⟩
    · intro n hn
      cases hn
      exact ⟨_, mem_append_right _ (mem_singleton.2 rfl), rfl, rfl⟩
    · intro r hr
      obtain ⟨hhost, hseq, hout⟩ := hretired r hr
      refine ⟨hhost, Nat.lt_succ_of_lt hseq, ?_⟩
      rw [map_append, mem_append, not_or, map_singleton, mem_singleton]
      exact ⟨hout, hfresh r hseq⟩
  · refine tracked_answer ht hj hnone _ _ h.nextSeq (fun seg hseg => ht.names seg (hsub.subset hseg)) hnodup hkept
      (fun r hg => ⟨hg.seq, habsent r hg.absent⟩) nofun hretired

theorem tracked_claim (ht : Tracked v h) {bytes : ℕ} {created : Bool} {placed : EngineHost × ShmHeader}
    (hj : h.running[j]? = some job) (hnone : job.answer = none)
    (hplaced : h.placeResponse job.id bytes created = placed) :
    Tracked v { placed.1 with running := placed.1.running.set j { job with answer := some placed.2 } } := by
  rw [← hplaced]
  unfold EngineHost.placeResponse
  split
  · exact tracked_answer ht hj hnone {} h.segments h.nextSeq ht.names ht.nodup ht.busy
      (fun r hg => ⟨hg.seq, hg.absent⟩) nofun nofun
  · split
    · next s hs =>
      obtain ⟨hmem, hfree⟩ := bestFit_spec hs
      exact tracked_reuse ht hj hnone hmem hfree
    · have hrunning : (h.replaceSegment job.id bytes created).1.running = h.running := by
        unfold EngineHost.replaceSegment
        split <;> rfl
      rw [hrunning]
      exact tracked_replace ht hj hnone bytes created

theorem giveBack_name (name : Option SegmentName) (seg : ResponseSegment) :
    (EngineHost.giveBack name seg).name = seg.name := by
  unfold EngineHost.giveBack
  split <;> rfl

theorem tracked_giveBack (ht : Tracked v h) (hj : h.running[j]? = some job) (msg : HostMsg)
    (hn : (HostFrame.mk job.id msg).segment = none) (hr : (HostFrame.mk job.id msg).retire = none) :
    Tracked v ({ h with segments := h.segments.map (EngineHost.giveBack job.segment) }.finish j job msg) := by
  have hfin := tracked_finish ht hj msg (.inl hn) (.inl hr)
  refine hfin.same_names rfl rfl (names_map (giveBack_name _) _) (fun i => le_refl _) hfin.held hfin.queued
    (fun i n hu => ?_) (fun r hret => hret)
  have hu' : InUse v (h.finish j job msg) i n := hu
  obtain ⟨seg, hseg, hname, hb⟩ := hfin.busy i n hu'
  refine ⟨EngineHost.giveBack job.segment seg, mem_map_of_mem hseg, ?_⟩
  have hne : job.segment ≠ some seg.name := by
    intro hjob
    -- the job and the other user would share one request
    have hbusy : h.Busy job.id seg.name := ht.busy job.id seg.name (.inl ⟨job, mem_of_getElem? hj, rfl, hjob⟩)
    obtain rfl : job.id = i := ht.busy_unique hbusy ⟨seg, hseg, rfl, hb⟩
    have hpos := inUse_pos ht.held hu'
    have htoken := token_job (rfl : job.id = job.id) hjob
    have herase := sum_map_eraseIdx (HostJob.token job.id) h.running j job hj
    have hone := ht.one job.id
    have hzero : (HostFrame.mk job.id msg).token job.id = 0 := by
      unfold HostFrame.token
      rw [hn]
      simp
    unfold EngineHost.working at hpos hone
    change 1 ≤ v.tokens job.id + ((h.queue.map _).sum + ((h.running.eraseIdx j).map _).sum +
      ((h.output ++ [HostFrame.mk job.id msg]).map _).sum) at hpos
    rw [map_append, sum_append, map_singleton, sum_singleton] at hpos
    omega
  unfold EngineHost.giveBack
  rw [if_neg hne]
  exact ⟨hname, hb⟩

theorem tracked_step (ht : Tracked v h) {act : HostAct} (hstep : h.step act = some h') : Tracked v h' := by
  cases (EngineHost.step_moves hstep).2 with
  | read hi => exact tracked_read ht hi
  | start hq => exact tracked_start ht hq
  | @stream j progress job =>
    cases progress with
    | true => exact ht.send job.id .progress rfl rfl
    | false => exact ht.send job.id .chunk rfl rfl
  | claim hj ha hplaced => exact tracked_claim ht hj ha hplaced
  | @respond j job shm hj ha =>
    exact tracked_finish ht hj (.response shm) (.inr (by simp [HostJob.segment, ha, HostFrame.segment]))
      (.inr (by simp [HostJob.retire, ha, HostFrame.retire]))
  | @refuse j job shm message hj ha =>
    have hsegment : job.segment = shm.segment.map Prod.fst := by simp [HostJob.segment, ha]
    rw [← hsegment]
    exact tracked_giveBack ht hj _ rfl rfl
  | failRun hj => exact tracked_finish ht hj _ (.inl rfl) (.inl rfl)
  | @serve outcome status f rest msg _ hmsg =>
    have hctl : Tracked v { h with control := rest } :=
      ht.same_segments rfl rfl rfl (fun _ => le_refl _) ht.queued (fun _ _ hu => hu) (fun _ hr => hr)
    cases msg with
    | response shm => exact absurd rfl (hmsg shm)
    | _ => exact hctl.send f.id _ rfl rfl
  | die => exact ht.same_segments rfl rfl rfl (fun _ => le_refl _) ht.queued (fun _ _ hu => hu) (fun _ hr => hr)

end Steps

end AgentCpp
