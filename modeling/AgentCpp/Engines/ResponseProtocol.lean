import AgentCpp.Engines.RemoteResponses

/-!
# Response segments between a host and the core

From the Response that names a segment to the Release of its request the host keeps the segment
busy, and while a host lives the core forgets no mapping that a call points to.
-/

namespace AgentCpp
open Lib RemoteEngine List

/- The Response of request `i` names the segment `n`, and nobody writes to `n` now. -/
structure Outstanding (i : ℕ) (n : SegmentName) (size : ℕ) (h : EngineHost) : Prop where
  busy : ⟨n, size, some i⟩ ∈ h.segments
  unwritten : ∀ job ∈ h.running, job.segment ≠ some n

section Host

variable {v : CoreView} {h h' : EngineHost} {i : ℕ} {n : SegmentName} {size : ℕ}

theorem Outstanding.take (ho : Outstanding i n size h) {f : CoreFrame} (hf : f ≠ ⟨.release, i⟩) :
    Outstanding i n size (h.take f) := by
  obtain ⟨msg, id⟩ := f
  cases msg with
  | cancel =>
    refine ⟨ho.busy, fun job hjob => ?_⟩
    obtain ⟨x, hx, rfl⟩ := mem_map.1 hjob
    unfold HostJob.segment
    rw [(setCancel_same id x).2]
    exact ho.unwritten x hx
  | release =>
    refine ⟨mem_map.2 ⟨_, ho.busy, if_neg fun heq => hf ?_⟩, ho.unwritten⟩
    cases heq
    rfl
  | run | countTokens | resetCache => exact ⟨ho.busy, ho.unwritten⟩

theorem Outstanding.placeResponse (ho : Outstanding i n size h) (ht : Tracked v h) (id bytes : ℕ) (created : Bool) :
    ⟨n, size, some i⟩ ∈ (h.placeResponse id bytes created).1.segments ∧
      (h.placeResponse id bytes created).1.running = h.running ∧
      ∀ p, (h.placeResponse id bytes created).2.segment = some p → p.1 ≠ n := by
  unfold EngineHost.placeResponse
  split
  · exact ⟨ho.busy, rfl, nofun⟩
  · split
    · next s hs =>
      obtain ⟨hmem, hfree⟩ := bestFit_spec hs
      have hne : n ≠ s.name := by
        intro heq
        have hsame := inj_on_of_nodup_map ht.nodup ho.busy hmem heq
        rw [← hsame] at hfree
        cases hfree
      refine ⟨mem_map.2 ⟨_, ho.busy, if_neg hne⟩, rfl, fun p hp => ?_⟩
      cases hp
      exact Ne.symm hne
    · have hkept : ⟨n, size, some i⟩ ∈ h.segments.eraseP (·.busyId = none) :=
        (mem_eraseP_of_neg (by simp)).2 ho.busy
      unfold EngineHost.replaceSegment
      split
      · refine ⟨mem_append_left _ hkept, rfl, fun p hp heq => ?_⟩
        cases hp
        have hlt := (ht.names _ ho.busy).2
        rw [← heq] at hlt
        exact Nat.lt_irrefl _ hlt
      · exact ⟨hkept, rfl, nofun⟩

theorem Outstanding.finish (ho : Outstanding i n size h) (j : ℕ) (job : HostJob) (msg : HostMsg) :
    Outstanding i n size (h.finish j job msg) :=
  ⟨ho.busy, fun x hx => ho.unwritten x (mem_of_mem_eraseIdx hx)⟩

theorem Outstanding.step (ho : Outstanding i n size h) (ht : Tracked v h) {act : HostAct}
    (hread : act = .read → h.input.head? ≠ some ⟨.release, i⟩) (hstep : h.step act = some h') :
    Outstanding i n size h' := by
  cases (EngineHost.step_moves hstep).2 with
  | @read f rest hi =>
    have hhead := hread rfl
    rw [hi] at hhead
    have hpopped : Outstanding i n size { h with input := rest } := ⟨ho.busy, ho.unwritten⟩
    exact hpopped.take fun heq => hhead (congrArg some heq)
  | @start job rest hq =>
    refine ⟨ho.busy, fun x hx => ?_⟩
    rcases mem_append.1 hx with hx | hx
    · exact ho.unwritten x hx
    · have hnone := ht.queued job (by rw [hq]; exact mem_cons_self)
      rw [mem_singleton.1 hx]
      unfold HostJob.segment
      rw [hnone]
      nofun
  | stream => exact ⟨ho.busy, ho.unwritten⟩
  | @claim j bytes created job placed _ _ hplaced =>
    obtain ⟨hbusy, hrunning, hname⟩ := ho.placeResponse ht job.id bytes created
    rw [hplaced] at hbusy hrunning hname
    refine ⟨hbusy, fun x hx => ?_⟩
    rw [hrunning] at hx
    rcases mem_or_eq_of_mem_set hx with hx | rfl
    · exact ho.unwritten x hx
    · intro hseg
      obtain ⟨p, hp, hpn⟩ := Option.map_eq_some_iff.1 hseg
      exact hname p hp hpn
  | respond => exact ho.finish _ _ _
  | @refuse j job shm message hj ha =>
    have hother : shm.segment.map Prod.fst ≠ some n := by
      have hjob := ho.unwritten job (mem_of_getElem? hj)
      unfold HostJob.segment at hjob
      rw [ha] at hjob
      exact hjob
    have hback : Outstanding i n size
        { h with segments := h.segments.map (EngineHost.giveBack (shm.segment.map Prod.fst)) } :=
      ⟨mem_map.2 ⟨_, ho.busy, if_neg hother⟩, ho.unwritten⟩
    exact hback.finish j job _
  | failRun => exact ho.finish _ _ _
  | serve => exact ⟨ho.busy, ho.unwritten⟩
  | die => exact ⟨ho.busy, ho.unwritten⟩

theorem Outstanding.of_frame (ht : Tracked v h) (hsize : ⟨n, size, some i⟩ ∈ h.segments) {f : HostFrame}
    (hf : f ∈ h.output) (hid : f.id = i) (hn : f.segment = some n) : Outstanding i n size h := by
  refine ⟨hsize, fun job hjob hseg => ?_⟩
  -- a worker with the same segment would have the token of the request, which is in the frame
  have hbusy : h.Busy i n := ⟨_, hsize, rfl, rfl⟩
  have hsame : job.id = i := ht.busy_unique (ht.busy job.id n (.inl ⟨job, hjob, rfl, hseg⟩)) hbusy
  have hone := ht.one i
  have hframe := one_le_sum hf (token_hostFrame hid hn)
  have hrun := one_le_sum hjob (token_job hsame hseg)
  unfold EngineHost.working at hone
  omega

end Host

/- The calls leave the runs and the segments of a living host alone. -/
def SameRuns (e e' : RemoteEngine) : Prop :=
  ∀ h, e.child = some h → ∃ h', e'.child = some h' ∧ h'.segments = h.segments ∧ h'.running = h.running

section Core

variable {e e' : RemoteEngine}

theorem SameRuns.of_child (hc : e'.child = e.child) : SameRuns e e' := fun h hh => ⟨h, hc.trans hh, rfl, rfl⟩

theorem SameRuns.trans {e'' : RemoteEngine} (h : SameRuns e e') (h' : SameRuns e' e'') : SameRuns e e'' := by
  intro host hc
  obtain ⟨host', hc', hsegs, hruns⟩ := h host hc
  obtain ⟨host'', hc'', hsegs', hruns'⟩ := h' host' hc'
  exact ⟨host'', hc'', hsegs'.trans hsegs, hruns'.trans hruns⟩

theorem sameRuns_writeFrame (e : RemoteEngine) (f : CoreFrame) (g : ℕ) : SameRuns e (e.writeFrame f g) := by
  intro h hc
  rcases writeFrame_cases e f g with heq | ⟨x, hx, -, heq⟩
  · rw [heq]
    exact ⟨h, hc, rfl, rfl⟩
  · rw [hc] at hx
    cases hx
    rw [heq]
    exact ⟨_, rfl, rfl, rfl⟩

theorem sameRuns_returnSegment (e : RemoteEngine) (s : RemoteSlot) : SameRuns e (e.returnSegment s) := by
  unfold RemoteEngine.returnSegment
  split
  · exact sameRuns_writeFrame e _ _
  · exact .of_child rfl

theorem sameRuns_dropFrame (e : RemoteEngine) (f : HostFrame) : SameRuns e (e.dropFrame f) := by
  have hforget : ∀ retire, SameRuns e (e.forgetRetired retire) := fun retire =>
    .of_child (by cases retire <;> rfl)
  unfold RemoteEngine.dropFrame
  split
  · split
    · exact (hforget _).trans (sameRuns_writeFrame _ _ _)
    · exact hforget _
  · exact .of_child rfl

variable {flags : ℕ → Bool} {kind : SectionKind}

theorem effect_sameRuns (hkind : kind ≠ .host)
    (hgen : e'.generation = e.generation) (heff : Effect flags kind e e') : SameRuns e e' := by
  cases heff with
  | books hsame => exact .of_child hsame.child
  | slot | map | enlist => exact .of_child rfl
  | cancel => exact (sameRuns_writeFrame e _ _).trans (.of_child rfl)
  | write => exact (sameRuns_writeFrame e _ _).trans (.of_child rfl)
  | @deliver h f rest k s hc =>
    intro x hx
    rw [hc] at hx
    cases hx
    exact ⟨_, rfl, rfl, rfl⟩
  | @drop h f rest hc =>
    have hpop : SameRuns e { e with child := some { h with output := rest } } := by
      intro x hx
      rw [hc] at hx
      cases hx
      exact ⟨_, rfl, rfl, rfl⟩
    exact hpop.trans (sameRuns_dropFrame _ f)
  | down => exact absurd hgen (Nat.succ_ne_self _)
  | @release k s =>
    unfold RemoteEngine.releaseSlot
    split
    · exact (sameRuns_returnSegment e s).trans (.of_child rfl)
    · exact .of_child rfl
  | enter =>
    unfold RemoteEngine.acquireSlot
    simp only
    split <;> exact .of_child rfl
  | spawn hdown =>
    intro h hc
    rw [hdown] at hc
    cases hc
  | host hk => exact absurd hk hkind
  | @retire _ _ _ shm => exact .of_child (by cases shm.retire <;> rfl)
  | @giveUp k s => exact (sameRuns_returnSegment e s).trans (.of_child rfl)

theorem effects_sameRuns (hkind : kind ≠ .host)
    (heff : Effects flags kind e e') : e'.generation = e.generation → SameRuns e e' := by
  induction heff with
  | refl => exact fun _ => .of_child rfl
  | tail hfirst hlast ih =>
    intro hgen
    obtain ⟨hle, -⟩ := effects_generation hfirst
    obtain ⟨hle', -⟩ := effect_generation hlast
    exact (ih (by omega)).trans (effect_sameRuns hkind (by omega) hlast)

theorem Safe.released_unused (h : Safe e) {host : EngineHost} (hc : e.child = some host)
    (hsent : ⟨.release, i⟩ ∈ host.input) (hbusy : host.Busy i n) (s : RemoteSlot) (hs : s ∈ e.slots) :
    n ∉ s.uses := by
  intro hn
  obtain ⟨hpid, ht⟩ := h.host host hc
  by_cases hg : s.generation = e.generation
  · have huse : (coreView e).uses s.id n := ⟨s, hs, hg, rfl, hn⟩
    have hid : s.id = i := ht.busy_unique (ht.busy s.id n (.inr (.inr huse))) hbusy
    have hone := ht.one i
    have htoken := ht.held s.id n huse
    have hpending : 1 ≤ host.pending i := one_le_sum hsent (le_of_eq (if_pos ⟨rfl, .inr rfl⟩).symm)
    rw [hid] at htoken
    omega
  · obtain ⟨seg, hseg, hname, -⟩ := hbusy
    refine hg ((h.slots s hs).own n (mem_append_left _ hn) ▸ ?_)
    rw [← hname, (ht.names seg hseg).1, hpid]

end Core

/- The host does not receive the Release of request `i`. -/
def Unreleased (i : ℕ) (e : RemoteEngine) (act : RemoteAct) : Prop :=
  act = .host .read → ∀ h, e.child = some h → h.input.head? ≠ some ⟨.release, i⟩

theorem outstanding_step (opts : RemoteOptions)
    {act : RemoteAct} (hsafe : Safe e) (ho : ∃ h, e.child = some h ∧ Outstanding i n size h)
    (hok : Unreleased i e act) (hgen : e'.generation = e.generation) (hstep : e.step opts act = some e') :
    ∃ h, e'.child = some h ∧ Outstanding i n size h := by
  obtain ⟨h, hc, ho⟩ := ho
  by_cases hact : ∃ a, act = .host a
  · obtain ⟨a, rfl⟩ := hact
    obtain ⟨host, host', hc', hh, rfl⟩ := host_step opts hstep
    rw [hc] at hc'
    cases hc'
    refine ⟨host', rfl, ho.step (hsafe.host h hc).2 (fun ha => ?_) hh⟩
    subst ha
    exact hok rfl h hc
  · obtain ⟨kind, hkind, heff⟩ := calls_effects opts (fun a ha => hact ⟨a, ha⟩) hstep
    obtain ⟨h', hc', hsegs, hruns⟩ := effects_sameRuns hkind heff hgen h hc
    refine ⟨h', hc', ?_, ?_⟩
    · rw [hsegs]
      exact ho.busy
    · rw [hruns]
      exact ho.unwritten

theorem outstanding_run (opts : RemoteOptions) {acts : List RemoteAct}
    (hsafe : Safe e) (ho : ∃ h, e.child = some h ∧ Outstanding i n size h)
    (hok : Meets (RemoteEngine.step opts) (Unreleased i) e acts)
    (hrun : run (RemoteEngine.step opts) e acts = some e') (hgen : e'.generation = e.generation) :
    ∃ h, e'.child = some h ∧ Outstanding i n size h := by
  induction acts generalizing e with
  | nil =>
    cases hrun
    exact ho
  | cons act rest ih =>
    obtain ⟨e₁, hstep, hrest⟩ := run_cons hrun
    have hle := step_generation opts hstep
    have hle' := run_generation opts hrest
    have hnext := outstanding_step opts hsafe ho hok.1 (by omega) hstep
    exact ih (safe_step opts e act e₁ hsafe hstep) hnext (hok.2 e₁ hstep) hrest (by omega)

theorem outstanding_respond (opts : RemoteOptions) (hsafe : Safe e) {j : ℕ}
    {job : HostJob} {retire : Option SegmentName} (hc : e.child = some h)
    (hj : h.running[j]? = some job) (hanswer : job.answer = some ⟨some (n, size), retire⟩)
    (hstep : e.step opts (.host (.respond j true)) = some e') :
    ∃ size, ⟨n, size, some job.id⟩ ∈ h.segments ∧ ∃ h', e'.child = some h' ∧ Outstanding job.id n size h' := by
  have hsafe' := safe_step opts e _ e' hsafe hstep
  obtain ⟨host, host', hc', hh, rfl⟩ := host_step opts hstep
  rw [hc] at hc'
  cases hc'
  obtain ⟨seg, hseg, hname, hbusy⟩ := (hsafe.host h hc).2.busy job.id n (.inl ⟨job, mem_of_getElem? hj, rfl, by
    unfold HostJob.segment
    rw [hanswer]
    rfl⟩)
  have hsent : host' = h.finish j job (.response ⟨some (n, size), retire⟩) := by
    cases (EngineHost.step_moves hh).2 with
    | respond hj' ha =>
      cases hj.symm.trans hj'
      cases hanswer.symm.trans ha
      rfl
  have hmem : ⟨n, seg.size, some job.id⟩ ∈ h.segments := by
    rw [← hname, ← hbusy]
    exact hseg
  refine ⟨seg.size, hmem, host', rfl, .of_frame (f := ⟨job.id, .response ⟨some (n, size), retire⟩⟩)
    (hsafe'.host host' rfl).2 ?_ ?_ rfl rfl⟩
  · rw [hsent]
    exact hmem
  · rw [hsent]
    exact mem_append_right _ (mem_singleton_self _)

/-- In every interleaving of a host's threads with the calls of the core: from the Response that names a segment until
the host receives the Release of that request, the segment is busy with the request and no worker writes to it;
while a Release is on its way no call has a use for the segment; and no mapping that a call points to leaves the table. -/
theorem response_segment_protocol (opts : RemoteOptions) (before : List RemoteAct) (e : RemoteEngine)
    (hrun : run (RemoteEngine.step opts) RemoteEngine.init before = some e) :
    (∀ h j job n size retire e₁ after e₂, e.child = some h → h.running[j]? = some job →
      job.answer = some ⟨some (n, size), retire⟩ → e.step opts (.host (.respond j true)) = some e₁ →
      run (RemoteEngine.step opts) e₁ after = some e₂ → e₂.generation = e.generation →
      Meets (RemoteEngine.step opts) (Unreleased job.id) e₁ after →
      ∃ size, ⟨n, size, some job.id⟩ ∈ h.segments ∧ ∃ h₂, e₂.child = some h₂ ∧ Outstanding job.id n size h₂) ∧
    (∀ h i n, e.child = some h → ⟨.release, i⟩ ∈ h.input → h.Busy i n → ∀ s ∈ e.slots, n ∉ s.uses) ∧
    (∀ after e₁, run (RemoteEngine.step opts) e after = some e₁ → e₁.generation = e.generation →
      ∀ (k : ℕ) (s₁ : RemoteSlot) (m : Mapping), e₁.slots[k]? = some s₁ → s₁.responseShm = some m →
      m ∈ e₁.segments ∨ ∃ s, e.slots[k]? = some s ∧ s.responseShm = some m ∧ m ∉ e.segments) := by
  have hsafe : Safe e := run_invariant (safe_step opts) hrun safe_init
  refine ⟨fun h j job n size retire e₁ after e₂ hc hj hanswer hstep hafter hgen hok => ?_,
    fun h i n hc hsent hbusy s hs => hsafe.released_unused hc hsent hbusy s hs, fun after e₁ hafter hgen => ?_⟩
  · obtain ⟨size', hmem, ho⟩ := outstanding_respond opts hsafe hc hj hanswer hstep
    have hle := step_generation opts hstep
    have hle' := run_generation opts hafter
    exact ⟨size', hmem, outstanding_run opts (safe_step opts e _ e₁ hsafe hstep) ho hok hafter (by omega)⟩
  · have hstart : Live (fun k m => ∃ s, e.slots[k]? = some s ∧ s.responseShm = some m ∧ m ∉ e.segments) e := by
      intro k s m hs hm
      by_cases hmem : m ∈ e.segments
      · exact .inl hmem
      · exact .inr ⟨s, hs, hm, hmem⟩
    exact (run_invariant_of_meets (live_step opts) hafter (meets_calmReap opts after e e₁ hafter hgen)
      ⟨hsafe, hstart⟩).2

def claimsSegment : List RemoteAct :=
  [.begin .run false 0 .started, .write 0, .host .read, .host .start, .host (.claim 0 1 true)]

def claimedCall : RemoteEngine :=
  { child := some {
      pid := 0
      running := [{ id := 1, answer := some ⟨some (⟨0, 0⟩, 1048576), none⟩ }]
      segments := [{ name := ⟨0, 0⟩, size := 1048576, busyId := some 1 }]
      nextSeq := 1 }
    slots := [{ id := 1, phase := .sent }]
    nextId := 2
    inFlight := 1
    starts := 1
    written := [(0, ⟨.run, 1⟩)] }

theorem claimedCall_reached :
    run (RemoteEngine.step remoteSample) RemoteEngine.init claimsSegment = some claimedCall := rfl

def mapsAndRuns : List RemoteAct :=
  [.wait 0 ⟨0, fun _ => false⟩, .read 0 (.data 1) ⟨0, fun _ => false⟩, .processed 0 ⟨0, fun _ => false⟩, .answer 0 true] ++
    secondRuns

theorem response_segment_protocol_secondRuns :
    ∃ e₁ e₂, claimedCall.step remoteSample (.host (.respond 0 true)) = some e₁ ∧
      run (RemoteEngine.step remoteSample) e₁ mapsAndRuns = some e₂ ∧
      (∃ h₂, e₂.child = some h₂ ∧ Outstanding 1 ⟨0, 0⟩ 1048576 h₂ ∧ h₂.segments.length = 2) ∧
      ∀ (k : ℕ) (s : RemoteSlot) (m : Mapping), e₂.slots[k]? = some s → s.responseShm = some m → m ∈ e₂.segments := by
  obtain ⟨hkept, -, hlive⟩ := response_segment_protocol remoteSample claimsSegment claimedCall claimedCall_reached
  obtain ⟨e₁, e₂, hstep, hrun, hgen, hok, hlength⟩ : ∃ e₁ e₂,
      claimedCall.step remoteSample (.host (.respond 0 true)) = some e₁ ∧
      run (RemoteEngine.step remoteSample) e₁ mapsAndRuns = some e₂ ∧ e₂.generation = 0 ∧
      Meets (RemoteEngine.step remoteSample) (Unreleased 1) e₁ mapsAndRuns ∧
      e₂.child.map (fun h => (h.segments.map ResponseSegment.name).length) = some 2 := by
    refine ⟨_, _, rfl, rfl, rfl, ?_, rfl⟩
    refine .cons nofun rfl (.cons nofun rfl (.cons nofun rfl (.cons nofun rfl (.cons nofun rfl (.cons nofun rfl
      (.cons (fun _ h hc => ?_) rfl (.cons nofun rfl (.cons nofun rfl (.cons nofun rfl trivial)))))))))
    cases hc
    nofun
  obtain ⟨size, hmem, h₂, hc₂, ho⟩ := hkept _ 0 _ ⟨0, 0⟩ 1048576 none e₁ mapsAndRuns e₂ rfl rfl rfl hstep hrun hgen hok
  have hsize : size = 1048576 := by
    rw [mem_singleton] at hmem
    cases hmem
    rfl
  subst hsize
  refine ⟨e₁, e₂, hstep, hrun, ⟨h₂, hc₂, ho, ?_⟩, fun k s m hs hm => ?_⟩
  · rw [hc₂, Option.map_some, length_map] at hlength
    exact Option.some.inj hlength
  · have hall : run (RemoteEngine.step remoteSample) claimedCall (.host (.respond 0 true) :: mapsAndRuns) = some e₂ := by
      change (claimedCall.step remoteSample _).bind _ = _
      rw [hstep]
      exact hrun
    obtain hlive' | ⟨s₀, hs₀, hm₀, -⟩ := hlive _ e₂ hall hgen k s m hs hm
    · exact hlive'
    · have hmem := mem_of_getElem? hs₀
      change s₀ ∈ [_] at hmem
      rw [mem_singleton] at hmem
      rw [hmem] at hm₀
      cases hm₀

end AgentCpp
