import AgentCpp.Engines.RemoteEffects

/-!
# Order of Run and Cancel frames

A slot is visible to the timer service of whichever caller reads the pipe from the moment it
is acquired, but its Run frame is written later and without the mutex.
-/

namespace AgentCpp
open Lib List

def framesOf (g : ℕ) (written : List (ℕ × CoreFrame)) : List CoreFrame :=
  (written.filter (·.1 == g)).map Prod.snd

theorem framesOf_append (g g' : ℕ) (written : List (ℕ × CoreFrame)) (f : CoreFrame) :
    framesOf g (written ++ [(g', f)]) = framesOf g written ++ if g' = g then [f] else [] := by
  unfold framesOf
  by_cases h : g' = g
  · simp [h]
  · simp [h]

def RunFirst (frames : List CoreFrame) : Prop :=
  ∀ pre id post, frames = pre ++ ⟨.cancel, id⟩ :: post → ⟨.run, id⟩ ∈ pre

variable {frames : List CoreFrame} {h h' host : EngineHost} {e e' : RemoteEngine} {s s' : RemoteSlot} {k : ℕ}
  {flags : ℕ → Bool} {kind : SectionKind}

theorem RunFirst.append (h : RunFirst frames) {f : CoreFrame} (hf : f.msg = .cancel → ⟨.run, f.id⟩ ∈ frames) :
    RunFirst (frames ++ [f]) := by
  intro pre id post heq
  rcases eq_nil_or_concat post with rfl | ⟨post', last, rfl⟩
  · obtain ⟨rfl, hlast⟩ := append_inj' heq rfl
    cases hlast
    exact hf rfl
  · rw [concat_eq_append, ← cons_append, ← append_assoc] at heq
    exact h pre id post' (append_inj' heq rfl).1

/- The host has taken a prefix of the frames, and knows the runs among them. -/
structure Served (frames : List CoreFrame) (h : EngineHost) : Prop where
  taken : ∃ read, frames = read ++ h.input ∧ ∀ id, ⟨.run, id⟩ ∈ read → h.knows id = true
  attributed : h.stray = []

theorem knows_iff {id : ℕ} : h.knows id = true ↔ id ∈ (h.queue ++ h.running).map HostJob.id ∨ id ∈ h.finished := by
  unfold EngineHost.knows
  rw [Bool.or_eq_true, any_eq_true, contains_iff_mem, mem_map]
  simp only [beq_iff_eq]

theorem Served.mono (hs : Served frames h) (hinput : h'.input = h.input) (hstray : h'.stray = h.stray)
    (hknows : ∀ id, h.knows id = true → h'.knows id = true) : Served frames h' := by
  obtain ⟨⟨read, heq, hread⟩, hattr⟩ := hs
  refine ⟨⟨read, ?_, fun id hid => hknows id (hread id hid)⟩, hstray.trans hattr⟩
  rw [hinput]
  exact heq

theorem setCancel_ids (id : ℕ) (jobs : List HostJob) :
    (jobs.map (EngineHost.setCancel id)).map HostJob.id = jobs.map HostJob.id := by
  rw [map_map]
  refine map_congr_left fun job _ => ?_
  change (EngineHost.setCancel id job).id = job.id
  unfold EngineHost.setCancel
  split <;> rfl

theorem served_take (hfirst : RunFirst frames) {f : CoreFrame} {rest : List CoreFrame} (hs : Served frames h)
    (hi : h.input = f :: rest) : Served frames ({ h with input := rest }.take f) := by
  obtain ⟨⟨read, heq, hread⟩, hattr⟩ := hs
  rw [hi] at heq
  have hframes : frames = (read ++ [f]) ++ rest := by
    rw [heq, append_assoc]
    rfl
  obtain ⟨msg, id⟩ := f
  -- unless the frame is a Run, the runs read so far are those known before
  have hother : msg ≠ .run → ∀ i, (⟨.run, i⟩ : CoreFrame) ∈ read ++ [⟨msg, id⟩] → h.knows i = true := by
    intro hne i hmem
    rcases mem_append.1 hmem with hmem | hmem
    · exact hread i hmem
    · rw [mem_singleton] at hmem
      cases hmem
      exact absurd rfl hne
  cases msg with
  | run =>
    refine ⟨⟨_, hframes, fun i hmem => knows_iff.2 ?_⟩, hattr⟩
    change i ∈ ((h.queue ++ [({ id := id } : HostJob)]) ++ h.running).map HostJob.id ∨ i ∈ h.finished
    rcases mem_append.1 hmem with hmem | hmem
    · rcases knows_iff.1 (hread i hmem) with hjob | hfin
      · rw [map_append, mem_append] at hjob
        rw [map_append, map_append, mem_append, mem_append]
        tauto
      · exact .inr hfin
    · rw [mem_singleton] at hmem
      cases hmem
      simp
  | cancel =>
    have hknown : h.knows id = true := hread id (hfirst read id rest heq)
    refine ⟨⟨_, hframes, fun i hmem => knows_iff.2 ?_⟩, ?_⟩
    · have hbefore := knows_iff.1 (hother nofun i hmem)
      change i ∈ ((h.queue.map (EngineHost.setCancel id)) ++ h.running.map (EngineHost.setCancel id)).map
        HostJob.id ∨ i ∈ h.finished
      rw [map_append, setCancel_ids, setCancel_ids, ← map_append]
      exact hbefore
    · change (if h.knows id then h.stray else h.stray ++ [id]) = []
      rw [if_pos hknown]
      exact hattr
  | release => exact ⟨⟨_, hframes, hother nofun⟩, hattr⟩
  | countTokens => exact ⟨⟨_, hframes, hother nofun⟩, hattr⟩
  | resetCache => exact ⟨⟨_, hframes, hother nofun⟩, hattr⟩

theorem placeResponse_frame (h : EngineHost) (id bytes : ℕ) (created : Bool) :
    ∃ segments seq, (h.placeResponse id bytes created).1 = { h with segments := segments, nextSeq := seq } := by
  unfold EngineHost.placeResponse
  split
  · exact ⟨h.segments, h.nextSeq, rfl⟩
  · split
    · exact ⟨_, h.nextSeq, rfl⟩
    · unfold EngineHost.replaceSegment
      split
      · exact ⟨_, _, rfl⟩
      · exact ⟨_, h.nextSeq, rfl⟩

theorem knows_finish {j : ℕ} {job : HostJob} (hj : h.running[j]? = some job) (msg : HostMsg) {id : ℕ}
    (hknows : h.knows id = true) : (h.finish j job msg).knows id = true := by
  rw [knows_iff] at hknows ⊢
  rcases hknows with hmem | hfin
  · obtain ⟨x, hx, rfl⟩ := mem_map.1 hmem
    rcases mem_append.1 hx with hq | hr
    · exact .inl (mem_map_of_mem (mem_append_left _ hq))
    · obtain ⟨i, hi⟩ := mem_iff_getElem?.1 hr
      by_cases hij : i = j
      · rw [hij, hj] at hi
        cases hi
        exact .inr (mem_append_right _ (mem_singleton.2 rfl))
      · refine .inl (mem_map_of_mem (mem_append_right _ ?_))
        exact mem_eraseIdx_iff_getElem?.2 ⟨i, hij, hi⟩
  · exact .inr (mem_append_left _ hfin)

theorem served_step (hfirst : RunFirst frames) {act : HostAct} (hs : Served frames h)
    (hstep : h.step act = some h') : Served frames h' := by
  cases (EngineHost.step_moves hstep).2 with
  | read hi => exact served_take hfirst hs hi
  | @start job rest hq =>
    refine hs.mono rfl rfl fun id hknows => ?_
    rw [knows_iff, hq] at hknows
    rw [knows_iff]
    simp only [map_append, map_cons, mem_append, mem_cons] at hknows ⊢
    tauto
  | stream => exact hs.mono rfl rfl fun _ hknows => hknows
  | @claim j bytes created job placed hj _ hplaced =>
    obtain ⟨segments, seq, hframe⟩ := placeResponse_frame h job.id bytes created
    simp only [← hplaced, hframe]
    refine hs.mono rfl rfl fun id hknows => ?_
    have hids : (h.running.set j { job with answer := some (h.placeResponse job.id bytes created).2 }).map
        HostJob.id = h.running.map HostJob.id := by
      rw [map_set]
      refine ext_getElem? fun i => ?_
      rw [List.getElem?_set]
      split
      · next hij =>
        subst hij
        rw [List.getElem?_map, hj]
        obtain ⟨hlt, -⟩ := List.getElem?_eq_some_iff.1 hj
        simp [hlt]
      · rfl
    rw [knows_iff, map_append] at hknows ⊢
    rw [hids]
    exact hknows
  | respond hj => exact hs.mono rfl rfl fun id hknows => knows_finish hj _ hknows
  | @refuse j job shm message hj => exact hs.mono rfl rfl fun id hknows => knows_finish hj (.response shm) hknows
  | failRun hj => exact hs.mono rfl rfl fun id hknows => knows_finish hj _ hknows
  | serve => exact hs.mono rfl rfl fun _ hknows => hknows
  | die => exact hs.mono rfl rfl fun _ hknows => hknows

/- What the order of frames needs to know of a slot. -/
structure SlotTimely (e : RemoteEngine) (s : RemoteSlot) : Prop where
  generation : s.generation ≤ e.generation
  down : e.child = none → s.generation < e.generation
  cancels : s.hasCancel = true → s.kind = .run
  sent : s.kind = .run → s.phase.written = true → s.generation = e.generation →
    ∀ h, e.child = some h → h.alive = true → ⟨.run, s.id⟩ ∈ framesOf e.generation e.written

structure Timely (e : RemoteEngine) : Prop where
  first : ∀ g, RunFirst (framesOf g e.written)
  future : ∀ g, e.generation < g → framesOf g e.written = []
  fresh : e.child = none → framesOf e.generation e.written = []
  slots : ∀ s ∈ e.slots, SlotTimely e s
  served : ∀ h, e.child = some h → Served (framesOf e.generation e.written) h

/- No set cancel flag belongs to a call whose Run frame is not written yet. -/
def QuietFlags (flags : ℕ → Bool) (e : RemoteEngine) : Prop :=
  ∀ (k : ℕ) (s : RemoteSlot), e.slots[k]? = some s → flags k = true → e.inFlightOn s = true →
    s.phase.written = true

open RemoteEngine

/- The same host, and at least the frames written before. -/
structure Extends (e e' : RemoteEngine) : Prop where
  generation : e'.generation = e.generation
  down : e'.child = none → e.child = none
  frames : ∀ f ∈ framesOf e.generation e.written, f ∈ framesOf e.generation e'.written
  alive : ∀ h', e'.child = some h' → h'.alive = true → ∃ h, e.child = some h ∧ h.alive = true

theorem Extends.of_child (hg : e'.generation = e.generation) (hw : e'.written = e.written)
    (hc : e.child = some h) (hc' : e'.child = some h') (halive : h'.alive = true → h.alive = true) :
    Extends e e' := by
  refine ⟨hg, fun hdown => ?_, fun f hf => ?_, fun x hx hlive => ?_⟩
  · rw [hc'] at hdown
    cases hdown
  · rw [hw]
    exact hf
  · rw [hc'] at hx
    cases hx
    exact ⟨h, hc, halive hlive⟩

theorem Extends.of_same (hg : e'.generation = e.generation) (hw : e'.written = e.written)
    (hc : e'.child = e.child) : Extends e e' := by
  refine ⟨hg, fun hdown => hc ▸ hdown, fun f hf => ?_, fun x hx hlive => ⟨x, hc ▸ hx, hlive⟩⟩
  rw [hw]
  exact hf

theorem SlotTimely.mono (h : SlotTimely e s) (hext : Extends e e') (hgen : s'.generation = s.generation)
    (hid : s'.id = s.id) (hkind : s'.kind = s.kind) (hcancel : s'.hasCancel = true → s.hasCancel = true)
    (hwritten : s'.phase.written = true → s.phase.written = true) : SlotTimely e' s' := by
  refine ⟨?_, fun hdown => ?_, fun hc => ?_, fun hk hw hg x hx hlive => ?_⟩
  · rw [hgen, hext.generation]
    exact h.generation
  · rw [hgen, hext.generation]
    exact h.down (hext.down hdown)
  · rw [hkind]
    exact h.cancels (hcancel hc)
  · obtain ⟨y, hy, hylive⟩ := hext.alive x hx hlive
    rw [hid, hext.generation]
    rw [hgen, hext.generation] at hg
    exact hext.frames _ (h.sent (hkind ▸ hk) (hwritten hw) hg y hy hylive)

theorem slots_timely (h : Timely e) (hext : Extends e e') (hslots : e'.slots = e.slots) :
    ∀ s ∈ e'.slots, SlotTimely e' s := by
  intro s hs
  rw [hslots] at hs
  exact (h.slots s hs).mono hext rfl rfl rfl id id

theorem Timely.setSlot (h : Timely e) (k : ℕ) (hs' : SlotTimely e s') : Timely (e.setSlot k s') := by
  refine { h with slots := fun s hs => ?_ }
  rcases mem_or_eq_of_mem_set hs with hs | rfl
  · exact (h.slots s hs).mono (.of_same rfl rfl rfl) rfl rfl rfl id id
  · exact hs'.mono (.of_same rfl rfl rfl) rfl rfl rfl id id

theorem extends_writeFrame (e : RemoteEngine) (f : CoreFrame) (g : ℕ) : Extends e (e.writeFrame f g) := by
  unfold writeFrame
  split
  · exact .of_same rfl rfl rfl
  · next h hc =>
    split
    · next hcond =>
      refine ⟨rfl, nofun, fun x hx => ?_, fun _ _ _ => ⟨h, hc, hcond.2⟩⟩
      rw [framesOf_append]
      exact mem_append_left _ hx
    · exact .of_same rfl rfl rfl

theorem Timely.writeFrame (h : Timely e) (f : CoreFrame) (g : ℕ)
    (hf : f.msg = .cancel → ⟨.run, f.id⟩ ∈ framesOf e.generation e.written) : Timely (e.writeFrame f g) := by
  have hslots := slots_timely h (extends_writeFrame e f g) (slots_writeFrame e f g)
  unfold RemoteEngine.writeFrame at hslots ⊢
  cases hc : e.child with
  | none => exact h
  | some host =>
    rw [hc] at hslots
    simp only at hslots ⊢
    split
    · next hcond =>
      rw [if_pos hcond] at hslots
      obtain ⟨rfl, -⟩ := hcond
      refine ⟨fun g => ?_, fun g hg => ?_, nofun, hslots, fun x hx => ?_⟩
      · rw [framesOf_append]
        split
        · next hg =>
          subst hg
          exact (h.first _).append hf
        · rw [append_nil]
          exact h.first g
      · rw [framesOf_append, if_neg (Nat.ne_of_lt hg), append_nil]
        exact h.future g hg
      · cases hx
        obtain ⟨⟨read, heq, hread⟩, hattr⟩ := h.served host hc
        refine ⟨⟨read, ?_, hread⟩, hattr⟩
        rw [framesOf_append, if_pos rfl, heq, append_assoc]
    · exact h

theorem Timely.sendControl (h : Timely e) (msg : CoreMsg) (id : ℕ)
    (hf : msg = .cancel → ⟨.run, id⟩ ∈ framesOf e.generation e.written) : Timely (e.sendControl msg id) :=
  h.writeFrame ⟨msg, id⟩ e.generation hf

theorem Timely.setChild (h : Timely e) {host' : EngineHost} (hc : e.child = some host)
    (halive : host'.alive = true → host.alive = true)
    (hserved : Served (framesOf e.generation e.written) host') : Timely { e with child := some host' } := by
  refine ⟨h.first, h.future, nofun, ?_, fun x hx => ?_⟩
  · exact slots_timely h (.of_child rfl rfl hc rfl halive) rfl
  · cases hx
    exact hserved

theorem Timely.setOutput (h : Timely e) (hc : e.child = some host) (output : List HostFrame) :
    Timely { e with child := some { host with output := output } } :=
  h.setChild hc id ((h.served host hc).mono rfl rfl fun _ hk => hk)

theorem Timely.forgetRetired (h : Timely e) (retire : Option SegmentName) : Timely (e.forgetRetired retire) := by
  cases retire with
  | none => exact h
  | some name =>
    exact { h with slots := slots_timely h (.of_same rfl rfl rfl) rfl }

theorem Timely.dropFrame (h : Timely e) (f : HostFrame) : Timely (e.dropFrame f) := by
  unfold RemoteEngine.dropFrame
  split
  · split
    · exact (h.forgetRetired _).sendControl .release f.id nofun
    · exact h.forgetRetired _
  · exact h

theorem Timely.returnSegment (h : Timely e) (s : RemoteSlot) : Timely (e.returnSegment s) := by
  unfold RemoteEngine.returnSegment
  split
  · exact h.sendControl .release s.id nofun
  · exact h

theorem extends_returnSegment (e : RemoteEngine) (s : RemoteSlot) : Extends e (e.returnSegment s) := by
  unfold RemoteEngine.returnSegment
  split
  · exact extends_writeFrame e _ _
  · exact .of_same rfl rfl rfl

theorem Timely.down (h : Timely e) (error : ℕ → Error) : Timely (e.failAll error).reap := by
  have hnone : framesOf (e.generation + 1) e.written = [] := h.future _ (Nat.lt_succ_self _)
  refine ⟨h.first, fun g hg => h.future g (Nat.lt_of_succ_lt hg), fun _ => hnone, fun s hs => ?_, nofun⟩
  obtain ⟨x, hx, heq⟩ := mem_failAll hs
  have hslot := h.slots x hx
  rw [heq]
  exact ⟨hslot.generation.trans (Nat.le_succ _), fun _ => Nat.lt_succ_of_le hslot.generation, hslot.cancels, nofun⟩

theorem Timely.releaseSlot (h : Timely e) (hs : e.slots[k]? = some s) : Timely (e.releaseSlot k s) := by
  have hgen : ∀ e', Timely e' → Extends e e' →
      Timely ({ e'.setSlot k { s with phase := .free, hasCancel := false, inbox := [], responseShm := none } with
        inFlight := e'.inFlight - 1 }) := by
    intro e' h' hext
    have hfree : SlotTimely e' { s with phase := .free, hasCancel := false, inbox := [], responseShm := none } :=
      (h.slots s (mem_of_getElem? hs)).mono hext rfl rfl rfl nofun nofun
    have hset := h'.setSlot k hfree
    exact { hset with slots := slots_timely hset (.of_same rfl rfl rfl) rfl }
  unfold RemoteEngine.releaseSlot
  split
  · exact hgen _ (h.returnSegment s) (extends_returnSegment e s)
  · exact hgen _ h (.of_same rfl rfl rfl)

theorem Timely.acquireSlot (h : Timely e) (hs : SlotTimely e s) : Timely (e.acquireSlot s) := by
  have hbase : Timely { e with nextId := e.nextId + 1, inFlight := e.inFlight + 1 } :=
    { h with slots := slots_timely h (.of_same rfl rfl rfl) rfl }
  have hs' : SlotTimely { e with nextId := e.nextId + 1, inFlight := e.inFlight + 1 } s :=
    hs.mono (.of_same rfl rfl rfl) rfl rfl rfl id id
  unfold RemoteEngine.acquireSlot
  simp only
  split
  · exact hbase.setSlot _ hs'
  · refine { h with slots := fun x hx => ?_ }
    rcases mem_append.1 hx with hx | hx
    · exact (h.slots x hx).mono (.of_same rfl rfl rfl) rfl rfl rfl id id
    · rw [mem_singleton] at hx
      subst hx
      exact hs.mono (.of_same rfl rfl rfl) rfl rfl rfl id id

theorem SlotTimely.moved (h : SlotTimely e s) (hm : Moved s s') : SlotTimely e s' :=
  h.mono (.of_same rfl rfl rfl) hm.generation hm.id hm.kind (fun hc => hm.hasCancel ▸ hc) hm.written

theorem Timely.run_written (h : Timely e) (hq : QuietFlags flags e) (hs : e.slots[k]? = some s)
    (hin : e.inFlightOn s = true) (hc : s.hasCancel = true) (hf : flags k = true)
    (hchild : e.child = some host) (hlive : host.alive = true) : ⟨.run, s.id⟩ ∈ framesOf e.generation e.written := by
  have hslot := h.slots s (mem_of_getElem? hs)
  have hgen : s.generation = e.generation := by
    unfold inFlightOn at hin
    simp only [Bool.and_eq_true, beq_iff_eq] at hin
    exact hin.1.1.2
  exact hslot.sent (hslot.cancels hc) (hq k s hs hf hin) hgen host hchild hlive

theorem Timely.sendCancel (h : Timely e) (hq : QuietFlags flags e) (hs : e.slots[k]? = some s)
    (hin : e.inFlightOn s = true) (hc : s.hasCancel = true) (hf : flags k = true) :
    Timely (e.sendControl .cancel s.id) := by
  cases hchild : e.child with
  | none =>
    unfold RemoteEngine.sendControl RemoteEngine.writeFrame
    rw [hchild]
    exact h
  | some host =>
    by_cases hlive : host.alive = true
    · exact h.sendControl .cancel s.id fun _ => h.run_written hq hs hin hc hf hchild hlive
    · unfold RemoteEngine.sendControl RemoteEngine.writeFrame
      rw [hchild]
      simp only
      rw [if_neg (fun hcond => hlive hcond.2)]
      exact h

theorem Timely.write (h : Timely e) (hs : e.slots[k]? = some s) :
    Timely ((e.writeFrame ⟨s.kind.msg, s.id⟩ s.generation).setSlot k { s with phase := .sent }) := by
  have hmsg : s.kind.msg ≠ .cancel := by cases s.kind <;> nofun
  have hslot := h.slots s (mem_of_getElem? hs)
  have hext := extends_writeFrame e ⟨s.kind.msg, s.id⟩ s.generation
  refine (h.writeFrame _ _ fun hc => absurd hc hmsg).setSlot k ⟨?_, fun hdown => ?_, hslot.cancels, ?_⟩
  · rw [hext.generation]
    exact hslot.generation
  · rw [hext.generation]
    exact hslot.down (hext.down hdown)
  · intro hk _ hg x hx hlive
    obtain ⟨host, hchild, hhost⟩ := hext.alive x hx hlive
    rw [hext.generation] at hg ⊢
    have hwrites : (e.writeFrame ⟨s.kind.msg, s.id⟩ s.generation).written =
        e.written ++ [(s.generation, ⟨s.kind.msg, s.id⟩)] := by
      unfold RemoteEngine.writeFrame
      rw [hchild]
      simp only
      rw [if_pos ⟨hg, hhost⟩]
    have hrun : s.kind = .run := hk
    have hgen : s.generation = e.generation := hg
    rw [hwrites, framesOf_append, if_pos hgen, hrun]
    exact mem_append_right _ (mem_singleton.2 rfl)

theorem effect_timely (h : Timely e) (hq : QuietFlags flags e) (heff : Effect flags kind e e') : Timely e' := by
  cases heff with
  | books hsame =>
    have hext : Extends e e' := .of_same hsame.generation hsame.written hsame.child
    have hslots := slots_timely h hext hsame.slots
    refine ⟨?_, ?_, ?_, hslots, ?_⟩
    · rw [hsame.written]
      exact h.first
    · rw [hsame.written, hsame.generation]
      exact h.future
    · rw [hsame.written, hsame.generation, hsame.child]
      exact h.fresh
    · rw [hsame.written, hsame.generation, hsame.child]
      exact h.served
  | slot hs hm => exact h.setSlot _ ((h.slots _ (mem_of_getElem? hs)).moved hm)
  | cancel hs hin hc hf hm =>
    refine (h.sendCancel hq hs hin hc hf).setSlot _ ?_
    exact ((h.slots _ (mem_of_getElem? hs)).moved hm).mono (extends_writeFrame e _ _) rfl rfl rfl id id
  | write hs _ => exact h.write hs
  | deliver hc ho hs =>
    refine (h.setOutput hc _).setSlot _ ?_
    exact (h.slots _ (mem_of_getElem? hs)).mono (.of_child rfl rfl hc rfl id) rfl rfl rfl id id
  | drop hc ho => exact (h.setOutput hc _).dropFrame _
  | down _ error => exact h.down error
  | release hs => exact h.releaseSlot hs
  | enter _ hid hg hp _ _ hcancel hup =>
    refine h.acquireSlot ⟨le_of_eq hg, fun hdown => ?_, hcancel, fun _ hw => ?_⟩
    · rw [hdown] at hup
      cases hup
    · rw [hp] at hw
      cases hw
  | spawn hdown =>
    have hnone := h.fresh hdown
    refine ⟨h.first, h.future, nofun, fun s hs => ?_, fun x hx => ?_⟩
    · have hslot := h.slots s hs
      have hlt := hslot.down hdown
      exact ⟨hslot.generation, nofun, hslot.cancels, fun _ _ hg => absurd hg (Nat.ne_of_lt hlt)⟩
    · cases hx
      exact ⟨⟨[], hnone, nofun⟩, rfl⟩
  | host _ hc hh =>
    exact h.setChild hc (fun _ => (EngineHost.step_moves hh).1) (served_step (h.first _) (h.served _ hc) hh)
  | retire _ _ _ => exact h.forgetRetired _
  | enlist m => exact { h with slots := slots_timely h (.of_same rfl rfl rfl) rfl }
  | map _ hs hp _ _ _ =>
    refine h.setSlot _ ((h.slots _ (mem_of_getElem? hs)).mono (.of_same rfl rfl rfl) rfl rfl rfl id fun _ => ?_)
    rw [hp]
    rfl
  | giveUp hs hp _ _ =>
    refine (h.returnSegment _).setSlot _
      ((h.slots _ (mem_of_getElem? hs)).mono (extends_returnSegment e _) rfl rfl rfl id fun _ => ?_)
    rw [hp]
    rfl

theorem QuietFlags.setSlot (hq : QuietFlags flags e) (hgen : e'.generation = e.generation)
    (hslots : e'.slots = e.slots.set k s')
    (hs' : flags k = true → e'.inFlightOn s' = true → s'.phase.written = true) : QuietFlags flags e' := by
  intro j x hx hf hin
  rw [hslots, getElem?_set] at hx
  split at hx
  · next hjk =>
    split at hx
    · cases hx
      exact hs' (hjk ▸ hf) hin
    · cases hx
  · refine hq j x hx hf ?_
    unfold inFlightOn at hin ⊢
    rw [← hgen]
    exact hin

theorem QuietFlags.of_slots (hq : QuietFlags flags e) (hgen : e'.generation = e.generation)
    (hslots : e'.slots = e.slots) : QuietFlags flags e' := by
  intro k s hs hf hin
  rw [hslots] at hs
  refine hq k s hs hf ?_
  unfold inFlightOn at hin ⊢
  rw [← hgen]
  exact hin

theorem inFlightOn_iff : e.inFlightOn s = true ↔
    s.phase.active = true ∧ s.generation = e.generation ∧ s.finalQueued = false ∧ s.failed = none := by
  unfold inFlightOn
  simp only [Bool.and_eq_true, beq_iff_eq, Bool.not_eq_true', Option.isNone_iff_eq_none, and_assoc]

theorem written_of_moved (hm : Moved s s') (hq : QuietFlags flags e) (hs : e.slots[k]? = some s)
    (hf : flags k = true) (hin : e.inFlightOn s' = true) : s'.phase.written = true := by
  obtain ⟨hactive, hgen, hfinal, hfailed⟩ := inFlightOn_iff.1 hin
  rw [hm.active] at hactive
  rw [hm.generation] at hgen
  rw [hm.finalQueued] at hfinal
  rw [hm.failed] at hfailed
  exact hm.stays (hq k s hs hf (inFlightOn_iff.2 ⟨hactive, hgen, hfinal, hfailed⟩)) hfailed

theorem generation_writeFrame (e : RemoteEngine) (f : CoreFrame) (g : ℕ) :
    (e.writeFrame f g).generation = e.generation := (extends_writeFrame e f g).generation

theorem generation_dropFrame (e : RemoteEngine) (f : HostFrame) : (e.dropFrame f).generation = e.generation := by
  have hforget : ∀ retire, (e.forgetRetired retire).generation = e.generation := by
    intro retire
    cases retire <;> rfl
  unfold dropFrame
  split
  · split
    · exact (generation_writeFrame _ _ _).trans (hforget _)
    · exact hforget _
  · rfl

theorem slots_returnSegment (e : RemoteEngine) (s : RemoteSlot) : (e.returnSegment s).slots = e.slots := by
  unfold returnSegment
  split
  · exact slots_writeFrame e _ _
  · rfl

theorem set_slots (h : e'.slots = e.slots) (k : ℕ) (s : RemoteSlot) :
    (e'.setSlot k s).slots = e.slots.set k s := congrArg (List.set · k s) h

theorem effect_quietFlags (h : Timely e) (hq : QuietFlags flags e) (heff : Effect flags kind e e') :
    QuietFlags flags e' := by
  cases heff with
  | books hsame => exact hq.of_slots hsame.generation hsame.slots
  | slot hs hm => exact hq.setSlot rfl rfl fun hf hin => written_of_moved hm hq hs hf hin
  | @cancel k s s' hs _ _ _ hm =>
    have hgen := generation_writeFrame e ⟨.cancel, s.id⟩ e.generation
    refine hq.setSlot hgen (set_slots (slots_writeFrame e _ _) k s') fun hf hin => ?_
    refine written_of_moved hm hq hs hf (inFlightOn_iff.2 ?_)
    obtain ⟨hactive, hg, hrest⟩ := inFlightOn_iff.1 hin
    exact ⟨hactive, hg.trans hgen, hrest⟩
  | @write k s hs _ =>
    exact hq.setSlot (generation_writeFrame e _ _) (set_slots (slots_writeFrame e _ _) k _) fun _ _ => rfl
  | @deliver _ f _ k s _ _ hs _ _ _ _ =>
    refine hq.setSlot rfl rfl fun hf hin => hq k s hs hf ?_
    obtain ⟨hactive, hgen, hfinal, hfailed⟩ := inFlightOn_iff.1 hin
    change (s.finalQueued || f.msg.isFinal) = false at hfinal
    rw [Bool.or_eq_false_iff] at hfinal
    exact inFlightOn_iff.2 ⟨hactive, hgen, hfinal.1, hfailed⟩
  | drop _ _ => exact hq.of_slots (generation_dropFrame _ _) (slots_dropFrame _ _)
  | down _ error =>
    intro k s hs _ hin
    obtain ⟨x, hx, heq⟩ := mem_failAll (mem_of_getElem? hs)
    have hle := (h.slots x hx).generation
    have hgen := (inFlightOn_iff.1 hin).2.1
    rw [heq] at hgen
    change x.generation = e.generation + 1 at hgen
    omega
  | @release k s hs =>
    have hfree : ∀ e'' : RemoteEngine, e''.generation = e.generation → e''.slots = e.slots →
        QuietFlags flags { e''.setSlot k { s with
          phase := .free, hasCancel := false, inbox := [], responseShm := none } with inFlight := e''.inFlight - 1 } := by
      intro e'' hgen hslots
      refine hq.setSlot hgen (set_slots hslots k _) fun _ hin => ?_
      exact absurd (inFlightOn_iff.1 hin).1 Bool.false_ne_true
    unfold RemoteEngine.releaseSlot
    split
    · exact hfree _ (extends_returnSegment e s).generation (slots_returnSegment e s)
    · exact hfree _ rfl rfl
  | enter hnone =>
    intro k s _ hf
    rw [hnone k] at hf
    cases hf
  | spawn _ => exact hq.of_slots rfl rfl
  | host _ _ => exact hq.of_slots rfl rfl
  | @retire _ _ _ shm _ _ _ =>
    cases hr : shm.retire with
    | none => exact hq
    | some name => exact hq.of_slots rfl rfl
  | enlist m => exact hq.of_slots rfl rfl
  | map _ _ _ _ _ _ => exact hq.setSlot rfl rfl fun _ _ => rfl
  | @giveUp k s _ _ _ _ result _ _ _ _ =>
    exact hq.setSlot (extends_returnSegment e s).generation (set_slots (slots_returnSegment e s) k _) fun _ _ => rfl

theorem effects_timely (h : Timely e) (hq : QuietFlags flags e) (heff : Effects flags kind e e') :
    Timely e' ∧ QuietFlags flags e' := by
  induction heff with
  | refl => exact ⟨h, hq⟩
  | tail _ hlast ih => exact ⟨effect_timely ih.1 ih.2 hlast, effect_quietFlags ih.1 ih.2 hlast⟩

def RemoteEngine.init : RemoteEngine := ({} : RemoteEngine).spawn

theorem timely_init : Timely RemoteEngine.init := by
  have hnone : ∀ g, framesOf g RemoteEngine.init.written = [] := fun _ => rfl
  refine ⟨fun g => ?_, fun g _ => hnone g, fun _ => hnone _, fun s hs => ?_, fun h hc => ?_⟩
  · intro pre id post heq
    exact absurd heq.symm (append_ne_nil_of_right_ne_nil _ (cons_ne_nil _ _))
  · cases hs
  · cases hc
    exact ⟨⟨[], rfl, fun _ hmem => absurd hmem not_mem_nil⟩, rfl⟩

/- No cancel flag that the action reads is set for a call whose Run frame is not written. -/
def FlagsAfterRun (e : RemoteEngine) (act : RemoteAct) : Prop := QuietFlags act.flags e

theorem flagsAfterRun_of_none {act : RemoteAct} (h : ∀ k, act.flags k = false) : FlagsAfterRun e act := by
  intro k s _ hf
  rw [h k] at hf
  cases hf

theorem timely_step (opts : RemoteOptions) (e : RemoteEngine) (act : RemoteAct) (e' : RemoteEngine)
    (h : Timely e) (hok : FlagsAfterRun e act) (hstep : e.step opts act = some e') : Timely e' := by
  obtain ⟨kind, heff⟩ := step_effects opts hstep
  exact (effects_timely h hok heff).1

/-- In every interleaving in which the timer service never finds the cancel flag of a call set before
the call's Run frame is written, every host gets the Run frame of a request before any Cancel of
it, and finds every Cancel among its queued, running or finished runs. -/
theorem cancel_follows_run (opts : RemoteOptions) (acts : List RemoteAct) (e : RemoteEngine)
    (hrun : run (RemoteEngine.step opts) RemoteEngine.init acts = some e)
    (hflags : Meets (RemoteEngine.step opts) FlagsAfterRun RemoteEngine.init acts) :
    (∀ g, RunFirst (framesOf g e.written)) ∧ ∀ h, e.child = some h → h.stray = [] := by
  have h := run_invariant_of_meets (timely_step opts) hrun hflags timely_init
  exact ⟨h.first, fun host hc => (h.served host hc).attributed⟩

def remoteSample : RemoteOptions :=
  { label := lit "llama", name := lit "llama", timeoutMs := 0, cancelGraceMs := 1000, maxRestarts := 3 }

def oneSent : RemoteEngine :=
  { child := some { pid := 0, input := [⟨.run, 1⟩] }
    slots := [{ id := 1, phase := .sent, hasCancel := true }]
    nextId := 2
    inFlight := 1
    starts := 1
    written := [(0, ⟨.run, 1⟩)] }

theorem oneSent_reached : run (RemoteEngine.step remoteSample) RemoteEngine.init
    [.begin .run true 0 .started, .write 0] = some oneSent := rfl

def cancelledCall : List RemoteAct :=
  [.begin .run true 0 .started, .write 0, .wait 0 ⟨0, fun _ => true⟩, .host .read]

theorem cancel_follows_run_cancelledCall :
    ∃ e, run (RemoteEngine.step remoteSample) RemoteEngine.init cancelledCall = some e ∧
      framesOf 0 e.written = [⟨.run, 1⟩, ⟨.cancel, 1⟩] ∧ RunFirst (framesOf 0 e.written) ∧
      ∀ h, e.child = some h → h.stray = [] := by
  obtain ⟨e, hrun, hframes⟩ : ∃ e,
      run (RemoteEngine.step remoteSample) oneSent [.wait 0 ⟨0, fun _ => true⟩, .host .read] = some e ∧
        framesOf 0 e.written = [⟨.run, 1⟩, ⟨.cancel, 1⟩] := ⟨_, rfl, rfl⟩
  have hall := run_append_eq oneSent_reached hrun
  have hwait : FlagsAfterRun oneSent (.wait 0 ⟨0, fun _ => true⟩) := by
    intro k s hs _ _
    match k, hs with
    | 0, hs =>
      cases hs
      rfl
  have hflags : Meets (RemoteEngine.step remoteSample) FlagsAfterRun RemoteEngine.init cancelledCall :=
    .cons (flagsAfterRun_of_none fun _ => rfl) rfl (.cons (flagsAfterRun_of_none fun _ => rfl) rfl
      (.cons hwait rfl (.cons (flagsAfterRun_of_none fun _ => rfl) rfl trivial)))
  obtain ⟨hfirst, hstray⟩ := cancel_follows_run remoteSample cancelledCall e hall hflags
  exact ⟨e, hall, hframes, hfirst 0, hstray⟩

def cancelWhileEncoding : List RemoteAct :=
  [.begin .run false 0 .started, .write 0, .wait 0 ⟨0, fun _ => false⟩, .begin .run true 0 .started,
    .read 0 (.data 0) ⟨0, fun k => k == 1⟩, .host .read, .host .read]

def cancelledEncoding : RemoteEngine :=
  { child := some { pid := 0, queue := [{ id := 1 }], stray := [2] }
    readerActive := true
    slots := [{ id := 1, phase := .reading },
      { id := 2, phase := .encoding, hasCancel := true, cancelDeadline := some 1000 }]
    nextId := 3
    inFlight := 2
    starts := 1
    written := [(0, ⟨.run, 1⟩), (0, ⟨.cancel, 2⟩)] }

def graceExpires : List RemoteAct :=
  [.write 1, .host .read, .read 0 (.data 0) ⟨1000, fun _ => true⟩]

theorem cancel_before_run : ∃ e, run (RemoteEngine.step remoteSample) RemoteEngine.init cancelWhileEncoding = some e ∧
      framesOf 0 e.written = [⟨.run, 1⟩, ⟨.cancel, 2⟩] ∧ ¬ RunFirst (framesOf 0 e.written) ∧
      (∃ h, e.child = some h ∧ h.stray = [2]) ∧
      ∃ e', run (RemoteEngine.step remoteSample) e graceExpires = some e' ∧ e'.child = none ∧
        e'.slots.map (fun s => s.failed.map Error.code) = [some .engineCrashed, some .cancelled] := by
  refine ⟨cancelledEncoding, rfl, rfl, fun hfirst => ?_, ⟨_, rfl, rfl⟩, ⟨_, rfl, rfl, rfl⟩⟩
  have hmem := hfirst [⟨.run, 1⟩] 2 [] rfl
  revert hmem
  decide

end AgentCpp
