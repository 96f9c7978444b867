import AgentCpp.Engines.Remote
import Mathlib.Logic.Relation

/-!
# What the sections of the remote engine do

Every action of a call is a sequence of a few effects on the state the calls and the host
share. Invariants are proved effect by effect.
-/

namespace AgentCpp
open Lib List Option

def CallPhase.frames : CallPhase → List HostFrame
  | .processing work => work
  | .answered final => [final]
  | _ => []

def CallPhase.written : CallPhase → Bool
  | .free | .encoding | .failing _ => false
  | _ => true

def RemoteSlot.frames (s : RemoteSlot) : List HostFrame := s.inbox ++ s.phase.frames

namespace RemoteEngine

structure Moved (s s' : RemoteSlot) : Prop where
  id : s'.id = s.id
  generation : s'.generation = s.generation
  kind : s'.kind = s.kind
  hasCancel : s'.hasCancel = s.hasCancel
  failed : s'.failed = s.failed
  finalQueued : s'.finalQueued = s.finalQueued
  shm : s'.responseShm = s.responseShm
  frames : s'.frames.Subperm s.frames
  encoding : s'.phase = .encoding → s.phase = .encoding
  written : s'.phase.written = true → s.phase.written = true
  stays : s.phase.written = true → s.failed = none → s'.phase.written = true
  active : s'.phase.active = s.phase.active

structure SameShared (e e' : RemoteEngine) : Prop where
  child : e'.child = e.child
  generation : e'.generation = e.generation
  slots : e'.slots = e.slots
  nextId : e'.nextId = e.nextId
  segments : e'.segments = e.segments
  written : e'.written = e.written

/- No section both maps a response and takes the host down, and the host's own steps are none of a call. -/
inductive SectionKind where
  | maps
  | downs
  | host
  deriving DecidableEq

inductive Effect (flags : ℕ → Bool) (kind : SectionKind) : RemoteEngine → RemoteEngine → Prop
  | books {e e' : RemoteEngine} (h : SameShared e e') : Effect flags kind e e'
  | slot {e : RemoteEngine} {k : ℕ} {s s' : RemoteSlot} (hs : e.slots[k]? = some s) (h : Moved s s') :
    Effect flags kind e (e.setSlot k s')
  | cancel {e : RemoteEngine} {k : ℕ} {s s' : RemoteSlot} (hs : e.slots[k]? = some s)
    (hin : e.inFlightOn s = true) (hc : s.hasCancel = true) (hf : flags k = true) (h : Moved s s') :
    Effect flags kind e ((e.sendControl .cancel s.id).setSlot k s')
  | write {e : RemoteEngine} {k : ℕ} {s : RemoteSlot} (hs : e.slots[k]? = some s) (hp : s.phase = .encoding) :
    Effect flags kind e ((e.writeFrame ⟨s.kind.msg, s.id⟩ s.generation).setSlot k { s with phase := .sent })
  | deliver {e : RemoteEngine} {h : EngineHost} {f : HostFrame} {rest : List HostFrame} {k : ℕ} {s : RemoteSlot}
    (hc : e.child = some h) (ho : h.output = f :: rest) (hs : e.slots[k]? = some s)
    (ha : s.phase.active = true) (hid : s.id = f.id) (hg : s.generation = e.generation) (hf : s.failed = none) :
    Effect flags kind e ({ e with child := some { h with output := rest } }.setSlot k (deliver f s))
  | drop {e : RemoteEngine} {h : EngineHost} {f : HostFrame} {rest : List HostFrame}
    (hc : e.child = some h) (ho : h.output = f :: rest) :
    Effect flags kind e ({ e with child := some { h with output := rest } }.dropFrame f)
  | down {e : RemoteEngine} (hm : kind = .downs) (error : ℕ → Error) : Effect flags kind e (e.failAll error).reap
  | release {e : RemoteEngine} {k : ℕ} {s : RemoteSlot} (hs : e.slots[k]? = some s) :
    Effect flags kind e (e.releaseSlot k s)
  | enter {e : RemoteEngine} {s : RemoteSlot} (hq : ∀ k, flags k = false) (hid : s.id = e.nextId)
      (hg : s.generation = e.generation)
    (hp : s.phase = .encoding) (hi : s.inbox = []) (hm : s.responseShm = none)
    (hc : s.hasCancel = true → s.kind = .run) (hup : e.child.isSome = true) : Effect flags kind e (e.acquireSlot s)
  | spawn {e : RemoteEngine} (hdown : e.child = none) : Effect flags kind e e.spawn
  | host {e : RemoteEngine} {h h' : EngineHost} {act : HostAct} (hk : kind = .host) (hc : e.child = some h)
    (hh : h.step act = some h') : Effect flags kind e { e with child := some h' }
  | retire {e : RemoteEngine} {k : ℕ} {s : RemoteSlot} {final : HostFrame} {shm : ShmHeader}
    (hs : e.slots[k]? = some s) (hp : s.phase = .answered final) (hf : final.msg = .response shm) :
    Effect flags kind e (e.forgetRetired shm.retire)
  | enlist {e : RemoteEngine} (m : Mapping) :
    Effect flags kind e { e with segments := e.segments ++ [m], nextKey := e.nextKey + 1 }
  | map {e : RemoteEngine} {k : ℕ} {s : RemoteSlot} {final : HostFrame} {shm : ShmHeader} {m : Mapping} {size : ℕ}
    (hmaps : kind = .maps) (hs : e.slots[k]? = some s) (hp : s.phase = .answered final)
    (hf : final.msg = .response shm) (hn : shm.segment = some (m.name, size)) (hm : m ∈ e.segments) :
    Effect flags kind e (e.setSlot k { s with responseShm := some m, phase := .decoding })
  | giveUp {e : RemoteEngine} {k : ℕ} {s : RemoteSlot} {final : HostFrame} {shm : ShmHeader}
    {name : SegmentName} {size : ℕ} {result : Result Unit}
    (hs : e.slots[k]? = some s) (hp : s.phase = .answered final)
    (hf : final.msg = .response shm) (hn : shm.segment = some (name, size)) :
    Effect flags kind e ((e.returnSegment s).setSlot k { s with phase := .holding result })

abbrev Effects (flags : ℕ → Bool) (kind : SectionKind) : RemoteEngine → RemoteEngine → Prop :=
  Relation.ReflTransGen (Effect flags kind)

variable (opts : RemoteOptions) (flags : ℕ → Bool) (kind : SectionKind)

variable {e e' : RemoteEngine} {k : ℕ} {s : RemoteSlot} {phase : CallPhase}

theorem effects_books (h : SameShared e e') : Effects flags kind e e' :=
  .single (.books h)

theorem effects_slot {s' : RemoteSlot} (hs : e.slots[k]? = some s) (h : Moved s s') :
    Effects flags kind e (e.setSlot k s') := .single (.slot hs h)

theorem moved_phase (s : RemoteSlot) (hactive : s.phase.active = true) (hphase : phase.active = true)
    (hframes : phase.frames = []) (henc : phase ≠ .encoding)
    (hwritten : phase.written = true → s.phase.written = true)
    (hstays : s.phase.written = true → s.failed = none → phase.written = true) :
    Moved s { s with phase := phase } := by
  refine ⟨rfl, rfl, rfl, rfl, rfl, rfl, rfl, ?_, fun h => absurd h henc, hwritten, hstays, ?_⟩
  · change (s.inbox ++ phase.frames).Subperm (s.inbox ++ s.phase.frames)
    rw [hframes]
    exact (prefix_append_right_inj _ |>.2 (List.nil_prefix)).sublist.subperm
  · exact hphase.trans hactive.symm

theorem moved_takeInbox (s : RemoteSlot) (hwritten : s.phase.written = true) :
    Moved s { s with phase := .processing s.inbox, inbox := [] } := by
  refine ⟨rfl, rfl, rfl, rfl, rfl, rfl, rfl, ?_, nofun, fun _ => hwritten, fun _ _ => rfl, ?_⟩
  · exact (prefix_append _ _).sublist.subperm
  · cases hp : s.phase <;> rw [hp] at hwritten <;> first | rfl | cases hwritten

theorem active_of_written (h : phase.written = true) : phase.active = true := by
  cases phase <;> first | rfl | cases h

def SamePhases (e e' : RemoteEngine) : Prop :=
  ∀ (k : ℕ) (s' : RemoteSlot), e'.slots[k]? = some s' →
    ∃ s : RemoteSlot, e.slots[k]? = some s ∧ s'.phase = s.phase

theorem SamePhases.refl (e : RemoteEngine) : SamePhases e e := fun _ s hs => ⟨s, hs, rfl⟩

theorem SamePhases.trans {e'' : RemoteEngine} (h : SamePhases e e') (h' : SamePhases e' e'') : SamePhases e e'' := by
  intro k s'' hs''
  obtain ⟨s', hs', hp'⟩ := h' k s'' hs''
  obtain ⟨s, hs, hp⟩ := h k s' hs'
  exact ⟨s, hs, hp'.trans hp⟩

theorem samePhases_of_slots (h : e'.slots = e.slots) : SamePhases e e' := by
  intro k s hs
  rw [h] at hs
  exact ⟨s, hs, rfl⟩

theorem samePhases_setSlot {s' : RemoteSlot} (hs : e.slots[k]? = some s) (hp : s'.phase = s.phase) :
    SamePhases e (e.setSlot k s') := by
  intro j x hx
  change (e.slots.set k s')[j]? = some x at hx
  rw [getElem?_set] at hx
  split at hx
  · next hk =>
    split at hx
    · cases hx
      rw [← hk]
      exact ⟨s, hs, hp⟩
    · cases hx
  · exact ⟨x, hx, rfl⟩

theorem samePhases_failAll (e : RemoteEngine) (error : ℕ → Error) : SamePhases e (e.failAll error) := by
  intro k s' hs'
  change (e.slots.mapIdx _)[k]? = some s' at hs'
  rw [getElem?_mapIdx] at hs'
  obtain ⟨s, hs, heq⟩ := map_eq_some_iff.1 hs'
  refine ⟨s, hs, ?_⟩
  rw [← heq]
  split <;> rfl

theorem mem_failAll {error : ℕ → Error} (hs : s ∈ (e.failAll error).slots) :
    ∃ x ∈ e.slots, s = { x with failed := s.failed } := by
  obtain ⟨k, hk, rfl⟩ := mem_mapIdx.1 hs
  refine ⟨e.slots[k], getElem_mem hk, ?_⟩
  split <;> rfl

def PastWrite (e : RemoteEngine) (k : ℕ) : Prop := ∀ s : RemoteSlot, e.slots[k]? = some s → s.phase.written = true

theorem PastWrite.of_samePhases (h : PastWrite e k) (hsame : SamePhases e e') : PastWrite e' k := by
  intro s' hs'
  obtain ⟨s, hs, hp⟩ := hsame k s' hs'
  rw [hp]
  exact h s hs

theorem pastWrite_of_slot (hs : e.slots[k]? = some s) (hw : s.phase.written = true) : PastWrite e k := by
  intro x hx
  rw [hs] at hx
  cases hx
  exact hw

theorem effects_killHost (e : RemoteEngine) (code : ErrorCode) (msg : Bytes) (trigger : Option ℕ) :
    Effects flags .downs e (killHost opts e code msg trigger) ∧ SamePhases e (killHost opts e code msg trigger) :=
  ⟨.tail (.single (.down rfl _)) (.books ⟨rfl, rfl, rfl, rfl, rfl, rfl⟩), samePhases_failAll e _⟩

theorem effects_hostDied (e : RemoteEngine) (during how tail : Bytes) :
    Effects flags .downs e (hostDied opts e during how tail) ∧ SamePhases e (hostDied opts e during how tail) :=
  ⟨.tail (.single (.down rfl _)) (.books ⟨rfl, rfl, rfl, rfl, rfl, rfl⟩), samePhases_failAll e _⟩

theorem slots_writeFrame (e : RemoteEngine) (f : CoreFrame) (generation : ℕ) :
    (e.writeFrame f generation).slots = e.slots := by
  unfold writeFrame
  split
  · rfl
  · split <;> rfl

theorem slots_sendControl (e : RemoteEngine) (msg : CoreMsg) (id : ℕ) :
    (e.sendControl msg id).slots = e.slots := slots_writeFrame e _ _

theorem effects_sendCancel (g : Glance) (hs : e.slots[k]? = some s) (hin : e.inFlightOn s = true) :
    Effects g.cancelled .downs e (sendCancel opts e k s g) ∧ SamePhases e (sendCancel opts e k s g) := by
  unfold sendCancel
  split
  · next hcond =>
    obtain ⟨hc, -, hf⟩ := hcond
    refine ⟨.single (.cancel hs hin hc hf ?_), ?_⟩
    · exact ⟨rfl, rfl, rfl, rfl, rfl, rfl, rfl, List.Subperm.refl _, id, id, fun h _ => h, rfl⟩
    · refine SamePhases.trans (samePhases_of_slots (slots_sendControl e _ _)) (samePhases_setSlot (s := s) ?_ rfl)
      rw [slots_sendControl]
      exact hs
  · exact ⟨.refl, .refl e⟩

theorem effects_serviceSlot (e : RemoteEngine) (k : ℕ) (g : Glance) :
    Effects g.cancelled .downs e (serviceSlot opts e k g).1 ∧ SamePhases e (serviceSlot opts e k g).1 := by
  unfold serviceSlot
  cases hs : e.slots[k]? with
  | none => exact ⟨.refl, .refl e⟩
  | some s =>
    simp only
    split
    · next hin =>
      obtain ⟨heff, hsame⟩ := effects_sendCancel opts g hs hin
      split
      · exact ⟨heff, hsame⟩
      · split
        · obtain ⟨hkill, hphase⟩ := effects_killHost opts g.cancelled
            (sendCancel opts e k s g).skipCount .cancelled (cancelIgnored opts) (some k)
          have hskip : Effects g.cancelled .downs e (sendCancel opts e k s g).skipCount :=
            heff.tail (.books ⟨rfl, rfl, rfl, rfl, rfl, rfl⟩)
          exact ⟨hskip.trans hkill, (hsame.trans (samePhases_of_slots rfl)).trans hphase⟩
        · split
          · obtain ⟨hkill, hphase⟩ := effects_killHost opts g.cancelled
              (sendCancel opts e k s g) .engineCrashed (timedOut opts) (some k)
            exact ⟨heff.trans hkill, hsame.trans hphase⟩
          · exact ⟨heff, hsame⟩
    · exact ⟨.refl, .refl e⟩

theorem effects_serviceFrom (g : Glance) (ks : List ℕ) (e : RemoteEngine) :
    Effects g.cancelled .downs e (serviceFrom opts g e ks).1 ∧ SamePhases e (serviceFrom opts g e ks).1 := by
  induction ks generalizing e with
  | nil => exact ⟨.refl, .refl e⟩
  | cons k ks ih =>
    obtain ⟨heff, hsame⟩ := effects_serviceSlot opts e k g
    unfold serviceFrom
    simp only
    split
    · exact ⟨heff, hsame⟩
    · obtain ⟨heff', hsame'⟩ := ih (serviceSlot opts e k g).1
      exact ⟨heff.trans heff', hsame.trans hsame'⟩

theorem findSlot_some {id : ℕ} (h : e.findSlot id = some k) :
    ∃ s : RemoteSlot, e.slots[k]? = some s ∧ s.phase.active = true ∧ s.id = id := by
  obtain ⟨hlt, hp, -⟩ := findIdx?_eq_some_iff_getElem.1 h
  simp only [Bool.and_eq_true, beq_iff_eq] at hp
  exact ⟨e.slots[k], getElem?_eq_getElem hlt, hp⟩

theorem slots_dropFrame (e : RemoteEngine) (f : HostFrame) : (e.dropFrame f).slots = e.slots := by
  have hforget : ∀ retire, (e.forgetRetired retire).slots = e.slots := by
    intro retire
    cases retire <;> rfl
  unfold dropFrame
  split
  · split
    · rw [slots_sendControl, hforget]
    · exact hforget _
  · rfl

theorem effects_dispatchFrame {h : EngineHost} {f : HostFrame} {rest : List HostFrame} (hc : e.child = some h)
    (ho : h.output = f :: rest) :
    Effects flags kind e ({ e with child := some { h with output := rest } }.dispatchFrame f) ∧
    SamePhases e ({ e with child := some { h with output := rest } }.dispatchFrame f) := by
  have hdrop : Effects flags kind e ({ e with child := some { h with output := rest } }.dropFrame f) ∧
      SamePhases e ({ e with child := some { h with output := rest } }.dropFrame f) :=
    ⟨.single (.drop hc ho), samePhases_of_slots (slots_dropFrame _ f)⟩
  unfold dispatchFrame
  split
  · next k s hfound =>
    obtain ⟨j, hj, hmap⟩ := bind_eq_some_iff.1 hfound
    obtain ⟨x, hx, heq⟩ := map_eq_some_iff.1 hmap
    cases heq
    obtain ⟨y, hy, hactive, hid⟩ := findSlot_some hj
    rw [hx] at hy
    cases hy
    split
    · next hcond => exact ⟨.single (.deliver hc ho hx hactive hid hcond.1 hcond.2), samePhases_setSlot (s := s) hx rfl⟩
    · exact hdrop
  · exact hdrop

theorem effects_dispatch (count : ℕ) (e : RemoteEngine) :
    Effects flags kind e (e.dispatch count) ∧ SamePhases e (e.dispatch count) := by
  induction count generalizing e with
  | zero => exact ⟨.refl, .refl e⟩
  | succ count ih =>
    unfold dispatch
    split
    · exact ⟨.refl, .refl e⟩
    · next h hc =>
      split
      · exact ⟨.refl, .refl e⟩
      · next f rest ho =>
        obtain ⟨heff, hsame⟩ := effects_dispatchFrame flags kind hc ho
        obtain ⟨heff', hsame'⟩ := ih ({ e with child := some { h with output := rest } }.dispatchFrame f)
        exact ⟨heff.trans heff', hsame.trans hsame'⟩

theorem effects_setPhase (hpast : PastWrite e k) (hframes : phase.frames = [])
    (hwritten : phase.written = true) : Effects flags kind e (e.setPhase k phase) := by
  unfold setPhase
  cases hs : e.slots[k]? with
  | none => exact .refl
  | some s =>
    have hw := hpast s hs
    refine effects_slot _ _ hs (moved_phase s (active_of_written hw) (active_of_written hwritten) hframes ?_
      (fun _ => hw) (fun _ _ => hwritten))
    rintro rfl
    cases hwritten

theorem effects_look (hs : e.slots[k]? = some s) (hw : s.phase.written = true) :
    Effects flags kind e (e.takeInbox k s) ∧
    (∀ error, s.failed = some error → Effects flags kind e (e.setSlot k { s with phase := .failing error })) ∧
    Effects flags kind e (e.setSlot k { s with phase := .waiting }) := by
  refine ⟨effects_slot _ _ hs (moved_takeInbox s hw), fun error herr => ?_, ?_⟩
  · refine effects_slot _ _ hs (moved_phase s (active_of_written hw) rfl rfl nofun nofun fun _ hnone => ?_)
    rw [herr] at hnone
    cases hnone
  · exact effects_slot _ _ hs (moved_phase s (active_of_written hw) rfl rfl nofun (fun _ => hw) fun _ _ => rfl)

theorem effects_leaveReader (hpast : PastWrite e k) : Effects flags kind e (e.leaveReader k) := by
  have hbooks : Effects flags kind e { e with readerActive := false } :=
    effects_books _ _ ⟨rfl, rfl, rfl, rfl, rfl, rfl⟩
  unfold leaveReader
  simp only
  cases hs : e.slots[k]? with
  | none => exact hbooks
  | some s =>
    have hs' : ({ e with readerActive := false } : RemoteEngine).slots[k]? = some s := hs
    obtain ⟨htake, hfail, hwait⟩ := effects_look flags kind hs' (hpast s hs)
    simp only
    split
    · exact hbooks.trans htake
    · split
      · next error herr => exact hbooks.trans (hfail error herr)
      · exact hbooks.trans hwait

theorem effects_readerRound (g : Glance) (hpast : PastWrite e k) :
    Effects g.cancelled .downs e (readerRound opts e k g) := by
  obtain ⟨heff, hsame⟩ := effects_serviceFrom opts g (List.range e.slots.length) e
  have hpast' := hpast.of_samePhases hsame
  unfold readerRound serviceTimers
  simp only
  split
  · exact heff.trans (effects_leaveReader _ _ hpast')
  · exact heff.trans (effects_setPhase _ _ hpast' rfl rfl)

theorem effects_waitRound (g : Glance) (hs : e.slots[k]? = some s) (hw : s.phase.written = true) :
    Effects g.cancelled .downs e (waitRound opts e k s g) := by
  obtain ⟨htake, hfail, hwait⟩ := effects_look g.cancelled .downs hs hw
  unfold waitRound
  split
  · exact htake
  · split
    · next error herr => exact hfail error herr
    · split
      · exact hwait
      · have hbooks : Effects g.cancelled .downs e { e with readerActive := true } :=
          effects_books _ _ ⟨rfl, rfl, rfl, rfl, rfl, rfl⟩
        exact hbooks.trans (effects_readerRound opts g (pastWrite_of_slot hs hw))

theorem effects_afterProcess {work : List HostFrame} (g : Glance) (hs : e.slots[k]? = some s)
    (hp : s.phase = .processing work) : Effects g.cancelled .downs e (afterProcess opts e k s work g) := by
  have hw : s.phase.written = true := by
    rw [hp]
    rfl
  unfold afterProcess
  split
  · next final hfinal =>
    refine effects_slot _ _ hs ⟨rfl, rfl, rfl, rfl, rfl, rfl, rfl, ?_, nofun, fun _ => hw, fun _ _ => rfl, ?_⟩
    · change (s.inbox ++ [final]).Subperm (s.inbox ++ s.phase.frames)
      rw [hp]
      refine (subperm_append_left _).2 (singleton_subperm_iff.2 ?_)
      exact mem_of_find?_eq_some hfinal
    · exact (active_of_written hw).symm
  · exact effects_waitRound opts g hs hw

theorem effects_afterRead (result : ReadResult) (g : Glance) (hs : e.slots[k]? = some s)
    (hp : s.phase = .reading) : Effects g.cancelled .downs e (afterRead opts e k s result g) := by
  have hpast : PastWrite e k := pastWrite_of_slot hs (by rw [hp]; rfl)
  cases result with
  | closed how tail =>
    obtain ⟨heff, hsame⟩ := effects_hostDied opts g.cancelled e (during s.kind) how tail
    exact heff.trans (effects_leaveReader _ _ (hpast.of_samePhases hsame))
  | malformed count =>
    obtain ⟨heff, hsame⟩ := effects_dispatch g.cancelled .downs count e
    obtain ⟨hkill, hphase⟩ := effects_killHost opts g.cancelled (e.dispatch count)
      .engineCrashed (lit "Engine host for '" ++ opts.label ++ lit "' sent a malformed frame.") none
    exact (heff.trans hkill).trans (effects_leaveReader _ _ (hpast.of_samePhases (hsame.trans hphase)))
  | data count =>
    obtain ⟨heff, hsame⟩ := effects_dispatch g.cancelled .downs count e
    have hpast' := hpast.of_samePhases hsame
    unfold afterRead
    simp only
    split
    · exact heff
    · split
      · exact heff.trans (effects_readerRound opts g hpast')
      · exact heff.trans (effects_leaveReader _ _ hpast')

theorem effects_start (e : RemoteEngine) (outcome : StartOutcome) (hdown : e.child = none) :
    Effects flags .downs e (start opts e outcome).1 ∧
    ((start opts e outcome).2 = true → (start opts e outcome).1.child.isSome = true) := by
  cases outcome with
  | started => exact ⟨.single (.spawn hdown), fun _ => rfl⟩
  | spawnFailed => exact ⟨.refl, nofun⟩
  | failed code message =>
    exact ⟨(Relation.ReflTransGen.single (.spawn hdown)).trans (effects_killHost opts flags e.spawn code message none).1,
      nofun⟩

theorem effects_ensureRunning (e : RemoteEngine) (now : ℤ) (outcome : StartOutcome) :
    Effects flags .downs e (ensureRunning opts e now outcome).1 ∧
    ((ensureRunning opts e now outcome).2 = true → (ensureRunning opts e now outcome).1.child.isSome = true) := by
  unfold ensureRunning
  split
  · next hup => exact ⟨.refl, fun _ => hup⟩
  · next hdown =>
    rw [Bool.not_eq_true, isSome_eq_false_iff, isNone_iff_eq_none] at hdown
    have hstart : ∀ e' : RemoteEngine, SameShared e e' → Effects flags .downs e (start opts e' outcome).1 ∧
        ((start opts e' outcome).2 = true → (start opts e' outcome).1.child.isSome = true) := by
      intro e' hsame
      obtain ⟨heff, hup⟩ := effects_start opts flags e' outcome (hsame.child.trans hdown)
      exact ⟨(effects_books _ _ hsame).trans heff, hup⟩
    simp only
    split
    · exact hstart _ ⟨rfl, rfl, rfl, rfl, rfl, rfl⟩
    · split
      · exact ⟨effects_books _ _ ⟨rfl, rfl, rfl, rfl, rfl, rfl⟩, nofun⟩
      · exact hstart _ ⟨rfl, rfl, rfl, rfl, rfl, rfl⟩

theorem effects_begin (e : RemoteEngine) (kind : CallKind) (hasCancel : Bool) (now : ℤ)
    (outcome : StartOutcome) : Effects (fun _ => false) .downs e (begin opts e kind hasCancel now outcome) := by
  obtain ⟨heff, hup⟩ := effects_ensureRunning opts (fun _ => false) e now outcome
  unfold begin
  simp only
  split
  · next hok =>
    refine heff.tail (.enter (fun _ => rfl) rfl rfl rfl rfl rfl (fun hc => ?_) (hup hok))
    change (hasCancel && kind == .run) = true at hc
    rw [Bool.and_eq_true, beq_iff_eq] at hc
    exact hc.2
  · exact heff

theorem effects_rejectResponse (what : Bytes) (hpast : PastWrite e k) :
    Effects flags .downs e (rejectResponse opts e k what) := by
  unfold rejectResponse
  cases hs : e.slots[k]? with
  | none => exact .refl
  | some s =>
    simp only
    split
    · obtain ⟨hkill, hphase⟩ := effects_killHost opts flags e .engineCrashed what none
      exact hkill.trans (effects_setPhase _ _ (hpast.of_samePhases hphase) rfl rfl)
    · exact effects_setPhase _ _ hpast rfl rfl

theorem effects_responseSegment (e : RemoteEngine) (name : SegmentName) (size : ℕ) (opened : Bool) :
    Effects flags kind e (e.responseSegment name size opened).1 ∧
    (e.responseSegment name size opened).1.slots = e.slots ∧ ∀ m, (e.responseSegment name size opened).2 = some m →
      m ∈ (e.responseSegment name size opened).1.segments ∧ m.name = name := by
  unfold responseSegment
  split
  · next m hfound =>
    refine ⟨.refl, rfl, fun m' hm' => ?_⟩
    split at hm'
    · cases hm'
      exact ⟨mem_of_find?_eq_some hfound, by simpa using find?_some hfound⟩
    · cases hm'
  · split
    · refine ⟨.single (.enlist _), rfl, fun m' hm' => ?_⟩
      cases hm'
      exact ⟨mem_append_right _ (mem_singleton.2 rfl), rfl⟩
    · exact ⟨.refl, rfl, nofun⟩

theorem effects_mapResponse {final : HostFrame} {shm : ShmHeader} (opened : Bool) (hs : e.slots[k]? = some s)
    (hp : s.phase = .answered final) (hf : final.msg = .response shm) :
    Effects flags .maps e (mapResponse opts e k s shm opened) := by
  have hw : s.phase.written = true := by
    rw [hp]
    rfl
  have hforget : Effects flags .maps e (e.forgetRetired shm.retire) := .single (.retire hs hp hf)
  have hs' : (e.forgetRetired shm.retire).slots[k]? = some s := by
    cases shm.retire <;> exact hs
  unfold mapResponse
  simp only
  split
  · exact hforget.trans (effects_slot _ _ hs' (moved_phase s (active_of_written hw) rfl rfl nofun (fun _ => hw)
      fun _ _ => rfl))
  · next name size hn =>
    obtain ⟨heff, hslots, hmapped⟩ := effects_responseSegment flags .maps (e.forgetRetired shm.retire) name size opened
    have hs'' : ((e.forgetRetired shm.retire).responseSegment name size opened).1.slots[k]? = some s := by
      rw [hslots]
      exact hs'
    split
    · next m hm =>
      obtain ⟨hmem, hname⟩ := hmapped m hm
      exact (hforget.trans heff).tail (.map rfl hs'' hp hf (by rw [hname]; exact hn) hmem)
    · exact (hforget.trans heff).tail (.giveUp hs'' hp hf hn)

theorem effects_answer {final : HostFrame} (opened : Bool) (hs : e.slots[k]? = some s)
    (hp : s.phase = .answered final) :
    ∃ kind, kind ≠ .host ∧ Effects flags kind e (answer opts e k s final opened) := by
  have hw : s.phase.written = true := by
    rw [hp]
    rfl
  have hpast : PastWrite e k := pastWrite_of_slot hs hw
  unfold answer
  split
  · exact ⟨.downs, nofun, effects_slot _ _ hs (moved_phase s (active_of_written hw) rfl rfl nofun (fun _ => hw)
      fun _ _ => rfl)⟩
  · next shm hf => exact ⟨.maps, nofun, effects_mapResponse opts _ opened hs hp hf⟩
  · exact ⟨.downs, nofun, effects_rejectResponse opts _ _ hpast⟩
  · exact ⟨.downs, nofun, effects_rejectResponse opts _ _ hpast⟩
  · exact ⟨.downs, nofun, effects_rejectResponse opts _ _ hpast⟩
  · exact ⟨.downs, nofun, effects_rejectResponse opts _ _ hpast⟩

theorem effects_decoded (outcome : DecodeOutcome) (hpast : PastWrite e k) :
    Effects flags .downs e (decoded opts e k outcome) := by
  cases outcome with
  | ok => exact effects_setPhase _ _ hpast rfl rfl
  | arenaExhausted => exact effects_setPhase _ _ hpast rfl rfl
  | malformed => exact effects_rejectResponse opts _ _ hpast

end RemoteEngine

def RemoteAct.flags : RemoteAct → ℕ → Bool
  | .wait _ g | .processed _ g | .read _ _ g => g.cancelled
  | _ => fun _ => false

namespace RemoteEngine

variable (opts : RemoteOptions)

variable {e e' : RemoteEngine} {act : RemoteAct}

theorem effects_callStep {s : RemoteSlot} {k : ℕ} (hk : act.slot = some k) (hs : e.slots[k]? = some s)
    (h : e.callStep opts s act = some e') : ∃ kind, kind ≠ .host ∧ Effects act.flags kind e e' := by
  cases act with
  | begin => cases hk
  | host => cases hk
  | encodeFailed k =>
    cases hk
    unfold callStep at h
    cases hp : s.phase <;> rw [hp] at h <;> cases h
    refine ⟨.downs, nofun, effects_slot _ _ hs (moved_phase s ?_ rfl rfl nofun nofun fun hw => ?_)⟩
    · rw [hp]
      rfl
    · rw [hp] at hw
      cases hw
  | write k =>
    cases hk
    unfold callStep at h
    cases hp : s.phase <;> rw [hp] at h <;> cases h
    exact ⟨.downs, nofun, .single (.write hs hp)⟩
  | wait k g =>
    cases hk
    unfold callStep at h
    cases hp : s.phase <;> rw [hp] at h <;> cases h
    · exact ⟨.downs, nofun, effects_waitRound opts g hs (by rw [hp]; rfl)⟩
    · exact ⟨.downs, nofun, effects_waitRound opts g hs (by rw [hp]; rfl)⟩
  | processed k g =>
    cases hk
    unfold callStep at h
    cases hp : s.phase <;> rw [hp] at h <;> cases h
    exact ⟨.downs, nofun, effects_afterProcess opts g hs hp⟩
  | read k result g =>
    cases hk
    unfold callStep at h
    cases hp : s.phase <;> rw [hp] at h <;> cases h
    exact ⟨.downs, nofun, effects_afterRead opts result g hs hp⟩
  | answer k opened =>
    cases hk
    unfold callStep at h
    cases hp : s.phase <;> cases hkind : s.kind <;> rw [hp, hkind] at h <;> cases h
    exact effects_answer opts _ opened hs hp
  | decoded k outcome =>
    cases hk
    unfold callStep at h
    cases hp : s.phase <;> rw [hp] at h <;> cases h
    exact ⟨.downs, nofun, effects_decoded opts _ outcome (pastWrite_of_slot hs (by rw [hp]; rfl))⟩
  | release k =>
    cases hk
    have hrelease : e' = e.releaseSlot k s := by
      unfold callStep at h
      cases hp : s.phase <;> rw [hp] at h <;> simp only at h
      case answered final =>
        split at h
        · cases h
        · cases h
          rfl
      all_goals first | (cases h; rfl) | cases h
    rw [hrelease]
    exact ⟨.downs, nofun, .single (.release hs)⟩

theorem host_step {a : HostAct} (h : e.step opts (.host a) = some e') :
    ∃ host host', e.child = some host ∧ host.step a = some host' ∧ e' = { e with child := some host' } := by
  obtain ⟨host, hc, h⟩ := bind_eq_some_iff.1 h
  obtain ⟨host', hh, heq⟩ := map_eq_some_iff.1 h
  exact ⟨host, host', hc, hh, heq.symm⟩

theorem calls_effects (hact : ∀ a, act ≠ .host a) (h : e.step opts act = some e') :
    ∃ kind, kind ≠ .host ∧ Effects act.flags kind e e' := by
  have hcall : act.slot.bind (fun k => e.slots[k]?.bind fun s => e.callStep opts s act) = some e' →
      ∃ kind, kind ≠ .host ∧ Effects act.flags kind e e' := by
    intro h
    obtain ⟨k, hk, h⟩ := bind_eq_some_iff.1 h
    obtain ⟨s, hs, h⟩ := bind_eq_some_iff.1 h
    exact effects_callStep opts hk hs h
  cases act with
  | begin kind hasCancel now outcome =>
    cases h
    exact ⟨.downs, nofun, effects_begin opts e kind hasCancel now outcome⟩
  | host a => exact absurd rfl (hact a)
  | encodeFailed k => exact hcall h
  | write k => exact hcall h
  | wait k g => exact hcall h
  | processed k g => exact hcall h
  | read k result g => exact hcall h
  | answer k opened => exact hcall h
  | decoded k outcome => exact hcall h
  | release k => exact hcall h

theorem step_effects (h : e.step opts act = some e') : ∃ kind, Effects act.flags kind e e' := by
  cases act with
  | host a =>
    obtain ⟨host, host', hc, hh, rfl⟩ := host_step opts h
    exact ⟨.host, .single (.host rfl hc hh)⟩
  | _ =>
    obtain ⟨kind, -, heff⟩ := calls_effects opts (by nofun) h
    exact ⟨kind, heff⟩

end RemoteEngine

end AgentCpp
