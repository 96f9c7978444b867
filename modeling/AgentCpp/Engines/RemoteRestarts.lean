import AgentCpp.Engines.RemoteCancel
import AgentCpp.Lib.Lists

/-!
# How often the remote engine restarts its host

One section sets the flag that excuses a restart and another one uses it up.
-/

namespace AgentCpp
open Lib List

inductive RestartEvent where
  | attempt (now : ℤ)
  | cancelKill
  deriving DecidableEq, Repr

def attempts : List RestartEvent → List ℤ
  | [] => []
  | .attempt now :: history => now :: attempts history
  | .cancelKill :: history => attempts history

/- The attempts that replace a host killed for an ignored cancel. `killed`: the history starts after
such a kill. -/
def replacements (killed : Bool) : List RestartEvent → List ℤ
  | [] => []
  | .attempt now :: history => if killed then now :: replacements false history else replacements false history
  | .cancelKill :: history => replacements true history

def otherAttempts (killed : Bool) : List RestartEvent → List ℤ
  | [] => []
  | .attempt now :: history => if killed then otherAttempts false history else now :: otherAttempts false history
  | .cancelKill :: history => otherAttempts true history

theorem countP_attempts (p : ℤ → Bool) (history : List RestartEvent) (killed : Bool) :
    (attempts history).countP p = (otherAttempts killed history).countP p + (replacements killed history).countP p := by
  induction history generalizing killed with
  | nil => rfl
  | cons event history ih =>
    cases event with
    | cancelKill => exact ih true
    | attempt now =>
      have hrest := ih false
      unfold attempts otherAttempts replacements
      cases killed with
      | true =>
        rw [if_pos rfl, if_pos rfl, countP_cons, countP_cons]
        omega
      | false =>
        rw [if_neg Bool.false_ne_true, if_neg Bool.false_ne_true, countP_cons, countP_cons]
        omega

namespace RemoteEngine

/- `ensure_running` finds no host and gets as far as `start`. -/
def reachesStart (opts : RemoteOptions) (e : RemoteEngine) (now : ℤ) : Bool :=
  e.child.isNone && (e.skipRestartCount || (recent 60000 now e.restarts).length < opts.maxRestarts)

/- What a step adds to the history. A host that is killed for an ignored cancel leaves that
   as the last failure. -/
def restartEvents (opts : RemoteOptions) (e : RemoteEngine) (act : RemoteAct) (e' : RemoteEngine) :
    List RestartEvent :=
  match act with
  | .begin _ _ now _ => if reachesStart opts e now then [.attempt now] else []
  | _ => if e'.generation ≠ e.generation ∧ e'.lastFailure = cancelIgnored opts then [.cancelKill] else []

def restartHistory (opts : RemoteOptions) (e : RemoteEngine) : List RemoteAct → List RestartEvent
  | [] => []
  | act :: acts =>
    match e.step opts act with
    | none => []
    | some e' => restartEvents opts e act e' ++ restartHistory opts e' acts

end RemoteEngine

def RemoteAct.startTime : RemoteAct → Option ℤ
  | .begin _ _ now _ => some now
  | _ => none

namespace RemoteEngine

theorem hostFor_ne_cancelIgnored (opts : RemoteOptions) (rest : Bytes) :
    lit "Engine host for '" ++ rest ≠ cancelIgnored opts := by
  intro h
  have hbyte : some (0x68 : UInt8) = some 0x27 := congrArg (fun text : Bytes => text[7]?) h
  cases hbyte

theorem timedOut_ne_cancelIgnored (opts : RemoteOptions) : timedOut opts ≠ cancelIgnored opts := by
  intro h
  unfold timedOut cancelIgnored at h
  simp only [append_assoc] at h
  have hrest := append_cancel_left (append_cancel_left h)
  have hbyte : some (0x61 : UInt8) = some 0x73 := congrArg (fun text : Bytes => text[10]?) hrest
  cases hbyte

def limits (e : RemoteEngine) : List ℤ × Bool × ℕ × Bytes :=
  (e.restarts, e.skipRestartCount, e.generation, e.lastFailure)

/- A section that reads the clock for nothing but the timers. -/
inductive LimitStep (opts : RemoteOptions) (e e' : RemoteEngine) : Prop where
  | same (h : e'.limits = e.limits)
  | down (hr : e'.restarts = e.restarts) (hs : e'.skipRestartCount = e.skipRestartCount)
    (hf : e'.lastFailure ≠ cancelIgnored opts)
  | cancel (hr : e'.restarts = e.restarts) (hs : e'.skipRestartCount = true)
    (hg : e'.generation ≠ e.generation) (hf : e'.lastFailure = cancelIgnored opts)

variable {opts : RemoteOptions}

variable {e e' : RemoteEngine} {act : RemoteAct} {past times : List ℤ} {now : ℤ}

theorem LimitStep.congr {d d' : RemoteEngine} (h : LimitStep opts e e') (he : e.limits = d.limits)
    (he' : d'.limits = e'.limits) : LimitStep opts d d' := by
  cases h with
  | same h => exact .same (he'.trans (h.trans he))
  | down hr hs hf =>
    simp only [limits, Prod.mk.injEq] at he he'
    exact .down (by rw [he'.1, hr, he.1]) (by rw [he'.2.1, hs, he.2.1]) (by rwa [he'.2.2.2])
  | cancel hr hs hg hf =>
    simp only [limits, Prod.mk.injEq] at he he'
    exact .cancel (by rw [he'.1, hr, he.1]) (by rw [he'.2.1, hs]) (by rwa [he'.2.2.1, ← he.2.2.1])
      (by rw [he'.2.2.2, hf])

theorem LimitStep.trans_same {d' : RemoteEngine} (h : LimitStep opts e e') (he' : d'.limits = e'.limits) :
    LimitStep opts e d' := h.congr rfl he'

theorem limits_setPhase (e : RemoteEngine) (k : ℕ) (phase : CallPhase) : (e.setPhase k phase).limits = e.limits := by
  unfold setPhase
  cases e.slots[k]? <;> rfl

theorem limits_writeFrame (e : RemoteEngine) (f : CoreFrame) (generation : ℕ) :
    (e.writeFrame f generation).limits = e.limits := by
  unfold writeFrame
  cases e.child with
  | none => rfl
  | some h =>
    dsimp only
    split <;> rfl

theorem limits_forgetRetired (e : RemoteEngine) (retire : Option SegmentName) :
    (e.forgetRetired retire).limits = e.limits := by
  cases retire <;> rfl

theorem limits_dropFrame (e : RemoteEngine) (f : HostFrame) : (e.dropFrame f).limits = e.limits := by
  unfold dropFrame
  split
  · next shm _ =>
    split
    · exact (limits_writeFrame _ _ _).trans (limits_forgetRetired e shm.retire)
    · exact limits_forgetRetired e shm.retire
  · rfl

theorem limits_dispatchFrame (e : RemoteEngine) (f : HostFrame) : (e.dispatchFrame f).limits = e.limits := by
  unfold dispatchFrame
  split
  · split
    · rfl
    · exact limits_dropFrame e f
  · exact limits_dropFrame e f

theorem limits_dispatch (count : ℕ) (e : RemoteEngine) : (e.dispatch count).limits = e.limits := by
  induction count generalizing e with
  | zero => rfl
  | succ count ih =>
    unfold dispatch
    split
    · rfl
    · split
      · rfl
      · exact (ih _).trans (limits_dispatchFrame _ _)

theorem limits_leaveReader (e : RemoteEngine) (k : ℕ) : (e.leaveReader k).limits = e.limits := by
  unfold leaveReader
  dsimp only
  split
  · rfl
  · split
    · rfl
    · split <;> rfl

theorem limits_returnSegment (e : RemoteEngine) (s : RemoteSlot) : (e.returnSegment s).limits = e.limits := by
  unfold returnSegment
  split
  · exact limits_writeFrame _ _ _
  · rfl

theorem limits_releaseSlot (e : RemoteEngine) (k : ℕ) (s : RemoteSlot) : (e.releaseSlot k s).limits = e.limits := by
  unfold releaseSlot
  split
  · exact limits_returnSegment e s
  · rfl

theorem limits_responseSegment (e : RemoteEngine) (name : SegmentName) (size : ℕ) (opened : Bool) :
    (e.responseSegment name size opened).1.limits = e.limits := by
  unfold responseSegment
  split
  · rfl
  · split <;> rfl

theorem limits_acquireSlot (e : RemoteEngine) (s : RemoteSlot) : (e.acquireSlot s).limits = e.limits := by
  unfold acquireSlot
  dsimp only
  split <;> rfl

theorem limitStep_killHost (e : RemoteEngine) (code : ErrorCode) {msg : Bytes} (trigger : Option ℕ)
    (hmsg : msg ≠ cancelIgnored opts) : LimitStep opts e (killHost opts e code msg trigger) := .down rfl rfl hmsg

theorem limitStep_hostDied (e : RemoteEngine) (during how tail : Bytes) :
    LimitStep opts e (hostDied opts e during how tail) := by
  refine .down rfl rfl ?_
  exact hostFor_ne_cancelIgnored opts _

theorem limits_sendCancel (opts : RemoteOptions) (e : RemoteEngine) (k : ℕ) (s : RemoteSlot) (g : Glance) :
    (sendCancel opts e k s g).limits = e.limits := by
  unfold sendCancel
  split
  · exact limits_writeFrame _ _ _
  · rfl

theorem limitStep_serviceSlot (opts : RemoteOptions) (e : RemoteEngine) (k : ℕ) (g : Glance) :
    LimitStep opts e (serviceSlot opts e k g).1 ∧
    ((serviceSlot opts e k g).2 = false → (serviceSlot opts e k g).1.limits = e.limits) := by
  unfold serviceSlot
  cases e.slots[k]? with
  | none => exact ⟨.same rfl, fun _ => rfl⟩
  | some s =>
    dsimp only
    split
    · have hsent := limits_sendCancel opts e k s g
      generalize sendCancel opts e k s g = d at hsent
      cases d.slots[k]? with
      | none => exact ⟨.same hsent, fun _ => hsent⟩
      | some s' =>
        dsimp only
        split
        · refine ⟨?_, nofun⟩
          have hgeneration : d.generation = e.generation := congrArg (fun l => l.2.2.1) hsent
          refine .cancel (congrArg (fun l => l.1) hsent) rfl ?_ rfl
          change d.generation + 1 ≠ e.generation
          omega
        · split
          · exact ⟨(limitStep_killHost d _ _ (timedOut_ne_cancelIgnored opts)).congr hsent rfl, nofun⟩
          · exact ⟨.same hsent, fun _ => hsent⟩
    · exact ⟨.same rfl, fun _ => rfl⟩

theorem limitStep_serviceFrom (opts : RemoteOptions) (g : Glance) (ks : List ℕ) (e : RemoteEngine) :
    LimitStep opts e (serviceFrom opts g e ks).1 := by
  induction ks generalizing e with
  | nil => exact .same rfl
  | cons k ks ih =>
    obtain ⟨hstep, hsame⟩ := limitStep_serviceSlot opts e k g
    unfold serviceFrom
    dsimp only
    split
    · exact hstep
    · next hkilled =>
      rw [Bool.not_eq_true] at hkilled
      exact (ih _).congr (hsame hkilled) rfl

theorem limitStep_readerRound (e : RemoteEngine) (k : ℕ) (g : Glance) :
    LimitStep opts e (readerRound opts e k g) := by
  have hstep := limitStep_serviceFrom opts g (List.range e.slots.length) e
  unfold readerRound serviceTimers
  dsimp only
  split
  · exact hstep.trans_same (limits_leaveReader _ k)
  · exact hstep.trans_same (limits_setPhase _ k .reading)

theorem limitStep_waitRound (e : RemoteEngine) (k : ℕ) (s : RemoteSlot) (g : Glance) :
    LimitStep opts e (waitRound opts e k s g) := by
  unfold waitRound
  split
  · exact .same rfl
  · split
    · exact .same rfl
    · split
      · exact .same rfl
      · exact (limitStep_readerRound { e with readerActive := true } k g).congr rfl rfl

theorem limitStep_afterRead (e : RemoteEngine) (k : ℕ) (s : RemoteSlot) (result : ReadResult) (g : Glance) :
    LimitStep opts e (afterRead opts e k s result g) := by
  unfold afterRead
  cases result with
  | closed how tail => exact (limitStep_hostDied e _ how tail).trans_same (limits_leaveReader _ k)
  | malformed count =>
    have hmsg : lit "Engine host for '" ++ opts.label ++ lit "' sent a malformed frame." ≠ cancelIgnored opts := by
      exact hostFor_ne_cancelIgnored opts _
    exact (limitStep_killHost (e.dispatch count) _ none hmsg).congr (limits_dispatch count e) (limits_leaveReader _ k)
  | data count =>
    have hdispatch := limits_dispatch count e
    dsimp only
    split
    · exact .same hdispatch
    · split
      · exact (limitStep_readerRound (e.dispatch count) k g).congr hdispatch rfl
      · exact .same ((limits_leaveReader _ k).trans hdispatch)

theorem limitStep_rejectResponse (e : RemoteEngine) (k : ℕ) {what : Bytes} (hwhat : what ≠ cancelIgnored opts) :
    LimitStep opts e (rejectResponse opts e k what) := by
  unfold rejectResponse
  cases e.slots[k]? with
  | none => exact .same rfl
  | some s =>
    dsimp only
    split
    · exact (limitStep_killHost e _ none hwhat).trans_same (limits_setPhase _ k _)
    · exact .same (limits_setPhase _ k _)

theorem unexpectedMessage_ne (type : ℕ) : unexpectedMessage opts type ≠ cancelIgnored opts := by
  exact hostFor_ne_cancelIgnored opts _

theorem malformedResponse_ne : malformedResponse opts ≠ cancelIgnored opts := by
  exact hostFor_ne_cancelIgnored opts _

theorem limits_mapResponse (e : RemoteEngine) (k : ℕ) (s : RemoteSlot) (shm : ShmHeader) (opened : Bool) :
    (mapResponse opts e k s shm opened).limits = e.limits := by
  have hforget := limits_forgetRetired e shm.retire
  unfold mapResponse
  cases shm.segment with
  | none => exact hforget
  | some segment =>
    obtain ⟨name, size⟩ := segment
    have hmap := limits_responseSegment (e.forgetRetired shm.retire) name size opened
    dsimp only
    split
    · exact hmap.trans hforget
    · exact (limits_returnSegment _ s).trans (hmap.trans hforget)

theorem limitStep_answer (e : RemoteEngine) (k : ℕ) (s : RemoteSlot) (final : HostFrame) (opened : Bool) :
    LimitStep opts e (answer opts e k s final opened) := by
  unfold answer
  cases final.msg with
  | error status message => exact .same rfl
  | response shm => exact .same (limits_mapResponse e k s shm opened)
  | count _ => exact limitStep_rejectResponse e k (unexpectedMessage_ne _)
  | done => exact limitStep_rejectResponse e k (unexpectedMessage_ne _)
  | chunk => exact limitStep_rejectResponse e k (unexpectedMessage_ne _)
  | progress => exact limitStep_rejectResponse e k (unexpectedMessage_ne _)

theorem limitStep_decoded (e : RemoteEngine) (k : ℕ) (outcome : DecodeOutcome) :
    LimitStep opts e (decoded opts e k outcome) := by
  cases outcome with
  | ok => exact .same (limits_setPhase e k _)
  | arenaExhausted => exact .same (limits_setPhase e k _)
  | malformed => exact limitStep_rejectResponse e k malformedResponse_ne

theorem limitStep_callStep {s : RemoteSlot} (h : e.callStep opts s act = some e') : LimitStep opts e e' := by
  cases act with
  | begin => cases h
  | host => cases h
  | encodeFailed k =>
    unfold callStep at h
    cases hp : s.phase <;> rw [hp] at h <;> cases h
    exact .same rfl
  | write k =>
    unfold callStep at h
    cases hp : s.phase <;> rw [hp] at h <;> cases h
    exact .same (limits_writeFrame _ _ _)
  | wait k g =>
    unfold callStep at h
    cases hp : s.phase <;> rw [hp] at h <;> cases h
    · exact limitStep_waitRound e k s g
    · exact limitStep_waitRound e k s g
  | processed k g =>
    unfold callStep at h
    cases hp : s.phase <;> rw [hp] at h <;> cases h
    unfold afterProcess
    split
    · exact .same rfl
    · exact limitStep_waitRound e k s g
  | read k result g =>
    unfold callStep at h
    cases hp : s.phase <;> rw [hp] at h <;> cases h
    exact limitStep_afterRead e k s result g
  | answer k opened =>
    unfold callStep at h
    cases hp : s.phase <;> cases hkind : s.kind <;> rw [hp, hkind] at h <;> cases h
    exact limitStep_answer e k s _ opened
  | decoded k outcome =>
    unfold callStep at h
    cases hp : s.phase <;> rw [hp] at h <;> cases h
    exact limitStep_decoded e k outcome
  | release k =>
    have hrelease : e' = e.releaseSlot k s := by
      unfold callStep at h
      cases hp : s.phase <;> rw [hp] at h <;> simp only at h
      case answered final =>
        split at h
        · cases h
        · cases h
          rfl
      all_goals first | (cases h; rfl) | cases h
    rw [hrelease]
    exact .same (limits_releaseSlot e k s)

theorem limitStep_step (hact : act.startTime = none) (h : e.step opts act = some e') : LimitStep opts e e' := by
  have hcall : act.slot.bind (fun k => e.slots[k]?.bind fun s => e.callStep opts s act) = some e' →
      LimitStep opts e e' := by
    intro h
    obtain ⟨k, -, h⟩ := Option.bind_eq_some_iff.1 h
    obtain ⟨s, -, h⟩ := Option.bind_eq_some_iff.1 h
    exact limitStep_callStep h
  cases act with
  | begin kind hasCancel now outcome => cases hact
  | host a =>
    obtain ⟨host, host', -, -, rfl⟩ := host_step opts h
    exact .same rfl
  | _ => exact hcall h

theorem books_start (e : RemoteEngine) (outcome : StartOutcome) : (start opts e outcome).1.restarts = e.restarts ∧
    (start opts e outcome).1.skipRestartCount = e.skipRestartCount := by
  cases outcome <;> exact ⟨rfl, rfl⟩

theorem books_begin (opts : RemoteOptions) (e : RemoteEngine) (kind : CallKind) (hasCancel : Bool) (now : ℤ)
    (outcome : StartOutcome) :
    (begin opts e kind hasCancel now outcome).restarts = (ensureRunning opts e now outcome).1.restarts ∧
    (begin opts e kind hasCancel now outcome).skipRestartCount =
      (ensureRunning opts e now outcome).1.skipRestartCount := by
  unfold begin
  dsimp only
  split
  · have hsame := limits_acquireSlot (ensureRunning opts e now outcome).1
      (newCall opts (ensureRunning opts e now outcome).1 kind (hasCancel && kind == .run) now)
    exact ⟨congrArg (fun l => l.1) hsame, congrArg (fun l => l.2.1) hsame⟩
  · exact ⟨rfl, rfl⟩

theorem begin_up (opts : RemoteOptions) (kind : CallKind) (hasCancel : Bool) (now : ℤ)
    (outcome : StartOutcome) (hup : e.child.isSome = true) :
    (begin opts e kind hasCancel now outcome).restarts = e.restarts ∧
    (begin opts e kind hasCancel now outcome).skipRestartCount = e.skipRestartCount := by
  obtain ⟨hr, hs⟩ := books_begin opts e kind hasCancel now outcome
  rw [hr, hs]
  unfold ensureRunning
  rw [if_pos hup]
  exact ⟨rfl, rfl⟩

theorem begin_excused (opts : RemoteOptions) (kind : CallKind) (hasCancel : Bool) (now : ℤ)
    (outcome : StartOutcome) (hdown : e.child = none) (hskip : e.skipRestartCount = true) :
    (begin opts e kind hasCancel now outcome).restarts = recent 60000 now e.restarts ∧
    (begin opts e kind hasCancel now outcome).skipRestartCount = false := by
  obtain ⟨hr, hs⟩ := books_begin opts e kind hasCancel now outcome
  rw [hr, hs]
  unfold ensureRunning
  rw [hdown, if_pos hskip]
  exact books_start _ outcome

theorem begin_counted (kind : CallKind) (hasCancel : Bool) (now : ℤ) (outcome : StartOutcome)
    (hdown : e.child = none) (hskip : e.skipRestartCount = false)
    (hroom : (recent 60000 now e.restarts).length < opts.maxRestarts) :
    (begin opts e kind hasCancel now outcome).restarts = recent 60000 now e.restarts ++ [now] ∧
    (begin opts e kind hasCancel now outcome).skipRestartCount = false := by
  obtain ⟨hr, hs⟩ := books_begin opts e kind hasCancel now outcome
  rw [hr, hs]
  unfold ensureRunning
  unfold recent at hroom
  rw [hdown, if_neg nofun, hskip, if_neg nofun, if_neg (Nat.not_le.2 hroom)]
  exact books_start _ outcome

theorem begin_refused (kind : CallKind) (hasCancel : Bool) (now : ℤ) (outcome : StartOutcome)
    (hdown : e.child = none) (hskip : e.skipRestartCount = false)
    (hfull : opts.maxRestarts ≤ (recent 60000 now e.restarts).length) :
    begin opts e kind hasCancel now outcome = { e with restarts := recent 60000 now e.restarts } := by
  have hensure : ensureRunning opts e now outcome = ({ e with restarts := recent 60000 now e.restarts }, false) := by
    unfold ensureRunning
    unfold recent at hfull ⊢
    rw [hdown, if_neg nofun, hskip, if_neg nofun, if_pos hfull]
  unfold begin
  rw [hensure]
  rfl

theorem LimitStep.restarts_eq (h : LimitStep opts e e') : e'.restarts = e.restarts := by
  cases h with
  | same h => exact congrArg (fun l => l.1) h
  | down hr => exact hr
  | cancel hr => exact hr

theorem LimitStep.otherAttempts_eq (h : LimitStep opts e e') (hact : act.startTime = none)
    (history : List RestartEvent) : otherAttempts e.skipRestartCount (restartEvents opts e act e' ++ history) =
      otherAttempts e'.skipRestartCount history := by
  have hevents : restartEvents opts e act e' =
      if e'.generation ≠ e.generation ∧ e'.lastFailure = cancelIgnored opts then [.cancelKill] else [] := by
    cases act with
    | begin => cases hact
    | _ => rfl
  rw [hevents]
  cases h with
  | same h =>
    have hgeneration : e'.generation = e.generation := congrArg (fun l => l.2.2.1) h
    have hskip : e'.skipRestartCount = e.skipRestartCount := congrArg (fun l => l.2.1) h
    rw [if_neg fun hkill => hkill.1 hgeneration, hskip]
    rfl
  | down hr hs hf =>
    rw [if_neg fun hkill => hf hkill.2, hs]
    rfl
  | cancel hr hs hg hf =>
    rw [if_pos ⟨hg, hf⟩, hs]
    rfl

/- What the limiter kept decides as all of `past` would, at every time that is to come. -/
def Remembers (e : RemoteEngine) (past times : List ℤ) : Prop :=
  ∀ now ∈ times, recent 60000 now e.restarts = recent 60000 now past

theorem remembers_pruned (hclock : ∀ t ∈ times, now ≤ t) (h : Remembers e past (now :: times))
    (hr : e'.restarts = recent 60000 now e.restarts) : Remembers e' past times := by
  intro t ht
  rw [hr, recent_recent (hclock t ht)]
  exact h t (mem_cons_of_mem now ht)

theorem remembers_pushed (hclock : ∀ t ∈ times, now ≤ t) (h : Remembers e past (now :: times))
    (hr : e'.restarts = recent 60000 now e.restarts ++ [now]) : Remembers e' (past ++ [now]) times := by
  intro t ht
  rw [hr, recent_append, recent_append, recent_recent (hclock t ht), h t (mem_cons_of_mem now ht)]

theorem begin_otherAttempts (kind : CallKind) (hasCancel : Bool) (outcome : StartOutcome)
    (hpast : Limited 60000 opts.maxRestarts past) (hclock : ∀ t ∈ times, now ≤ t)
    (hrem : Remembers e past (now :: times)) : ∃ past', Limited 60000 opts.maxRestarts past' ∧
      Remembers (begin opts e kind hasCancel now outcome) past' times ∧
      ∀ history, past ++ otherAttempts e.skipRestartCount
        ((if reachesStart opts e now then [.attempt now] else []) ++ history) =
          past' ++ otherAttempts (begin opts e kind hasCancel now outcome).skipRestartCount history := by
  unfold reachesStart
  cases hchild : e.child with
  | some host =>
    have hup : e.child.isSome = true := by rw [hchild]; rfl
    obtain ⟨hr, hs⟩ := begin_up opts kind hasCancel now outcome hup
    refine ⟨past, hpast, fun t ht => ?_, fun history => ?_⟩
    · rw [hr]
      exact hrem t (mem_cons_of_mem now ht)
    · rw [hs]
      rfl
  | none =>
    cases hskip : e.skipRestartCount with
    | true =>
      obtain ⟨hr, hs⟩ := begin_excused opts kind hasCancel now outcome hchild hskip
      refine ⟨past, hpast, remembers_pruned hclock hrem hr, fun history => ?_⟩
      rw [hs]
      rfl
    | false =>
      by_cases hroom : (recent 60000 now e.restarts).length < opts.maxRestarts
      · obtain ⟨hr, hs⟩ := begin_counted kind hasCancel now outcome hchild hskip hroom
        refine ⟨past ++ [now], hpast.push ?_, remembers_pushed hclock hrem hr, fun history => ?_⟩
        · rw [← hrem now mem_cons_self]
          exact hroom
        · rw [hs, append_assoc, if_pos (by simpa using hroom)]
          rfl
      · have heq := begin_refused kind hasCancel now outcome hchild hskip (Nat.not_lt.1 hroom)
        refine ⟨past, hpast, remembers_pruned hclock hrem ?_, fun history => ?_⟩
        · rw [heq]
        · rw [heq, if_neg (by simpa using hroom)]
          rw [hskip]
          rfl

theorem limited_otherAttempts (opts : RemoteOptions) (acts : List RemoteAct) (e : RemoteEngine) (past : List ℤ)
    (hpast : Limited 60000 opts.maxRestarts past) (hrem : Remembers e past (acts.filterMap RemoteAct.startTime))
    (hclock : (acts.filterMap RemoteAct.startTime).Pairwise (· ≤ ·)) :
    Limited 60000 opts.maxRestarts (past ++ otherAttempts e.skipRestartCount (restartHistory opts e acts)) := by
  induction acts generalizing e past with
  | nil => rwa [restartHistory, otherAttempts, append_nil]
  | cons act acts ih =>
    unfold restartHistory
    cases hstep : e.step opts act with
    | none => rwa [otherAttempts, append_nil]
    | some e' =>
      cases hact : act.startTime with
      | none =>
        rw [filterMap_cons_none hact] at hrem hclock
        have hlimit := limitStep_step hact hstep
        rw [hlimit.otherAttempts_eq hact]
        refine ih e' past hpast (fun now hnow => ?_) hclock
        rw [hlimit.restarts_eq]
        exact hrem now hnow
      | some now =>
        rw [filterMap_cons_some hact] at hrem hclock
        rw [pairwise_cons] at hclock
        cases act with
        | begin kind hasCancel t outcome =>
          cases hact
          cases hstep
          obtain ⟨past', hpast', hrem', heq⟩ := begin_otherAttempts kind hasCancel outcome hpast hclock.1 hrem
          change Limited _ _ (past ++ otherAttempts _ ((if reachesStart opts e now then [.attempt now] else []) ++ _))
          rw [heq]
          exact ih _ past' hpast' hrem' hclock.2
        | _ => cases hact

/-- In every run whose clock does not go back, every closed window of 60 seconds has at most
`max_restarts` restarts besides those that replace a host killed for an ignored cancel; and a call
refused for the limit starts no host. -/
theorem restarts_within_limit (opts : RemoteOptions) (acts : List RemoteAct)
    (hclock : (acts.filterMap RemoteAct.startTime).Pairwise (· ≤ ·)) :
    (∀ start : ℤ, (attempts (restartHistory opts init acts)).countP (fun t => start ≤ t ∧ t ≤ start + 60000) ≤
      opts.maxRestarts +
        (replacements false (restartHistory opts init acts)).countP (fun t => start ≤ t ∧ t ≤ start + 60000)) ∧
    ∀ (e : RemoteEngine) (kind : CallKind) (hasCancel : Bool) (now : ℤ) (outcome : StartOutcome),
      run (step opts) init acts = some e → e.child = none → reachesStart opts e now = false →
      (begin opts e kind hasCancel now outcome).child = none ∧
      (begin opts e kind hasCancel now outcome).starts = e.starts ∧
      (begin opts e kind hasCancel now outcome).generation = e.generation := by
  refine ⟨fun start => ?_, fun e kind hasCancel now outcome _ hdown hrefused => ?_⟩
  · have hlimited := limited_otherAttempts opts acts init [] (limited_nil _ _) (fun _ _ => rfl) hclock start
    have hsplit := countP_attempts (fun t => start ≤ t ∧ t ≤ start + 60000) (restartHistory opts init acts) false
    change (otherAttempts false _).countP _ ≤ _ at hlimited
    omega
  · unfold reachesStart at hrefused
    rw [hdown, Option.isNone_none, Bool.true_and, Bool.or_eq_false_iff, decide_eq_false_iff_not, Nat.not_lt]
      at hrefused
    rw [begin_refused kind hasCancel now outcome hdown hrefused.1 hrefused.2]
    exact ⟨hdown, rfl, rfl⟩

def ignoredCancel : List RemoteAct :=
  [.begin .run true 0 .started, .write 0, .wait 0 ⟨0, fun _ => true⟩, .read 0 (.data 0) ⟨1000, fun _ => true⟩,
    .release 0, .begin .run false 2000 .started]

theorem restarts_within_limit_ignoredCancel : attempts (restartHistory remoteSample init ignoredCancel) = [2000] ∧
    replacements false (restartHistory remoteSample init ignoredCancel) = [2000] ∧
    (attempts (restartHistory remoteSample init ignoredCancel)).countP (fun t => 0 ≤ t ∧ t ≤ 0 + 60000) ≤
      remoteSample.maxRestarts + (replacements false (restartHistory remoteSample init ignoredCancel)).countP
        (fun t => 0 ≤ t ∧ t ≤ 0 + 60000) := by
  have hhistory : restartHistory remoteSample init ignoredCancel = [.cancelKill, .attempt 2000] := by decide +kernel
  refine ⟨by rw [hhistory]; rfl, by rw [hhistory]; rfl, ?_⟩
  exact (restarts_within_limit remoteSample ignoredCancel (by decide)).1 0

end RemoteEngine

end AgentCpp
