import AgentCpp.Engines.Host

/-!
# Remote engine (`engine_remote.cpp`)

Calls share one host through pooled slots; one waiting caller at a time reads the pipe for all of
them. An action takes a call from one point where it does not hold the mutex to the next.

The clock, the cancel flags and the outcome of a host start, of encoding and of decoding are
parameters of the actions. The startup handshake is one section.
-/

namespace AgentCpp
open Lib

/- A mapped response segment; `key` is the identity of the mapping. -/
structure Mapping where
  key : ℕ
  name : SegmentName
  size : ℕ
  deriving DecidableEq, Repr

inductive CallKind where
  | run
  | countTokens
  | resetCache
  deriving DecidableEq, Repr

def CallKind.msg : CallKind → CoreMsg
  | .run => .run
  | .countTokens => .countTokens
  | .resetCache => .resetCache

/- Where the call that owns a slot is while it does not hold the mutex. -/
inductive CallPhase where
  | free
  | encoding
  | sent
  | waiting
  | processing (work : List HostFrame)
  | reading
  | failing (error : Error)
  | answered (final : HostFrame)
  | decoding
  | holding (result : Result Unit)

def CallPhase.active : CallPhase → Bool
  | .free => false
  | _ => true

/- `cancelDeadline` is set when the cancel has been sent; `failed` holds the error of a call
   whose host went down. -/
structure RemoteSlot where
  id : ℕ := 0
  generation : ℕ := 0
  phase : CallPhase := .free
  kind : CallKind := .run
  hasCancel : Bool := false
  deadline : Option ℤ := none
  cancelDeadline : Option ℤ := none
  inbox : List HostFrame := []
  finalQueued : Bool := false
  failed : Option Error := none
  responseShm : Option Mapping := none

structure RemoteOptions where
  label : Bytes
  name : Bytes
  timeoutMs : ℤ
  cancelGraceMs : ℤ
  maxRestarts : ℕ

/- `written` logs the frames written to the hosts, with the generation of the host; the
   code does not keep it. -/
structure RemoteEngine where
  child : Option EngineHost := none
  generation : ℕ := 0
  readerActive : Bool := false
  slots : List RemoteSlot := []
  nextId : ℕ := 1
  inFlight : ℕ := 0
  starts : ℕ := 0
  restarts : List ℤ := []
  skipRestartCount : Bool := false
  lastFailure : Bytes := []
  segments : List Mapping := []
  nextKey : ℕ := 0
  written : List (ℕ × CoreFrame) := []

namespace RemoteEngine

def setSlot (e : RemoteEngine) (k : ℕ) (s : RemoteSlot) : RemoteEngine := { e with slots := e.slots.set k s }

def reap (e : RemoteEngine) : RemoteEngine :=
  { e with child := none, generation := e.generation + 1, segments := [] }

/- The calls that go down with the current host. -/
def inFlightOn (e : RemoteEngine) (s : RemoteSlot) : Bool :=
  s.phase.active && s.generation == e.generation && !s.finalQueued && s.failed.isNone

/- Calls whose final frame has arrived keep it. -/
def failAll (e : RemoteEngine) (error : ℕ → Error) : RemoteEngine :=
  { e with slots := e.slots.mapIdx fun k s => if e.inFlightOn s then { s with failed := some (error k) } else s }

/- `how` is the exit description and `tail` the excerpt of stderr. -/
def hostDied (opts : RemoteOptions) (e : RemoteEngine) (during how tail : Bytes) : RemoteEngine :=
  let msg := lit "Engine host for '" ++ opts.label ++ lit "' died during " ++ during ++ lit ": " ++ how ++ lit "." ++
    (if 1 < e.inFlight then lit " Every request in flight on it failed." else []) ++
    (if tail = [] then [] else lit " Last output: " ++ tail)
  { (e.failAll fun _ => ⟨.engineCrashed, msg⟩).reap with lastFailure := msg }

def killHost (opts : RemoteOptions) (e : RemoteEngine) (code : ErrorCode) (msg : Bytes) (trigger : Option ℕ) :
    RemoteEngine :=
  let others := if 1 < e.inFlight then
    lit "Engine host for '" ++ opts.label ++ lit "' was killed while this request was in flight: " ++ msg else msg
  { (e.failAll fun k => if trigger = some k then ⟨code, msg⟩ else ⟨.engineCrashed, others⟩).reap with
    lastFailure := msg }

def writeFrame (e : RemoteEngine) (f : CoreFrame) (generation : ℕ) : RemoteEngine :=
  match e.child with
  | none => e
  | some h =>
    if generation = e.generation ∧ h.alive then
      { e with child := some { h with input := h.input ++ [f] }, written := e.written ++ [(generation, f)] }
    else e

def sendControl (e : RemoteEngine) (msg : CoreMsg) (id : ℕ) : RemoteEngine := e.writeFrame ⟨msg, id⟩ e.generation

def forgetSegment (e : RemoteEngine) (name : SegmentName) : RemoteEngine :=
  { e with segments := e.segments.filter (·.name ≠ name) }

def forgetRetired (e : RemoteEngine) (retire : Option SegmentName) : RemoteEngine :=
  match retire with
  | none => e
  | some name => e.forgetSegment name

/- A Response nobody waits for any more: its segment goes back to the host. -/
def dropFrame (e : RemoteEngine) (f : HostFrame) : RemoteEngine :=
  match f.msg with
  | .response shm =>
    let e := e.forgetRetired shm.retire
    if shm.segment.isSome then e.sendControl .release f.id else e
  | _ => e

/- The mapping of a host's response segment, made on first use. -/
def responseSegment (e : RemoteEngine) (name : SegmentName) (size : ℕ) (opened : Bool) :
    RemoteEngine × Option Mapping :=
  match e.segments.find? (·.name = name) with
  | some m => (e, if size ≤ m.size then some m else none)
  | none =>
    if opened then
      let m : Mapping := ⟨e.nextKey, name, size⟩
      ({ e with segments := e.segments ++ [m], nextKey := e.nextKey + 1 }, some m)
    else (e, none)

def findSlot (e : RemoteEngine) (id : ℕ) : Option ℕ := e.slots.findIdx? fun s => s.phase.active && s.id == id

def deliver (f : HostFrame) (s : RemoteSlot) : RemoteSlot :=
  { s with inbox := s.inbox ++ [f], finalQueued := s.finalQueued || f.msg.isFinal }

def dispatchFrame (e : RemoteEngine) (f : HostFrame) : RemoteEngine :=
  match (e.findSlot f.id).bind fun k => e.slots[k]?.map fun s => (k, s) with
  | some (k, s) =>
    if s.generation = e.generation ∧ s.failed = none then e.setSlot k (deliver f s) else e.dropFrame f
  | none => e.dropFrame f

/- `dispatch` of the next `count` frames the host has sent. -/
def dispatch (e : RemoteEngine) : ℕ → RemoteEngine
  | 0 => e
  | count + 1 =>
    match e.child with
    | none => e
    | some h =>
      match h.output with
      | [] => e
      | f :: rest => ({ e with child := some { h with output := rest } }.dispatchFrame f).dispatch count

/- What a caller that holds the mutex sees of the world outside. -/
structure Glance where
  now : ℤ
  cancelled : ℕ → Bool

def cancelIgnored (opts : RemoteOptions) : Bytes :=
  lit "Engine '" ++ opts.label ++ lit "' did not stop within " ++ decimalInt opts.cancelGraceMs ++
    lit " ms of the cancel request; its host was killed."

def timedOut (opts : RemoteOptions) : Bytes :=
  lit "Engine '" ++ opts.label ++ lit "' did not answer within " ++ decimalInt opts.timeoutMs ++
    lit " ms; its host was killed by the watchdog."

/- Sends the cancel of a call whose flag is set. -/
def sendCancel (opts : RemoteOptions) (e : RemoteEngine) (k : ℕ) (s : RemoteSlot) (g : Glance) : RemoteEngine :=
  if s.hasCancel ∧ s.cancelDeadline = none ∧ g.cancelled k then
    (e.sendControl .cancel s.id).setSlot k
      { s with cancelDeadline := some (g.now + if 0 < opts.cancelGraceMs then opts.cancelGraceMs else 0) }
  else e

def expired (now : ℤ) (deadline : Option ℤ) : Bool := deadline.any fun d => d ≤ now

/- A deliberate kill after a cancel does not count as a restart. -/
def skipCount (e : RemoteEngine) : RemoteEngine := { e with skipRestartCount := true }

/- One call in `service_timers`; the flag says that the host was killed. -/
def serviceSlot (opts : RemoteOptions) (e : RemoteEngine) (k : ℕ) (g : Glance) : RemoteEngine × Bool :=
  match e.slots[k]? with
  | none => (e, false)
  | some s =>
    if e.inFlightOn s then
      let e := sendCancel opts e k s g
      match e.slots[k]? with
      | none => (e, false)
      | some s =>
        if expired g.now s.cancelDeadline then
          (killHost opts e.skipCount .cancelled (cancelIgnored opts) (some k), true)
        else if expired g.now s.deadline then
          (killHost opts e .engineCrashed (timedOut opts) (some k), true)
        else (e, false)
    else (e, false)

def serviceFrom (opts : RemoteOptions) (g : Glance) (e : RemoteEngine) : List ℕ → RemoteEngine × Bool
  | [] => (e, false)
  | k :: ks =>
    let r := serviceSlot opts e k g
    if r.2 then r else serviceFrom opts g r.1 ks

def serviceTimers (opts : RemoteOptions) (e : RemoteEngine) (g : Glance) : RemoteEngine × Bool :=
  serviceFrom opts g e (List.range e.slots.length)

def setPhase (e : RemoteEngine) (k : ℕ) (phase : CallPhase) : RemoteEngine :=
  match e.slots[k]? with
  | none => e
  | some s => e.setSlot k { s with phase := phase }

def takeInbox (e : RemoteEngine) (k : ℕ) (s : RemoteSlot) : RemoteEngine :=
  e.setSlot k { s with phase := .processing s.inbox, inbox := [] }

/- The caller stops reading and looks at its own call again. -/
def leaveReader (e : RemoteEngine) (k : ℕ) : RemoteEngine :=
  let e := { e with readerActive := false }
  match e.slots[k]? with
  | none => e
  | some s =>
    if s.inbox ≠ [] then e.takeInbox k s
    else match s.failed with
      | some error => e.setSlot k { s with phase := .failing error }
      | none => e.setSlot k { s with phase := .waiting }

/- As the reader, before the next read. -/
def readerRound (opts : RemoteOptions) (e : RemoteEngine) (k : ℕ) (g : Glance) : RemoteEngine :=
  let r := serviceTimers opts e g
  if r.2 then r.1.leaveReader k else r.1.setPhase k .reading

/- One round of the loop of `wait`. -/
def waitRound (opts : RemoteOptions) (e : RemoteEngine) (k : ℕ) (s : RemoteSlot) (g : Glance) : RemoteEngine :=
  if s.inbox ≠ [] then e.takeInbox k s
  else match s.failed with
    | some error => e.setSlot k { s with phase := .failing error }
    | none =>
      if e.readerActive then e.setSlot k { s with phase := .waiting }
      else readerRound opts { e with readerActive := true } k g

inductive ReadResult where
  | data (count : ℕ)
  | malformed (count : ℕ)
  | closed (how tail : Bytes)

def during : CallKind → Bytes
  | .run => lit "run"
  | .countTokens => lit "count_tokens"
  | .resetCache => lit "reset_cache"

/- The reader after a read. -/
def afterRead (opts : RemoteOptions) (e : RemoteEngine) (k : ℕ) (s : RemoteSlot) (result : ReadResult)
    (g : Glance) : RemoteEngine :=
  match result with
  | .closed how tail => (hostDied opts e (during s.kind) how tail).leaveReader k
  | .malformed count =>
    (killHost opts (e.dispatch count) .engineCrashed
      (lit "Engine host for '" ++ opts.label ++ lit "' sent a malformed frame.") none).leaveReader k
  | .data count =>
    let e := e.dispatch count
    match e.slots[k]? with
    | none => e
    | some s =>
      if s.inbox = [] ∧ s.failed = none then readerRound opts e k g else e.leaveReader k

/- `process`: the callbacks run outside the mutex and the first final frame ends the wait. -/
def afterProcess (opts : RemoteOptions) (e : RemoteEngine) (k : ℕ) (s : RemoteSlot) (work : List HostFrame)
    (g : Glance) : RemoteEngine :=
  match work.find? (·.msg.isFinal) with
  | some final => e.setSlot k { s with phase := .answered final }
  | none => waitRound opts e k s g

inductive StartOutcome where
  | started
  | spawnFailed
  | failed (code : ErrorCode) (message : Bytes)

def spawn (e : RemoteEngine) : RemoteEngine :=
  { e with child := some { pid := e.generation }, starts := e.starts + 1 }

def start (opts : RemoteOptions) (e : RemoteEngine) (outcome : StartOutcome) : RemoteEngine × Bool :=
  match outcome with
  | .started => (e.spawn, true)
  | .spawnFailed => (e, false)
  | .failed code message => (killHost opts e.spawn code message none, false)

def ensureRunning (opts : RemoteOptions) (e : RemoteEngine) (now : ℤ) (outcome : StartOutcome) :
    RemoteEngine × Bool :=
  if e.child.isSome then (e, true)
  else
    let recent := e.restarts.filter fun t => now - t ≤ 60000
    if e.skipRestartCount then start opts { e with restarts := recent, skipRestartCount := false } outcome
    else if opts.maxRestarts ≤ recent.length then ({ e with restarts := recent }, false)
    else start opts { e with restarts := recent ++ [now] } outcome

def newCall (opts : RemoteOptions) (e : RemoteEngine) (kind : CallKind) (hasCancel : Bool) (now : ℤ) :
    RemoteSlot :=
  { id := e.nextId
    generation := e.generation
    phase := .encoding
    kind := kind
    hasCancel := hasCancel
    deadline := if 0 < opts.timeoutMs then some (now + opts.timeoutMs) else none }

def acquireSlot (e : RemoteEngine) (s : RemoteSlot) : RemoteEngine :=
  let e := { e with nextId := e.nextId + 1, inFlight := e.inFlight + 1 }
  match e.slots.findIdx? fun s => !s.phase.active with
  | some k => e.setSlot k s
  | none => { e with slots := e.slots ++ [s] }

/- The first section of `exchange`. Control calls have no cancel flag. -/
def begin (opts : RemoteOptions) (e : RemoteEngine) (kind : CallKind) (hasCancel : Bool) (now : ℤ)
    (outcome : StartOutcome) : RemoteEngine :=
  let r := ensureRunning opts e now outcome
  if r.2 then r.1.acquireSlot (newCall opts r.1 kind (hasCancel && kind == .run) now) else r.1

/- The host of the call may reuse the segment of its response. -/
def returnSegment (e : RemoteEngine) (s : RemoteSlot) : RemoteEngine :=
  if e.child.isSome ∧ s.generation = e.generation then e.sendControl .release s.id else e

def releaseSlot (e : RemoteEngine) (k : ℕ) (s : RemoteSlot) : RemoteEngine :=
  let e := if s.responseShm.isSome then e.returnSegment s else e
  { e.setSlot k { s with phase := .free, hasCancel := false, inbox := [], responseShm := none } with
    inFlight := e.inFlight - 1 }

def tooLarge : Error := ⟨.invalidConfig, lit "Request exceeds the 1 GiB engine IPC frame limit."⟩

/- `malformed` of `remote_run`: only the host that sent it is killed, and only if nobody is
   reading its pipe. -/
def rejectResponse (opts : RemoteOptions) (e : RemoteEngine) (k : ℕ) (what : Bytes) : RemoteEngine :=
  match e.slots[k]? with
  | none => e
  | some s =>
    let e := if e.child.isSome ∧ s.generation = e.generation ∧ e.readerActive = false
      then killHost opts e .engineCrashed what none else e
    e.setPhase k (.holding (fail .engineCrashed what))

def unexpectedMessage (opts : RemoteOptions) (type : ℕ) : Bytes :=
  lit "Engine host for '" ++ opts.name ++ lit "' sent an unexpected message (" ++ decimal type ++ lit ") during run."

def malformedResponse (opts : RemoteOptions) : Bytes :=
  lit "Engine host for '" ++ opts.name ++ lit "' sent a malformed response."

def errorResult (opts : RemoteOptions) (status : ℤ) (message : Bytes) : Result Unit :=
  fail (if status = EngineHost.errCancelled then .cancelled else .decodeFailed)
    (lit "Engine '" ++ opts.name ++ lit "': " ++ if message = [] then lit "run failed" else message)

/- Maps the segment of the response. -/
def mapResponse (opts : RemoteOptions) (e : RemoteEngine) (k : ℕ) (s : RemoteSlot) (shm : ShmHeader)
    (opened : Bool) : RemoteEngine :=
  let e := e.forgetRetired shm.retire
  match shm.segment with
  | none => e.setSlot k { s with phase := .decoding }
  | some (name, size) =>
    let r := e.responseSegment name size opened
    match r.2 with
    | some m => r.1.setSlot k { s with responseShm := some m, phase := .decoding }
    | none =>
      (r.1.returnSegment s).setSlot k { s with phase := .holding (fail .decodeFailed
        (lit "Cannot map the shared memory of engine '" ++ opts.name ++ lit "''s response.")) }

/- The final frame of a run. -/
def answer (opts : RemoteOptions) (e : RemoteEngine) (k : ℕ) (s : RemoteSlot) (final : HostFrame)
    (opened : Bool) : RemoteEngine :=
  match final.msg with
  | .error status message => e.setSlot k { s with phase := .holding (errorResult opts status message) }
  | .response shm => mapResponse opts e k s shm opened
  | .count _ => rejectResponse opts e k (unexpectedMessage opts 106)
  | .done => rejectResponse opts e k (unexpectedMessage opts 107)
  | .chunk => rejectResponse opts e k (unexpectedMessage opts 103)
  | .progress => rejectResponse opts e k (unexpectedMessage opts 104)

inductive DecodeOutcome where
  | ok
  | arenaExhausted
  | malformed

def decoded (opts : RemoteOptions) (e : RemoteEngine) (k : ℕ) (outcome : DecodeOutcome) : RemoteEngine :=
  match outcome with
  | .ok => e.setPhase k (.holding (.ok ()))
  | .arenaExhausted => e.setPhase k (.holding (fail .decodeFailed
      (lit "Arena capacity exhausted. Increase Config::arena_capacity.")))
  | .malformed => rejectResponse opts e k (malformedResponse opts)

end RemoteEngine

inductive RemoteAct where
  | begin (kind : CallKind) (hasCancel : Bool) (now : ℤ) (outcome : RemoteEngine.StartOutcome)
  | encodeFailed (k : ℕ)
  | write (k : ℕ)
  | wait (k : ℕ) (g : RemoteEngine.Glance)
  | processed (k : ℕ) (g : RemoteEngine.Glance)
  | read (k : ℕ) (result : RemoteEngine.ReadResult) (g : RemoteEngine.Glance)
  | answer (k : ℕ) (opened : Bool)
  | decoded (k : ℕ) (outcome : RemoteEngine.DecodeOutcome)
  | release (k : ℕ)
  | host (act : HostAct)

namespace RemoteEngine

/- The section a call in the given phase may run. -/
def callStep (opts : RemoteOptions) (e : RemoteEngine) (s : RemoteSlot) : RemoteAct → Option RemoteEngine
  | .encodeFailed k =>
    match s.phase with
    | .encoding => some (e.setSlot k { s with phase := .failing tooLarge })
    | _ => none
  | .write k =>
    match s.phase with
    | .encoding => some ((e.writeFrame ⟨s.kind.msg, s.id⟩ s.generation).setSlot k { s with phase := .sent })
    | _ => none
  | .wait k g =>
    match s.phase with
    | .sent | .waiting => some (waitRound opts e k s g)
    | _ => none
  | .processed k g =>
    match s.phase with
    | .processing work => some (afterProcess opts e k s work g)
    | _ => none
  | .read k result g =>
    match s.phase with
    | .reading => some (afterRead opts e k s result g)
    | _ => none
  | .answer k opened =>
    match s.phase, s.kind with
    | .answered final, .run => some (answer opts e k s final opened)
    | _, _ => none
  | .decoded k outcome =>
    match s.phase with
    | .decoding => some (decoded opts e k outcome)
    | _ => none
  | .release k =>
    match s.phase with
    | .failing _ | .holding _ => some (e.releaseSlot k s)
    | .answered _ => if s.kind = .run then none else some (e.releaseSlot k s)
    | _ => none
  | _ => none

end RemoteEngine

def RemoteAct.slot : RemoteAct → Option ℕ
  | .encodeFailed k | .write k | .wait k _ | .processed k _ | .read k _ _ | .answer k _ | .decoded k _
  | .release k => some k
  | _ => none

namespace RemoteEngine

def step (opts : RemoteOptions) (e : RemoteEngine) (act : RemoteAct) : Option RemoteEngine :=
  match act with
  | .begin kind hasCancel now outcome => some (begin opts e kind hasCancel now outcome)
  | .host a => e.child.bind fun h => (h.step a).map fun h => { e with child := some h }
  | act => act.slot.bind fun k => e.slots[k]?.bind fun s => e.callStep opts s act

end RemoteEngine

end AgentCpp
