import AgentCpp.Core.Types
import AgentCpp.Lib.Machine

/-!
# Engine host (`engine_host.cpp`, `engine_ipc.hpp`)

A reader thread takes frames off its input in order, workers execute the runs, and large responses
leave in shared-memory segments that the host reuses once the core has released them. What a run
answers and whether a segment can be created are parameters of the actions.
-/

namespace AgentCpp
open Lib

/- `acpp-h<pid>-<seq>` -/
structure SegmentName where
  host : ℕ
  seq : ℕ
  deriving DecidableEq, Repr

inductive CoreMsg where
  | run
  | cancel
  | countTokens
  | resetCache
  | release
  deriving DecidableEq, Repr

structure CoreFrame where
  msg : CoreMsg
  id : ℕ
  deriving DecidableEq, Repr

/- The head of a Response: the segment its payloads are in and a segment the core should
   unmap. -/
structure ShmHeader where
  segment : Option (SegmentName × ℕ) := none
  retire : Option SegmentName := none
  deriving DecidableEq, Repr

inductive HostMsg where
  | error (status : ℤ) (message : Bytes)
  | chunk
  | progress
  | response (shm : ShmHeader)
  | count (n : ℤ)
  | done
  deriving DecidableEq, Repr

def HostMsg.isFinal : HostMsg → Bool
  | .chunk | .progress => false
  | _ => true

structure HostFrame where
  id : ℕ
  msg : HostMsg
  deriving DecidableEq, Repr

/- `answer` is set once the response has been placed. -/
structure HostJob where
  id : ℕ
  cancel : Bool := false
  answer : Option ShmHeader := none
  deriving DecidableEq, Repr

/- `busyId` is the request whose Response uses the segment, until its Release. -/
structure ResponseSegment where
  name : SegmentName
  size : ℕ
  busyId : Option ℕ := none
  deriving DecidableEq, Repr

/- `input` and `output` are the pipes. `finished` lists the runs that are over and `stray` the
cancels that met no run; the code has neither. -/
structure EngineHost where
  pid : ℕ
  alive : Bool := true
  input : List CoreFrame := []
  output : List HostFrame := []
  queue : List HostJob := []
  running : List HostJob := []
  control : List CoreFrame := []
  segments : List ResponseSegment := []
  nextSeq : ℕ := 0
  finished : List ℕ := []
  stray : List ℕ := []
  deriving DecidableEq, Repr

namespace EngineHost

def send (h : EngineHost) (id : ℕ) (msg : HostMsg) : EngineHost := { h with output := h.output ++ [⟨id, msg⟩] }

def setCancel (id : ℕ) (job : HostJob) : HostJob := if job.id = id then { job with cancel := true } else job

def knows (h : EngineHost) (id : ℕ) : Bool :=
  (h.queue ++ h.running).any (·.id == id) || h.finished.contains id

def releaseBusy (id : ℕ) (s : ResponseSegment) : ResponseSegment :=
  if s.busyId = some id then { s with busyId := none } else s

/- One frame of `reader_main`. -/
def take (h : EngineHost) (f : CoreFrame) : EngineHost :=
  match f.msg with
  | .cancel =>
    { h with
      running := h.running.map (setCancel f.id)
      queue := h.queue.map (setCancel f.id)
      stray := if h.knows f.id then h.stray else h.stray ++ [f.id] }
  | .release => { h with segments := h.segments.map (releaseBusy f.id) }
  | .run => { h with queue := h.queue ++ [{ id := f.id }] }
  | .countTokens | .resetCache => { h with control := h.control ++ [f] }

def read (h : EngineHost) : Option EngineHost :=
  match h.input with
  | [] => none
  | f :: rest => some ({ h with input := rest }.take f)

def start (h : EngineHost) : Option EngineHost :=
  match h.queue with
  | [] => none
  | job :: rest => some { h with queue := rest, running := h.running ++ [job] }

/- A chunk or progress callback of a run. -/
def stream (h : EngineHost) (j : ℕ) (progress : Bool) : Option EngineHost :=
  h.running[j]?.map fun job => h.send job.id (if progress then .progress else .chunk)

def better (bytes : ℕ) (best : Option ResponseSegment) (s : ResponseSegment) : Option ResponseSegment :=
  if s.busyId = none ∧ bytes ≤ s.size ∧ (∀ b ∈ best, s.size < b.size) then some s else best

def bestFit (segments : List ResponseSegment) (bytes : ℕ) : Option ResponseSegment :=
  segments.foldl (better bytes) none

def grain : ℕ := 2 ^ 20

def markBusy (id : ℕ) (name : SegmentName) (s : ResponseSegment) : ResponseSegment :=
  if s.name = name then { s with busyId := some id } else s

/- Replaces one free segment, which is too small, by a new one. -/
def replaceSegment (h : EngineHost) (id bytes : ℕ) (created : Bool) : EngineHost × ShmHeader :=
  let retire := (h.segments.find? (·.busyId = none)).map (·.name)
  let kept := h.segments.eraseP (·.busyId = none)
  if created then
    let fresh : ResponseSegment :=
      { name := ⟨h.pid, h.nextSeq⟩, size := (bytes + grain - 1) / grain * grain, busyId := some id }
    ({ h with segments := kept ++ [fresh], nextSeq := h.nextSeq + 1 }, ⟨some (fresh.name, fresh.size), retire⟩)
  else ({ h with segments := kept }, ⟨none, retire⟩)

/- Where the large payloads of a response go. -/
def placeResponse (h : EngineHost) (id bytes : ℕ) (created : Bool) : EngineHost × ShmHeader :=
  if bytes = 0 then (h, {})
  else
    match bestFit h.segments bytes with
    | some s => ({ h with segments := h.segments.map (markBusy id s.name) }, ⟨some (s.name, s.size), none⟩)
    | none => h.replaceSegment id bytes created

/- The engine has answered the run. -/
def claim (h : EngineHost) (j bytes : ℕ) (created : Bool) : Option EngineHost :=
  match h.running[j]? with
  | some job =>
    if job.answer = none then
      let placed := h.placeResponse job.id bytes created
      some { placed.1 with running := placed.1.running.set j { job with answer := some placed.2 } }
    else none
  | none => none

/- The run is over: its last frame is written. -/
def finish (h : EngineHost) (j : ℕ) (job : HostJob) (msg : HostMsg) : EngineHost :=
  { h.send job.id msg with running := h.running.eraseIdx j, finished := h.finished ++ [job.id] }

def errDecodeFailed : ℤ := 6

def errCancelled : ℤ := 10

def giveBack (name : Option SegmentName) (s : ResponseSegment) : ResponseSegment :=
  if name = some s.name then { s with busyId := none } else s

/- A response that does not fit a frame gives its segment back. -/
def respond (h : EngineHost) (j : ℕ) (fits : Bool) : Option EngineHost :=
  match h.running[j]? with
  | some job =>
    job.answer.map fun shm =>
      if fits then h.finish j job (.response shm)
      else
        { h with segments := h.segments.map (giveBack (shm.segment.map Prod.fst)) }.finish j job
          (.error errDecodeFailed (lit "agent-engine-host: response exceeds the 1 GiB frame limit"))
  | none => none

/- The run failed before there was a response to place. -/
def failRun (h : EngineHost) (j : ℕ) (status : ℤ) (message : Bytes) : Option EngineHost :=
  match h.running[j]? with
  | some job => if job.answer = none then some (h.finish j job (.error status message)) else none
  | none => none

/- The main thread serves the next control command. -/
def serve (h : EngineHost) (outcome : Result ℤ) (status : ℤ) : Option EngineHost :=
  match h.control with
  | [] => none
  | f :: rest =>
    let msg : HostMsg := match outcome with
      | .error e => .error status e.message
      | .ok n => if f.msg = .countTokens then .count n else .done
    some ({ h with control := rest }.send f.id msg)

end EngineHost

inductive HostAct where
  | read
  | start
  | stream (j : ℕ) (progress : Bool)
  | claim (j bytes : ℕ) (created : Bool)
  | respond (j : ℕ) (fits : Bool)
  | failRun (j : ℕ) (status : ℤ) (message : Bytes)
  | serve (outcome : Result ℤ) (status : ℤ)
  | die

def EngineHost.step (h : EngineHost) (act : HostAct) : Option EngineHost :=
  if h.alive then
    match act with
    | .read => h.read
    | .start => h.start
    | .stream j progress => h.stream j progress
    | .claim j bytes created => h.claim j bytes created
    | .respond j fits => h.respond j fits
    | .failRun j status message => h.failRun j status message
    | .serve outcome status => h.serve outcome status
    | .die => some { h with alive := false }
  else none

/- What a step does, one way for each of its branches. -/
inductive EngineHost.Moves (h : EngineHost) : HostAct → EngineHost → Prop where
  | read {f rest} (hi : h.input = f :: rest) : Moves h .read ({ h with input := rest }.take f)
  | start {job rest} (hq : h.queue = job :: rest) :
      Moves h .start { h with queue := rest, running := h.running ++ [job] }
  | stream {j progress job} (hj : h.running[j]? = some job) :
      Moves h (.stream j progress) (h.send job.id (if progress then .progress else .chunk))
  | claim {j bytes created job placed} (hj : h.running[j]? = some job) (ha : job.answer = none)
      (hplaced : h.placeResponse job.id bytes created = placed) : Moves h (.claim j bytes created)
        { placed.1 with running := placed.1.running.set j { job with answer := some placed.2 } }
  | respond {j job shm} (hj : h.running[j]? = some job) (ha : job.answer = some shm) :
      Moves h (.respond j true) (h.finish j job (.response shm))
  | refuse {j job shm message} (hj : h.running[j]? = some job) (ha : job.answer = some shm) : Moves h (.respond j false)
        ({ h with segments := h.segments.map (giveBack (shm.segment.map Prod.fst)) }.finish j job
          (.error errDecodeFailed message))
  | failRun {j status message job} (hj : h.running[j]? = some job) (ha : job.answer = none) :
      Moves h (.failRun j status message) (h.finish j job (.error status message))
  | serve {outcome status f rest msg} (hc : h.control = f :: rest) (hmsg : ∀ shm, msg ≠ .response shm) :
      Moves h (.serve outcome status) ({ h with control := rest }.send f.id msg)
  | die : Moves h .die { h with alive := false }

theorem EngineHost.step_moves {h h' : EngineHost} {act : HostAct} (hstep : h.step act = some h') :
    h.alive = true ∧ h.Moves act h' := by
  unfold EngineHost.step at hstep
  split at hstep
  swap
  · cases hstep
  next halive =>
  refine ⟨halive, ?_⟩
  cases act with
  | read =>
    simp only [EngineHost.read] at hstep
    split at hstep <;> cases hstep
    next f rest hi => exact .read hi
  | start =>
    simp only [EngineHost.start] at hstep
    split at hstep <;> cases hstep
    next job rest hq => exact .start hq
  | stream j progress =>
    obtain ⟨job, hj, rfl⟩ := Option.map_eq_some_iff.1 hstep
    exact .stream hj
  | claim j bytes created =>
    simp only [EngineHost.claim] at hstep
    split at hstep <;> try cases hstep
    next job hj =>
    split at hstep <;> cases hstep
    next ha => exact .claim hj ha rfl
  | respond j fits =>
    simp only [EngineHost.respond] at hstep
    split at hstep <;> try cases hstep
    next job hj =>
    obtain ⟨shm, ha, rfl⟩ := Option.map_eq_some_iff.1 hstep
    cases fits with
    | true => exact .respond hj ha
    | false => exact .refuse hj ha
  | failRun j status message =>
    simp only [EngineHost.failRun] at hstep
    split at hstep <;> try cases hstep
    next job hj =>
    split at hstep <;> cases hstep
    next ha => exact .failRun hj ha
  | serve outcome status =>
    simp only [EngineHost.serve] at hstep
    split at hstep <;> cases hstep
    next f rest hc =>
    refine .serve hc fun shm => ?_
    cases outcome with
    | error e => nofun
    | ok n => dsimp only; split <;> nofun
  | die =>
    cases hstep
    exact .die

end AgentCpp
