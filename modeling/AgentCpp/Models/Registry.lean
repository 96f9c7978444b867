import AgentCpp.Lib.Machine
import AgentCpp.Lib.Table
import AgentCpp.Models.Estimate

/-!
# Model registry (`model_registry.cpp`)

Named models loaded lazily under a RAM and VRAM budget, with LRU eviction of idle, unpinned models. A
call runs from one point where it gives up the mutex to the next in one action. The estimate of a
model's memory, the outcome of a load and the wait deadline are parameters of the actions.
-/

namespace AgentCpp
open Lib

/-! ### Byte counts

RAM and VRAM are counted alike, so both go in one `Usage`. -/

inductive Side where
  | ram
  | vram
  deriving DecidableEq, Repr

structure Usage where
  ram : UInt64 := 0
  vram : UInt64 := 0
  deriving DecidableEq, Repr

namespace Usage

def get (u : Usage) : Side → UInt64
  | .ram => u.ram
  | .vram => u.vram

def add (a b : Usage) : Usage := ⟨a.ram + b.ram, a.vram + b.vram⟩

def sub (a b : Usage) : Usage := ⟨a.ram - b.ram, a.vram - b.vram⟩

def underflows (a b : Usage) : Bool := a.ram < b.ram || a.vram < b.vram

def sum (us : List Usage) : Usage := us.foldl add {}

end Usage

inductive EntryStatus where
  | unloaded
  | loading
  | loaded
  deriving DecidableEq, Repr

/- `session` is the identity of the session object the entry owns. -/
structure ModelEntry where
  spec : ModelSpec
  status : EntryStatus := .unloaded
  session : Option ℕ := none
  charge : Usage := {}
  leases : ℕ := 0
  useTick : UInt64 := 0
  deriving DecidableEq, Repr

/- A limit of 0 is no limit. -/
structure ModelBudget where
  limit : Usage := {}
  allowOvercommit : Bool := false
  deriving DecidableEq, Repr

/- `sessions` counts the sessions created and `underflow` records a subtraction that wrapped; the
code has neither. -/
structure RegistryState where
  budget : ModelBudget := {}
  entries : Table ModelEntry := ∅
  used : Usage := {}
  releasing : Usage := {}
  tick : UInt64 := 0
  sessions : ℕ := 0
  underflow : Bool := false

namespace RegistryState

def touch (st : RegistryState) (name : Bytes) (e : ModelEntry) : RegistryState :=
  { st with tick := st.tick + 1, entries := st.entries.insert name { e with useTick := st.tick + 1 } }

def takeOut (st : RegistryState) (name : Bytes) (e : ModelEntry) : RegistryState :=
  { st with
    releasing := st.releasing.add e.charge
    entries := st.entries.insert name { e with status := .unloaded, session := none, charge := {} } }

def takeOutAll (st : RegistryState) (doomed : List (Bytes × ModelEntry)) : RegistryState :=
  doomed.foldl (fun st d => st.takeOut d.1 d.2) st

def reserve (st : RegistryState) (name : Bytes) (e : ModelEntry) (est : Usage) : RegistryState :=
  { st with
    entries := st.entries.insert name { e with status := .loading, charge := est }
    used := st.used.add est }

def uncharge (st : RegistryState) (bytes : Usage) : RegistryState :=
  { st with
    used := st.used.sub bytes
    releasing := st.releasing.sub bytes
    underflow := st.underflow || st.used.underflows bytes || st.releasing.underflows bytes }

end RegistryState

def fits (limit used need : UInt64) : Bool := limit == 0 || used + need ≤ limit

def fitsBudget (budget : ModelBudget) (used need : Usage) : Bool :=
  fits budget.limit.ram used.ram need.ram && fits budget.limit.vram used.vram need.vram

def evictable (st : RegistryState) (except : Option Bytes) : List (Bytes × ModelEntry) :=
  (st.entries.toList.filter fun (name, e) =>
    some name != except && e.status == .loaded && e.leases == 0 && !e.spec.pinned).insertionSort
      fun a b => a.2.useTick ≤ b.2.useTick

structure EvictionPlan where
  ok : Bool
  count : ℕ
  underflow : Bool
  deriving DecidableEq, Repr

def planFrom (budget : ModelBudget) (need used : Usage) : List (Bytes × ModelEntry) → EvictionPlan
  | [] => ⟨fitsBudget budget used need, 0, false⟩
  | c :: candidates =>
    if fitsBudget budget used need then ⟨true, 0, false⟩
    else
      let p := planFrom budget need (used.sub c.2.charge) candidates
      ⟨p.ok, p.count + 1, p.underflow || used.underflows c.2.charge⟩

/- The LRU prefix of the candidates whose eviction makes `need` fit. -/
def plan (st : RegistryState) (candidates : List (Bytes × ModelEntry)) (need : Usage) : EvictionPlan :=
  planFrom st.budget need st.used candidates

def roundHalfEven (n d : ℕ) : ℕ :=
  if 2 * (n % d) < d ∨ (2 * (n % d) = d ∧ (n / d) % 2 = 0) then n / d else n / d + 1

/- The nearest double of a 64-bit integer. -/
def doubleOf (n : ℕ) : ℕ := roundHalfEven n (2 ^ (n.log2 - 52)) * 2 ^ (n.log2 - 52)

/- `%.1f MiB` -/
def mib (bytes : UInt64) : Bytes :=
  let tenths := roundHalfEven (doubleOf bytes.toNat * 10) (2 ^ 20)
  decimal (tenths / 10) ++ lit "." ++ decimal (tenths % 10) ++ lit " MiB"

def heldNote (e : ModelEntry) : Bytes :=
  if e.status = .loading then lit " loading"
  else if e.leases ≠ 0 then lit " in use"
  else if e.spec.pinned then lit " pinned"
  else []

def heldModels (st : RegistryState) (name : Bytes) : List Bytes :=
  (st.entries.toList.filter fun (n, e) => e.status != .unloaded && n != name).map fun (n, e) =>
    n ++ lit " " ++ mib (e.charge.ram + e.charge.vram) ++ heldNote e

def outOfMemoryMessage (st : RegistryState) (name : Bytes) (e : ModelEntry) (est : Usage) : Bytes :=
  let held := heldModels st name
  lit "model '" ++ e.spec.name ++ lit "' needs " ++ mib est.ram ++ lit " RAM" ++
    (if est.vram = 0 then [] else lit " + " ++ mib est.vram ++ lit " VRAM") ++
    lit "; budget " ++ (if st.budget.limit.ram = 0 then lit "unlimited" else mib st.budget.limit.ram) ++
    lit " RAM" ++
    (if st.budget.limit.vram = 0 then [] else lit " / " ++ mib st.budget.limit.vram ++ lit " VRAM") ++
    lit ", and the loaded models that cannot be evicted use " ++ mib st.used.ram ++
    (if held = [] then [] else lit " (" ++ (lit ", ").intercalate held ++ lit ")") ++
    lit ". Release a lease, unload a model, raise the budget or set allow_overcommit."

def inUseMessage (e : ModelEntry) : Bytes :=
  lit "model '" ++ e.spec.name ++ lit "' is in use (" ++ decimal e.leases ++ lit " lease(s))"

def noModelMessage (name : Bytes) : Bytes := lit "no model named '" ++ name ++ lit "' is registered"

inductive Unloader where
  | unloadModel
  | registerModel (spec : ModelSpec)
  deriving DecidableEq, Repr

inductive AfterDestroy where
  | setBudget
  | unload (name : Bytes) (caller : Unloader)
  | load (name : Bytes)
  deriving DecidableEq, Repr

/- Where a thread is while it does not hold the mutex. -/
inductive RegistryThread where
  | returned (result : Result Unit)
  | acquiring (name : Bytes)
  | unloading (name : Bytes) (caller : Unloader)
  | destroying (doomed : List Usage) (next : AfterDestroy)
  | loading (name : Bytes)

/- The effect of a locked section: the state it leaves, where its thread goes and the
   lease it hands out. -/
structure RegistryMove where
  st : RegistryState
  thread : RegistryThread
  lease : Option (Bytes × ℕ) := none

/- The tail of `register_model`: someone may have loaded the model meanwhile. -/
def finishRegister (st : RegistryState) (name : Bytes) (spec : ModelSpec) : RegistryMove :=
  match st.entries[name]? with
  | none => { st := st, thread := .returned (.ok ()) }
  | some e =>
    if e.status ≠ .unloaded then
      { st := st
        thread := .returned (fail .invalidConfig
          (lit "register_model: model '" ++ e.spec.name ++ lit "' is in use")) }
    else
      { st := { st with entries := st.entries.insert name { e with spec := spec } }
        thread := .returned (.ok ()) }

def unloaded (st : RegistryState) (name : Bytes) : Unloader → RegistryMove
  | .unloadModel => { st := st, thread := .returned (.ok ()) }
  | .registerModel spec => finishRegister st name spec

def afterDestroy (st : RegistryState) : AfterDestroy → RegistryMove
  | .setBudget => { st := st, thread := .returned (.ok ()) }
  | .unload name caller => unloaded st name caller
  | .load name => { st := st, thread := .loading name }

/- `destroy` gives up the mutex only when there is something to destroy. -/
def destroy (st : RegistryState) (doomed : List Usage) (next : AfterDestroy) : RegistryMove :=
  if doomed = [] then afterDestroy st next
  else { st := st, thread := .destroying doomed next }

def unloadFailed (message : Bytes) : Unloader → Result Unit
  | .unloadModel => fail .invalidConfig (lit "unload_model: " ++ message)
  | .registerModel _ => fail .invalidConfig (lit "register_model: " ++ message)

def unloadLocked (st : RegistryState) (name : Bytes) (e : ModelEntry) (caller : Unloader) :
    RegistryMove :=
  match e.status with
  | .loading => { st := st, thread := .unloading name caller }
  | .unloaded => unloaded st name caller
  | .loaded =>
    if 0 < e.leases then { st := st, thread := .returned (unloadFailed (inUseMessage e) caller) }
    else destroy (st.takeOut name e) [e.charge] (.unload name caller)

def unloadModel (st : RegistryState) (name : Bytes) : RegistryMove :=
  match st.entries[name]? with
  | none => { st := st, thread := .returned (fail .keyNotFound (noModelMessage name)) }
  | some e => unloadLocked st name e .unloadModel

def registerModel (st : RegistryState) (spec : ModelSpec) : RegistryMove :=
  if spec.name = [] then
    { st := st
      thread := .returned (fail .invalidConfig (lit "register_model: the model name is empty")) }
  else
    match st.entries[spec.name]? with
    | none =>
      { st := { st with entries := st.entries.insert spec.name { spec := spec } }
        thread := .returned (.ok ()) }
    | some e => unloadLocked st spec.name e (.registerModel spec)

/- Evicts `doomed` and reserves the model before the mutex is given up. -/
def evictAndLoad (st : RegistryState) (name : Bytes) (e : ModelEntry) (est : Usage)
    (doomed : List (Bytes × ModelEntry)) : RegistryMove :=
  destroy ((st.takeOutAll doomed).reserve name e est) (doomed.map fun d => d.2.charge) (.load name)

def makeLease (st : RegistryState) (name : Bytes) (e : ModelEntry) : RegistryMove :=
  { st := st.touch name e, thread := .returned (.ok ()), lease := e.session.map fun s => (name, s) }

/- One round of the loop of `acquire_model`. -/
def acquireRound (st : RegistryState) (name : Bytes) (e : ModelEntry) (estimate : Result Usage)
    (canWait : Bool) : RegistryMove :=
  match e.status with
  | .loaded => makeLease st name { e with leases := e.leases + 1 }
  | .loading => { st := st, thread := .acquiring name }
  | .unloaded =>
    match estimate with
    | .error err => { st := st, thread := .returned (.error err) }
    | .ok est =>
      let candidates := evictable st (some name)
      let p := plan st candidates est
      let st := { st with underflow := st.underflow || p.underflow }
      if p.ok then evictAndLoad st name e est (candidates.take p.count)
      else if 0 < st.releasing.ram ∨ 0 < st.releasing.vram then { st := st, thread := .acquiring name }
      else if !st.budget.allowOvercommit && canWait then { st := st, thread := .acquiring name }
      else if !st.budget.allowOvercommit then
        { st := st
          thread := .returned (fail .outOfMemory
            (lit "acquire_model: " ++ outOfMemoryMessage st name e est)) }
      else evictAndLoad st name e est candidates

def acquireModel (st : RegistryState) (name : Bytes) (estimate : Result Usage) (canWait : Bool) :
    RegistryMove :=
  match st.entries[name]? with
  | none => { st := st, thread := .returned (fail .keyNotFound (noModelMessage name)) }
  | some e => acquireRound st name e estimate canWait

inductive LoadOutcome where
  | ok
  | initFailed (error : Error)
  | onLoadFailed (error : Error)

def LoadOutcome.error (name : Bytes) : LoadOutcome → Option Error
  | .ok => none
  | .initFailed e => some ⟨e.code, lit "model '" ++ name ++ lit "': " ++ e.message⟩
  | .onLoadFailed e => some ⟨e.code, lit "model '" ++ name ++ lit "': on_load: " ++ e.message⟩

/- The end of `acquire_model`, after the load. -/
def finishLoad (st : RegistryState) (name : Bytes) (e : ModelEntry) (outcome : LoadOutcome) :
    RegistryMove :=
  match outcome.error e.spec.name with
  | some err =>
    { st :=
        { st with
          used := st.used.sub e.charge
          underflow := st.underflow || st.used.underflows e.charge
          entries := st.entries.insert name { e with charge := {}, status := .unloaded } }
      thread := .returned (.error err) }
  | none =>
    makeLease { st with sessions := st.sessions + 1 } name
      { e with session := some st.sessions, status := .loaded, leases := 1 }

def setBudget (st : RegistryState) (budget : ModelBudget) : RegistryMove :=
  let st := { st with budget := budget }
  let candidates := evictable st none
  let p := plan st candidates {}
  let doomed := if p.ok then candidates.take p.count else candidates
  destroy ({ st with underflow := st.underflow || p.underflow }.takeOutAll doomed)
    (doomed.map fun d => d.2.charge) .setBudget

/- The deleter of a lease. -/
def dropLease (st : RegistryState) (name : Bytes) (e : ModelEntry) : RegistryState :=
  st.touch name { e with leases := e.leases - 1 }

/- `held` lists the leases that are out, each with the session it points to. -/
structure Registry where
  st : RegistryState
  threads : List RegistryThread
  held : List (Bytes × ℕ) := []

inductive RegistryAct where
  | acquire (t : ℕ) (name : Bytes) (estimate : Result Usage) (canWait : Bool)
  | retry (t : ℕ) (estimate : Result Usage) (canWait : Bool)
  | destroyed (t : ℕ)
  | loaded (t : ℕ) (outcome : LoadOutcome)
  | release (lease : Bytes × ℕ)
  | unload (t : ℕ) (name : Bytes)
  | register (t : ℕ) (spec : ModelSpec)
  | resumeUnload (t : ℕ)
  | setBudget (t : ℕ) (budget : ModelBudget)

namespace Registry

def init (threads : ℕ) (budget : ModelBudget) : Registry :=
  { st := { budget := budget }, threads := List.replicate threads (.returned (.ok ())) }

def settle (r : Registry) (t : ℕ) (m : RegistryMove) : Registry :=
  { st := m.st, threads := r.threads.set t m.thread, held := m.lease.toList ++ r.held }

def call (r : Registry) (t : ℕ) (m : RegistryMove) : Option Registry :=
  match r.threads[t]? with
  | some (.returned _) => some (r.settle t m)
  | _ => none

def retry (r : Registry) (t : ℕ) (estimate : Result Usage) (canWait : Bool) : Option Registry :=
  match r.threads[t]? with
  | some (.acquiring name) =>
    r.st.entries[name]?.map fun e => r.settle t (acquireRound r.st name e estimate canWait)
  | _ => none

def destroyed (r : Registry) (t : ℕ) : Option Registry :=
  match r.threads[t]? with
  | some (.destroying doomed next) =>
    some (r.settle t (afterDestroy (r.st.uncharge (Usage.sum doomed)) next))
  | _ => none

def loaded (r : Registry) (t : ℕ) (outcome : LoadOutcome) : Option Registry :=
  match r.threads[t]? with
  | some (.loading name) => r.st.entries[name]?.map fun e => r.settle t (finishLoad r.st name e outcome)
  | _ => none

def release (r : Registry) (lease : Bytes × ℕ) : Option Registry :=
  if lease ∈ r.held then
    r.st.entries[lease.1]?.map fun e =>
      { r with st := dropLease r.st lease.1 e, held := r.held.erase lease }
  else none

def resumeUnload (r : Registry) (t : ℕ) : Option Registry :=
  match r.threads[t]? with
  | some (.unloading name caller) =>
    r.st.entries[name]?.map fun e => r.settle t (unloadLocked r.st name e caller)
  | _ => none

def step (r : Registry) : RegistryAct → Option Registry
  | .acquire t name estimate canWait => r.call t (acquireModel r.st name estimate canWait)
  | .retry t estimate canWait => r.retry t estimate canWait
  | .destroyed t => r.destroyed t
  | .loaded t outcome => r.loaded t outcome
  | .release lease => r.release lease
  | .unload t name => r.call t (unloadModel r.st name)
  | .register t spec => r.call t (registerModel r.st spec)
  | .resumeUnload t => r.resumeUnload t
  | .setBudget t budget => r.call t (AgentCpp.setBudget r.st budget)

end Registry

end AgentCpp
