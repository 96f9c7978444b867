import AgentCpp.Core.Types

/-!
# Graph state and graph runs (`agent.hpp`, `graph_internal.hpp`)

`GraphState` is what the nodes of a run share, `GraphRun` the record a call reads and updates,
`ParallelProgress` the branch positions of an unfinished top-level fan-out.
-/

namespace AgentCpp
open Lib

def graphEnd : Bytes := lit "__end__"

def tempPrefix : Bytes := lit "temp:"

def internalPrefix : Bytes := lit "__"

def isTempKey (key : Bytes) : Bool := tempPrefix.isPrefixOf key

def isScopedKey (key : Bytes) : Bool :=
  (lit "user:").isPrefixOf key || (lit "app:").isPrefixOf key

def isInternalKey (key : Bytes) : Bool := internalPrefix.isPrefixOf key

/- Loop nodes keep their counters under these keys. -/
def loopPrefix : Bytes := internalPrefix ++ lit "loop:"

def loopKey (name : Bytes) : Bytes := loopPrefix ++ name

def isLoopKey (key : Bytes) : Bool := loopPrefix.isPrefixOf key

theorem isLoopKey_loopKey (name : Bytes) : isLoopKey (loopKey name) = true := by
  unfold isLoopKey loopKey
  rw [List.isPrefixOf_iff_prefix]
  exact List.prefix_append _ _

structure GraphState where
  values : Table Bytes := ∅
  histories : Table FlowMemory := ∅
  written : List Bytes := []
  interruptRequested : Bool := false
  interruptReason : Bytes := []

def setState (state : GraphState) (key value : Bytes) : GraphState :=
  { state with values := state.values.insert key value, written := state.written ++ [key] }

def getState (state : GraphState) (key : Bytes) (fallback : Bytes := []) : Bytes :=
  state.values[key]?.getD fallback

def hasState (state : GraphState) (key : Bytes) : Bool := state.values[key]?.isSome

/-- `clear_temp` on the values. -/
def dropTemp (values : Table Bytes) : Table Bytes := values.filter fun key _ => !isTempKey key

def clearTemp (state : GraphState) : GraphState :=
  { state with
    values := dropTemp state.values
    written := []
    interruptRequested := false
    interruptReason := [] }

theorem get_dropTemp (values : Table Bytes) (key : Bytes) :
    (dropTemp values)[key]? = if isTempKey key then none else values[key]? := by
  unfold dropTemp
  rw [Std.ExtTreeMap.getElem?_filter']
  cases isTempKey key <;> cases values[key]? <;> simp [Option.filter]

theorem dropTemp_eq_of_get {values values' : Table Bytes}
    (h : ∀ key : Bytes, isTempKey key = false → values[key]? = values'[key]?) :
    dropTemp values = dropTemp values' := by
  apply Table.ext
  intro key
  rw [get_dropTemp, get_dropTemp]
  cases hk : isTempKey key with
  | true => rfl
  | false => exact h key hk

theorem dropTemp_dropTemp (values : Table Bytes) : dropTemp (dropTemp values) = dropTemp values := by
  apply dropTemp_eq_of_get
  intro key hkey
  rw [get_dropTemp, hkey]
  rfl

inductive GraphDurability where
  | exit
  | async
  | sync
  deriving DecidableEq, Repr

inductive GraphRunStatus where
  | pending
  | running
  | completed
  | interrupted
  | failed
  deriving DecidableEq, Repr

inductive GraphEventType where
  | nodeStart
  | nodeEnd
  | stateWrite
  | toolCall
  | toolResult
  | interrupt
  | resume
  | checkpoint
  | nodeFailed
  | fork
  deriving DecidableEq, Repr

structure GraphEvent where
  type : GraphEventType := .nodeStart
  node : Bytes := []
  key : Bytes := []
  timestampMs : Int64 := 0
  payload : Bytes := []
  deriving DecidableEq, Repr

structure GraphInterrupt where
  branch : Bytes
  node : Bytes
  reason : Bytes
  pendingToolCalls : List ToolCall
  deriving DecidableEq, Repr

structure GraphRun where
  threadId : Bytes := []
  durability : GraphDurability := .async
  state : GraphState := {}
  status : GraphRunStatus := .pending
  nextNode : Bytes := []
  step : UInt64 := 0
  error : Option Error := none
  interruptNode : Bytes := []
  interruptReason : Bytes := []
  pendingToolCalls : List ToolCall := []
  interrupts : List GraphInterrupt := []
  events : List GraphEvent := []

inductive BranchStatus where
  | pending
  | running
  | done
  | interrupted
  | failed
  deriving DecidableEq, Repr

structure BranchProgress where
  entry : Bytes := []
  status : BranchStatus := .pending
  next : Bytes := []
  values : Table Bytes := ∅
  erased : List Bytes := []
  writes : List Bytes := []
  histories : Table FlowMemory := ∅
  interruptNode : Bytes := []
  interruptReason : Bytes := []
  pendingToolCalls : List ToolCall := []
  error : Bytes := []

structure ParallelProgress where
  node : Bytes := []
  branches : List BranchProgress := []

end AgentCpp
