import AgentCpp.Lib.Table

/-!
# Results, messages and conversations (`agent.hpp`)
-/

namespace AgentCpp
open Lib

inductive ErrorCode where
  | ok
  | invalidConfig
  | unsupportedProvider
  | filesystemError
  | providerInitFailed
  | modelLoadFailed
  | decodeFailed
  | networkError
  | httpError
  | parseError
  | cancelled
  | keyNotFound
  | toolCallLimitExceeded
  | sandboxViolation
  | permissionDenied
  | engineCrashed
  | outOfMemory
  | toolError
  deriving DecidableEq, Repr

structure Error where
  code : ErrorCode
  message : Bytes
  deriving DecidableEq, Repr

/-- `Result<T>`: a value, or the error of a failed call. -/
abbrev Result := Except Error

def fail {α : Type} (code : ErrorCode) (message : Bytes) : Result α := .error ⟨code, message⟩

/-- A call that may not return. -/
abbrev Outcome (α : Type) := Option (Result α)

theorem bind_eq_ok {α β : Type} {r : Result α} {f : α → Result β} {b : β} :
    (r >>= f) = .ok b ↔ ∃ a, r = .ok a ∧ f a = .ok b := by
  cases r with
  | error e =>
    refine iff_of_false (by intro h; cases h) ?_
    rintro ⟨a, h, -⟩
    cases h
  | ok a =>
    refine ⟨fun h => ⟨a, rfl, h⟩, ?_⟩
    rintro ⟨a', h, hf⟩
    cases h
    exact hf

inductive DType where
  | float32
  | float16
  | int8
  | int32
  | int64
  | uint8
  deriving DecidableEq, Repr

structure TensorData where
  name : Bytes
  dtype : DType := .float32
  shape : List ℤ := []
  data : Bytes := []
  deriving DecidableEq, Repr

structure Media where
  path : Bytes
  mime : Bytes
  deriving DecidableEq, Repr

structure ToolCall where
  id : Bytes
  name : Bytes
  arguments : Bytes
  deriving DecidableEq, Repr

structure Message where
  role : Bytes
  content : Bytes := []
  toolCalls : List ToolCall := []
  toolCallId : Bytes := []
  tensors : List TensorData := []
  media : List Media := []
  deriving DecidableEq, Repr

/-- A conversation. The `TurnStats` counters are not modelled: nothing reads
them back. -/
structure FlowMemory where
  id : Bytes := []
  history : List Message := []
  deriving DecidableEq, Repr

inductive PermissionDecision where
  | allow
  | ask
  | deny
  deriving DecidableEq, Repr

end AgentCpp
