import AgentCpp.Lib.Words

/-!
# The engine protocol (`engine_ipc.hpp`)

How requests and responses are written into frames and read back. Payloads of at least a threshold
go into a shared-memory segment when the frame has one. Integers have their least significant byte
first.
-/

namespace AgentCpp.Ipc
open Lib

/- A pointer and a count: a null pointer with any count, or that many elements. -/
inductive Span (α : Type) where
  | null (count : ℕ)
  | ptr (items : List α)

def Span.items {α : Type} : Span α → List α
  | .null _ => []
  | .ptr items => items

abbrev Str := Span UInt8

structure Part where
  kind : UInt32
  text : Str
  path : Str
  mime : Str
  name : Str
  dtype : UInt32
  shape : Span Int64
  data : Span UInt8

structure Call where
  id : Str
  name : Str
  arguments : Str

structure Message where
  role : Str
  parts : Span Part
  toolCalls : Span Call
  toolCallId : Str

/- Without the callbacks, which are not sent. -/
structure Request where
  task : UInt32
  flags : UInt32
  messages : Span Message
  toolsJson : Str
  paramsJson : Str
  outputDir : Str

structure Response where
  message : Message
  promptTokens : Int32
  completionTokens : Int32

def kHeaderSize : ℕ := 16

def kMaxFrame : ℕ := 2 ^ 30

/- A `size_t` difference. -/
def subSize (a b : ℕ) : ℕ := (a + (2 ^ 64 - b % 2 ^ 64)) % 2 ^ 64

/- `align_up`, in `size_t`. -/
def alignUp (n : ℕ) : ℕ := (n + 63) % 2 ^ 64 / 64 * 64

/- Where the writer puts large payloads: the segment's memory, filled from `used` upwards. No
   object is larger than half the address space. -/
structure ShmOut where
  mem : Span UInt8
  used : ℕ := 0
  threshold : ℕ := 64 * 1024
  count : ℕ := 0
  fits : mem.items.length < 2 ^ 63

/- `memcpy` into the segment. What lies outside of it is not modelled. -/
def poke (mem : Bytes) (off : ℕ) (bytes : Bytes) : Bytes :=
  if off + bytes.length ≤ mem.length then mem.take off ++ bytes ++ mem.drop (off + bytes.length) else mem

theorem length_poke (mem : Bytes) (off : ℕ) (bytes : Bytes) : (poke mem off bytes).length = mem.length := by
  unfold poke
  split
  · simp only [List.length_append, List.length_take, List.length_drop]
    omega
  · rfl

/- The offset at which the payload is placed, and the segment after that; `none` when it is
   sent in the frame. -/
def ShmOut.place (shm : ShmOut) (p : Span UInt8) : Option (ℕ × ShmOut) :=
  match p, shm with
  | .ptr bytes, ⟨.ptr mem, used, threshold, count, fits⟩ =>
    if threshold ≤ bytes.length ∧ bytes.length ≤ subSize mem.length used then
      let next := alignUp (used + bytes.length)
      some (used, {
        mem := .ptr (poke mem used bytes)
        used := if mem.length < next then mem.length else next
        threshold
        count := count + 1
        fits := by
          change (poke mem used bytes).length < 2 ^ 63
          rw [length_poke]
          exact fits })
    else none
  | _, _ => none

structure Writer where
  out : Bytes := []
  start : ℕ := 0
  shm : Option ShmOut := none

namespace Writer

variable (w : Writer)

def raw (bytes : Bytes) : Writer := { w with out := w.out ++ bytes }

def u32 (v : UInt32) : Writer := w.raw (leBytes 4 v.toNat)

def i32 (v : Int32) : Writer := w.raw (leBytes 4 v.toUInt32.toNat)

def u64 (v : ℕ) : Writer := w.raw (leBytes 8 v)

def i64 (v : Int64) : Writer := w.raw (leBytes 8 v.toUInt64.toNat)

/- A size is cut to 32 bits. -/
def str (s : Str) : Writer := (w.u32 (UInt32.ofNat s.items.length)).raw s.items

def data (p : Span UInt8) : Writer :=
  let w := w.u64 p.items.length
  match w.shm.bind (·.place p) with
  | some (used, shm) => { (w.u32 1).u64 used with shm := some shm }
  | none => (w.u32 0).raw p.items

def part (p : Part) : Writer :=
  let w := ((((w.u32 p.kind).str p.text).str p.path).str p.mime).str p.name
  let w := (w.u32 p.dtype).u32 (UInt32.ofNat p.shape.items.length)
  (p.shape.items.foldl i64 w).data p.data

def call (c : Call) : Writer := ((w.str c.id).str c.name).str c.arguments

def message (m : Message) : Writer :=
  let w := (w.str m.role).u32 (UInt32.ofNat m.parts.items.length)
  let w := m.parts.items.foldl part w
  let w := w.u32 (UInt32.ofNat m.toolCalls.items.length)
  (m.toolCalls.items.foldl call w).str m.toolCallId

def request (r : Request) (runFlags : UInt32) : Writer :=
  let w := ((w.u32 r.task).u32 r.flags).u32 runFlags
  let w := w.u32 (UInt32.ofNat r.messages.items.length)
  let w := r.messages.items.foldl message w
  ((w.str r.toolsJson).str r.paramsJson).str r.outputDir

def response (r : Response) : Writer :=
  ((w.message r.message).i32 r.promptTokens).i32 r.completionTokens

def begin (type : UInt32) (id : UInt64) : Writer :=
  (({ w with start := w.out.length }.u32 0).u32 type).u64 id.toNat

/- The bytes of the frame after its header. -/
def payload : Bytes := w.out.drop (w.start + kHeaderSize)

/- The size goes into the header; `none` when the payload is larger than a frame. -/
def finish : Option Writer :=
  let payload := w.out.length - w.start - kHeaderSize
  if kMaxFrame < payload then none
  else some { w with out := w.out.take w.start ++ leBytes 4 payload ++ w.out.drop (w.start + 4) }

end Writer

/- `base` is the address of its memory, which is null when the capacity is zero. -/
structure Arena where
  base : ℕ
  capacity : ℕ
  offset : ℕ := 0

/- The offset of the new memory. -/
def Arena.allocate (a : Arena) (size alignment : ℕ) : Option (ℕ × Arena) :=
  if a.capacity = 0 ∨ size = 0 then none
  else
    let aligned := (a.base + a.offset + (alignment - 1)) / alignment * alignment - a.base
    if a.capacity < aligned + size then none else some (aligned, { a with offset := aligned + size })

inductive Item where
  | dim
  | part
  | call
  | message
  deriving DecidableEq

/- `sizeof` -/
def Item.size : Item → ℕ
  | .dim => 8
  | .part => 112
  | .call => 48
  | .message => 64

/- The least an element takes in a frame. -/
def Item.wire : Item → ℕ
  | .dim => 8
  | .part => 40
  | .call => 12
  | .message => 16

structure View where
  off : ℕ
  size : ℕ

structure Placed (α : Type) where
  off : ℕ
  items : List α

inductive DataView where
  | frame (view : View)
  | segment (view : View)

/- In all views `none` is a null pointer. -/
structure PartView where
  kind : UInt32
  text : Option View
  path : Option View
  mime : Option View
  name : Option View
  dtype : UInt32
  shape : Option (Placed Int64)
  data : Option DataView

structure CallView where
  id : Option View
  name : Option View
  arguments : Option View

structure MessageView where
  role : Option View
  parts : Option (Placed PartView)
  toolCalls : Option (Placed CallView)
  toolCallId : Option View

structure RequestView where
  task : UInt32
  flags : UInt32
  messages : Option (Placed MessageView)
  toolsJson : Option View
  paramsJson : Option View
  outputDir : Option View

structure ResponseView where
  message : MessageView
  promptTokens : Int32
  completionTokens : Int32

/- An allocation for `count` elements when `remaining` bytes of the frame were unread. -/
structure Allocation where
  item : Item
  count : ℕ
  remaining : ℕ

/- `allocations` records what was asked from the arena; the source has no such list. -/
structure Reader where
  payload : Bytes
  pos : ℕ := 0
  shm : Option Bytes := none
  ok : Bool := true
  arenaExhausted : Bool := false
  arena : Arena
  allocations : List Allocation := []

abbrev Read := StateM Reader

namespace Reader

def remaining (r : Reader) : ℕ := r.payload.length - r.pos

def atEnd (r : Reader) : Bool := r.ok && r.pos == r.payload.length

def take (n : ℕ) : Read Bool := fun r =>
  if r.ok = false ∨ r.remaining < n then (false, { r with ok := false }) else (true, { r with pos := r.pos + n })

def fail (arena : Bool) : Read Unit :=
  modify fun r => { r with ok := false, arenaExhausted := r.arenaExhausted || arena }

def raw (n : ℕ) : Read (Option Bytes) := do
  if ← take n then
    let r ← get
    return some ((r.payload.drop (r.pos - n)).take n)
  else return none

/- A failed read gives zero. -/
def scalar (width : ℕ) : Read ℕ := do
  match ← raw width with
  | none => return 0
  | some bytes => return leNat bytes

def u32 : Read UInt32 := do return UInt32.ofNat (← scalar 4)

def i32 : Read Int32 := do return (UInt32.ofNat (← scalar 4)).toInt32

def u64 : Read UInt64 := do return UInt64.ofNat (← scalar 8)

def str : Read (Option View) := do
  let n ← u32
  if ← take n.toNat then
    let r ← get
    return if n = 0 then none else some ⟨r.pos - n.toNat, n.toNat⟩
  else return none

/- The offset is not used when the read has failed. -/
def bytes (n : ℕ) : Read ℕ := do
  let r ← get
  if r.remaining < n then
    set { r with ok := false }
    return 0
  else
    let _ ← take n
    return (← get).pos - n

def allocateSpan (item : Item) (count : ℕ) : Read (Option ℕ) := fun r =>
  let r := { r with allocations := r.allocations ++ [⟨item, count, r.remaining⟩] }
  match r.arena.allocate (item.size * count) 8 with
  | none => (none, r)
  | some (off, arena) => (some off, { r with arena })

/- `count` elements, as long as they can be read. -/
def repeated {α : Type} (read : Read (Option α)) : ℕ → Read (Option (List α))
  | 0 => return some []
  | count + 1 => do
    match ← read with
    | none => return none
    | some a =>
      match ← repeated read count with
      | none => return none
      | some as => return some (a :: as)

/- An array of the elements that `read` reads: refused when the frame cannot hold so many. -/
def array {α : Type} (item : Item) (read : Read (Option α)) (count : ℕ) : Read (Option (Option (Placed α))) := do
  let r ← get
  if r.ok = false ∨ r.remaining / item.wire < count then
    fail false
    return none
  else if count = 0 then return some none
  else
    match ← allocateSpan item count with
    | none =>
      fail true
      return none
    | some off =>
      match ← repeated read count with
      | none => return none
      | some items => return some (some ⟨off, items⟩)

/- One element of the shape, which the source reads as a whole. -/
def dim : Read (Option Int64) := do return some (UInt64.ofNat (← scalar 8)).toInt64

/- Size, location and place of a payload. -/
def data : Read (Option (Option DataView)) := do
  let size ← u64
  let loc ← u32
  if loc = 0 then
    let off ← bytes size.toNat
    return if (← get).ok then some (if size = 0 then none else some (.frame ⟨off, size.toNat⟩)) else none
  else if loc = 1 then
    let off ← u64
    let r ← get
    match r.shm with
    | none =>
      fail false
      return none
    | some shm =>
      if r.ok = false ∨ shm.length < off.toNat ∨ shm.length - off.toNat < size.toNat then
        fail false
        return none
      else return some (if size = 0 then none else some (.segment ⟨off.toNat, size.toNat⟩))
  else
    fail false
    return none

def part : Read (Option PartView) := do
  let kind ← u32
  let text ← str
  let path ← str
  let mime ← str
  let name ← str
  let dtype ← u32
  let ndim ← u32
  match ← array .dim dim ndim.toNat with
  | none => return none
  | some shape =>
    match ← data with
    | none => return none
    | some data => return some { kind, text, path, mime, name, dtype, shape, data }

def call : Read (Option CallView) := do
  let id ← str
  let name ← str
  let arguments ← str
  return some { id, name, arguments }

def message : Read (Option MessageView) := do
  let role ← str
  let nParts ← u32
  match ← array .part part nParts.toNat with
  | none => return none
  | some parts =>
    let nCalls ← u32
    match ← array .call call nCalls.toNat with
    | none => return none
    | some toolCalls =>
      let toolCallId ← str
      return if (← get).ok then some { role, parts, toolCalls, toolCallId } else none

def request : Read (Option (RequestView × UInt32)) := do
  let task ← u32
  let flags ← u32
  let runFlags ← u32
  let n ← u32
  match ← array .message message n.toNat with
  | none => return none
  | some messages =>
    let toolsJson ← str
    let paramsJson ← str
    let outputDir ← str
    return if (← get).ok then some ({ task, flags, messages, toolsJson, paramsJson, outputDir }, runFlags) else none

def response : Read (Option ResponseView) := do
  match ← message with
  | none => return none
  | some message =>
    let promptTokens ← i32
    let completionTokens ← i32
    return if (← get).ok then some { message, promptTokens, completionTokens } else none

end Reader

def decodeArenaBound (payloadSize : ℕ) : ℕ := payloadSize * 5 + 4096

end AgentCpp.Ipc
