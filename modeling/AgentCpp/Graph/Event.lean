import AgentCpp.Graph.CheckpointRoundTrip

/-!
# Graph events (`graph_executor.cpp`, `graph_checkpoint.cpp`)

Events are logged with a payload that is cut at fixed octet counts, written as JSON batches
and read back.
-/

namespace AgentCpp
open Lib Lib.Json List Utf8

def payloadMax : ℕ := 200

def clip (text : Bytes) : Bytes :=
  if text.length ≤ payloadMax then text else text.take payloadMax ++ lit "..."

def attachedNote : Bytes := lit "[attached: "

/- The text before the first attachment note is clipped on its own; the notes
keep up to four times as much. -/
def clipToolResult (text : Bytes) : Bytes :=
  if text.length ≤ payloadMax then text
  else match find attachedNote text with
    | none => clip text
    | some at_ =>
      let out := clip (text.take at_)
      let out := if out ≠ [] ∧ out.getLast? ≠ some 10 then out ++ [10] else out
      out ++ (text.drop at_).take (4 * payloadMax)

def eventPayload (type : GraphEventType) (payload : Bytes) : Bytes :=
  if type = .toolResult then clipToolResult payload else clip payload

/- What one call of `log_event` is given, with the clock it reads. -/
structure LogCall where
  type : GraphEventType
  node : Bytes
  key : Bytes
  payload : Bytes
  now : Int64

def LogCall.event (c : LogCall) : GraphEvent :=
  { type := c.type, node := c.node, key := c.key, timestampMs := c.now
    payload := eventPayload c.type c.payload }

def logEvent (events : List GraphEvent) (c : LogCall) : List GraphEvent := events ++ [c.event]

def eventTypeCode : GraphEventType → ℕ
  | .nodeStart => 0
  | .nodeEnd => 1
  | .stateWrite => 2
  | .toolCall => 3
  | .toolResult => 4
  | .interrupt => 5
  | .resume => 6
  | .checkpoint => 7
  | .nodeFailed => 8
  | .fork => 9

/- `static_cast<GraphEventType>(number)`; a number that is no enumerator keeps the first one. -/
def eventTypeOfCode (n : Int64) : GraphEventType :=
  if n = 1 then .nodeEnd
  else if n = 2 then .stateWrite
  else if n = 3 then .toolCall
  else if n = 4 then .toolResult
  else if n = 5 then .interrupt
  else if n = 6 then .resume
  else if n = 7 then .checkpoint
  else if n = 8 then .nodeFailed
  else if n = 9 then .fork
  else .nodeStart

def encodeEvent (e : GraphEvent) : Bytes :=
  objText [rawField (lit "type") (decimalInt (eventTypeCode e.type)),
    stringField (lit "node") e.node,
    stringField (lit "key") e.key,
    rawField (lit "ts") (decimalInt e.timestampMs.toInt),
    stringField (lit "payload") e.payload]

def encodeEvents (events : List GraphEvent) : Bytes := arrText (events.map encodeEvent)

def decodeEventField (e : GraphEvent) (f : Bytes × Json) : GraphEvent :=
  let (key, value) := f
  if key = lit "type" then { e with type := (value.getInt64.map eventTypeOfCode).getD e.type }
  else if key = lit "ts" then { e with timestampMs := value.getInt64.getD e.timestampMs }
  else if key = lit "node" then { e with node := stringOr value e.node }
  else if key = lit "key" then { e with key := stringOr value e.key }
  else if key = lit "payload" then { e with payload := stringOr value e.payload }
  else e

def decodeEvents (parser : JsonParser) (json : Bytes) (out : List GraphEvent) :
    Result (List GraphEvent) :=
  match (parser.parse json).bind getArray with
  | none => fail .parseError (lit "graph event log: not a JSON array.")
  | some items => items.foldlM (fun out item =>
      match item.getObject with
      | none => fail .parseError (lit "graph event log: bad event.")
      | some fields => .ok (out ++ [fields.foldl decodeEventField {}])) out

def eventFields (e : GraphEvent) : List (Bytes × Json) :=
  [(lit "type", .int (eventTypeCode e.type)), (lit "node", .str e.node), (lit "key", .str e.key),
    (lit "ts", .int e.timestampMs.toInt), (lit "payload", .str e.payload)]

theorem denotes_encodeEvents (events : List GraphEvent) :
    Denotes (encodeEvents events) (.arr (events.map fun e => .obj (eventFields e))) :=
  denotes_arrText _ _ <| forall₂_map _ _ _ fun e _ =>
    denotes_objText _ _ <| .cons (fieldDenotes_raw _ _ _ (by decide) (.int _)) <|
      .cons (fieldDenotes_string _ _ (by decide)) <| .cons (fieldDenotes_string _ _ (by decide)) <|
      .cons (fieldDenotes_raw _ _ _ (by decide) (.int _)) <| .cons (fieldDenotes_string _ _ (by decide)) .nil

theorem getInt64_eventTypeCode (t : GraphEventType) :
    (getInt64 (.int (eventTypeCode t))).map eventTypeOfCode = some t := by
  cases t <;> decide

theorem foldl_eventFields (e : GraphEvent) : (eventFields e).foldl decodeEventField {} = e := by
  have htype (d : GraphEvent) (v : Json) : decodeEventField d (lit "type", v) =
      { d with type := (v.getInt64.map eventTypeOfCode).getD d.type } := rfl
  have hnode (d : GraphEvent) (s : Bytes) :
      decodeEventField d (lit "node", .str s) = { d with node := s } := rfl
  have hkey (d : GraphEvent) (s : Bytes) :
      decodeEventField d (lit "key", .str s) = { d with key := s } := rfl
  have hts (d : GraphEvent) (v : Json) : decodeEventField d (lit "ts", v) =
      { d with timestampMs := v.getInt64.getD d.timestampMs } := rfl
  have hpayload (d : GraphEvent) (s : Bytes) :
      decodeEventField d (lit "payload", .str s) = { d with payload := s } := rfl
  simp only [eventFields, foldl_cons, foldl_nil, htype, hnode, hkey, hts, hpayload,
    getInt64_eventTypeCode, getInt64_toInt, Option.getD_some]

theorem decodeEvents_encodeEvents (parser : JsonParser) (events out : List GraphEvent)
    (h : Utf8.Valid (encodeEvents events)) : decodeEvents parser (encodeEvents events) out = .ok (out ++ events) := by
  have hparse := parser.parses _ _ (denotes_encodeEvents events) h
  simp only [decodeEvents, hparse, Option.bind_some, getArray, foldlM_map]
  refine (foldlM_ok _ (fun (acc : List GraphEvent) (e : GraphEvent) => acc ++ [e]) _ _ ?_).trans ?_
  · intro acc e _
    simp only [getObject, foldl_eventFields]
  · rw [foldl_snoc]

theorem decodeEvents_invalid (parser : JsonParser) (json : Bytes) (out : List GraphEvent) (h : ¬Utf8.Valid json) :
    decodeEvents parser json out =
      fail .parseError (lit "graph event log: not a JSON array.") := by
  rw [decodeEvents, parser.rejects json h]
  rfl

@[mk_iff] structure GraphEvent.Utf8 (e : GraphEvent) : Prop where
  node : Utf8.Valid e.node
  key : Utf8.Valid e.key
  payload : Utf8.Valid e.payload

instance (e : GraphEvent) : Decidable e.Utf8 := decidable_of_iff _ (GraphEvent.utf8_iff e).symm

theorem valid_encodeEvents (events : List GraphEvent) : Utf8.Valid (encodeEvents events) ↔ ∀ e ∈ events, e.Utf8 := by
  rw [encodeEvents, valid_arrText, forall_mem_map]
  refine forall₂_congr fun e _ => ?_
  rw [encodeEvent, valid_objText, GraphEvent.utf8_iff]
  simp only [forall_mem_cons, not_mem_nil, false_implies, implies_true, and_true]
  rw [valid_rawField _ _ (by decide), valid_stringField _ _ (by decide),
    valid_stringField _ _ (by decide), valid_rawField _ _ (by decide), valid_stringField _ _ (by decide)]
  simp only [valid_decimalInt, true_and]

/- Every cut the logger makes in this payload falls between two characters. -/
def CutsBetweenCharacters (type : GraphEventType) (payload : Bytes) : Prop :=
  if type = .toolResult then
    match find attachedNote payload with
    | none => Utf8.Boundary payload payloadMax
    | some at_ => payload.length ≤ payloadMax ∨
        (at_ ≤ payloadMax ∨ Utf8.Boundary payload payloadMax) ∧
          Utf8.Boundary payload (at_ + 4 * payloadMax)
  else Utf8.Boundary payload payloadMax

instance (type : GraphEventType) (payload : Bytes) :
    Decidable (CutsBetweenCharacters type payload) := by
  unfold CutsBetweenCharacters
  split
  · cases find attachedNote payload with
    | none => exact inferInstanceAs (Decidable (Utf8.Boundary _ _))
    | some at_ => exact inferInstanceAs (Decidable (_ ∨ (_ ∨ Utf8.Boundary _ _) ∧ Utf8.Boundary _ _))
  · infer_instance

theorem valid_clip (text : Bytes) (h : Utf8.Valid text) : Utf8.Valid (clip text) ↔ Utf8.Boundary text payloadMax := by
  unfold clip
  split
  · next hle => exact iff_of_true h (boundary_of_length_le _ _ hle)
  · have hdots : lit "..." = 0x2E :: [0x2E, 0x2E] := by decide
    rw [hdots, valid_append_ascii _ _ _ (by decide), valid_take_iff _ _ h]
    exact and_iff_left (by decide)

theorem valid_breakLine (out : Bytes) :
    Utf8.Valid (if out ≠ [] ∧ out.getLast? ≠ some 10 then out ++ [10] else out) ↔ Utf8.Valid out := by
  split
  · rw [valid_append_ascii out 10 [] (by decide)]
    exact and_iff_left valid_nil
  · exact Iff.rfl

theorem valid_clipToolResult (text : Bytes) (h : Utf8.Valid text) :
    Utf8.Valid (clipToolResult text) ↔ CutsBetweenCharacters .toolResult text := by
  unfold clipToolResult CutsBetweenCharacters
  rw [if_pos rfl]
  cases hfind : find attachedNote text with
  | none =>
    split
    · next hle => exact iff_of_true h (boundary_of_length_le _ _ hle)
    · exact valid_clip text h
  | some at_ =>
    split
    · next hle => exact iff_of_true h (Or.inl hle)
    next hlong =>
    obtain ⟨⟨rest, hrest⟩, -⟩ := find_spec _ _ _ hfind
    -- the note starts with an ASCII octet, so it splits the text between two characters
    have hdrop : text.drop at_ = 0x5B :: (lit "attached: " ++ rest) := hrest.symm
    have hsplit : Utf8.Valid (text.take at_ ++ 0x5B :: (lit "attached: " ++ rest)) := by
      rw [← hdrop, take_append_drop]
      exact h
    obtain ⟨hbefore, -⟩ := (valid_append_ascii _ _ _ (by decide)).1 hsplit
    have hnotes : Utf8.Valid (text.drop at_) := valid_drop text at_ h hbefore
    have htail : (text.drop at_).take (4 * payloadMax) =
        0x5B :: (lit "attached: " ++ rest).take (4 * payloadMax - 1) := by
      rw [hdrop]
      rfl
    have hcons (t : Bytes) : Utf8.Valid (0x5B :: t) ↔ Utf8.Valid t := by
      have hc := valid_append_ascii [] 0x5B t (by decide)
      exact hc.trans (and_iff_right valid_nil)
    have hcut : Utf8.Valid ((text.drop at_).take (4 * payloadMax)) ↔ Utf8.Boundary text (at_ + 4 * payloadMax) := by
      rw [valid_take_iff _ _ hnotes, boundary_drop]
    rw [htail, hcons] at hcut
    dsimp only
    rw [or_iff_right hlong, htail, valid_append_ascii _ _ _ (by decide), valid_breakLine, valid_clip _ hbefore,
      boundary_take, hcut]

theorem valid_eventPayload (type : GraphEventType) (payload : Bytes) (h : Utf8.Valid payload) :
    Utf8.Valid (eventPayload type payload) ↔ CutsBetweenCharacters type payload := by
  unfold eventPayload
  split
  · next ht =>
    rw [ht]
    exact valid_clipToolResult payload h
  · next ht =>
    rw [valid_clip payload h, CutsBetweenCharacters, if_neg ht]

/- The strings a caller of `log_event` passes are valid UTF-8. -/
@[mk_iff] structure LogCall.Utf8 (c : LogCall) : Prop where
  node : Utf8.Valid c.node
  key : Utf8.Valid c.key
  payload : Utf8.Valid c.payload

instance (c : LogCall) : Decidable c.Utf8 := decidable_of_iff _ (LogCall.utf8_iff c).symm

theorem event_utf8 (c : LogCall) (h : c.Utf8) : c.event.Utf8 ↔ CutsBetweenCharacters c.type c.payload := by
  rw [GraphEvent.utf8_iff, ← valid_eventPayload c.type c.payload h.payload]
  exact ⟨fun hu => hu.2.2, fun hp => ⟨h.node, h.key, hp⟩⟩

end AgentCpp
