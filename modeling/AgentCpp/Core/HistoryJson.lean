import AgentCpp.Core.Escape
import AgentCpp.Core.Types

/-!
# Conversations as JSON (`turn_executor.cpp`)

`encode_history_json` writes the messages of a conversation, without tensors; its reader takes them
back field by field.
-/

namespace AgentCpp
open Lib Lib.Json List

/-- One call, as both `encode_history_json` and `encode_calls` write it. -/
def encodeCall (tc : ToolCall) : Bytes :=
  objText [stringField (lit "id") tc.id, stringField (lit "name") tc.name,
    stringField (lit "arguments") tc.arguments]

def encodeCalls (calls : List ToolCall) : Bytes := arrText (calls.map encodeCall)

def encodeMedia (m : Media) : Bytes :=
  objText [stringField (lit "path") m.path, stringField (lit "mime") m.mime]

def encodeMessage (msg : Message) : Bytes :=
  objText ([stringField (lit "role") msg.role, stringField (lit "content") msg.content,
    stringField (lit "tool_call_id") msg.toolCallId,
    rawField (lit "tool_calls") (encodeCalls msg.toolCalls)] ++
    if msg.media = [] then [] else [rawField (lit "media") (arrText (msg.media.map encodeMedia))])

def encodeHistoryJson (memory : FlowMemory) : Bytes := arrText (memory.history.map encodeMessage)

/-- `if (!obj[name].get_string().get(v)) out = v`, on a default-constructed string. -/
def stringOf (obj : List (Bytes × Json)) (name : Bytes) : Bytes :=
  ((field obj name).bind getString).getD []

/-- `if (!obj[name].get_array().get(v)) for (auto item : v) ..`. -/
def itemsOf (obj : List (Bytes × Json)) (name : Bytes) : List Json :=
  ((field obj name).bind getArray).getD []

def decodeCall (obj : List (Bytes × Json)) : ToolCall :=
  ⟨stringOf obj (lit "id"), stringOf obj (lit "name"), stringOf obj (lit "arguments")⟩

/-- The loop over a call array: items that are no objects are skipped. -/
def decodeCallItems (items : List Json) : List ToolCall :=
  items.filterMap fun item => item.getObject.map decodeCall

def decodeMedia (obj : List (Bytes × Json)) : Media :=
  ⟨stringOf obj (lit "path"), stringOf obj (lit "mime")⟩

def decodeMessage (obj : List (Bytes × Json)) : Message :=
  { role := stringOf obj (lit "role")
    content := stringOf obj (lit "content")
    toolCallId := stringOf obj (lit "tool_call_id")
    toolCalls := decodeCallItems (itemsOf obj (lit "tool_calls"))
    media := (itemsOf obj (lit "media")).filterMap fun item => item.getObject.map decodeMedia }

/-- `decode_history_json` on a parsed document. -/
def decodeHistoryValue (doc : Json) : Result (List Message) :=
  match doc.getArray with
  | none => fail .parseError (lit "Stored history is not a JSON array.")
  | some items => .ok (items.filterMap fun item => item.getObject.map decodeMessage)

def callJson (tc : ToolCall) : Json :=
  .obj [(lit "id", .str tc.id), (lit "name", .str tc.name), (lit "arguments", .str tc.arguments)]

def mediaJson (m : Media) : Json := .obj [(lit "path", .str m.path), (lit "mime", .str m.mime)]

def messageJson (msg : Message) : Json :=
  .obj ([(lit "role", .str msg.role), (lit "content", .str msg.content),
    (lit "tool_call_id", .str msg.toolCallId),
    (lit "tool_calls", .arr (msg.toolCalls.map callJson))] ++
    if msg.media = [] then [] else [(lit "media", .arr (msg.media.map mediaJson))])

def historyJson (memory : FlowMemory) : Json := .arr (memory.history.map messageJson)

theorem denotes_encodeCall (tc : ToolCall) : Denotes (encodeCall tc) (callJson tc) :=
  denotes_objText _ _ <| .cons (fieldDenotes_string _ _ (by decide)) <| .cons (fieldDenotes_string _ _ (by decide)) <|
    .cons (fieldDenotes_string _ _ (by decide)) .nil

variable (msg : Message) (m : Media) (calls : List ToolCall) (memory : FlowMemory)

theorem denotes_encodeCalls : Denotes (encodeCalls calls) (.arr (calls.map callJson)) :=
  denotes_arrText _ _ (forall₂_map _ _ _ fun tc _ => denotes_encodeCall tc)

theorem denotes_encodeMedia : Denotes (encodeMedia m) (mediaJson m) :=
  denotes_objText _ _ <| .cons (fieldDenotes_string _ _ (by decide)) <|
    .cons (fieldDenotes_string _ _ (by decide)) .nil

theorem denotes_encodeMessage : Denotes (encodeMessage msg) (messageJson msg) := by
  apply denotes_objText
  apply rel_append
  · exact .cons (fieldDenotes_string _ _ (by decide)) <| .cons (fieldDenotes_string _ _ (by decide)) <|
      .cons (fieldDenotes_string _ _ (by decide)) <|
      .cons (fieldDenotes_raw _ _ _ (by decide) (denotes_encodeCalls _)) .nil
  · split
    · exact .nil
    · have hm := denotes_arrText _ _ (forall₂_map encodeMedia mediaJson msg.media fun m _ => denotes_encodeMedia m)
      exact .cons (fieldDenotes_raw _ _ _ (by decide) hm) .nil

theorem denotes_encodeHistoryJson : Denotes (encodeHistoryJson memory) (historyJson memory) :=
  denotes_arrText _ _ (forall₂_map _ _ _ fun msg _ => denotes_encodeMessage msg)

/-- A message as a stored conversation keeps it. -/
def storedMessage (msg : Message) : Message := { msg with tensors := [] }

theorem decodeCall_callJson (tc : ToolCall) : (callJson tc).getObject.map decodeCall = some tc := rfl

theorem decodeMedia_mediaJson : (mediaJson m).getObject.map decodeMedia = some m := rfl

theorem filterMap_objects {α β : Type} (enc : α → Json) (dec : List (Bytes × Json) → β) (f : α → β)
    (xs : List α) (h : ∀ x, (enc x).getObject.map dec = some (f x)) :
    ((xs.map enc).filterMap fun item => item.getObject.map dec) = xs.map f := by
  rw [filterMap_map, ← filterMap_eq_map]
  exact filterMap_congr fun x _ => h x

theorem decodeCallItems_callJson : decodeCallItems (calls.map callJson) = calls := by
  rw [decodeCallItems, filterMap_objects callJson decodeCall id calls decodeCall_callJson, map_id]

theorem decodeMessage_messageJson :
    (messageJson msg).getObject.map decodeMessage = some (storedMessage msg) := by
  obtain ⟨role, content, toolCalls, toolCallId, tensors, media⟩ := msg
  have hcalls := decodeCallItems_callJson toolCalls
  have hmedia := filterMap_objects mediaJson decodeMedia id media decodeMedia_mediaJson
  simp only [messageJson, getObject, Option.map_some, Option.some.injEq]
  by_cases hm : media = []
  · subst hm
    change Message.mk role content (decodeCallItems (toolCalls.map callJson)) toolCallId [] [] = _
    rw [hcalls]
    rfl
  · rw [if_neg hm]
    change Message.mk role content (decodeCallItems (toolCalls.map callJson)) toolCallId []
      ((media.map mediaJson).filterMap fun item => item.getObject.map decodeMedia) = _
    rw [hcalls, hmedia, map_id]
    rfl

theorem decodeHistoryValue_historyJson :
    decodeHistoryValue (historyJson memory) = .ok (memory.history.map storedMessage) := by
  have h := filterMap_objects messageJson decodeMessage storedMessage memory.history decodeMessage_messageJson
  simp only [decodeHistoryValue, historyJson, getArray, h]

/-- Every string of a value that reaches a document is valid UTF-8. -/
@[mk_iff] structure ToolCall.Utf8 (tc : ToolCall) : Prop where
  id : Utf8.Valid tc.id
  name : Utf8.Valid tc.name
  arguments : Utf8.Valid tc.arguments

instance (tc : ToolCall) : Decidable tc.Utf8 := decidable_of_iff _ (ToolCall.utf8_iff tc).symm

@[mk_iff] structure Message.Utf8 (msg : Message) : Prop where
  role : Utf8.Valid msg.role
  content : Utf8.Valid msg.content
  toolCallId : Utf8.Valid msg.toolCallId
  toolCalls : ∀ tc ∈ msg.toolCalls, tc.Utf8
  media : ∀ m ∈ msg.media, Utf8.Valid m.path ∧ Utf8.Valid m.mime

instance (msg : Message) : Decidable msg.Utf8 := decidable_of_iff _ (Message.utf8_iff msg).symm

theorem valid_encodeCalls (h : ∀ tc ∈ calls, tc.Utf8) : Utf8.Valid (encodeCalls calls) := by
  rw [encodeCalls, valid_arrText, forall_mem_map]
  intro tc htc
  have hu := h tc htc
  rw [encodeCall, valid_objText]
  simp only [forall_mem_cons, not_mem_nil, false_implies, implies_true, and_true]
  exact ⟨(valid_stringField _ _ (by decide)).2 hu.id, (valid_stringField _ _ (by decide)).2 hu.name,
    (valid_stringField _ _ (by decide)).2 hu.arguments⟩

theorem valid_encodeMedia (h : Utf8.Valid m.path ∧ Utf8.Valid m.mime) : Utf8.Valid (encodeMedia m) := by
  rw [encodeMedia, valid_objText]
  simp only [forall_mem_cons, not_mem_nil, false_implies, implies_true, and_true]
  exact ⟨(valid_stringField _ _ (by decide)).2 h.1, (valid_stringField _ _ (by decide)).2 h.2⟩

theorem valid_encodeMessage (h : msg.Utf8) : Utf8.Valid (encodeMessage msg) := by
  rw [encodeMessage, valid_objText, forall_mem_append]
  simp only [forall_mem_cons, not_mem_nil, false_implies, implies_true, and_true]
  refine ⟨⟨(valid_stringField _ _ (by decide)).2 h.role, (valid_stringField _ _ (by decide)).2 h.content,
    (valid_stringField _ _ (by decide)).2 h.toolCallId,
    (valid_rawField _ _ (by decide)).2 (valid_encodeCalls _ h.toolCalls)⟩, ?_⟩
  split
  · simp
  · rw [forall_mem_singleton, valid_rawField _ _ (by decide), valid_arrText,
      forall_mem_map]
    exact fun m hm => valid_encodeMedia m (h.media m hm)

theorem valid_encodeHistoryJson (h : ∀ msg ∈ memory.history, msg.Utf8) :
    Utf8.Valid (encodeHistoryJson memory) := by
  rw [encodeHistoryJson, valid_arrText, forall_mem_map]
  exact fun msg hmsg => valid_encodeMessage msg (h msg hmsg)

end AgentCpp
