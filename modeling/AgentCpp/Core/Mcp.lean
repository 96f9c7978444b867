import AgentCpp.Core.Escape
import AgentCpp.Core.Types

/-!
# The MCP client's requests (`mcp_client.cpp`)

Newline-delimited JSON-RPC over the pipes of a child process. A request writes one line and reads
lines until the one that answers it.
-/

namespace AgentCpp.Mcp
open Lib Lib.Json List

/- The server's configuration, the JSON library and the pipe to the server: `writeError n` is how the `n`-th write
fails. -/
structure McpEnv where
  name : Bytes
  timeoutMs : ℕ
  parse : Bytes → Option Json
  toText : Json → Bytes
  writeError : ℕ → Option Bytes
  exitDetails : Bytes
  oneLine : ∀ j, 0x0A ∉ toText j

structure McpServer where
  nextId : ℤ := 1
  stdoutBuf : Bytes := []
  dead : Option Bytes := none
  written : List Bytes := []

/- What happens while the client waits for output: `expired` is the deadline seen before the next read. -/
inductive PipeEvent where
  | data (b : Bytes)
  | timeout
  | expired
  | closed
  | failed

def kMaxLineBytes : ℕ := 64 * 1024 * 1024
def kRemoteError : ErrorCode := .httpError

def clip (s : Bytes) : Bytes := if s.length ≤ 200 then s else s.take 200 ++ lit "..."

variable (env : McpEnv)

def pre : Bytes := lit "mcp server '" ++ env.name ++ lit "'"

def sendLine (line : Bytes) (s : McpServer) : McpServer :=
  let dead := match env.writeError s.written.length with
    | some msg => some (pre env ++ lit " is not accepting input (" ++ msg ++ lit ")" ++ env.exitDetails)
    | none => s.dead
  { s with written := s.written ++ [line], dead := dead }

def notifyLine (method params : Bytes) : Bytes :=
  lit "\x7b\"jsonrpc\":\"2.0\",\"method\":\"" ++ escapeJsonString method ++ lit "\"" ++
    (if params = [] then [] else lit ",\"params\":" ++ params) ++ lit "\x7d" ++ [0x0A]

def answerLine (method idText : Bytes) : Bytes :=
  lit "\x7b\"jsonrpc\":\"2.0\",\"id\":" ++ idText ++
    (if method = lit "ping" then lit ",\"result\":\x7b\x7d\x7d"
      else lit ",\"error\":\x7b\"code\":-32601,\"message\":\"Method not supported by client: " ++ escapeJsonString method ++
        lit "\"\x7d\x7d") ++ [0x0A]

def requestLine (id : ℤ) (method params : Bytes) : Bytes :=
  lit "\x7b\"jsonrpc\":\"2.0\",\"id\":" ++ decimalInt id ++ lit ",\"method\":\"" ++ escapeJsonString method ++
    lit "\",\"params\":" ++ (if params = [] then lit "\x7b\x7d" else params) ++ lit "\x7d" ++ [0x0A]

def cancelParams (id : ℤ) : Bytes := lit "\x7b\"requestId\":" ++ decimalInt id ++ lit ",\"reason\":\"timeout\"\x7d"

/- The id of a message, if it has one that is not null. -/
def messageId (fields : List (Bytes × Json)) : Option Json :=
  match field fields (lit "id") with
  | some .null => none
  | other => other

def member (j : Json) (key : Bytes) : Option Json := (getObject j).bind fun fields => field fields key

def replyOf (method : Bytes) (fields : List (Bytes × Json)) : Result Json :=
  match field fields (lit "error") with
  | some err =>
    fail kRemoteError (pre env ++ lit ": " ++ method ++ lit " failed: " ++
      ((member err (lit "message")).bind getString).getD (lit "unknown error") ++ lit " (code " ++
      decimalInt ((((member err (lit "code")).bind getInt64).map Int64.toInt).getD 0) ++ lit ")")
  | none =>
    match field fields (lit "result") with
    | some result => .ok result
    | none => fail .parseError (pre env ++ lit ": response to " ++ method ++ lit " has neither result nor error")

/- One line of the server: the answer to the request, or the server state it is skipped with. -/
def handleLine (method : Bytes) (id : ℤ) (raw : Bytes) (s : McpServer) : Result Json ⊕ McpServer :=
  let text := trim raw
  if text.head? ≠ some 0x7B then .inr s
  else
    match (env.parse text).bind getObject with
    | none => .inl (fail .parseError (pre env ++ lit " sent invalid JSON: " ++ clip text))
    | some fields =>
      match (field fields (lit "method")).bind getString with
      | some inbound =>
        match messageId fields with
        | some idEl => .inr (sendLine env (answerLine inbound (env.toText idEl)) s)
        | none => .inr s
      | none =>
        if ((messageId fields).bind getInt64).map Int64.toInt = some id then .inl (replyOf env method fields) else .inr s

/- The complete lines in the buffer. -/
def drain (method : Bytes) (id : ℤ) : ℕ → McpServer → Option (Result Json) × McpServer
  | 0, s => (none, s)
  | fuel + 1, s =>
    match find [0x0A] s.stdoutBuf with
    | none => (none, s)
    | some nl =>
      let rest := { s with stdoutBuf := s.stdoutBuf.drop (nl + 1) }
      match handleLine env method id (s.stdoutBuf.take nl) rest with
      | .inl r => (some r, rest)
      | .inr s => drain method id fuel s

def markDead (reason : Bytes) (code : ErrorCode) (s : McpServer) : Result Json × McpServer :=
  (fail code reason, { s with dead := some reason })

/- None while the client still waits. -/
def await (method : Bytes) (id : ℤ) (events : List PipeEvent) (s : McpServer) :
    Option (Result Json × McpServer × List PipeEvent) :=
  match drain env method id (s.stdoutBuf.length + 1) s with
  | (some r, s) => some (r, s, events)
  | (none, s) =>
    if s.stdoutBuf.length > kMaxLineBytes then
      let d := markDead (pre env ++ lit " sent a line longer than " ++ decimal kMaxLineBytes ++ lit " bytes") .parseError s
      some (d.1, d.2, events)
    else
      match events with
      | [] => none
      | .data b :: rest => await method id rest { s with stdoutBuf := s.stdoutBuf ++ b }
      | .timeout :: rest => await method id rest s
      | .expired :: rest =>
        some (fail .networkError (pre env ++ lit ": " ++ method ++
            lit " timed out after " ++ decimal env.timeoutMs ++ lit " ms"),
          sendLine env (notifyLine (lit "notifications/cancelled") (cancelParams id)) s, rest)
      | .closed :: rest =>
        let d := markDead (pre env ++ lit " exited while waiting for " ++ method ++ env.exitDetails) .networkError s
        some (d.1, d.2, rest)
      | .failed :: rest =>
        let d := markDead (pre env ++ lit " stdout read failed while waiting for " ++ method ++ env.exitDetails)
          .networkError s
        some (d.1, d.2, rest)
  termination_by structural events

def request (method params : Bytes) (events : List PipeEvent) (s : McpServer) :
    Option (Result Json × McpServer × List PipeEvent) :=
  match s.dead with
  | some reason => some (fail .networkError (pre env ++ lit " is not running: " ++ reason), s, events)
  | none =>
    let t := sendLine env (requestLine s.nextId method params) { s with nextId := s.nextId + 1 }
    match t.dead with
    | some reason => some (fail .networkError reason, t, events)
    | none => await env method s.nextId events t

inductive McpCall where
  | handshake
  | listTools (cursor : Bytes)
  | callTool (name arguments : Bytes)
  deriving DecidableEq

def McpCall.method : McpCall → Bytes
  | .handshake => lit "initialize"
  | .listTools _ => lit "tools/list"
  | .callTool _ _ => lit "tools/call"

def callArguments (arguments : Bytes) : Result Bytes :=
  if trim arguments = [] then .ok (lit "\x7b\x7d")
  else
    match env.parse (trim arguments) with
    | none => fail .parseError (lit "arguments are not valid JSON")
    | some parsed =>
      if (getObject parsed).isSome then .ok (env.toText parsed)
      else fail .parseError (lit "arguments must be a JSON object")

def McpCall.params : McpCall → Result Bytes
  | .handshake => .ok (lit "\x7b\"protocolVersion\":\"2025-06-18\",\"capabilities\":\x7b\x7d,\"clientInfo\":\x7b\"name\":\"agent.cpp\",\"version\":\"0.1.0\"\x7d\x7d")
  | .listTools cursor =>
    .ok (if cursor = [] then lit "\x7b\x7d" else lit "\x7b\"cursor\":\"" ++ escapeJsonString cursor ++ lit "\"\x7d")
  | .callTool name arguments =>
    (callArguments env arguments).map fun args =>
      lit "\x7b\"name\":\"" ++ escapeJsonString name ++ lit "\",\"arguments\":" ++ args ++ lit "\x7d"

/- A call, and the notification that ends the handshake. -/
def mcpCall (call : McpCall) (events : List PipeEvent) (s : McpServer) :
    Option (Result Json × McpServer × List PipeEvent) :=
  match call.params env with
  | .error e => some (.error e, s, events)
  | .ok params =>
    (request env call.method params events s).map fun (r, t, rest) =>
      (r, if call = .handshake ∧ r.isOk then sendLine env (notifyLine (lit "notifications/initialized") []) t else t, rest)

def mcpRun : List McpCall → List PipeEvent → McpServer → Option (McpServer × List PipeEvent)
  | [], events, s => some (s, events)
  | call :: calls, events, s => (mcpCall env call events s).bind fun (_, t, rest) => mcpRun calls rest t

def OneLine (line : Bytes) : Prop := ∃ body, line = body ++ [0x0A] ∧ 0x0A ∉ body

section Lines

variable {env}

theorem newline_not_mem_escape (s : Bytes) : 0x0A ∉ escapeJsonString s := by
  have hall : ∀ i : Fin 256, 0x0A ∉ escapeByte (UInt8.ofNat i) := by decide +kernel
  intro hmem
  obtain ⟨c, -, hc⟩ := mem_flatMap.1 hmem
  have hno := hall ⟨c.toNat, c.toNat_lt⟩
  simp only [UInt8.ofNat_toNat] at hno
  exact hno hc

theorem newline_not_mem_decimalInt (i : ℤ) : 0x0A ∉ decimalInt i := by
  have hdigits : 0x0A ∉ decimal i.natAbs := fun hmem => absurd (decimal_digits _ _ hmem) (by decide)
  unfold decimalInt
  split
  · exact fun hmem => (mem_cons.1 hmem).elim (by decide) hdigits
  · exact hdigits

theorem oneLine_requestLine (id : ℤ) (method : Bytes) {params : Bytes} (hparams : 0x0A ∉ params) :
    OneLine (requestLine id method params) := by
  have hbody : 0x0A ∉ if params = [] then lit "\x7b\x7d" else params := by
    split
    · decide +kernel
    · exact hparams
  refine ⟨_, rfl, ?_⟩
  simp only [mem_append, not_or]
  exact ⟨⟨⟨⟨⟨⟨by decide +kernel, newline_not_mem_decimalInt id⟩, by decide +kernel⟩, newline_not_mem_escape method⟩,
    by decide +kernel⟩, hbody⟩, by decide +kernel⟩

theorem oneLine_notifyLine (method : Bytes) {params : Bytes} (hparams : 0x0A ∉ params) :
    OneLine (notifyLine method params) := by
  have hbody : 0x0A ∉ if params = [] then [] else lit ",\"params\":" ++ params := by
    split
    · exact not_mem_nil
    · exact fun hmem => (mem_append.1 hmem).elim (by decide +kernel) hparams
  refine ⟨_, rfl, ?_⟩
  simp only [mem_append, not_or]
  exact ⟨⟨⟨⟨by decide +kernel, newline_not_mem_escape method⟩, by decide +kernel⟩, hbody⟩, by decide +kernel⟩

theorem oneLine_answerLine (method : Bytes) {idText : Bytes} (hid : 0x0A ∉ idText) : OneLine (answerLine method idText) := by
  refine ⟨_, rfl, ?_⟩
  simp only [mem_append, not_or]
  refine ⟨⟨by decide +kernel, hid⟩, ?_⟩
  split
  · decide +kernel
  · simp only [mem_append, not_or]
    exact ⟨⟨by decide +kernel, newline_not_mem_escape method⟩, by decide +kernel⟩

theorem newline_not_mem_params {call : McpCall} {params : Bytes} (h : call.params env = .ok params) : 0x0A ∉ params := by
  cases call with
  | handshake =>
    cases h
    decide +kernel
  | listTools cursor =>
    cases h
    split
    · decide +kernel
    · simp only [mem_append, not_or]
      exact ⟨⟨by decide +kernel, newline_not_mem_escape cursor⟩, by decide +kernel⟩
  | callTool name arguments =>
    simp only [McpCall.params] at h
    cases hargs : callArguments env arguments with
    | error e =>
      rw [hargs] at h
      cases h
    | ok args =>
      have hno : 0x0A ∉ args := by
        unfold callArguments at hargs
        split at hargs
        · cases hargs
          decide +kernel
        · split at hargs
          · cases hargs
          · split at hargs
            · cases hargs
              exact env.oneLine _
            · cases hargs
      rw [hargs] at h
      cases h
      simp only [mem_append, not_or]
      exact ⟨⟨⟨⟨by decide +kernel, newline_not_mem_escape name⟩, by decide +kernel⟩, hno⟩, by decide +kernel⟩

end Lines

/- The line answers request `id`, and `r` is what it says. -/
def IsReply (method : Bytes) (id : ℤ) (line : Bytes) (r : Result Json) : Prop :=
  (trim line).head? = some 0x7B ∧ ∃ fields, (env.parse (trim line)).bind getObject = some fields ∧
    (field fields (lit "method")).bind getString = none ∧
    ((messageId fields).bind getInt64).map Int64.toInt = some id ∧ r = replyOf env method fields

def FromServer (r : Result Json) : Prop := ∀ e, r = .error e → e.code = kRemoteError

theorem not_fromServer {code : ErrorCode} (h : code ≠ kRemoteError) (msg : Bytes) : ¬FromServer (fail code msg) :=
  fun hr => h (hr _ rfl)

/- From `before`, lines that answer nothing are taken off and `rest` is left. -/
def Skips (method : Bytes) (id : ℤ) (before rest : Bytes) : Prop :=
  ∃ lines : List Bytes, before = lines.flatMap (· ++ [0x0A]) ++ rest ∧
    ∀ l ∈ lines, 0x0A ∉ l ∧ ∀ r, ¬IsReply env method id l r

def dataOf (events : List PipeEvent) : Bytes :=
  events.flatMap fun e => match e with
    | .data b => b
    | _ => []

def Extends (s t : McpServer) : Prop := ∃ more, t.written = s.written ++ more ∧ ∀ l ∈ more, OneLine l

section Reply

variable {env} {method : Bytes} {id : ℤ} {s t : McpServer}

variable {a b : Bytes} {events rest : List PipeEvent} {r : Result Json}

theorem Skips.trans {c : Bytes} (h : Skips env method id a b) (h' : Skips env method id b c) :
    Skips env method id a c := by
  obtain ⟨lines, rfl, hlines⟩ := h
  obtain ⟨lines', rfl, hlines'⟩ := h'
  exact ⟨lines ++ lines', by simp, fun l hl => (mem_append.1 hl).elim (hlines l) (hlines' l)⟩

theorem Skips.append (h : Skips env method id a b) (tail : Bytes) : Skips env method id (a ++ tail) (b ++ tail) := by
  obtain ⟨lines, rfl, hlines⟩ := h
  exact ⟨lines, by simp, hlines⟩

theorem Extends.refl (s : McpServer) : Extends s s := ⟨[], (append_nil _).symm, nofun⟩

theorem Extends.trans {u : McpServer} (h : Extends s t) (h' : Extends t u) : Extends s u := by
  obtain ⟨more, hmore, hlines⟩ := h
  obtain ⟨more', hmore', hlines'⟩ := h'
  exact ⟨more ++ more', by rw [hmore', hmore, append_assoc], fun l hl => (mem_append.1 hl).elim (hlines l) (hlines' l)⟩

theorem Extends.mem {line : Bytes} (h : Extends s t) (hmem : line ∈ s.written) : line ∈ t.written := by
  obtain ⟨more, hmore, -⟩ := h
  rw [hmore]
  exact mem_append_left more hmem

theorem extends_sendLine {line : Bytes} (h : OneLine line) : Extends s (sendLine env line s) :=
  ⟨[line], rfl, fun _ hl => mem_singleton.1 hl ▸ h⟩

theorem handleLine_cases (env : McpEnv) (method : Bytes) (id : ℤ) (raw : Bytes) (s : McpServer) :
    (∃ t, handleLine env method id raw s = .inr t ∧ t.stdoutBuf = s.stdoutBuf ∧ Extends s t ∧
        ∀ r, ¬IsReply env method id raw r) ∨
      (∃ e : Error, e.code ≠ kRemoteError ∧ handleLine env method id raw s = .inl (.error e)) ∨
      ∃ r, handleLine env method id raw s = .inl r ∧ IsReply env method id raw r := by
  unfold handleLine IsReply
  by_cases hhead : (trim raw).head? = some 0x7B
  · simp only [hhead, true_and]
    cases hparse : (env.parse (trim raw)).bind getObject with
    | none => exact .inr (.inl ⟨_, (by decide : ErrorCode.parseError ≠ kRemoteError), rfl⟩)
    | some fields =>
      cases hmethod : (field fields (lit "method")).bind getString with
      | some inbound =>
        refine .inl ?_
        simp only [hmethod]
        have hother : ∀ r, ¬∃ fields', some fields = some fields' ∧ (field fields' (lit "method")).bind getString = none ∧
            ((messageId fields').bind getInt64).map Int64.toInt = some id ∧ r = replyOf env method fields' := by
          rintro r ⟨_, ⟨⟩, hnone, -⟩
          rw [hmethod] at hnone
          cases hnone
        cases messageId fields with
        | some idEl => exact ⟨_, rfl, rfl, extends_sendLine (oneLine_answerLine _ (env.oneLine _)), hother⟩
        | none => exact ⟨s, rfl, rfl, Extends.refl s, hother⟩
      | none =>
        simp only [hmethod]
        by_cases hid : ((messageId fields).bind getInt64).map Int64.toInt = some id
        · rw [if_pos hid]
          exact .inr (.inr ⟨_, rfl, fields, rfl, hmethod, hid, rfl⟩)
        · rw [if_neg hid]
          refine .inl ⟨s, rfl, rfl, Extends.refl s, ?_⟩
          rintro r ⟨_, ⟨⟩, -, hid', -⟩
          exact hid hid'
  · exact .inl ⟨s, by simp [hhead], rfl, Extends.refl s, by simp [hhead]⟩

theorem drain_spec (env : McpEnv) (method : Bytes) (id : ℤ) (fuel : ℕ) (s : McpServer) :
    Extends s (drain env method id fuel s).2 ∧
      match (drain env method id fuel s).1 with
      | none => Skips env method id s.stdoutBuf (drain env method id fuel s).2.stdoutBuf
      | some r => FromServer r → ∃ line, 0x0A ∉ line ∧ IsReply env method id line r ∧
          Skips env method id s.stdoutBuf (line ++ 0x0A :: (drain env method id fuel s).2.stdoutBuf) := by
  induction fuel generalizing s with
  | zero => exact ⟨Extends.refl s, [], rfl, nofun⟩
  | succ fuel ih =>
    unfold drain
    cases hnl : find [0x0A] s.stdoutBuf with
    | none => exact ⟨Extends.refl s, [], rfl, nofun⟩
    | some nl =>
      obtain ⟨hsplit, hline⟩ := find_singleton hnl
      rcases handleLine_cases env method id (s.stdoutBuf.take nl) { s with stdoutBuf := s.stdoutBuf.drop (nl + 1) } with
        ⟨t, ht, hbuf, hext, hno⟩ | ⟨e, hcode, he⟩ | ⟨r, hr, hreply⟩
      · obtain ⟨hext', hrest⟩ := ih t
        have hskip : Skips env method id s.stdoutBuf t.stdoutBuf :=
          ⟨[s.stdoutBuf.take nl], by rw [hbuf]; simpa using hsplit, by simpa using ⟨hline, hno⟩⟩
        simp only [ht]
        refine ⟨hext.trans hext', ?_⟩
        cases hdrain : (drain env method id fuel t).1 with
        | none =>
          rw [hdrain] at hrest
          exact hskip.trans hrest
        | some r =>
          rw [hdrain] at hrest
          intro hremote
          obtain ⟨line, hno, hreply, hskip'⟩ := hrest hremote
          exact ⟨line, hno, hreply, hskip.trans hskip'⟩
      · simp only [he]
        exact ⟨Extends.refl s, fun hremote => absurd (hremote e rfl) hcode⟩
      · simp only [hr]
        exact ⟨Extends.refl s, fun _ => ⟨_, hline, hreply, [], by simpa using hsplit, nofun⟩⟩

/- What ended a request was the answer to it, and the lines in front of it are gone. -/
def Answered (env : McpEnv) (method : Bytes) (id : ℤ) (before : Bytes) (events rest : List PipeEvent) (r : Result Json)
    (after : Bytes) : Prop :=
  ∃ consumed line, events = consumed ++ rest ∧ 0x0A ∉ line ∧ IsReply env method id line r ∧
    Skips env method id (before ++ dataOf consumed) (line ++ 0x0A :: after)

theorem Answered.after {e : PipeEvent} {after : Bytes} (hskip : Skips env method id a b)
    (h : Answered env method id (b ++ dataOf [e]) events rest r after) :
    Answered env method id a (e :: events) rest r after := by
  obtain ⟨consumed, line, rfl, hno, hreply, hskip'⟩ := h
  refine ⟨e :: consumed, line, rfl, hno, hreply, ?_⟩
  have hdata : dataOf (e :: consumed) = dataOf [e] ++ dataOf consumed := by simp [dataOf]
  rw [hdata, ← append_assoc]
  exact ((hskip.append _).append _).trans hskip'

theorem await_spec (events : List PipeEvent) (s : McpServer) (h : await env method id events s = some (r, t, rest)) :
    Extends s t ∧ (FromServer r → Answered env method id s.stdoutBuf events rest r t.stdoutBuf) := by
  obtain ⟨hext, hdrain⟩ := drain_spec env method id (s.stdoutBuf.length + 1) s
  rw [await] at h
  rcases hd : drain env method id (s.stdoutBuf.length + 1) s with ⟨_ | r', u⟩
  · simp only [hd] at h hext hdrain
    split at h
    · cases h
      exact ⟨hext, fun hremote => absurd hremote (not_fromServer (by decide) _)⟩
    · cases events with
      | nil => cases h
      | cons e events =>
        cases e with
        | data b =>
          obtain ⟨hext', hanswered⟩ := await_spec events _ h
          exact ⟨hext.trans hext', fun hremote => .after hdrain (by simpa [dataOf] using hanswered hremote)⟩
        | timeout =>
          obtain ⟨hext', hanswered⟩ := await_spec events _ h
          exact ⟨hext.trans hext', fun hremote => .after hdrain (by simpa [dataOf] using hanswered hremote)⟩
        | expired =>
          cases h
          refine ⟨hext.trans (extends_sendLine (oneLine_notifyLine _ ?_)), fun hremote =>
            absurd hremote (not_fromServer (by decide) _)⟩
          simp only [cancelParams, mem_append, not_or]
          exact ⟨⟨by decide +kernel, newline_not_mem_decimalInt id⟩, by decide +kernel⟩
        | closed =>
          cases h
          exact ⟨hext, fun hremote => absurd hremote (not_fromServer (by decide) _)⟩
        | failed =>
          cases h
          exact ⟨hext, fun hremote => absurd hremote (not_fromServer (by decide) _)⟩
  · simp only [hd] at h hext hdrain
    cases h
    refine ⟨hext, fun hremote => ?_⟩
    obtain ⟨line, hno, hreply, hskip⟩ := hdrain hremote
    exact ⟨[], line, rfl, hno, hreply, by simpa [dataOf] using hskip⟩
termination_by events.length

theorem request_spec {params : Bytes} (hparams : 0x0A ∉ params)
    (h : request env method params events s = some (r, t, rest)) :
    Extends s t ∧ (FromServer r → requestLine s.nextId method params ∈ t.written ∧
      Answered env method s.nextId s.stdoutBuf events rest r t.stdoutBuf) := by
  unfold request at h
  cases hdead : s.dead with
  | some reason =>
    rw [hdead] at h
    cases h
    exact ⟨Extends.refl s, fun hremote => absurd hremote (not_fromServer (by decide) _)⟩
  | none =>
    simp only [hdead] at h
    generalize hu : sendLine env (requestLine s.nextId method params) _ = u at h
    have hsent : Extends s u := hu ▸ extends_sendLine (oneLine_requestLine s.nextId method hparams)
    have hmem : requestLine s.nextId method params ∈ u.written := by simp [← hu, sendLine]
    have hbuf : u.stdoutBuf = s.stdoutBuf := by simp [← hu, sendLine]
    split at h
    · cases h
      exact ⟨hsent, fun hremote => absurd hremote (not_fromServer (by decide) _)⟩
    · obtain ⟨hext, hanswered⟩ := await_spec events u h
      rw [hbuf] at hanswered
      exact ⟨hsent.trans hext, fun hremote => ⟨hext.mem hmem, hanswered hremote⟩⟩

theorem callArguments_error {arguments : Bytes} {e : Error} (h : callArguments env arguments = .error e) :
    e.code = .parseError := by
  unfold callArguments at h
  split at h
  · cases h
  · split at h
    · cases h
      rfl
    · split at h
      · cases h
      · cases h
        rfl

theorem not_fromServer_params {call : McpCall} {e : Error} (h : call.params env = .error e) : ¬FromServer (.error e) := by
  cases call with
  | handshake => cases h
  | listTools cursor => cases h
  | callTool name arguments =>
    simp only [McpCall.params] at h
    cases hargs : callArguments env arguments with
    | ok args =>
      rw [hargs] at h
      cases h
    | error e' =>
      rw [hargs] at h
      cases h
      have hcode := callArguments_error hargs
      exact fun hremote => absurd (hremote e rfl) (by rw [hcode]; decide)

theorem mcpCall_spec {call : McpCall} (h : mcpCall env call events s = some (r, t, rest)) :
    Extends s t ∧ (FromServer r →
      (∃ params, call.params env = .ok params ∧ requestLine s.nextId call.method params ∈ t.written) ∧
        Answered env call.method s.nextId s.stdoutBuf events rest r t.stdoutBuf) := by
  unfold mcpCall at h
  cases hparams : call.params env with
  | error e =>
    rw [hparams] at h
    cases h
    exact ⟨Extends.refl _, fun hremote => absurd hremote (not_fromServer_params hparams)⟩
  | ok params =>
    simp only [hparams, Option.map_eq_some_iff] at h
    obtain ⟨⟨r', u, rest'⟩, hrequest, heq⟩ := h
    obtain ⟨hext, hanswered⟩ := request_spec (newline_not_mem_params hparams) hrequest
    obtain ⟨rfl, rfl, rfl⟩ := heq
    split
    · have hnote : Extends u (sendLine env (notifyLine (lit "notifications/initialized") []) u) :=
        extends_sendLine (oneLine_notifyLine _ not_mem_nil)
      refine ⟨hext.trans hnote, fun hremote => ?_⟩
      obtain ⟨hmem, hline⟩ := hanswered hremote
      exact ⟨⟨params, rfl, hnote.mem hmem⟩, hline⟩
    · refine ⟨hext, fun hremote => ?_⟩
      obtain ⟨hmem, hline⟩ := hanswered hremote
      exact ⟨⟨params, rfl, hmem⟩, hline⟩

theorem mcpRun_extends {calls : List McpCall} (h : mcpRun env calls events s = some (t, rest)) : Extends s t := by
  induction calls generalizing events s with
  | nil =>
    cases h
    exact Extends.refl _
  | cons call calls ih =>
    simp only [mcpRun, Option.bind_eq_some_iff] at h
    obtain ⟨⟨r, u, rest'⟩, hcall, hrun⟩ := h
    exact (mcpCall_spec hcall).1.trans (ih hrun)

end Reply

/-- After any calls to one server, with any output in any pieces: the next call answers only from a line with the id it
wrote. The lines up to that one are consumed, what follows is left, and each message written is one line. -/
theorem mcp_requests (calls : List McpCall) (call : McpCall) {events mid rest : List PipeEvent} {s t : McpServer}
    {r : Result Json} (hrun : mcpRun env calls events {} = some (s, mid))
    (hcall : mcpCall env call mid s = some (r, t, rest)) : (∀ l ∈ t.written, OneLine l) ∧ (FromServer r →
      (∃ params, call.params env = .ok params ∧ requestLine s.nextId call.method params ∈ t.written) ∧
        Answered env call.method s.nextId s.stdoutBuf mid rest r t.stdoutBuf) := by
  obtain ⟨hext, hanswered⟩ := mcpCall_spec hcall
  obtain ⟨more, hmore, hlines⟩ := (mcpRun_extends hrun).trans hext
  refine ⟨fun l hl => hlines l ?_, hanswered⟩
  rw [hmore] at hl
  exact hl

def echoEnv : McpEnv where
  name := lit "echo"
  timeoutMs := 1000
  parse := fun text =>
    if text = lit "\x7b1\x7d" then some (.obj [(lit "id", .int 1), (lit "result", .obj [])])
    else some (.obj [(lit "id", .int 2), (lit "result", .null)])
  toText := fun _ => lit "0"
  writeError := fun _ => none
  exitDetails := []
  oneLine := fun _ => by decide +kernel

/- The first request times out. Its late answer and a blank line come before the second one's, in two reads. -/
theorem mcp_requests_late : ∃ s t mid, mcpRun echoEnv [.handshake] [.expired, .data (lit "\x7b1"),
      .data (lit "\x7d\n\n\x7b2\x7d\n\x7b3")] {} = some (s, mid) ∧
    mcpCall echoEnv (.listTools []) mid s = some (.ok .null, t, []) ∧ t.stdoutBuf = lit "\x7b3" ∧
    (∀ l ∈ t.written, OneLine l) ∧ Answered echoEnv (lit "tools/list") 2 [] mid [] (.ok .null) (lit "\x7b3") := by
  obtain ⟨s, t, mid, hrun, hcall, hid, hbuf, hrest⟩ : ∃ s t mid, mcpRun echoEnv [.handshake] [.expired,
      .data (lit "\x7b1"), .data (lit "\x7d\n\n\x7b2\x7d\n\x7b3")] {} = some (s, mid) ∧
      mcpCall echoEnv (.listTools []) mid s = some (.ok .null, t, []) ∧ s.nextId = 2 ∧ s.stdoutBuf = [] ∧
      t.stdoutBuf = lit "\x7b3" := ⟨_, _, _, rfl, rfl, rfl, rfl, rfl⟩
  obtain ⟨hlines, hanswered⟩ := mcp_requests echoEnv [.handshake] (.listTools []) hrun hcall
  have hanswer := (hanswered nofun).2
  rw [hid, hbuf, hrest] at hanswer
  exact ⟨s, t, mid, hrun, hcall, hrest, hlines, hanswer⟩

end AgentCpp.Mcp
