import AgentCpp.Engines.Ipc
import AgentCpp.Lib.Machine

/-!
# Reading what was written

A request or response is read back as it was, whichever of its payloads went into the segment, and
the reader ends at the end of the frame.
-/

namespace AgentCpp.Ipc
open Lib List

/- What the pointers stand for: a null pointer means empty. -/
def Span.plain {α : Type} (s : Span α) : Span α := .ptr s.items

def Part.plain (p : Part) : Part where
  kind := p.kind
  text := p.text.plain
  path := p.path.plain
  mime := p.mime.plain
  name := p.name.plain
  dtype := p.dtype
  shape := p.shape.plain
  data := p.data.plain

def Call.plain (c : Call) : Call := ⟨c.id.plain, c.name.plain, c.arguments.plain⟩

def Message.plain (m : Message) : Message where
  role := m.role.plain
  parts := .ptr (m.parts.items.map Part.plain)
  toolCalls := .ptr (m.toolCalls.items.map Call.plain)
  toolCallId := m.toolCallId.plain

def Request.plain (r : Request) : Request where
  task := r.task
  flags := r.flags
  messages := .ptr (r.messages.items.map Message.plain)
  toolsJson := r.toolsJson.plain
  paramsJson := r.paramsJson.plain
  outputDir := r.outputDir.plain

def Response.plain (r : Response) : Response := { r with message := r.message.plain }

section Denote

variable (payload : Bytes) (shm : Option Bytes)

def View.bytes (mem : Bytes) (v : View) : Bytes := (mem.drop v.off).take v.size

def denoteStr (v : Option View) : Str := .ptr ((v.map (View.bytes payload)).getD [])

def denoteArray {α β : Type} (f : α → β) (a : Option (Placed α)) : Span β :=
  .ptr ((a.map fun p => p.items.map f).getD [])

def denoteData : Option DataView → Span UInt8
  | none => .ptr []
  | some (.frame v) => .ptr (v.bytes payload)
  | some (.segment v) => .ptr (v.bytes (shm.getD []))

def PartView.denote (p : PartView) : Part where
  kind := p.kind
  text := denoteStr payload p.text
  path := denoteStr payload p.path
  mime := denoteStr payload p.mime
  name := denoteStr payload p.name
  dtype := p.dtype
  shape := denoteArray id p.shape
  data := denoteData payload shm p.data

def CallView.denote (c : CallView) : Call :=
  ⟨denoteStr payload c.id, denoteStr payload c.name, denoteStr payload c.arguments⟩

def MessageView.denote (m : MessageView) : Message where
  role := denoteStr payload m.role
  parts := denoteArray (PartView.denote payload shm) m.parts
  toolCalls := denoteArray (CallView.denote payload) m.toolCalls
  toolCallId := denoteStr payload m.toolCallId

def RequestView.denote (r : RequestView) : Request where
  task := r.task
  flags := r.flags
  messages := denoteArray (MessageView.denote payload shm) r.messages
  toolsJson := denoteStr payload r.toolsJson
  paramsJson := denoteStr payload r.paramsJson
  outputDir := denoteStr payload r.outputDir

def ResponseView.denote (r : ResponseView) : Response :=
  ⟨r.message.denote payload shm, r.promptTokens, r.completionTokens⟩

end Denote

def ShmOut.bytes (shm : ShmOut) : Bytes := shm.mem.items

theorem ShmOut.bytes_eq {shm : ShmOut} {mem : Bytes} (h : shm.mem = .ptr mem) : shm.bytes = mem := congrArg Span.items h

theorem subSize_eq {a b : ℕ} (hb : b ≤ a) (ha : a < 2 ^ 63) : subSize a b = a - b := by
  unfold subSize
  omega

theorem place_some {shm shm' : ShmOut} {p : Span UInt8} {off : ℕ} (hused : shm.used ≤ shm.bytes.length)
    (h : shm.place p = some (off, shm')) :
    ∃ mem mem', shm.mem = .ptr mem ∧ shm'.mem = .ptr mem' ∧ mem'.length = mem.length ∧ shm.used ≤ shm'.used ∧
      shm'.used ≤ mem.length ∧ mem'.take shm.used = mem.take shm.used ∧ off + p.items.length ≤ shm'.used ∧
      (mem'.drop off).take p.items.length = p.items := by
  obtain ⟨mem, used, threshold, count, fits⟩ := shm
  cases p with
  | null n => cases mem <;> cases h
  | ptr bytes =>
    cases mem with
    | null n => cases h
    | ptr mem =>
      change used ≤ mem.length at hused
      change mem.length < 2 ^ 63 at fits
      unfold ShmOut.place at h
      simp only at h
      split at h
      swap
      · cases h
      next hplace =>
      rw [subSize_eq hused fits] at hplace
      cases h
      have hpoke : poke mem off bytes = mem.take off ++ bytes ++ mem.drop (off + bytes.length) := by
        exact if_pos (by omega)
      have hnext : off + bytes.length ≤ alignUp (off + bytes.length) := by
        unfold alignUp
        omega
      have htake : (mem.take off).length = off := by
        rw [length_take]
        omega
      refine ⟨mem, _, rfl, rfl, length_poke _ _ _, ?_, ?_, ?_, ?_, ?_⟩
      · change off ≤ if _ then _ else _
        split <;> omega
      · change (if mem.length < _ then _ else _) ≤ mem.length
        split <;> omega
      · change (poke mem off bytes).take off = mem.take off
        rw [hpoke, append_assoc, take_append_of_le_length (le_of_eq htake.symm), take_of_length_le]
        exact le_of_eq htake
      · change off + bytes.length ≤ if _ then _ else _
        split <;> omega
      · change ((poke mem off bytes).drop off).take bytes.length = bytes
        rw [hpoke, append_assoc, drop_append_of_le_length (le_of_eq htake.symm),
          drop_of_length_le (le_of_eq htake), nil_append, take_left]

def strBytes (s : Str) : Bytes := leBytes 4 (UInt32.ofNat s.items.length).toNat ++ s.items

/- With the segment after the payload. -/
def dataBytes (shm : Option ShmOut) (p : Span UInt8) : Bytes × Option ShmOut :=
  match shm.bind (·.place p) with
  | some (used, shm') => (leBytes 8 p.items.length ++ (leBytes 4 1 ++ leBytes 8 used), some shm')
  | none => (leBytes 8 p.items.length ++ (leBytes 4 0 ++ p.items), shm)

def listBytes {α : Type} (bytes : Option ShmOut → α → Bytes × Option ShmOut) :
    Option ShmOut → List α → Bytes × Option ShmOut
  | shm, [] => ([], shm)
  | shm, a :: as => ((bytes shm a).1 ++ (listBytes bytes (bytes shm a).2 as).1, (listBytes bytes (bytes shm a).2 as).2)

def dimBytes (shm : Option ShmOut) (v : Int64) : Bytes × Option ShmOut := (leBytes 8 v.toUInt64.toNat, shm)

def countBytes (n : ℕ) : Bytes := leBytes 4 (UInt32.ofNat n).toNat

def partBytes (shm : Option ShmOut) (p : Part) : Bytes × Option ShmOut :=
  (leBytes 4 p.kind.toNat ++ (strBytes p.text ++ (strBytes p.path ++ (strBytes p.mime ++ (strBytes p.name ++
    (leBytes 4 p.dtype.toNat ++ (countBytes p.shape.items.length ++
      ((listBytes dimBytes shm p.shape.items).1 ++ (dataBytes shm p.data).1))))))), (dataBytes shm p.data).2)

def callBytes (shm : Option ShmOut) (c : Call) : Bytes × Option ShmOut :=
  (strBytes c.id ++ (strBytes c.name ++ strBytes c.arguments), shm)

def messageBytes (shm : Option ShmOut) (m : Message) : Bytes × Option ShmOut :=
  let parts := listBytes partBytes shm m.parts.items
  (strBytes m.role ++ (countBytes m.parts.items.length ++ (parts.1 ++ (countBytes m.toolCalls.items.length ++
    ((listBytes callBytes parts.2 m.toolCalls.items).1 ++ strBytes m.toolCallId)))), parts.2)

def requestBytes (shm : Option ShmOut) (r : Request) (runFlags : UInt32) : Bytes × Option ShmOut :=
  let messages := listBytes messageBytes shm r.messages.items
  (leBytes 4 r.task.toNat ++ (leBytes 4 r.flags.toNat ++ (leBytes 4 runFlags.toNat ++
    (countBytes r.messages.items.length ++ (messages.1 ++
      (strBytes r.toolsJson ++ (strBytes r.paramsJson ++ strBytes r.outputDir)))))), messages.2)

def responseBytes (shm : Option ShmOut) (r : Response) : Bytes × Option ShmOut :=
  let message := messageBytes shm r.message
  (message.1 ++ (leBytes 4 r.promptTokens.toUInt32.toNat ++ leBytes 4 r.completionTokens.toUInt32.toNat), message.2)

def Writer.with (w : Writer) (bytes : Bytes × Option ShmOut) : Writer :=
  { w with out := w.out ++ bytes.1, shm := bytes.2 }

variable (w : Writer)

theorem str_with (s : Str) : w.str s = w.with (strBytes s, w.shm) := by
  unfold Writer.str Writer.u32 Writer.raw Writer.with strBytes
  simp only [append_assoc]

theorem data_with (p : Span UInt8) : w.data p = w.with (dataBytes w.shm p) := by
  unfold Writer.data dataBytes
  simp only [Writer.u64, Writer.u32, Writer.raw]
  cases w.shm.bind (·.place p) with
  | none =>
    simp only [append_assoc]
    rfl
  | some placed =>
    simp only [append_assoc]
    rfl

theorem foldl_with {α : Type} {write : Writer → α → Writer} {bytes : Option ShmOut → α → Bytes × Option ShmOut}
    (h : ∀ w a, write w a = w.with (bytes w.shm a)) (as : List α) (w : Writer) :
    as.foldl write w = w.with (listBytes bytes w.shm as) := by
  induction as generalizing w with
  | nil =>
    unfold Writer.with listBytes
    simp only [append_nil]
    rfl
  | cons a as ih =>
    rw [foldl_cons, ih, h]
    simp only [Writer.with, listBytes, append_assoc]

theorem dims_with (as : List Int64) (w : Writer) : as.foldl Writer.i64 w = w.with (listBytes dimBytes w.shm as) := by
  have hdim : ∀ (w : Writer) (v : Int64), w.i64 v = w.with (dimBytes w.shm v) := fun _ _ => rfl
  exact foldl_with hdim as w

theorem listBytes_shm {α : Type} {bytes : Option ShmOut → α → Bytes × Option ShmOut} (h : ∀ shm a, (bytes shm a).2 = shm)
    (shm : Option ShmOut) (as : List α) : (listBytes bytes shm as).2 = shm := by
  induction as generalizing shm with
  | nil => rfl
  | cons a as ih => exact (ih _).trans (h shm a)

theorem dims_shm (shm : Option ShmOut) (as : List Int64) : (listBytes dimBytes shm as).2 = shm :=
  listBytes_shm (fun _ _ => rfl) shm as

theorem calls_shm (shm : Option ShmOut) (as : List Call) : (listBytes callBytes shm as).2 = shm :=
  listBytes_shm (fun _ _ => rfl) shm as

theorem part_with (p : Part) : w.part p = w.with (partBytes w.shm p) := by
  unfold Writer.part
  simp only [str_with, data_with, dims_with, Writer.u32, Writer.raw, Writer.with, dims_shm, partBytes, countBytes,
    append_assoc]

theorem call_with (c : Call) : w.call c = w.with (callBytes w.shm c) := by
  unfold Writer.call
  simp only [str_with, Writer.with, callBytes, append_assoc]

theorem message_with (m : Message) : w.message m = w.with (messageBytes w.shm m) := by
  unfold Writer.message
  simp only [str_with, foldl_with part_with, foldl_with call_with, calls_shm, Writer.u32, Writer.raw, Writer.with,
    messageBytes, countBytes, append_assoc]

theorem request_with (r : Request) (runFlags : UInt32) :
    w.request r runFlags = w.with (requestBytes w.shm r runFlags) := by
  unfold Writer.request
  simp only [str_with, foldl_with message_with, Writer.u32, Writer.raw, Writer.with, requestBytes, countBytes,
    append_assoc]

theorem response_with (r : Response) : w.response r = w.with (responseBytes w.shm r) := by
  unfold Writer.response
  simp only [message_with, Writer.i32, Writer.raw, Writer.with, responseBytes, append_assoc]

/- The segment's memory when the frame is read: nothing below `used` has changed. -/
def Agrees (out : Option ShmOut) (segment : Option Bytes) : Prop :=
  ∀ shm ∈ out, ∀ mem, shm.mem = .ptr mem →
    ∃ final, segment = some final ∧ final.length = mem.length ∧ final.take shm.used = mem.take shm.used

def Roomy (out : Option ShmOut) : Prop := ∀ shm ∈ out, shm.used ≤ shm.bytes.length

/- What writing does to the segment. -/
def Grew (out out' : Option ShmOut) : Prop :=
  Roomy out → Roomy out' ∧ ∀ segment, Agrees out' segment → Agrees out segment

theorem Grew.refl (out : Option ShmOut) : Grew out out := fun hroomy => ⟨hroomy, fun _ => id⟩

theorem Grew.trans {out out' out'' : Option ShmOut} (h : Grew out out') (h' : Grew out' out'') : Grew out out'' := by
  intro hroomy
  obtain ⟨hroomy', hbefore⟩ := h hroomy
  obtain ⟨hroomy'', hbefore'⟩ := h' hroomy'
  exact ⟨hroomy'', fun segment hagrees => hbefore segment (hbefore' segment hagrees)⟩

def Arena.room (a : Arena) : ℕ := a.capacity - a.offset

section Decodes

variable (payload : Bytes) (shm : Option Bytes)

/- Where the frame goes on with `bytes`, the read takes them, and at most `c` bytes from the
   arena. -/
def Decodes {α : Type} (m : Read α) (bytes : Bytes) (c : ℕ) (Q : α → Prop) : Prop :=
  ∀ (r : Reader) (tail : Bytes), r.payload = payload → r.shm = shm → r.ok = true →
    payload.drop r.pos = bytes ++ tail → c ≤ r.arena.room →
    ∃ a r', m r = (a, r') ∧ r'.payload = payload ∧ r'.shm = shm ∧ r'.ok = true ∧ r'.pos = r.pos + bytes.length ∧
      r.arena.room ≤ r'.arena.room + c ∧ Q a

variable {payload shm} {α β : Type}

theorem decodes_pure {a : α} {Q : α → Prop} (h : Q a) : Decodes payload shm (pure a) [] 0 Q :=
  fun r _ hp hs hok _ _ => ⟨a, r, rfl, hp, hs, hok, rfl, le_refl _, h⟩

variable {m : Read α} {f : α → Read β} {bytes' : Bytes} {c n : ℕ} {P : α → Prop} {Q : β → Prop}
  {out : Option ShmOut}

theorem decodes_bind {bytes : Bytes} {c' : ℕ} (hm : Decodes payload shm m bytes c P)
    (hf : ∀ a, P a → Decodes payload shm (f a) bytes' c' Q) :
    Decodes payload shm (m >>= f) (bytes ++ bytes') (c + c') Q := by
  intro r tail hp hs hok hdrop hroom
  rw [append_assoc] at hdrop
  obtain ⟨a, t, hrun, hp', hs', hok', hpos, harena, hP⟩ := hm r _ hp hs hok hdrop (by omega)
  have hdrop' : payload.drop t.pos = bytes' ++ tail := by
    rw [hpos, ← drop_drop, hdrop, drop_left]
  obtain ⟨b, u, hrun', hp'', hs'', hok'', hpos', harena', hQ⟩ := hf a hP t tail hp' hs' hok' hdrop' (by omega)
  refine ⟨b, u, (bind_run hrun).trans hrun', hp'', hs'', hok'', ?_, by omega, hQ⟩
  rw [hpos', hpos, length_append, Nat.add_assoc]

theorem Decodes.mono {bytes : Bytes} {c' : ℕ} {Q : α → Prop} (h : Decodes payload shm m bytes c P)
    (hc : c ≤ c') (himp : ∀ a, P a → Q a) : Decodes payload shm m bytes c' Q := by
  intro r tail hp hs hok hdrop hroom
  obtain ⟨a, t, hrun, hp', hs', hok', hpos, harena, hP⟩ := h r tail hp hs hok hdrop (by omega)
  exact ⟨a, t, hrun, hp', hs', hok', hpos, by omega, himp a hP⟩

theorem decodes_split {bytes : Bytes} {k : ℕ} (c' : ℕ) (hm : Decodes payload shm m bytes c P)
    (hf : ∀ a, P a → Decodes payload shm (f a) bytes' c' Q) (hk : c + c' ≤ k) :
    Decodes payload shm (m >>= f) (bytes ++ bytes') k Q :=
  (decodes_bind hm hf).mono hk fun _ => id

theorem decodes_then {bytes : Bytes} (hm : Decodes payload shm m bytes 0 P)
    (hf : ∀ a, P a → Decodes payload shm (f a) bytes' c Q) : Decodes payload shm (m >>= f) (bytes ++ bytes') c Q := by
  have hall := decodes_bind hm hf
  rw [Nat.zero_add] at hall
  exact hall

theorem decodes_last {bytes : Bytes} (hm : Decodes payload shm m bytes c P)
    (hf : ∀ a, P a → Decodes payload shm (f a) [] 0 Q) : Decodes payload shm (m >>= f) bytes c Q := by
  have hall := decodes_bind hm hf
  rw [append_nil] at hall
  exact hall

theorem decodes_ok {x : α} {Q : Option α → Prop} (h : Q (some x)) :
    Decodes payload shm (do return if (← get).ok then some x else none) [] 0 Q := by
  intro r tail hp hs hok _ _
  refine ⟨_, r, rfl, hp, hs, hok, rfl, le_refl _, ?_⟩
  rw [hok]
  exact h

theorem decodes_take (bytes : Bytes) : Decodes payload shm (Reader.take bytes.length) bytes 0 (· = true) := by
  intro r tail hp hs hok hdrop _
  have hlen := congrArg List.length hdrop
  rw [length_drop, length_append] at hlen
  refine ⟨true, { r with pos := r.pos + bytes.length }, ?_, hp, hs, hok, rfl, le_refl _, rfl⟩
  unfold Reader.take Reader.remaining
  rw [if_neg]
  rw [hok, hp, not_or]
  exact ⟨nofun, by omega⟩

theorem drop_take_self {mem bytes tail : Bytes} {pos : ℕ} (h : mem.drop pos = bytes ++ tail) :
    (mem.drop (pos + bytes.length - bytes.length)).take bytes.length = bytes := by
  rw [Nat.add_sub_cancel, h, take_left]

theorem decodes_raw (bytes : Bytes) : Decodes payload shm (Reader.raw bytes.length) bytes 0 (· = some bytes) := by
  intro r tail hp hs hok hdrop hroom
  obtain ⟨taken, t, hrun, hp', hs', hok', hpos, harena, rfl⟩ := decodes_take bytes r tail hp hs hok hdrop hroom
  refine ⟨some bytes, t, (bind_run hrun).trans ?_, hp', hs', hok', hpos, harena, rfl⟩
  change (some ((t.payload.drop (t.pos - bytes.length)).take bytes.length), t) = _
  rw [hp', hpos, drop_take_self hdrop]

theorem decodes_scalar {width n : ℕ} (h : n < 256 ^ width) :
    Decodes payload shm (Reader.scalar width) (leBytes width n) 0 (· = n) := by
  have hraw : Decodes payload shm (Reader.raw (leBytes width n).length) (leBytes width n) 0
      (· = some (leBytes width n)) := decodes_raw _
  rw [length_leBytes] at hraw
  refine decodes_last hraw ?_
  rintro o rfl
  exact decodes_pure ((leNat_leBytes width n).trans (Nat.mod_eq_of_lt h))

theorem decodes_u32 (v : UInt32) : Decodes payload shm Reader.u32 (leBytes 4 v.toNat) 0 (· = v) := by
  refine decodes_last (decodes_scalar v.toNat_lt) ?_
  rintro n rfl
  exact decodes_pure UInt32.ofNat_toNat

theorem decodes_i32 (v : Int32) : Decodes payload shm Reader.i32 (leBytes 4 v.toUInt32.toNat) 0 (· = v) := by
  refine decodes_last (decodes_scalar v.toUInt32.toNat_lt) ?_
  rintro n rfl
  refine decodes_pure ?_
  rw [UInt32.ofNat_toNat]
  exact Int32.toInt32_toUInt32 v

theorem decodes_u64 (h : n < 2 ^ 64) : Decodes payload shm Reader.u64 (leBytes 8 n) 0 (·.toNat = n) := by
  refine decodes_last (decodes_scalar h) ?_
  rintro x rfl
  exact decodes_pure (UInt64.toNat_ofNat_of_lt' h)

/- The read is not refused, and what it returns stands for `x`. -/
def Gives {γ : Type} (denote : α → γ) (x : γ) (o : Option α) : Prop := ∃ a, o = some a ∧ denote a = x

theorem decodes_dim (v : Int64) :
    Decodes payload shm Reader.dim (leBytes 8 v.toUInt64.toNat) 0 (Gives id (id v)) := by
  refine decodes_last (decodes_scalar v.toUInt64.toNat_lt) ?_
  rintro n rfl
  refine decodes_pure ⟨_, rfl, ?_⟩
  rw [UInt64.ofNat_toNat]
  exact Int64.toInt64_toUInt64 v

theorem toNat_count (h : n ≤ kMaxFrame) : (UInt32.ofNat n).toNat = n := by
  refine UInt32.toNat_ofNat_of_lt' ?_
  unfold kMaxFrame at h
  exact h.trans_lt (by norm_num)

theorem decodes_str (s : Str) (h : s.items.length ≤ kMaxFrame) :
    Decodes payload shm Reader.str (strBytes s) 0 (denoteStr payload · = s.plain) := by
  refine decodes_then (decodes_u32 (UInt32.ofNat s.items.length)) ?_
  rintro n rfl
  intro r tail hp hs hok hdrop hroom
  have hn := toNat_count h
  obtain ⟨taken, t, hrun, hp', hs', hok', hpos, harena, rfl⟩ := decodes_take s.items r tail hp hs hok hdrop hroom
  rw [← hn] at hrun
  refine ⟨_, t, (bind_run hrun).trans rfl, hp', hs', hok', hpos, harena, ?_⟩
  rw [hn]
  unfold denoteStr Span.plain
  split
  · next hzero =>
    rw [hzero] at hn
    rw [length_eq_zero_iff.1 hn.symm]
    rfl
  · change Span.ptr ((payload.drop (t.pos - s.items.length)).take s.items.length) = _
    rw [hpos, drop_take_self hdrop]

theorem decodes_bytes (bytes : Bytes) : Decodes payload shm (Reader.bytes bytes.length) bytes 0 fun off =>
      (payload.drop off).take bytes.length = bytes := by
  intro r tail hp hs hok hdrop hroom
  obtain ⟨taken, t, hrun, hp', hs', hok', hpos, harena, rfl⟩ := decodes_take bytes r tail hp hs hok hdrop hroom
  have hlen := congrArg List.length hdrop
  rw [length_drop, length_append] at hlen
  refine ⟨t.pos - bytes.length, t, ?_, hp', hs', hok', hpos, harena, ?_⟩
  · change (if r.remaining < bytes.length then _ else _ : Read ℕ) r = _
    rw [if_neg]
    · exact (bind_run hrun).trans rfl
    · unfold Reader.remaining
      rw [hp]
      omega
  · rw [hpos]
    exact drop_take_self hdrop

theorem take_drop_below {off k : ℕ} (h : off + n ≤ k) (bs : Bytes) :
    (bs.drop off).take n = ((bs.take k).drop off).take n := by
  rw [drop_take, take_take, Nat.min_eq_left (by omega)]

theorem data_grew (out : Option ShmOut) (p : Span UInt8) : Grew out (dataBytes out p).2 := by
  unfold dataBytes
  cases hplace : out.bind (·.place p) with
  | none => exact .refl out
  | some placed =>
    intro hroomy
    obtain ⟨off, shm'⟩ := placed
    obtain ⟨shm₀, rfl, hsome⟩ := Option.bind_eq_some_iff.1 hplace
    obtain ⟨mem, mem', hptr, hptr', hsize, hused, hroom, hkept, -⟩ := place_some (hroomy _ rfl) hsome
    constructor
    · rintro shm ⟨⟩
      rw [ShmOut.bytes_eq hptr']
      exact hroom.trans_eq hsize.symm
    · rintro segment hagrees shm ⟨⟩ x hx
      cases hptr.symm.trans hx
      obtain ⟨final, hfinal, hlen, htake⟩ := hagrees shm' rfl mem' hptr'
      refine ⟨final, hfinal, hlen.trans hsize, ?_⟩
      rw [← Nat.min_eq_left hused, ← take_take, htake, take_take, Nat.min_eq_left hused, hkept]

theorem data_wire (out : Option ShmOut) (p : Span UInt8) : 12 ≤ (dataBytes out p).1.length := by
  unfold dataBytes
  split <;> simp only [length_append, length_leBytes] <;> omega

theorem eq_nil_of_size {size : UInt64} {bytes : Bytes} (hsize : size.toNat = bytes.length) (hzero : size = 0) :
    bytes = [] := by
  rw [hzero] at hsize
  exact length_eq_zero_iff.1 hsize.symm

theorem decodes_inline (bytes : Bytes) (h : bytes.length ≤ kMaxFrame) :
    Decodes payload shm Reader.data (leBytes 8 bytes.length ++ (leBytes 4 0 ++ bytes)) 0
      (Gives (denoteData payload shm) (.ptr bytes)) := by
  have hsize : bytes.length < 2 ^ 64 := by
    unfold kMaxFrame at h
    omega
  refine decodes_then (decodes_u64 hsize) fun size hsize => ?_
  refine decodes_then (decodes_u32 0) ?_
  rintro loc rfl
  rw [hsize]
  refine decodes_last (decodes_bytes bytes) fun off hoff => ?_
  refine decodes_ok ⟨_, rfl, ?_⟩
  split
  · next hzero =>
    rw [eq_nil_of_size hsize hzero]
    rfl
  · exact congrArg Span.ptr hoff

theorem decodes_placed {bytes mem : Bytes} {off : ℕ} (hshm : shm = some mem) (hin : off + bytes.length ≤ mem.length)
    (hmem : mem.length < 2 ^ 63) (hbytes : (mem.drop off).take bytes.length = bytes) :
    Decodes payload shm Reader.data (leBytes 8 bytes.length ++ (leBytes 4 1 ++ leBytes 8 off)) 0
      (Gives (denoteData payload shm) (.ptr bytes)) := by
  have hsize : bytes.length < 2 ^ 64 := by omega
  have hoff : off < 2 ^ 64 := by omega
  refine decodes_then (decodes_u64 hsize) fun size hsize => ?_
  refine decodes_then (decodes_u32 1) ?_
  rintro loc rfl
  refine decodes_last (decodes_u64 hoff) fun o ho => ?_
  intro r tail hp hs hok _ _
  refine ⟨_, r, ?_, hp, hs, hok, rfl, le_refl _, if size = 0 then none else some (.segment ⟨off, size.toNat⟩), rfl, ?_⟩
  · have hget : (get : Read Reader) r = (r, r) := rfl
    rw [bind_run hget, hs, hshm]
    simp only
    rw [if_neg, ho]
    · rfl
    · rw [hok, not_or]
      refine ⟨nofun, ?_⟩
      omega
  · split
    · next hzero =>
      rw [eq_nil_of_size hsize hzero]
      rfl
    · rw [hsize, hshm]
      exact congrArg Span.ptr hbytes

theorem decodes_data (p : Span UInt8) (hroomy : Roomy out) (hagrees : Agrees (dataBytes out p).2 shm)
    (h : (dataBytes out p).1.length ≤ kMaxFrame) : Decodes payload shm Reader.data (dataBytes out p).1 0
      (Gives (denoteData payload shm) p.plain) := by
  unfold dataBytes at hagrees h ⊢
  cases hplace : out.bind (·.place p) with
  | none =>
    rw [hplace] at h
    simp only [length_append] at h
    exact decodes_inline p.items (by omega)
  | some placed =>
    obtain ⟨off, shm'⟩ := placed
    rw [hplace] at hagrees
    obtain ⟨shm₀, hmem, hsome⟩ := Option.bind_eq_some_iff.1 hplace
    obtain ⟨mem, mem', -, hptr, hsize, -, hroom, -, hbelow, hbytes⟩ := place_some (hroomy _ hmem) hsome
    obtain ⟨final, hfinal, hlen, htake⟩ := hagrees shm' rfl mem' hptr
    have hfits := shm'.fits
    rw [hptr] at hfits
    change mem'.length < 2 ^ 63 at hfits
    refine decodes_placed hfinal (by omega) (by omega) ?_
    rw [take_drop_below hbelow final, htake, ← take_drop_below hbelow mem']
    exact hbytes

/- Elements of an array: how they are written and read, and what they stand for. -/
structure Transfers (payload : Bytes) (shm : Option Bytes) {α β γ : Type} (item : Item)
    (bytes : Option ShmOut → β → Bytes × Option ShmOut) (read : Read (Option α)) (denote : α → γ) (plain : β → γ) :
    Prop where
  grew : ∀ out b, Grew out (bytes out b).2
  wire : ∀ out b, item.wire ≤ (bytes out b).1.length
  decodes : ∀ out b, Roomy out → Agrees (bytes out b).2 shm → (bytes out b).1.length ≤ kMaxFrame →
    Decodes payload shm read (bytes out b).1 (5 * ((bytes out b).1.length - item.wire)) (Gives denote (plain b))

variable {γ : Type} {item : Item} {bytes : Option ShmOut → β → Bytes × Option ShmOut} {read : Read (Option α)}
  {denote : α → γ} {plain : β → γ}

theorem Transfers.listGrew (h : Transfers payload shm item bytes read denote plain) (bs : List β)
    (out : Option ShmOut) : Grew out (listBytes bytes out bs).2 := by
  induction bs generalizing out with
  | nil => exact .refl out
  | cons b bs ih => exact (h.grew out b).trans (ih _)

theorem Transfers.listWire (h : Transfers payload shm item bytes read denote plain) (bs : List β)
    (out : Option ShmOut) : bs.length * item.wire ≤ (listBytes bytes out bs).1.length := by
  induction bs generalizing out with
  | nil =>
    rw [length_nil, Nat.zero_mul]
    exact Nat.zero_le _
  | cons b bs ih =>
    have hfirst := h.wire out b
    have hrest := ih (bytes out b).2
    rw [length_cons, Nat.add_one_mul]
    change _ ≤ ((bytes out b).1 ++ (listBytes bytes (bytes out b).2 bs).1).length
    rw [length_append]
    omega

theorem Transfers.repeated (h : Transfers payload shm item bytes read denote plain) (bs : List β)
    (hroomy : Roomy out) (hagrees : Agrees (listBytes bytes out bs).2 shm)
    (hlen : (listBytes bytes out bs).1.length ≤ kMaxFrame) :
    Decodes payload shm (Reader.repeated read bs.length) (listBytes bytes out bs).1
      (5 * ((listBytes bytes out bs).1.length - bs.length * item.wire)) (Gives (map denote) (bs.map plain)) := by
  induction bs generalizing out with
  | nil =>
    refine Decodes.mono (decodes_pure ?_) (Nat.zero_le _) fun _ => id
    exact ⟨[], rfl, rfl⟩
  | cons b bs ih =>
    have hfirst := (h.grew out b hroomy).1
    have hwire := h.wire out b
    have hwires := h.listWire bs (bytes out b).2
    change ((bytes out b).1 ++ (listBytes bytes (bytes out b).2 bs).1).length ≤ kMaxFrame at hlen
    rw [length_append] at hlen
    have hread := h.decodes out b hroomy ((h.listGrew bs _ hfirst).2 _ hagrees) (by omega)
    have hrest := ih hfirst hagrees (by omega)
    refine decodes_split (5 * ((listBytes bytes (bytes out b).2 bs).1.length - bs.length * item.wire)) hread ?_ ?_
    · rintro o ⟨a, rfl, ha⟩
      refine decodes_last hrest ?_
      rintro o ⟨as, rfl, has⟩
      refine decodes_pure ⟨a :: as, rfl, ?_⟩
      rw [map_cons, map_cons, ha, has]
    · change _ ≤ 5 * (((bytes out b).1 ++ (listBytes bytes (bytes out b).2 bs).1).length - _)
      rw [length_append, length_cons, Nat.add_one_mul bs.length]
      omega

theorem allocate_ok {a : Arena} {size : ℕ} (hpos : 0 < size) (hroom : size + 7 ≤ a.room) :
    ∃ off a', a.allocate size 8 = some (off, a') ∧ a.room ≤ a'.room + (size + 7) := by
  unfold Arena.room at hroom
  unfold Arena.allocate
  rw [if_neg (by omega)]
  rw [if_neg (by omega)]
  refine ⟨_, _, rfl, ?_⟩
  unfold Arena.room
  simp only
  omega

theorem item_cost (item : Item) (h : 0 < n) : item.size * n + 7 ≤ 5 * (n * item.wire) := by
  cases item <;> simp only [Item.size, Item.wire] <;> omega

theorem Transfers.array (h : Transfers payload shm item bytes read denote plain) (bs : List β)
    (hroomy : Roomy out) (hagrees : Agrees (listBytes bytes out bs).2 shm)
    (hlen : (listBytes bytes out bs).1.length ≤ kMaxFrame) :
    Decodes payload shm (Reader.array item read (UInt32.ofNat bs.length).toNat) (listBytes bytes out bs).1
      (5 * (listBytes bytes out bs).1.length) (Gives (denoteArray denote) (.ptr (bs.map plain))) := by
  have hwires := h.listWire bs out
  have hwire : 0 < item.wire := by cases item <;> decide
  have hcount : (UInt32.ofNat bs.length).toNat = bs.length :=
    toNat_count ((Nat.le_mul_of_pos_right _ hwire).trans (hwires.trans hlen))
  rw [hcount]
  intro r tail hp hs hok hdrop hroom
  have hrest := congrArg List.length hdrop
  rw [length_drop, length_append] at hrest
  have hfits : ¬(r.ok = false ∨ r.remaining / item.wire < bs.length) := by
    rw [hok, not_or, Nat.not_lt, Nat.le_div_iff_mul_le hwire]
    refine ⟨nofun, ?_⟩
    unfold Reader.remaining
    rw [hp]
    omega
  change ∃ a r', (if r.ok = false ∨ r.remaining / item.wire < bs.length then _ else _ :
    Read (Option (Option (Placed α)))) r = (a, r') ∧ _
  rw [if_neg hfits]
  by_cases hzero : bs.length = 0
  · rw [length_eq_zero_iff.1 hzero]
    exact ⟨_, r, rfl, hp, hs, hok, rfl, Nat.le_add_right _ _, none, rfl, rfl⟩
  · rw [if_neg hzero]
    have hcost := item_cost item (Nat.pos_of_ne_zero hzero)
    have hsize : 0 < item.size * bs.length :=
      Nat.mul_pos (by cases item <;> decide) (Nat.pos_of_ne_zero hzero)
    obtain ⟨off, arena, halloc, hleft⟩ := allocate_ok hsize (a := r.arena) (by omega)
    let t : Reader := { r with
      allocations := r.allocations ++ [⟨item, bs.length, r.remaining⟩]
      arena := arena }
    have hspan : Reader.allocateSpan item bs.length r = (some off, t) := by
      unfold Reader.allocateSpan
      simp only
      rw [halloc]
    have hleft' : r.arena.room ≤ t.arena.room + (item.size * bs.length + 7) := hleft
    obtain ⟨o, u, hrun, hp', hs', hok', hpos, harena, items, rfl, hitems⟩ :=
      h.repeated bs hroomy hagrees hlen t tail hp hs hok hdrop (by omega)
    refine ⟨some (some ⟨off, items⟩), u, (bind_run hspan).trans ((bind_run hrun).trans rfl), hp', hs', hok', hpos,
      by omega, some ⟨off, items⟩, rfl, ?_⟩
    exact congrArg Span.ptr hitems

theorem length_strBytes (s : Str) : (strBytes s).length = 4 + s.items.length := by
  unfold strBytes
  rw [length_append, length_leBytes]

theorem length_countBytes (n : ℕ) : (countBytes n).length = 4 := length_leBytes _ _

variable (payload shm) in
theorem transfers_dim : Transfers payload shm .dim dimBytes Reader.dim id id where
  grew := fun out _ => .refl out
  wire := fun _ v => le_of_eq (length_leBytes 8 v.toUInt64.toNat).symm
  decodes := fun _ v _ _ _ => (decodes_dim v).mono (Nat.zero_le _) fun _ => id

theorem part_wire (out : Option ShmOut) (p : Part) : 40 ≤ (partBytes out p).1.length := by
  have hdata := data_wire out p.data
  unfold partBytes
  simp only [length_append, length_leBytes, length_strBytes, length_countBytes]
  omega

theorem decodes_part (p : Part) (hroomy : Roomy out) (hagrees : Agrees (partBytes out p).2 shm)
    (h : (partBytes out p).1.length ≤ kMaxFrame) :
    Decodes payload shm Reader.part (partBytes out p).1 (5 * ((partBytes out p).1.length - 40))
      (Gives (PartView.denote payload shm) p.plain) := by
  have hdata := data_wire out p.data
  have hlen : (partBytes out p).1.length = 4 + (4 + p.text.items.length) + (4 + p.path.items.length) +
      (4 + p.mime.items.length) + (4 + p.name.items.length) + 4 + 4 +
      (listBytes dimBytes out p.shape.items).1.length + (dataBytes out p.data).1.length := by
    unfold partBytes
    simp only [length_append, length_leBytes, length_strBytes, length_countBytes]
    omega
  have hdims : Agrees (listBytes dimBytes out p.shape.items).2 shm := by
    rw [dims_shm]
    exact (data_grew out p.data hroomy).2 _ hagrees
  have hshape := (transfers_dim payload shm).array p.shape.items hroomy hdims (by omega)
  rw [map_id] at hshape
  refine Decodes.mono ?_ (c := 5 * (listBytes dimBytes out p.shape.items).1.length) (by omega) fun _ => id
  refine decodes_then (decodes_u32 p.kind) ?_
  rintro kind rfl
  refine decodes_then (decodes_str p.text (by omega)) fun text htext => ?_
  refine decodes_then (decodes_str p.path (by omega)) fun path hpath => ?_
  refine decodes_then (decodes_str p.mime (by omega)) fun mime hmime => ?_
  refine decodes_then (decodes_str p.name (by omega)) fun name hname => ?_
  refine decodes_then (decodes_u32 p.dtype) ?_
  rintro dtype rfl
  refine decodes_then (decodes_u32 _) ?_
  rintro ndim rfl
  refine decodes_split 0 hshape ?_ (le_refl _)
  rintro o ⟨shape, rfl, hshape⟩
  refine decodes_last (decodes_data p.data hroomy hagrees (by omega)) ?_
  rintro o ⟨data, rfl, hdata⟩
  refine decodes_pure ⟨_, rfl, ?_⟩
  unfold PartView.denote Part.plain
  simp only [htext, hpath, hmime, hname, hdata]
  rw [hshape]
  rfl

variable (payload shm) in
theorem transfers_part :
    Transfers payload shm .part partBytes Reader.part (PartView.denote payload shm) Part.plain where
  grew := fun out p => data_grew out p.data
  wire := part_wire
  decodes := fun _ p hroomy hagrees h => decodes_part p hroomy hagrees h

variable (payload shm) in
theorem transfers_call : Transfers payload shm .call callBytes Reader.call (CallView.denote payload) Call.plain where
  grew := fun out _ => .refl out
  wire := fun out c => by
    change 12 ≤ (callBytes out c).1.length
    unfold callBytes
    simp only [length_append, length_strBytes]
    omega
  decodes := fun out c _ _ h => by
    unfold callBytes at h ⊢
    simp only [length_append, length_strBytes] at h
    refine Decodes.mono ?_ (Nat.zero_le _) fun _ => id
    refine decodes_then (decodes_str c.id (by omega)) fun id hid => ?_
    refine decodes_then (decodes_str c.name (by omega)) fun name hname => ?_
    refine decodes_last (decodes_str c.arguments (by omega)) fun arguments harguments => ?_
    refine decodes_pure ⟨_, rfl, ?_⟩
    unfold CallView.denote Call.plain
    simp only [hid, hname, harguments]

theorem length_messageBytes (out : Option ShmOut) (m : Message) :
    (messageBytes out m).1.length = 16 + m.role.items.length + (listBytes partBytes out m.parts.items).1.length +
      (listBytes callBytes (listBytes partBytes out m.parts.items).2 m.toolCalls.items).1.length +
      m.toolCallId.items.length := by
  unfold messageBytes
  simp only [length_append, length_strBytes, length_countBytes]
  omega

theorem message_grew (out : Option ShmOut) (m : Message) : Grew out (messageBytes out m).2 :=
  (transfers_part [] none).listGrew m.parts.items out

theorem decodes_message (m : Message) (hroomy : Roomy out) (hagrees : Agrees (messageBytes out m).2 shm)
    (h : (messageBytes out m).1.length ≤ kMaxFrame) :
    Decodes payload shm Reader.message (messageBytes out m).1 (5 * ((messageBytes out m).1.length - 16))
      (Gives (MessageView.denote payload shm) m.plain) := by
  have hlen := length_messageBytes out m
  have hcallsAgree : Agrees (listBytes callBytes (messageBytes out m).2 m.toolCalls.items).2 shm := by
    rw [calls_shm]
    exact hagrees
  have hparts := (transfers_part payload shm).array m.parts.items hroomy hagrees (by omega)
  have hcalls := (transfers_call payload shm).array m.toolCalls.items (message_grew out m hroomy).1 hcallsAgree
    (by change (listBytes callBytes (listBytes partBytes out m.parts.items).2 _).1.length ≤ _; omega)
  refine decodes_then (decodes_str m.role (by omega)) fun role hrole => ?_
  refine decodes_then (decodes_u32 _) ?_
  rintro nParts rfl
  refine decodes_split (5 * (listBytes callBytes (messageBytes out m).2 m.toolCalls.items).1.length) hparts ?_ ?_
  · rintro o ⟨parts, rfl, hparts⟩
    refine decodes_then (decodes_u32 _) ?_
    rintro nCalls rfl
    refine decodes_split 0 hcalls ?_ (le_refl _)
    rintro o ⟨toolCalls, rfl, hcalls⟩
    refine decodes_last (decodes_str m.toolCallId (by omega)) fun toolCallId hid => ?_
    refine decodes_ok ⟨_, rfl, ?_⟩
    unfold MessageView.denote Message.plain
    simp only [hrole, hparts, hcalls, hid]
  · change _ + 5 * (listBytes callBytes (listBytes partBytes out m.parts.items).2 _).1.length ≤ _
    omega

variable (payload shm) in
theorem transfers_message :
    Transfers payload shm .message messageBytes Reader.message (MessageView.denote payload shm) Message.plain where
  grew := message_grew
  wire := fun out m => by
    change 16 ≤ (messageBytes out m).1.length
    rw [length_messageBytes]
    omega
  decodes := fun _ m hroomy hagrees h => decodes_message m hroomy hagrees h

theorem decodes_request (req : Request) (runFlags : UInt32) (hroomy : Roomy out)
    (hagrees : Agrees (requestBytes out req runFlags).2 shm)
    (h : (requestBytes out req runFlags).1.length ≤ kMaxFrame) :
    Decodes payload shm Reader.request (requestBytes out req runFlags).1
      (5 * (requestBytes out req runFlags).1.length) fun o =>
        ∃ a, o = some (a, runFlags) ∧ a.denote payload shm = req.plain := by
  have hlen : (requestBytes out req runFlags).1.length = 16 + (listBytes messageBytes out req.messages.items).1.length +
      (4 + req.toolsJson.items.length) + (4 + req.paramsJson.items.length) + (4 + req.outputDir.items.length) := by
    unfold requestBytes
    simp only [length_append, length_leBytes, length_strBytes, length_countBytes]
    omega
  have hmessages := (transfers_message payload shm).array req.messages.items hroomy hagrees (by omega)
  refine decodes_then (decodes_u32 req.task) ?_
  rintro task rfl
  refine decodes_then (decodes_u32 req.flags) ?_
  rintro flags rfl
  refine decodes_then (decodes_u32 runFlags) ?_
  rintro flags rfl
  refine decodes_then (decodes_u32 _) ?_
  rintro n rfl
  refine decodes_split 0 hmessages ?_ (by omega)
  rintro o ⟨messages, rfl, hmessages⟩
  refine decodes_then (decodes_str req.toolsJson (by omega)) fun toolsJson htools => ?_
  refine decodes_then (decodes_str req.paramsJson (by omega)) fun paramsJson hparams => ?_
  refine decodes_last (decodes_str req.outputDir (by omega)) fun outputDir hdir => ?_
  refine decodes_ok ⟨_, rfl, ?_⟩
  unfold RequestView.denote Request.plain
  simp only [hmessages, htools, hparams, hdir]

theorem decodes_response (resp : Response) (hroomy : Roomy out)
    (hagrees : Agrees (responseBytes out resp).2 shm) (h : (responseBytes out resp).1.length ≤ kMaxFrame) :
    Decodes payload shm Reader.response (responseBytes out resp).1 (5 * (responseBytes out resp).1.length)
      (Gives (ResponseView.denote payload shm) resp.plain) := by
  have hlen : (responseBytes out resp).1.length = (messageBytes out resp.message).1.length + 8 := by
    unfold responseBytes
    simp only [length_append, length_leBytes]
  have hmessage : Decodes payload shm Reader.message (messageBytes out resp.message).1 _ _ :=
    decodes_message resp.message hroomy hagrees (by omega)
  refine decodes_split 0 hmessage ?_ (by omega)
  rintro o ⟨message, rfl, hmessage⟩
  refine decodes_then (decodes_i32 resp.promptTokens) ?_
  rintro promptTokens rfl
  refine decodes_last (decodes_i32 resp.completionTokens) ?_
  rintro completionTokens rfl
  refine decodes_ok ⟨_, rfl, ?_⟩
  unfold ResponseView.denote Response.plain
  simp only [hmessage]

end Decodes

def Writer.segment (w : Writer) : Option Bytes :=
  w.shm.bind fun shm => match shm.mem with
    | .null _ => none
    | .ptr mem => some mem

def frame (out : Bytes) (type : UInt32) (id : UInt64) (front : Bytes) (shm : Option ShmOut) : Writer :=
  { ({ out } : Writer).begin type id |>.raw front with shm }

theorem segment_agrees (w : Writer) : Agrees w.shm w.segment := by
  intro shm hshm mem hmem
  refine ⟨mem, ?_, rfl, rfl⟩
  unfold Writer.segment
  rw [Option.mem_def.1 hshm]
  change (match shm.mem with | .null _ => none | .ptr mem => some mem) = some mem
  rw [hmem]

theorem finish_some {w w' : Writer} (hstart : w.start + kHeaderSize ≤ w.out.length) (h : w.finish = some w') :
    w'.payload = w.payload ∧ w'.shm = w.shm ∧ w.payload.length ≤ kMaxFrame := by
  unfold Writer.finish at h
  simp only at h
  split at h
  · cases h
  · cases h
    refine ⟨?_, rfl, ?_⟩
    · unfold Writer.payload
      have hfront : (w.out.take w.start ++ leBytes 4 (w.out.length - w.start - kHeaderSize)).length = w.start + 4 := by
        rw [length_append, length_take, length_leBytes]
        omega
      have hskip : w.start + kHeaderSize = w.start + 4 + 12 := rfl
      rw [hskip, ← drop_drop, ← hfront, drop_left, drop_drop]
    · unfold Writer.payload
      rw [length_drop]
      omega

theorem frame_payload (out : Bytes) (type : UInt32) (id : UInt64) (front : Bytes) (shm : Option ShmOut)
    (bytes : Bytes × Option ShmOut) : ((frame out type id front shm).with bytes).payload = front ++ bytes.1 ∧
      ((frame out type id front shm).with bytes).start + kHeaderSize ≤
        ((frame out type id front shm).with bytes).out.length := by
  have hout : ((frame out type id front shm).with bytes).out =
      (out ++ leBytes 4 (0 : UInt32).toNat ++ leBytes 4 type.toNat ++ leBytes 8 id.toNat) ++ (front ++ bytes.1) := by
    unfold frame Writer.with Writer.begin Writer.u32 Writer.u64 Writer.raw
    simp only [append_assoc]
  have hheader : (out ++ leBytes 4 (0 : UInt32).toNat ++ leBytes 4 type.toNat ++ leBytes 8 id.toNat).length =
      out.length + kHeaderSize := by
    simp only [length_append]
    rfl
  have hstart : ((frame out type id front shm).with bytes).start = out.length := rfl
  constructor
  · unfold Writer.payload
    rw [hout, hstart, ← hheader, drop_left]
  · rw [hout, length_append, hheader]
    exact Nat.le_add_right _ _

def readerAt (w : Writer) (front : Bytes) (arena : Arena) : Reader :=
  { payload := w.payload, pos := front.length, shm := w.segment, arena }

theorem decodes_frame {α : Type} {m : Read α} {Q : α → Prop} {out front : Bytes} {type : UInt32} {id : UInt64}
    {shm : Option ShmOut} {bytes : Bytes × Option ShmOut} {w : Writer} {arena : Arena}
    (harena : decodeArenaBound w.payload.length ≤ arena.room)
    (hfin : ((frame out type id front shm).with bytes).finish = some w)
    (h : Agrees bytes.2 w.segment → bytes.1.length ≤ kMaxFrame →
      Decodes w.payload w.segment m bytes.1 (5 * bytes.1.length) Q) :
    ∃ a r, m (readerAt w front arena) = (a, r) ∧ r.atEnd = true ∧ Q a := by
  obtain ⟨hframe, hstart⟩ := frame_payload out type id front shm bytes
  obtain ⟨hsame, hout, hmax⟩ := finish_some hstart hfin
  have hpayload : w.payload = front ++ bytes.1 := hsame.trans hframe
  have hagrees := segment_agrees w
  rw [hout] at hagrees
  rw [hframe, length_append] at hmax
  have hlen := congrArg List.length hpayload
  rw [length_append] at hlen
  have hdrop : w.payload.drop front.length = bytes.1 ++ [] := by
    rw [hpayload, drop_left, append_nil]
  unfold decodeArenaBound at harena
  obtain ⟨a, r, hrun, hp, -, hok, hpos, -, hQ⟩ :=
    h hagrees (by omega) (readerAt w front arena) [] rfl rfl rfl hdrop (by
      change _ ≤ arena.room
      omega)
  refine ⟨a, r, hrun, ?_, hQ⟩
  unfold Reader.atEnd
  rw [hok, hp, hpos, hlen]
  exact beq_self_eq_true _

/-- What is written into a frame is read back, whichever payloads are in the segment, and the
reader ends where the frame does. -/
theorem codec_round_trip (out front : Bytes) (type : UInt32) (id : UInt64) (shm : Option ShmOut) (hshm : Roomy shm)
    (arena : Arena) (w : Writer) (harena : decodeArenaBound w.payload.length ≤ arena.room) :
    (∀ req runFlags, ((frame out type id front shm).request req runFlags).finish = some w →
      ∃ view r, Reader.request (readerAt w front arena) = (some (view, runFlags), r) ∧ r.atEnd = true ∧
        view.denote w.payload w.segment = req.plain) ∧
    (∀ resp, ((frame out type id front shm).response resp).finish = some w →
      ∃ view r, Reader.response (readerAt w front arena) = (some view, r) ∧ r.atEnd = true ∧
        view.denote w.payload w.segment = resp.plain) := by
  constructor
  · intro req runFlags hfin
    rw [request_with] at hfin
    obtain ⟨a, r, hrun, hend, view, rfl, hview⟩ := decodes_frame harena hfin (decodes_request req runFlags hshm)
    exact ⟨view, r, hrun, hend, hview⟩
  · intro resp hfin
    rw [response_with] at hfin
    obtain ⟨a, r, hrun, hend, view, rfl, hview⟩ := decodes_frame harena hfin (decodes_response resp hshm)
    exact ⟨view, r, hrun, hend, hview⟩

def twoParts : Request where
  task := 1
  flags := 0
  messages := .ptr [⟨.ptr (lit "user"),
    .ptr [⟨3, .null 0, .null 7, .null 0, .ptr (lit "x"), 5, .ptr [2, -1], .ptr [7, 8, 9]⟩,
      ⟨2, .null 0, .null 0, .ptr (lit "image/png"), .null 0, 0, .null 3, .ptr [1]⟩],
    .ptr [⟨.ptr (lit "1"), .ptr (lit "f"), .null 0⟩], .null 0⟩]
  toolsJson := .null 0
  paramsJson := .ptr (lit "p")
  outputDir := .null 0

def smallSegment (used : ℕ) : ShmOut where
  mem := .ptr (List.replicate 8 0)
  used := used
  threshold := 2
  fits := by decide

theorem codec_round_trip_twoParts :
    Roomy (some (smallSegment 0)) ∧ ∃ w, ((frame [] 2 1 [] (some (smallSegment 0))).request twoParts 1).finish = some w ∧
      ∃ view r, Reader.request (readerAt w [] ⟨0, 8192, 0⟩) = (some (view, 1), r) ∧ r.atEnd = true ∧
        view.denote w.payload w.segment = twoParts.plain := by
  have hroomy : Roomy (some (smallSegment 0)) := by
    intro shm hshm
    cases hshm
    exact Nat.zero_le _
  have hfits : ((frame [] 2 1 [] (some (smallSegment 0))).request twoParts 1).finish.any
      (fun w => decide (decodeArenaBound w.payload.length ≤ (⟨0, 8192, 0⟩ : Arena).room)) = true := by decide +kernel
  obtain ⟨w, hfin, hw⟩ := (Option.any_eq_true _ _).1 hfits
  refine ⟨hroomy, w, hfin, ?_⟩
  exact (codec_round_trip [] [] 2 1 (some (smallSegment 0)) hroomy ⟨0, 8192, 0⟩ w (of_decide_eq_true hw)).1 twoParts 1 hfin

/- The offset at which the segment is filled lies behind its end, and the reader refuses it. -/
theorem codec_start_behind_segment :
    ∃ w, ((frame [] 2 1 [] (some (smallSegment 9))).request twoParts 1).finish = some w ∧
      decodeArenaBound w.payload.length ≤ (⟨0, 8192, 0⟩ : Arena).room ∧
      (Reader.request (readerAt w [] ⟨0, 8192, 0⟩)).1.isNone = true := by
  have hrefused : ((frame [] 2 1 [] (some (smallSegment 9))).request twoParts 1).finish.any
      (fun w => decide (decodeArenaBound w.payload.length ≤ (⟨0, 8192, 0⟩ : Arena).room) &&
        (Reader.request (readerAt w [] ⟨0, 8192, 0⟩)).1.isNone) = true := by decide +kernel
  obtain ⟨w, hfin, hw⟩ := (Option.any_eq_true _ _).1 hrefused
  rw [Bool.and_eq_true, decide_eq_true_eq] at hw
  exact ⟨w, hfin, hw⟩

end AgentCpp.Ipc
