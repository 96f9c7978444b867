import AgentCpp.Core.ArenaMemory
import AgentCpp.Turn.Prune

/-!
# The messages of a request (`turn_executor.cpp`)

Leading system messages and the injected text become one system message, and media of tool
messages is sent only when the engine takes it.
-/

namespace AgentCpp.Views
open Lib List

/- What `accepts_tool_media` reads of a session. -/
structure MediaCaps where
  isEngine : Bool := true
  hasState : Bool := true
  toolMediaRejected : Bool := false
  visionIn : Bool := false
  audioIn : Bool := false
  videoIn : Bool := false

def acceptsToolMedia (caps : MediaCaps) (mime : Bytes) : Bool :=
  if !caps.isEngine then true
  else if !caps.hasState || caps.toolMediaRejected then false
  else if (lit "image/").isPrefixOf mime then caps.visionIn
  else if (lit "audio/").isPrefixOf mime then caps.audioIn
  else if (lit "video/").isPrefixOf mime then caps.videoIn
  else false

def sends (caps : MediaCaps) (m : Message) (media : Media) : Bool := !m.isTool || acceptsToolMedia caps media.mime

inductive Text where
  | outside (bytes : Bytes)
  | arena (view : MemView)

/- The elements of arrays in the arena are `none` until they are written. -/
structure MessageView where
  role : Bytes
  content : Text
  toolCalls : List (Option ToolCall)
  toolCallId : Bytes
  tensors : List (Option TensorData)
  media : List (Option Media)

def messageViewSize : UInt64 := 96

def toolCallViewSize : UInt64 := 48

def tensorViewSize : UInt64 := 56

def mediaViewSize : UInt64 := 32

def fillSlots {α : Type} (count : ℕ) (items : List α) : List (Option α) :=
  (items.foldl (fun r a => (r.1.set r.2 (some a), r.2 + 1)) (List.replicate count none, 0)).1

/- `none` when the arena is full. -/
def viewArray {α : Type} (size : UInt64) (count : ℕ) (items : List α) : Fill (Option (List (Option α))) :=
  if count = 0 then return some []
  else do
    let span ← Fill.allocateSpan size 3 count
    return if span.size ≠ count then none else some (fillSlots count items)

def messageView (caps : MediaCaps) (content : Text) (m : Message) : Fill (Option MessageView) := do
  match ← viewArray toolCallViewSize m.toolCalls.length m.toolCalls with
  | none => return none
  | some toolCalls =>
    match ← viewArray tensorViewSize m.tensors.length m.tensors with
    | none => return none
    | some tensors =>
      match ← viewArray mediaViewSize (m.media.countP (sends caps m)) (m.media.filter (sends caps m)) with
      | none => return none
      | some media => return some { role := m.role, content, toolCalls, toolCallId := m.toolCallId, tensors, media }

def leadFrom (i : ℕ) : List Message → ℕ
  | [] => i
  | m :: history =>
    if m.isSystem && (i == 0 || m.media.isEmpty && m.tensors.isEmpty) then leadFrom (i + 1) history else i

def nLead (history : List Message) : ℕ := leadFrom 0 history

def mergedBytes (injected : Bytes) (lead : List Message) : UInt64 :=
  lead.foldl (fun bytes m => bytes + (UInt64.ofNat m.content.length + 2))
    (if injected.isEmpty then 0 else UInt64.ofNat injected.length + 1)

def put (buf off : UInt64) (s : Bytes) : Fill UInt64 := do
  Fill.write (buf + off) s
  return off + UInt64.ofNat s.length

def putSeparator (buf : UInt64) (i : ℕ) (off : UInt64) : Fill UInt64 :=
  if 0 < i then put buf off (lit "\n\n") else return off

def putLead (buf : UInt64) (i : ℕ) (off : UInt64) : List Message → Fill UInt64
  | [] => return off
  | m :: lead => do
    let off ← putSeparator buf i off
    let off ← put buf off m.content
    putLead buf (i + 1) off lead

/- The text of the first system message, which is empty when it is not changed; `none` when the
   arena is full. -/
def combinedSystem (injected : Bytes) (lead : List Message) : Fill (Option MemView) :=
  if 1 < lead.length ∨ lead.length = 1 ∧ injected ≠ [] then do
    let buf ← Fill.allocate (mergedBytes injected lead + 1) 0
    if buf = 0 then return none
    else
      let off ← putLead buf 0 0 lead
      if injected.isEmpty then return some ⟨buf, off.toNat⟩
      else
        let off ← put buf off (lit "\n")
        let off ← put buf off injected
        return some ⟨buf, off.toNat⟩
  else return some {}

structure Built where
  slots : List (Option MessageView)
  v : ℕ

def viewLoop (caps : MediaCaps) (lead : ℕ) (combined : MemView) (i : ℕ) : List Message → Built → Fill (Option Built)
  | [], built => return some built
  | m :: history, built =>
    if 0 < i ∧ i < lead then viewLoop caps lead combined (i + 1) history built
    else do
      let content := if i = 0 ∧ combined.size ≠ 0 then .arena combined else .outside m.content
      match ← messageView caps content m with
      | none => return none
      | some view =>
        viewLoop caps lead combined (i + 1) history ⟨built.slots.set built.v (some view), built.v + 1⟩

def viewCount (injected : Bytes) (history : List Message) : ℕ :=
  let merged := if 1 < nLead history then nLead history - 1 else 0
  history.length - merged + if injected ≠ [] ∧ nLead history = 0 then 1 else 0

def exhaustedViews : Error :=
  ⟨.decodeFailed, lit "Arena capacity exhausted building message views. Increase Config::arena_capacity or reduce Config::context_window."⟩

def exhausted : Error := ⟨.decodeFailed, lit "Arena capacity exhausted building message views."⟩

def prefixView (injected : Bytes) : MessageView := ⟨lit "system", .outside injected, [], [], [], []⟩

/- The uninitialised array, with the injected text as a message of its own when no other can
   hold it. -/
def startViews (injected : Bytes) (history : List Message) : Built :=
  let slots := List.replicate (viewCount injected history) none
  if injected ≠ [] ∧ nLead history = 0 then ⟨slots.set 0 (some (prefixView injected)), 1⟩ else ⟨slots, 0⟩

def buildViews (caps : MediaCaps) (injected : Bytes) (history : List Message) :
    Fill (Result (List (Option MessageView))) := do
  let count := viewCount injected history
  let span ← Fill.allocateSpan messageViewSize 3 count
  if count ≠ 0 ∧ span.size ≠ count then return .error exhaustedViews
  else
    match ← combinedSystem injected (history.take (nLead history)) with
    | none => return .error exhausted
    | some combined =>
      match ← viewLoop caps (nLead history) combined 0 history (startViews injected history) with
      | none => return .error exhausted
      | some built => return .ok built.slots

/- The first system message and those that follow it without attachments. -/
def leading : List Message → List Message
  | [] => []
  | m :: history =>
    if m.isSystem then m :: history.takeWhile fun m => m.isSystem && (m.media.isEmpty && m.tensors.isEmpty) else []

def mergedText (injected : Bytes) (lead : List Message) : Bytes :=
  List.intercalate (lit "\n\n") (lead.map (·.content)) ++ if injected = [] then [] else lit "\n" ++ injected

/- A message without the media that the engine does not take. -/
def sentMessage (caps : MediaCaps) (m : Message) : Message := { m with media := m.media.filter (sends caps m) }

def promptMessages (caps : MediaCaps) (injected : Bytes) (history : List Message) : List Message :=
  match leading history with
  | [] => (if injected = [] then [] else [{ role := lit "system", content := injected }]) ++ history.map (sentMessage caps)
  | first :: rest =>
    { sentMessage caps first with content := mergedText injected (first :: rest) } ::
      (history.drop (rest.length + 1)).map (sentMessage caps)

def Text.read (mem : Memory) : Text → Bytes
  | .outside bytes => bytes
  | .arena v => load mem v.addr.toNat v.size

/- An initialised view of the message. -/
structure Represents (mem : Memory) (slot : Option MessageView) (m : Message) : Prop where
  view : ∃ v, slot = some v ∧ v.role = m.role ∧ v.content.read mem = m.content ∧ v.toolCallId = m.toolCallId ∧
    v.toolCalls = m.toolCalls.map some ∧ v.tensors = m.tensors.map some ∧ v.media = m.media.map some

/- The bytes of a message in memory, at least. -/
def footprint (m : Message) : ℕ := m.content.length + m.toolCalls.length + m.tensors.length + m.media.length + 2

/- A history and an injected text that lie in memory. -/
structure Prompt where
  injected : Bytes
  history : List Message
  stored : injected.length + (history.map footprint).sum + 2 < 2 ^ 64

theorem leadFrom_succ (i : ℕ) (history : List Message) : leadFrom (i + 1) history =
    i + 1 + (history.takeWhile fun m => m.isSystem && (m.media.isEmpty && m.tensors.isEmpty)).length := by
  induction history generalizing i with
  | nil => rfl
  | cons m history ih =>
    unfold leadFrom
    have hindex : (i + 1 == 0) = false := rfl
    rw [hindex, Bool.false_or, takeWhile_cons]
    split
    · rw [ih, length_cons]
      omega
    · rfl

theorem leading_cons (m : Message) (history : List Message) : leading (m :: history) = if m.isSystem then
    m :: history.takeWhile fun m => m.isSystem && (m.media.isEmpty && m.tensors.isEmpty) else [] := rfl

theorem nLead_eq (history : List Message) : nLead history = (leading history).length := by
  cases history with
  | nil => rfl
  | cons m history =>
    unfold nLead leadFrom
    have hindex : (0 == 0) = true := rfl
    rw [hindex, Bool.true_or, Bool.and_true, leading_cons]
    split
    · rw [leadFrom_succ, length_cons]
      omega
    · rfl

theorem take_nLead (history : List Message) : history.take (nLead history) = leading history := by
  rw [nLead_eq]
  cases history with
  | nil => rfl
  | cons m history =>
    rw [leading_cons]
    split
    · exact congrArg _ (prefix_iff_eq_take.1 (List.takeWhile_prefix _)).symm
    · rfl

theorem set_slot {α : Type} (done : List α) (rest : List (Option α)) (a : α) :
    (done.map some ++ none :: rest).set done.length (some a) = (done ++ [a]).map some ++ rest := by
  have hlength : done.length = (done.map some).length := (length_map _).symm
  rw [hlength, set_append_right _ _ (le_refl _), Nat.sub_self, map_append, append_assoc]
  rfl

theorem fillSlots_eq {α : Type} (items : List α) : fillSlots items.length items = items.map some := by
  suffices h : ∀ (items done : List α), (items.foldl (fun r a => (r.1.set r.2 (some a), r.2 + 1))
      (done.map some ++ List.replicate items.length none, done.length)).1 = (done ++ items).map some by
    exact h items []
  intro items
  induction items with
  | nil =>
    intro done
    rw [length_nil, replicate_zero, append_nil, append_nil]
    rfl
  | cons a items ih =>
    intro done
    have hnext := ih (done ++ [a])
    rw [length_append, append_assoc] at hnext
    rw [foldl_cons, length_cons, replicate_succ, set_slot]
    exact hnext

variable {s : Filling}

theorem viewArray_post {α : Type} {size : UInt64} (hsize : size ≠ 0) {count : ℕ} {items : List α}
    (hitems : items.length = count) (hcount : count < 2 ^ 64) :
    Post s (viewArray size count items) fun o s' => s'.mem = s.mem ∧ o = some (items.map some) := by
  unfold viewArray
  split
  · next hzero =>
    rw [eq_nil_of_length_eq_zero (hitems.trans hzero)]
    exact post_pure ⟨rfl, rfl⟩
  · refine post_bind (allocateSpan_suffices hsize 3 hcount) fun span t ht => post_pure ⟨ht.1, ?_⟩
    rw [if_neg (not_not.2 ht.2), ← hitems, fillSlots_eq]

def fullView (caps : MediaCaps) (content : Text) (m : Message) : MessageView where
  role := m.role
  content := content
  toolCalls := m.toolCalls.map some
  toolCallId := m.toolCallId
  tensors := m.tensors.map some
  media := (m.media.filter (sends caps m)).map some

variable {m : Message}

theorem messageView_post (caps : MediaCaps) (content : Text) (hm : footprint m < 2 ^ 64) :
    Post s (messageView caps content m) fun o s' => s'.mem = s.mem ∧ o = some (fullView caps content m) := by
  unfold footprint at hm
  have hmedia : (m.media.filter (sends caps m)).length = m.media.countP (sends caps m) := countP_eq_length_filter.symm
  have hfewer := countP_le_length (p := sends caps m) (l := m.media)
  refine post_bind (viewArray_post (by decide) rfl (by omega)) fun toolCalls t ht => ?_
  obtain ⟨hmem, rfl⟩ := ht
  refine post_bind (viewArray_post (by decide) rfl (by omega)) fun tensors t' ht' => ?_
  obtain ⟨hmem', rfl⟩ := ht'
  refine post_bind (viewArray_post (by decide) hmedia (by omega)) fun media t'' ht'' => ?_
  obtain ⟨hmem'', rfl⟩ := ht''
  exact post_pure ⟨by rw [hmem'', hmem', hmem], rfl⟩

variable {text injected : Bytes}

theorem fullView_represents (caps : MediaCaps) {content : Text} {mem : Memory} (htext : content.read mem = text) :
    Represents mem (some (fullView caps content m)) { sentMessage caps m with content := text } :=
  ⟨_, rfl, rfl, htext, rfl, rfl, rfl, rfl⟩

structure Written (buf off : UInt64) (text : Bytes) (s : Filling) : Prop where
  off : off.toNat = text.length
  text : load s.mem buf.toNat text.length = text

variable {buf off : UInt64}

theorem put_post {bytes : Bytes} (h : Written buf off text s) (hroom : buf.toNat + (text ++ bytes).length < 2 ^ 64) :
    Post s (put buf off bytes) fun off' s' => Written buf off' (text ++ bytes) s' := by
  rw [length_append] at hroom
  have haddr : (buf + off).toNat = buf.toNat + text.length := by
    rw [UInt64.toNat_add, h.off, Nat.mod_eq_of_lt (by omega)]
  refine post_bind (post_write _ _) fun _ t ht => post_pure ⟨?_, ?_⟩
  · rw [UInt64.toNat_add, UInt64.toNat_ofNat', h.off, Nat.add_mod_mod, length_append, Nat.mod_eq_of_lt (by omega)]
  · rw [ht, length_append]
    change load (store s.mem (buf + off).toNat bytes) _ _ = _
    rw [haddr]
    exact load_store_append h.text

def leadText (i : ℕ) : List Message → Bytes
  | [] => []
  | m :: lead => (if 0 < i then lit "\n\n" else []) ++ m.content ++ leadText (i + 1) lead

theorem putLead_post (lead : List Message) {i : ℕ}
    (h : Written buf off text s) (hroom : buf.toNat + (text ++ leadText i lead).length < 2 ^ 64) :
    Post s (putLead buf i off lead) fun off' s' => Written buf off' (text ++ leadText i lead) s' := by
  induction lead generalizing i off text s with
  | nil =>
    unfold leadText
    rw [append_nil]
    exact post_pure h
  | cons m lead ih =>
    unfold leadText at hroom ⊢
    simp only [length_append] at hroom
    have hseparator : Post s (putSeparator buf i off) fun off' s' =>
        Written buf off' (text ++ if 0 < i then lit "\n\n" else []) s' := by
      unfold putSeparator
      split
      · next hi =>
        rw [if_pos hi] at hroom
        exact put_post h (by rw [length_append]; omega)
      · rw [append_nil]
        exact post_pure h
    refine post_bind hseparator fun off1 t ht => ?_
    refine post_bind (put_post ht (by simp only [length_append]; omega)) fun off2 t' ht' => ?_
    have hrest := ih (i := i + 1) ht' (by simp only [length_append]; omega)
    rw [append_assoc, append_assoc, ← append_assoc _ m.content] at hrest
    exact hrest

theorem leadText_succ (i : ℕ) (lead : List Message) :
    leadText (i + 1) lead = lead.flatMap fun m => lit "\n\n" ++ m.content := by
  induction lead generalizing i with
  | nil => rfl
  | cons m lead ih =>
    unfold leadText
    rw [if_pos (Nat.succ_pos i), ih, flatMap_cons]

theorem leadText_zero (lead : List Message) :
    leadText 0 lead = List.intercalate (lit "\n\n") (lead.map (·.content)) := by
  cases lead with
  | nil => rfl
  | cons m lead =>
    unfold leadText
    rw [if_neg (Nat.lt_irrefl 0), nil_append, leadText_succ]
    induction lead generalizing m with
    | nil =>
      rw [flatMap_nil, append_nil, map_singleton, intercalate_singleton]
    | cons m' lead ih =>
      rw [flatMap_cons, map_cons, map_cons, intercalate_cons_cons, ← map_cons, ← ih, append_assoc, append_assoc]

def leadBytes (lead : List Message) : ℕ := (lead.map fun m => m.content.length + 2).sum

theorem length_leadText_succ (i : ℕ) (lead : List Message) : (leadText (i + 1) lead).length = leadBytes lead := by
  rw [leadText_succ, length_flatMap]
  rfl

theorem length_mergedText (injected : Bytes) (m : Message) (lead : List Message) :
    (mergedText injected (m :: lead)).length =
      m.content.length + leadBytes lead + if injected = [] then 0 else injected.length + 1 := by
  unfold mergedText
  rw [← leadText_zero]
  unfold leadText
  rw [if_neg (Nat.lt_irrefl 0), length_append, length_append, length_leadText_succ]
  split
  · rfl
  · rfl

variable {lead : List Message}

theorem toNat_mergedBytes (h : injected.length + leadBytes lead + 1 < 2 ^ 64) :
    (mergedBytes injected lead).toNat = (if injected = [] then 0 else injected.length + 1) + leadBytes lead := by
  have hfold : ∀ (lead : List Message) (b : UInt64), b.toNat + leadBytes lead < 2 ^ 64 →
      (lead.foldl (fun bytes m => bytes + (UInt64.ofNat m.content.length + 2)) b).toNat = b.toNat + leadBytes lead := by
    intro lead
    induction lead with
    | nil => exact fun _ _ => rfl
    | cons m lead ih =>
      intro b hb
      have hcons : leadBytes (m :: lead) = m.content.length + 2 + leadBytes lead := rfl
      have hadd : (b + (UInt64.ofNat m.content.length + 2)).toNat = b.toNat + (m.content.length + 2) := by
        have htwo : (2 : UInt64).toNat = 2 := rfl
        rw [UInt64.toNat_add, UInt64.toNat_add, UInt64.toNat_ofNat']
        omega
      rw [foldl_cons, ih _ (by omega)]
      omega
  have hstart : (if injected.isEmpty then 0 else UInt64.ofNat injected.length + 1 : UInt64).toNat =
      if injected = [] then 0 else injected.length + 1 := by
    cases injected with
    | nil => rfl
    | cons b bs =>
      have hone : (1 : UInt64).toNat = 1 := rfl
      change (UInt64.ofNat (b :: bs).length + 1).toNat = (b :: bs).length + 1
      rw [UInt64.toNat_add, UInt64.toNat_ofNat']
      omega
  unfold mergedBytes
  rw [hfold _ _ (by rw [hstart]; split <;> omega), hstart]

theorem mergedText_lt (h : injected.length + leadBytes lead + 2 < 2 ^ 64) :
    (mergedText injected lead).length < (mergedBytes injected lead + 1).toNat := by
  have hbytes := toNat_mergedBytes (by omega : injected.length + leadBytes lead + 1 < 2 ^ 64)
  have hone : (1 : UInt64).toNat = 1 := rfl
  rw [UInt64.toNat_add, hbytes, Nat.mod_eq_of_lt (by split <;> omega)]
  cases lead with
  | nil =>
    unfold mergedText
    split
    · exact Nat.succ_pos _
    · rw [length_append, length_append]
      change 0 + (1 + injected.length) < injected.length + 1 + 0 + 1
      omega
  | cons m lead =>
    rw [length_mergedText]
    have hcons : leadBytes (m :: lead) = m.content.length + 2 + leadBytes lead := rfl
    omega

def Merges (injected : Bytes) (lead : List Message) : Prop := 1 < lead.length ∨ lead.length = 1 ∧ injected ≠ []

instance (injected : Bytes) (lead : List Message) : Decidable (Merges injected lead) :=
  inferInstanceAs (Decidable (_ ∨ _))

theorem mergedText_ne_nil (h : Merges injected lead) : (mergedText injected lead).length ≠ 0 := by
  cases lead with
  | nil => rcases h with h | ⟨h, -⟩ <;> cases h
  | cons m lead =>
    rw [length_mergedText]
    rcases h with hmore | ⟨-, hne⟩
    · cases lead with
      | nil => exact absurd hmore (Nat.lt_irrefl 1)
      | cons m' lead =>
        have hcons : leadBytes (m' :: lead) = m'.content.length + 2 + leadBytes lead := rfl
        omega
    · rw [if_neg hne]
      omega

theorem mergedText_eq (h : lead ≠ []) (hmerge : ¬ Merges injected lead) :
    ∃ m, lead = [m] ∧ mergedText injected lead = m.content := by
  cases lead with
  | nil => exact absurd rfl h
  | cons m lead =>
    cases lead with
    | nil =>
      have hempty : injected = [] := by
        by_contra hne
        exact hmerge (Or.inr ⟨rfl, hne⟩)
      refine ⟨m, rfl, ?_⟩
      unfold mergedText
      rw [if_pos hempty, append_nil, map_singleton, intercalate_singleton]
    | cons m' lead => exact absurd (Or.inl (Nat.succ_lt_succ (Nat.succ_pos _))) hmerge

theorem combinedSystem_post (h : injected.length + leadBytes lead + 2 < 2 ^ 64)
    : Post s (combinedSystem injected lead) fun o s' => ∃ v, o = some v ∧
      (Merges injected lead → v.size ≠ 0 ∧ load s'.mem v.addr.toNat v.size = mergedText injected lead) ∧
      (¬ Merges injected lead → v.size = 0) := by
  unfold combinedSystem
  split
  · next hmerge =>
    have hsize := mergedText_lt h
    have hcall : ArenaCall.allocate (mergedBytes injected lead + 1) 0 ≠ .reset := nofun
    refine post_bind (ask_suffices hcall) fun buf t ht => ?_
    obtain ⟨hvalid, hend⟩ := ht.2 (by
      change (mergedBytes injected lead + 1).toNat ≠ 0
      omega)
    have hroom : buf.toNat + (mergedText injected lead).length < 2 ^ 64 := by
      have hlevel := t.level_le
      change buf.toNat + (mergedBytes injected lead + 1).toNat ≤ t.level at hend
      omega
    have hdone : ∀ {off : UInt64} {t : Filling}, Written buf off (mergedText injected lead) t →
        ∃ v, some (MemView.mk buf off.toNat) = some v ∧
          (Merges injected lead → v.size ≠ 0 ∧ load t.mem v.addr.toNat v.size = mergedText injected lead) ∧
          (¬ Merges injected lead → v.size = 0) := by
      intro off t hwritten
      refine ⟨_, rfl, fun _ => ⟨?_, ?_⟩, fun hnot => absurd hmerge hnot⟩
      · rw [hwritten.off]
        exact mergedText_ne_nil hmerge
      · rw [hwritten.off]
        exact hwritten.text
    have htext : mergedText injected lead =
        leadText 0 lead ++ if injected = [] then [] else lit "\n" ++ injected := by
      rw [leadText_zero]
      rfl
    rw [if_neg hvalid]
    rw [htext, length_append] at hroom
    have hstart : Written buf 0 [] t := ⟨rfl, rfl⟩
    refine post_bind (putLead_post lead hstart (by rw [nil_append]; omega)) fun off t1 ht1 => ?_
    rw [nil_append] at ht1
    split
    · next hempty =>
      rw [if_pos (isEmpty_iff.1 hempty), append_nil] at htext
      rw [← htext] at ht1
      exact post_pure (hdone ht1)
    · next hne =>
      have hne : injected ≠ [] := fun hempty => hne (isEmpty_iff.2 hempty)
      rw [if_neg hne] at htext hroom
      rw [length_append] at hroom
      refine post_bind (put_post ht1 (by rw [length_append]; omega)) fun off2 t2 ht2 => ?_
      refine post_bind (put_post ht2 (by simp only [length_append]; omega)) fun off3 t3 ht3 => ?_
      rw [append_assoc, ← htext] at ht3
      exact post_pure (hdone ht3)
  · next hmerge => exact post_pure ⟨{}, rfl, fun h => absurd h hmerge, fun _ => rfl⟩

section Loop

variable {caps : MediaCaps} {lead : ℕ} {combined : MemView}

theorem viewLoop_skip (n : ℕ) (i : ℕ) (hi : 0 < i) (hn : i + n = lead) (history : List Message)
    (hlength : n ≤ history.length) (built : Built) :
    viewLoop caps lead combined i history built = viewLoop caps lead combined lead (history.drop n) built := by
  induction n generalizing i history with
  | zero =>
    rw [← hn]
    rfl
  | succ n ih =>
    cases history with
    | nil => cases hlength
    | cons m history =>
      rw [drop_succ_cons, ← ih (i + 1) (Nat.succ_pos i) (by omega) history (Nat.le_of_succ_le_succ hlength)]
      exact if_pos ⟨hi, by omega⟩

theorem viewLoop_post (history : List Message) (i : ℕ) (hi : lead ≤ i) (hcombined : i = 0 → combined.size = 0)
    (hfoot : ∀ m ∈ history, footprint m < 2 ^ 64) (done : List MessageView) {s : Filling} :
    Post s (viewLoop caps lead combined i history
        ⟨done.map some ++ List.replicate history.length none, done.length⟩) fun o s' => s'.mem = s.mem ∧
      ∃ built, o = some built ∧
        built.slots = (done ++ history.map fun m => fullView caps (.outside m.content) m).map some := by
  induction history generalizing i done s with
  | nil =>
    refine post_pure ⟨rfl, _, rfl, ?_⟩
    rw [length_nil, replicate_zero, append_nil, map_nil, append_nil]
  | cons m history ih =>
    unfold viewLoop
    rw [if_neg (by omega), if_neg (fun h => h.2 (hcombined h.1))]
    obtain ⟨hm, hrest⟩ := forall_mem_cons.1 hfoot
    refine post_bind (messageView_post caps _ hm) fun o t ht => ?_
    obtain ⟨hmem, rfl⟩ := ht
    have hnext := ih (i + 1) (by omega) nofun hrest (done ++ [fullView caps (.outside m.content) m]) (s := t)
    rw [length_append, append_assoc, hmem] at hnext
    rw [length_cons, replicate_succ]
    simp only [set_slot]
    exact hnext

end Loop

section Sizes

variable (history : List Message)

theorem leadBytes_take_le (n : ℕ) : leadBytes (history.take n) ≤ (history.map footprint).sum := by
  induction history generalizing n with
  | nil =>
    rw [take_nil]
    exact Nat.zero_le _
  | cons m history ih =>
    cases n with
    | zero => exact Nat.zero_le _
    | succ n =>
      have hcons : leadBytes (m :: history.take n) = m.content.length + 2 + leadBytes (history.take n) := rfl
      have hrest := ih n
      rw [take_succ_cons, map_cons, sum_cons]
      unfold footprint at hrest ⊢
      omega

theorem length_le_footprints : history.length ≤ (history.map footprint).sum := by
  induction history with
  | nil => exact Nat.zero_le _
  | cons m history ih =>
    rw [length_cons, map_cons, sum_cons]
    unfold footprint at ih ⊢
    omega

theorem footprint_le {m : Message} (hm : m ∈ history) : footprint m ≤ (history.map footprint).sum :=
  single_le_sum (fun _ _ => Nat.zero_le _) _ (mem_map_of_mem hm)

end Sizes

theorem represents_outside (caps : MediaCaps) (mem : Memory) (ms : List Message) :
    List.Forall₂ (Represents mem) ((ms.map fun m => fullView caps (.outside m.content) m).map some)
      (ms.map (sentMessage caps)) := by
  induction ms with
  | nil => exact .nil
  | cons m ms ih => exact .cons (fullView_represents caps rfl) ih

section Request

variable {caps : MediaCaps} {injected : Bytes} {history : List Message} {combined : MemView} {s : Filling}

def Builds (caps : MediaCaps) (injected : Bytes) (history : List Message) (mem : Memory) (built : Built) : Prop :=
  built.slots.length = viewCount injected history ∧
    List.Forall₂ (Represents mem) built.slots (promptMessages caps injected history)

def prefixes (injected : Bytes) : List MessageView := if injected = [] then [] else [prefixView injected]

theorem viewCount_plain (hzero : nLead history = 0) :
    viewCount injected history = (prefixes injected).length + history.length := by
  unfold viewCount prefixes
  rw [hzero]
  by_cases hempty : injected = []
  · simp [hempty]
  · simp [hempty, Nat.add_comm]

theorem startViews_plain (hzero : nLead history = 0) : startViews injected history =
    ⟨(prefixes injected).map some ++ List.replicate history.length none, (prefixes injected).length⟩ := by
  unfold startViews
  rw [viewCount_plain hzero, hzero]
  unfold prefixes
  by_cases hempty : injected = []
  · simp [hempty]
  · simp [hempty, Nat.add_comm, replicate_succ]

theorem viewLoop_plain (hleading : leading history = []) (hcombined : combined.size = 0)
    (hfoot : ∀ m ∈ history, footprint m < 2 ^ 64) :
    Post s (viewLoop caps (nLead history) combined 0 history (startViews injected history))
      fun o s' => ∃ built, o = some built ∧ Builds caps injected history s'.mem built := by
  have hzero : nLead history = 0 := by rw [nLead_eq, hleading, length_nil]
  rw [startViews_plain hzero, hzero]
  refine (viewLoop_post history 0 (le_refl _) (fun _ => hcombined) hfoot (prefixes injected)).mono fun o t ht => ?_
  obtain ⟨-, built, rfl, hslots⟩ := ht
  refine ⟨built, rfl, ?_, ?_⟩
  · rw [hslots, viewCount_plain hzero, length_map, length_append, length_map]
  · unfold promptMessages
    rw [hslots, hleading, map_append]
    refine rel_append ?_ (represents_outside caps t.mem history)
    unfold prefixes
    split
    · exact .nil
    · exact .cons ⟨_, rfl, rfl, rfl, rfl, rfl, rfl, rfl⟩ .nil

theorem viewCount_merged (injected : Bytes) {n : ℕ} (hlead : nLead history = n + 1) (hlength : n + 1 ≤ history.length) :
    viewCount injected history = 1 + (history.length - (n + 1)) := by
  unfold viewCount
  have hprefix : ¬ (injected ≠ [] ∧ n + 1 = 0) := fun h => nomatch h.2
  simp only [hlead]
  split <;> omega

theorem viewLoop_merged {first : Message} {rest : List Message} (hleading : leading history = first :: rest)
    (hmerged : Merges injected (first :: rest) →
      combined.size ≠ 0 ∧ load s.mem combined.addr.toNat combined.size = mergedText injected (first :: rest))
    (hunmerged : ¬ Merges injected (first :: rest) → combined.size = 0)
    (hfoot : ∀ m ∈ history, footprint m < 2 ^ 64) :
    Post s (viewLoop caps (nLead history) combined 0 history (startViews injected history))
      fun o s' => ∃ built, o = some built ∧ Builds caps injected history s'.mem built := by
  have hlead : nLead history = rest.length + 1 := by rw [nLead_eq, hleading, length_cons]
  have htake := take_nLead history
  rw [hleading, hlead] at htake
  cases history with
  | nil => cases hleading
  | cons m tail =>
    obtain ⟨rfl, htail⟩ := List.cons.inj htake
    have hlength : rest.length ≤ tail.length := by
      rw [← htail, length_take]
      exact Nat.min_le_right _ _
    have hcount := viewCount_merged injected hlead (Nat.succ_le_succ hlength)
    have hleft : (m :: tail).length - (rest.length + 1) = (tail.drop rest.length).length := by
      rw [length_drop, length_cons]
      omega
    have hstart : startViews injected (m :: tail) = ⟨none :: List.replicate (tail.drop rest.length).length none, 0⟩ := by
      unfold startViews
      rw [if_neg (fun h => by rw [hlead] at h; cases h.2), hcount, hleft, Nat.add_comm, replicate_succ]
    let content : Text := if 0 = 0 ∧ combined.size ≠ 0 then .arena combined else .outside m.content
    have hread : content.read s.mem = mergedText injected (m :: rest) := by
      by_cases hmerge : Merges injected (m :: rest)
      · have hcontent : content = .arena combined := if_pos ⟨rfl, (hmerged hmerge).1⟩
        rw [hcontent]
        exact (hmerged hmerge).2
      · have hcontent : content = .outside m.content := if_neg fun h => h.2 (hunmerged hmerge)
        obtain ⟨m', hsingle, htext⟩ := mergedText_eq (cons_ne_nil m rest) hmerge
        rw [hcontent, htext, (List.cons.inj hsingle).1]
        rfl
    obtain ⟨hm, hfootTail⟩ := forall_mem_cons.1 hfoot
    rw [hstart, hlead]
    refine post_bind (messageView_post caps content hm) fun o t ht => ?_
    obtain ⟨hmem, rfl⟩ := ht
    simp only [Nat.zero_add]
    rw [viewLoop_skip rest.length 1 Nat.one_pos (Nat.add_comm _ _) tail hlength]
    have hfootDrop : ∀ q ∈ tail.drop rest.length, footprint q < 2 ^ 64 :=
      fun q hq => hfootTail q (mem_of_mem_drop hq)
    refine (viewLoop_post _ (rest.length + 1) (le_refl _) nofun hfootDrop [fullView caps content m]).mono
      fun o t' ht' => ?_
    obtain ⟨hmem', built, rfl, hslots⟩ := ht'
    refine ⟨built, rfl, ?_, ?_⟩
    · rw [hslots, hcount, hleft, length_map, length_append, length_map]
      rfl
    · unfold promptMessages
      rw [hslots, hleading]
      refine .cons (fullView_represents caps ?_) (represents_outside caps t'.mem _)
      rw [hmem', hmem]
      exact hread

end Request

/-- Every history and injected text in memory, when the arena suffices: all views are built, and
they are the messages that the request should have. The merged text stays in its buffer. -/
theorem buildViews_prompt (caps : MediaCaps) (p : Prompt) (s : Filling)
    (hsuffices : ∀ e ∈ (buildViews caps p.injected p.history s).1, e.Suffices) :
    (∃ slots, (buildViews caps p.injected p.history s).2.1 = .ok slots ∧
      slots.length = viewCount p.injected p.history ∧
      List.Forall₂ (Represents (buildViews caps p.injected p.history s).2.2.mem) slots
        (promptMessages caps p.injected p.history)) ∧
    (mergedText p.injected (leading p.history)).length < (mergedBytes p.injected (leading p.history) + 1).toNat := by
  obtain ⟨injected, history, hstored⟩ := p
  simp only at hsuffices ⊢
  have hlead := leadBytes_take_le history (nLead history)
  have hlength := length_le_footprints history
  have hfoot : ∀ m ∈ history, footprint m < 2 ^ 64 := fun m hm => by
    have hle := footprint_le history hm
    omega
  rw [take_nLead] at hlead
  refine ⟨?_, mergedText_lt (by omega)⟩
  suffices hpost : Post s (buildViews caps injected history) fun r s' => ∃ slots, r = .ok slots ∧
      slots.length = viewCount injected history ∧
      List.Forall₂ (Represents s'.mem) slots (promptMessages caps injected history) from hpost hsuffices
  have hcount : viewCount injected history < 2 ^ 64 := by
    unfold viewCount
    simp only
    split <;> split <;> omega
  refine post_bind (allocateSpan_suffices (by decide) 3 hcount) fun span t ht => ?_
  rw [if_neg (fun h => h.2 ht.2), take_nLead]
  refine post_bind (combinedSystem_post (by omega)) fun o t1 ht1 => ?_
  obtain ⟨combined, rfl, hmerged, hunmerged⟩ := ht1
  cases hleading : leading history with
  | nil =>
    rw [hleading] at hunmerged
    have hcombined : combined.size = 0 := hunmerged fun h => by rcases h with h | ⟨h, -⟩ <;> cases h
    refine post_bind (viewLoop_plain hleading hcombined hfoot) fun o t2 ht2 => ?_
    obtain ⟨built, rfl, hbuilt⟩ := ht2
    exact post_pure ⟨_, rfl, hbuilt⟩
  | cons first rest =>
    rw [hleading] at hmerged hunmerged
    refine post_bind (viewLoop_merged hleading hmerged hunmerged hfoot) fun o t2 ht2 => ?_
    obtain ⟨built, rfl, hbuilt⟩ := ht2
    exact post_pure ⟨_, rfl, hbuilt⟩

def viewArena : Filling where
  arena := { capacity := 1024, ptr := 4096, block := by decide, filled := by decide }
  mem := fun _ => 0

def systemMessage (content : Bytes) : Message := { role := lit "system", content }

def toolPrompt : Prompt where
  injected := lit "tools"
  history := [systemMessage (lit "a"), systemMessage (lit "b"), { role := lit "user", content := lit "q" }]
  stored := by decide

theorem buildViews_prompt_tools : ∃ slots, (buildViews {} toolPrompt.injected toolPrompt.history viewArena).2.1 = .ok slots ∧
    slots.length = 2 ∧
    List.Forall₂ (Represents (buildViews {} toolPrompt.injected toolPrompt.history viewArena).2.2.mem) slots
      [systemMessage (lit "a\n\nb\ntools"), { role := lit "user", content := lit "q" }] := by
  have hcheck : ((buildViews {} toolPrompt.injected toolPrompt.history viewArena).1.all
      fun e => decide e.Suffices) = true := by decide +kernel
  obtain ⟨slots, hok, hlength, hviews⟩ := (buildViews_prompt {} toolPrompt viewArena
    fun e he => of_decide_eq_true (all_eq_true.1 hcheck e he)).1
  exact ⟨slots, hok, hlength.trans (by decide +kernel), hviews⟩

def pictureHistory : List Message :=
  [systemMessage (lit "a"), { systemMessage (lit "b") with media := [⟨lit "b.png", lit "image/png"⟩] }]

theorem buildViews_splits_system : pictureHistory.all (·.isSystem) = true ∧
    ∃ slots, (buildViews {} [] pictureHistory viewArena).2.1 = .ok slots ∧
      slots.map (fun slot => slot.map fun v => v.content.read (buildViews {} [] pictureHistory viewArena).2.2.mem) =
        [some (lit "a"), some (lit "b")] :=
  ⟨by decide, _, rfl, by decide +kernel⟩

end AgentCpp.Views
