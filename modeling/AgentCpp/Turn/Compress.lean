import AgentCpp.Turn.Prune

/-!
# Compressing a conversation (`context_compressor.cpp`)

`compress_context` replaces the older messages by one system message. It runs between turns
and as a tool, in the middle of a round of tool calls. `size_t` arithmetic wraps at 2^64.
-/

namespace AgentCpp
open Lib List

def kCompressedHistoryPrefix : Bytes := lit "[Compressed history]: "

def Message.isSummary (m : Message) : Bool := kCompressedHistoryPrefix.isPrefixOf m.content

def hasSystem (history : List CountedMessage) : Bool :=
  match history with
  | [] => false
  | first :: _ => first.isSystem && !first.isSummary

def compressStart (history : List CountedMessage) : ℕ := if hasSystem history then 1 else 0

def skipTools (history : List CountedMessage) (start : ℕ) : ℕ → ℕ
  | 0 => 0
  | compressEnd + 1 =>
    match history[compressEnd + 1]? with
    | none => compressEnd + 1
    | some msg => if start < compressEnd + 1 ∧ msg.isTool = true then skipTools history start compressEnd
      else compressEnd + 1

def sizeMax : ℕ := 2 ^ 64

def endsInCalls (history : List CountedMessage) : Bool :=
  match history.getLast? with
  | none => false
  | some last => last.hasCalls

def compressEnd (history : List CountedMessage) (keepRecent : ℕ) : ℕ :=
  let recent := (history.length + sizeMax - keepRecent) % sizeMax
  let cut := if endsInCalls history then min recent (history.length - 1) else recent
  skipTools history (compressStart history) cut

def Message.summaryLine (m : Message) : Bytes :=
  m.role ++ lit ": " ++ (if m.content.isEmpty then [] else m.content ++ lit " ") ++
    m.toolCalls.flatMap (fun tc => lit "[tool:" ++ tc.name ++ lit " " ++ tc.arguments ++ lit "] ") ++
    m.media.flatMap (fun md => lit "[file: " ++ md.path ++ lit " (" ++ md.mime ++ lit ")] ") ++ lit "\n"

def summaryPrompt (messages : List CountedMessage) : Bytes :=
  lit "Summarize the following conversation concisely. " ++
    lit "Preserve all key facts, decisions, code snippets, and tool outputs:\n\n" ++
    messages.flatMap (·.summaryLine)

def summaryMessage (text : Bytes) : CountedMessage :=
  { role := lit "system", content := kCompressedHistoryPrefix ++ text }

/- `compress_context` leaves the history as it is, reads and erases past its end, or puts a summary
in the place of the messages before a cut. -/
inductive Compression where
  | skipped
  | outOfRange
  | summarized (cut : ℕ) (text : Bytes)

def summarizeUpTo (summarize : Bytes → Result Bytes) (history : List CountedMessage) (cut : ℕ) : Compression :=
  match summarize (summaryPrompt ((history.take cut).drop (compressStart history))) with
  | .error _ => .skipped
  | .ok text => .summarized cut text

def planCompression (summarize : Bytes → Result Bytes) (history : List CountedMessage) (keepRecent : ℕ) :
    Compression :=
  let start := compressStart history
  if history.length ≤ (start + keepRecent + 2) % sizeMax then .skipped
  else
    let cut := compressEnd history keepRecent
    if cut < start + 2 then .skipped
    else if history.length < cut then .outOfRange
    else summarizeUpTo summarize history cut

def compressContext (summarize : Bytes → Result Bytes) (history : List CountedMessage) (keepRecent : ℕ) :
    Option (List CountedMessage) :=
  match planCompression summarize history keepRecent with
  | .skipped => some history
  | .outOfRange => none
  | .summarized cut text => some (history.take (compressStart history) ++ summaryMessage text :: history.drop cut)

theorem skipTools_le (history : List CountedMessage) (start cut : ℕ) : skipTools history start cut ≤ cut := by
  induction cut with
  | zero => exact Nat.le_refl 0
  | succ cut ih =>
    unfold skipTools
    split
    · exact Nat.le_refl _
    · split
      · omega
      · exact Nat.le_refl _

theorem skipTools_not_tool (history : List CountedMessage) (start cut : ℕ)
    (hstart : start < skipTools history start cut) :
    ∀ msg ∈ history[skipTools history start cut]?, msg.isTool = false := by
  induction cut with
  | zero => exact absurd hstart (Nat.not_lt_zero start)
  | succ cut ih =>
    unfold skipTools at hstart ⊢
    cases hat : history[cut + 1]? with
    | none =>
      simp only [hat] at hstart ⊢
      intro msg hmsg
      cases hmsg
    | some msg =>
      simp only [hat] at hstart ⊢
      by_cases hback : start < cut + 1 ∧ msg.isTool = true
      · rw [if_pos hback] at hstart ⊢
        exact ih hstart
      · rw [if_neg hback] at hstart ⊢
        intro m hm
        obtain rfl : msg = m := Option.some.inj (hat.symm.trans hm)
        exact Bool.eq_false_iff.2 fun htool => hback ⟨hstart, htool⟩

theorem skipTools_eq {history : List CountedMessage} {start cut : ℕ}
    (hat : ∀ msg ∈ history[cut]?, msg.isTool = false) : skipTools history start cut = cut := by
  cases cut with
  | zero => rfl
  | succ cut =>
    unfold skipTools
    cases hmsg : history[cut + 1]? with
    | none => rfl
    | some msg =>
      have hother : ¬ (start < cut + 1 ∧ msg.isTool = true) := by simp [hat msg hmsg]
      exact if_neg hother

theorem compressEnd_le (history : List CountedMessage) (keepRecent : ℕ)
    (hsize : history.length < sizeMax) (hkeep : keepRecent ≤ history.length) :
    compressEnd history keepRecent ≤ history.length - keepRecent ∧
      (endsInCalls history = true → compressEnd history keepRecent ≤ history.length - 1) := by
  have hrecent : (history.length + sizeMax - keepRecent) % sizeMax = history.length - keepRecent := by
    have hsplit : history.length + sizeMax - keepRecent = (history.length - keepRecent) + sizeMax := by omega
    rw [hsplit, Nat.add_mod_right, Nat.mod_eq_of_lt (by omega)]
  unfold compressEnd
  simp only [hrecent]
  cases hcalls : endsInCalls history with
  | false => exact ⟨skipTools_le _ _ _, nofun⟩
  | true =>
    have hle := skipTools_le history (compressStart history) (min (history.length - keepRecent) (history.length - 1))
    exact ⟨Nat.le_trans hle (Nat.min_le_left _ _), fun _ => Nat.le_trans hle (Nat.min_le_right _ _)⟩

theorem endsInCalls_at {history : List CountedMessage} (hcalls : endsInCalls history = true) :
    ∀ msg ∈ history[history.length - 1]?, msg.isTool = false := by
  intro msg hmsg
  rw [← getLast?_eq_getElem?] at hmsg
  unfold endsInCalls at hcalls
  rw [hmsg] at hcalls
  exact Message.not_isTool_of_hasCalls hcalls

/- The end of the messages before the assistant message whose calls are running. -/
def settledEnd (history : List CountedMessage) : ℕ :=
  if endsInCalls history then history.length - 1 else history.length

/- A cut that the subtraction leaves at the end or behind it. -/
theorem compressEnd_of_length_le {history : List CountedMessage} {keepRecent recent : ℕ}
    (hrecent : (history.length + sizeMax - keepRecent) % sizeMax = recent) (hle : history.length ≤ recent) :
    compressEnd history keepRecent = if endsInCalls history then history.length - 1 else recent := by
  unfold compressEnd
  simp only [hrecent]
  cases hcalls : endsInCalls history with
  | false =>
    simp only [Bool.false_eq_true, if_false]
    exact skipTools_eq fun msg hmsg => by rw [getElem?_eq_none hle] at hmsg; cases hmsg
  | true =>
    have hmin : min recent (history.length - 1) = history.length - 1 := by omega
    simp only [if_true, hmin]
    exact skipTools_eq (endsInCalls_at hcalls)

/- `history'` is `history` with the block from `start` up to `cut` replaced by a summary. -/
structure Compressed (history : List CountedMessage) (cut : ℕ) (history' : List CountedMessage) : Prop where
  old : compressStart history + 2 ≤ cut
  inRange : cut ≤ history.length
  boundary : ∀ msg ∈ history[cut]?, msg.isTool = false
  replaced : ∃ text, history' = history.take (compressStart history) ++ summaryMessage text :: history.drop cut

def CompressedTo (history : List CountedMessage) (keepRecent : ℕ) (history' : List CountedMessage) : Prop :=
  history' = history ∨ ∃ cut, Compressed history cut history' ∧ cut + keepRecent ≤ history.length ∧
    (endsInCalls history = true → cut < history.length)

variable {history history' : List CountedMessage}

/- The length test of `compress_context` lets the history through. -/
def Long (history : List CountedMessage) (keepRecent : ℕ) : Prop :=
  (compressStart history + keepRecent + 2) % sizeMax < history.length

theorem planCompression_long {summarize : Bytes → Result Bytes} {keepRecent : ℕ} (hlong : Long history keepRecent) :
    planCompression summarize history keepRecent =
      if compressEnd history keepRecent < compressStart history + 2 then .skipped
      else if history.length < compressEnd history keepRecent then .outOfRange
      else summarizeUpTo summarize history (compressEnd history keepRecent) := if_neg (Nat.not_le.2 hlong)

theorem planCompression_short {summarize : Bytes → Result Bytes} {keepRecent : ℕ} (hshort : ¬ Long history keepRecent) :
    planCompression summarize history keepRecent = .skipped := if_pos (Nat.not_lt.1 hshort)

theorem planCompression_summarized {summarize : Bytes → Result Bytes} {keepRecent cut : ℕ} {text : Bytes}
    (h : planCompression summarize history keepRecent = .summarized cut text) : compressStart history + 2 ≤ cut := by
  by_cases hlong : Long history keepRecent
  · rw [planCompression_long hlong] at h
    split at h
    · cases h
    · next hold =>
      unfold summarizeUpTo at h
      split at h
      · cases h
      · split at h <;> cases h
        exact Nat.not_lt.1 hold
  · rw [planCompression_short hlong] at h
    cases h

theorem compressContext_compressed (summarize : Bytes → Result Bytes) (history : List CountedMessage)
    (keepRecent : ℕ) (hsize : history.length < sizeMax) (hkeep : compressStart history + keepRecent + 2 < sizeMax) :
    ∃ history', compressContext summarize history keepRecent = some history' ∧
      CompressedTo history keepRecent history' := by
  unfold compressContext
  by_cases hlong : Long history keepRecent
  · rw [planCompression_long hlong]
    rw [Long, Nat.mod_eq_of_lt hkeep] at hlong
    obtain ⟨hcut, hlast⟩ := compressEnd_le history keepRecent hsize (by omega)
    by_cases hold : compressEnd history keepRecent < compressStart history + 2
    · rw [if_pos hold]
      exact ⟨history, rfl, Or.inl rfl⟩
    rw [if_neg hold, if_neg (by omega)]
    unfold summarizeUpTo
    cases summarize _ with
    | error e => exact ⟨history, rfl, Or.inl rfl⟩
    | ok text =>
      refine ⟨_, rfl, Or.inr ⟨compressEnd history keepRecent, ⟨by omega, by omega, ?_, text, rfl⟩, by omega, ?_⟩⟩
      · have hstart : compressStart history < compressEnd history keepRecent := by omega
        exact skipTools_not_tool history _ _ hstart
      · intro hcalls
        have := hlast hcalls
        omega
  · rw [planCompression_short hlong]
    exact ⟨history, rfl, Or.inl rfl⟩

/- At most a block of messages is replaced by one message. -/
def BlockReplaced (history history' : List CountedMessage) : Prop :=
  history' = history ∨ ∃ i j summary, i ≤ j ∧ j ≤ history.length ∧
    history' = history.take i ++ summary :: history.drop j

theorem CompressedTo.blockReplaced {keepRecent : ℕ} (h : CompressedTo history keepRecent history') :
    BlockReplaced history history' := by
  refine h.imp id ?_
  rintro ⟨cut, ⟨hold, hrange, -, text, htext⟩, -⟩
  exact ⟨_, cut, _, by omega, hrange, htext⟩

theorem CompressedTo.keeps_recent {keepRecent : ℕ} (h : CompressedTo history keepRecent history') :
    history.drop (history.length - keepRecent) <:+ history' := by
  cases h with
  | inl hsame =>
    rw [hsame]
    exact drop_suffix _ _
  | inr hcut =>
    obtain ⟨cut, hcompressed, hrecent, -⟩ := hcut
    obtain ⟨text, rfl⟩ := hcompressed.replaced
    have hsub : history.length - keepRecent = cut + (history.length - keepRecent - cut) := by omega
    rw [hsub, ← drop_drop]
    refine (drop_suffix _ _).trans ?_
    exact (suffix_cons _ _).trans (suffix_append _ _)

/- The calls that a tool message right after `m` may answer; `calls` are those open before `m`. -/
def Message.openCalls (calls : List ToolCall) (m : Message) : List ToolCall :=
  if m.isTool then calls else if m.hasCalls then m.toolCalls else []

/- Every tool message is in the run behind an assistant message that holds its call. -/
def pairedFrom (calls : List ToolCall) : List CountedMessage → Bool
  | [] => true
  | m :: rest => (!m.isTool || (calls.map (·.id)).contains m.toolCallId) && pairedFrom (m.openCalls calls) rest

def Paired (history : List CountedMessage) : Prop := pairedFrom [] history = true

instance (history : List CountedMessage) : Decidable (Paired history) :=
  inferInstanceAs (Decidable (_ = _))

def openCallsAfter (calls : List ToolCall) (history : List CountedMessage) : List ToolCall :=
  history.foldl (fun calls m => m.openCalls calls) calls

theorem pairedFrom_append (calls : List ToolCall) (first second : List CountedMessage) :
    pairedFrom calls (first ++ second) = (pairedFrom calls first && pairedFrom (openCallsAfter calls first) second) := by
  induction first generalizing calls with
  | nil => rfl
  | cons m first ih =>
    rw [cons_append, pairedFrom, ih, pairedFrom, Bool.and_assoc]
    rfl

theorem pairedFrom_of_head (calls other : List ToolCall) (history : List CountedMessage)
    (hhead : ∀ m ∈ history.head?, m.isTool = false) : pairedFrom calls history = pairedFrom other history := by
  cases history with
  | nil => rfl
  | cons m history =>
    have hm : m.isTool = false := hhead m rfl
    simp only [pairedFrom, Message.openCalls, hm]
    rfl

theorem Paired.suffix {front rest : List CountedMessage} (h : Paired (front ++ rest))
    (hhead : ∀ m ∈ rest.head?, m.isTool = false) : Paired rest := by
  unfold Paired at h ⊢
  rw [pairedFrom_append, Bool.and_eq_true] at h
  rw [pairedFrom_of_head [] (openCallsAfter [] front) rest hhead]
  exact h.2

theorem Paired.cons_system {m : CountedMessage} {rest : List CountedMessage} (hm : m.isSystem = true)
    (h : Paired rest) : Paired (m :: rest) := by
  unfold Paired at h ⊢
  simp only [pairedFrom, Message.openCalls, Message.not_isTool_of_isSystem hm, Message.not_hasCalls_of_isSystem hm]
  exact h

/- The results that are still to come find their calls, if the cut left the message before
them in place. -/
theorem Compressed.paired {later : List CountedMessage} {cut : ℕ} (h : Compressed history cut history')
    (hlater : later = [] ∨ cut < history.length) (hpaired : Paired (history ++ later)) :
    Paired (history' ++ later) := by
  obtain ⟨text, rfl⟩ := h.replaced
  have hkept : Paired (history.drop cut ++ later) := by
    have hwhole : Paired (history.take cut ++ (history.drop cut ++ later)) := by
      rw [← append_assoc, take_append_drop]
      exact hpaired
    refine hwhole.suffix ?_
    cases hdrop : history.drop cut with
    | nil =>
      cases hlater with
      | inl hnone => rw [hnone]; exact nofun
      | inr hcut => exact absurd (drop_eq_nil_iff.1 hdrop) (by omega)
    | cons msg kept =>
      intro m hm
      have hat : history[cut]? = some msg := by rw [← head?_drop, hdrop]; rfl
      obtain rfl : msg = m := Option.some.inj hm
      exact h.boundary msg hat
  have hsummary : Paired (summaryMessage text :: (history.drop cut ++ later)) := Paired.cons_system rfl hkept
  unfold compressStart
  split
  · next hsystem =>
    cases history with
    | nil => exact hsummary
    | cons first history =>
      exact Paired.cons_system (Bool.and_eq_true _ _ ▸ hsystem).1 hsummary
  · exact hsummary

theorem CompressedTo.paired {later : List CountedMessage} {keepRecent : ℕ}
    (h : CompressedTo history keepRecent history')
    (hlater : later = [] ∨ 0 < keepRecent ∨ endsInCalls history = true)
    (hpaired : Paired (history ++ later)) : Paired (history' ++ later) := by
  cases h with
  | inl hsame => exact hsame ▸ hpaired
  | inr hcut =>
    obtain ⟨cut, hcompressed, hrecent, hcalls⟩ := hcut
    refine hcompressed.paired (hlater.imp id fun hkept => ?_) hpaired
    cases hkept with
    | inl hpos => omega
    | inr hlast => exact hcalls hlast

structure ToolResult where
  text : Bytes
  media : List Media := []
  tensors : List TensorData := []

def toolMessage (call : ToolCall) (result : ToolResult) : CountedMessage :=
  { role := lit "tool", content := result.text, toolCallId := call.id, tensors := result.tensors, media := result.media }

/- `run_turn_with_media` from the assistant message on: a call may change the history (`execute`),
and each result is appended. -/
def runToolRound (execute : ℕ → ToolCall → List CountedMessage → Option (ToolResult × List CountedMessage)) :
    ℕ → List ToolCall → List CountedMessage → Option (List CountedMessage)
  | _, [], history => some history
  | i, call :: calls, history =>
    match execute i call history with
    | none => none
    | some (result, history) => runToolRound execute (i + 1) calls (history ++ [toolMessage call result])

/- The tools of a round whose call `k` is `compress_context`; the others leave the history alone. -/
def compressingTools (summarize : Bytes → Result Bytes) (k keepRecent : ℕ) (results : ℕ → ToolResult) (i : ℕ)
    (_ : ToolCall) (history : List CountedMessage) : Option (ToolResult × List CountedMessage) :=
  if i = k then (compressContext summarize history keepRecent).map fun history =>
    ({ text := lit "Context compressed." }, history)
  else some (results i, history)

def roundResults (k : ℕ) (results : ℕ → ToolResult) : ℕ → List ToolCall → List CountedMessage
  | _, [] => []
  | i, call :: calls =>
    toolMessage call (if i = k then { text := lit "Context compressed." } else results i) ::
      roundResults k results (i + 1) calls

variable (summarize : Bytes → Result Bytes) (k keepRecent : ℕ) (results : ℕ → ToolResult)

theorem runToolRound_after (i : ℕ) (hi : k < i) (calls : List ToolCall) (history : List CountedMessage) :
    runToolRound (compressingTools summarize k keepRecent results) i calls history =
      some (history ++ roundResults k results i calls) := by
  induction calls generalizing i history with
  | nil => rw [runToolRound, roundResults, append_nil]
  | cons call calls ih =>
    have hother : ¬ i = k := by omega
    have hexec : compressingTools summarize k keepRecent results i call history = some (results i, history) :=
      if_neg hother
    simp only [runToolRound, hexec]
    rw [ih (i + 1) (by omega), roundResults, if_neg hother, append_assoc]
    rfl

/- The round is: the results before call `k`, the compression, the results from `k` on. -/
theorem runToolRound_compressing (i : ℕ) (calls : List ToolCall) (history : List CountedMessage) (hi : i ≤ k)
    (hk : k < i + calls.length) : runToolRound (compressingTools summarize k keepRecent results) i calls history =
      (compressContext summarize (history ++ (roundResults k results i calls).take (k - i)) keepRecent).map
        (· ++ (roundResults k results i calls).drop (k - i)) := by
  induction calls generalizing i history with
  | nil => rw [length_nil] at hk; omega
  | cons call calls ih =>
    by_cases hhere : i = k
    · subst hhere
      have hexec : compressingTools summarize i keepRecent results i call history =
          (compressContext summarize history keepRecent).map fun history =>
            ({ text := lit "Context compressed." }, history) := if_pos rfl
      rw [Nat.sub_self, take_zero, append_nil]
      simp only [runToolRound, hexec]
      cases compressContext summarize history keepRecent with
      | none => rfl
      | some history' =>
        simp only [Option.map_some]
        rw [runToolRound_after summarize i keepRecent results (i + 1) (by omega), roundResults, if_pos rfl,
          append_assoc]
        rfl
    · have hexec : compressingTools summarize k keepRecent results i call history = some (results i, history) :=
        if_neg hhere
      have hsub : k - i = k - (i + 1) + 1 := by omega
      simp only [runToolRound, hexec]
      rw [ih (i + 1) _ (by omega) (by rw [length_cons] at hk; omega), roundResults, if_neg hhere, hsub, append_assoc]
      rfl

theorem roundResults_length (i : ℕ) (calls : List ToolCall) :
    (roundResults k results i calls).length = calls.length := by
  induction calls generalizing i with
  | nil => rfl
  | cons call calls ih => rw [roundResults, length_cons, ih, length_cons]

theorem roundResults_isTool (i : ℕ) (calls : List ToolCall) : ∀ m ∈ roundResults k results i calls, m.isTool = true := by
  induction calls generalizing i with
  | nil => exact nofun
  | cons call calls ih =>
    rw [roundResults, forall_mem_cons]
    exact ⟨rfl, ih (i + 1)⟩

theorem pairedFrom_roundResults (i : ℕ) (held calls : List ToolCall) (hcalls : ∀ call ∈ calls, call ∈ held) :
    pairedFrom held (roundResults k results i calls) = true := by
  induction calls generalizing i with
  | nil => rfl
  | cons call calls ih =>
    have htool : ∀ result, (toolMessage call result).isTool = true := fun result => rfl
    have hid : (held.map (·.id)).contains call.id = true :=
      contains_iff_mem.2 (mem_map_of_mem (hcalls call mem_cons_self))
    rw [roundResults, pairedFrom]
    simp only [htool, Message.openCalls, if_true, ih (i + 1) (fun c hc => hcalls c (mem_cons_of_mem _ hc))]
    rw [Bool.and_true]
    exact hid

theorem paired_round {asst : CountedMessage} (hhistory : Paired history) (hasst : asst.hasCalls = true) :
    Paired (history ++ asst :: roundResults k results 0 asst.toolCalls) := by
  have htool := Message.not_isTool_of_hasCalls hasst
  unfold Paired at hhistory ⊢
  rw [pairedFrom_append, hhistory, pairedFrom, htool]
  have hopen : Message.openCalls (openCallsAfter [] history) asst.toMessage = asst.toolCalls := by
    unfold Message.openCalls
    rw [htool, hasst]
    rfl
  rw [hopen]
  exact pairedFrom_roundResults k results 0 _ _ fun call hcall => hcall

/- What a call of `compress_context` owes: an in-range block is replaced, the last `keep_recent`
messages stay, and with the messages `later` of the round every tool message finds its call. -/
def CompressesWell (history : List CountedMessage) (keepRecent : ℕ) (later : List CountedMessage)
    (result : Option (List CountedMessage)) : Prop :=
  ∃ history', result = some history' ∧ BlockReplaced history history' ∧
    history.drop (history.length - keepRecent) <:+ history' ∧ Paired (history' ++ later)

theorem CompressedTo.compressesWell {later : List CountedMessage} {keepRecent : ℕ}
    (h : CompressedTo history keepRecent history')
    (hlater : later = [] ∨ 0 < keepRecent ∨ endsInCalls history = true) (hpaired : Paired (history ++ later)) :
    CompressesWell history keepRecent later (some history') :=
  ⟨history', rfl, h.blockReplaced, h.keeps_recent, h.paired hlater hpaired⟩

theorem compressesWell_of_skipped {summarize keepRecent} {later : List CountedMessage}
    (hskipped : planCompression summarize history keepRecent = .skipped) (hpaired : Paired (history ++ later)) :
    CompressesWell history keepRecent later (compressContext summarize history keepRecent) := by
  unfold compressContext
  rw [hskipped]
  exact ⟨history, rfl, Or.inl rfl, drop_suffix _ _, hpaired⟩

def SummaryFails (history : List CountedMessage) : Prop :=
  (summarize (summaryPrompt ((history.take (settledEnd history)).drop (compressStart history)))).isOk = false

def KeepFits (history : List CountedMessage) (keepRecent : ℕ) : Prop :=
  compressStart history + keepRecent + 2 < sizeMax

/- `compress_context` finds the history too short, or its cut does not wrap and keeps a message in
front of the results to come, or the running calls stop the cut, or no summary is made. -/
def CutIsSafe (history : List CountedMessage) (keepRecent : ℕ) (resultsToCome : Bool) : Prop :=
  history.length ≤ (compressStart history + keepRecent + 2) % sizeMax ∨
    (KeepFits history keepRecent ∧ (resultsToCome = false ∨ 0 < keepRecent)) ∨
    (endsInCalls history = true ∧ (KeepFits history keepRecent ∨ history.length ≤ compressStart history + 2)) ∨
    ((KeepFits history keepRecent ∨ endsInCalls history = true) ∧ SummaryFails summarize history)

instance (history : List CountedMessage) (keepRecent : ℕ) (resultsToCome : Bool) :
    Decidable (CutIsSafe summarize history keepRecent resultsToCome) := by
  unfold CutIsSafe KeepFits SummaryFails
  infer_instance

/- The addition in the length test wraps. -/
structure Wraps (history : List CountedMessage) (keepRecent : ℕ) : Prop where
  size : history.length < sizeMax / 2
  keep : keepRecent < sizeMax
  wraps : ¬ KeepFits history keepRecent
  long : Long history keepRecent

variable {summarize keepRecent}

/- The cut is then at most three behind the end, and the test has let a history of that length through. -/
theorem Wraps.recent (h : Wraps history keepRecent) :
    ∃ recent, (history.length + sizeMax - keepRecent) % sizeMax = recent ∧ history.length < recent ∧
      compressStart history + 2 < recent ∧ history.length ≤ keepRecent := by
  have hstart : compressStart history ≤ 1 := by
    unfold compressStart
    split <;> omega
  refine ⟨_, rfl, ?_⟩
  obtain ⟨hsize, hkeep, hwrap, hlong⟩ := h
  simp only [KeepFits, Long, sizeMax] at hwrap hlong hsize hkeep ⊢
  omega

theorem Wraps.compressEnd (h : Wraps history keepRecent) (hcalls : endsInCalls history = true) :
    compressEnd history keepRecent = settledEnd history := by
  obtain ⟨recent, hrecent, hbehind, -⟩ := h.recent
  rw [compressEnd_of_length_le hrecent (Nat.le_of_lt hbehind), settledEnd, if_pos hcalls, if_pos hcalls]

theorem compressEnd_zero (hsize : history.length < sizeMax / 2) : compressEnd history 0 = settledEnd history := by
  have hrecent : (history.length + sizeMax - 0) % sizeMax = history.length := by
    simp only [sizeMax] at hsize ⊢
    omega
  exact compressEnd_of_length_le hrecent (Nat.le_refl _)

theorem settledEnd_le (history : List CountedMessage) : settledEnd history ≤ history.length := by
  unfold settledEnd
  split <;> omega

/- A cut at the settled end: the summary is all that decides. -/
theorem planCompression_settled (hlong : Long history keepRecent)
    (hend : compressEnd history keepRecent = settledEnd history) :
    planCompression summarize history keepRecent =
      if settledEnd history < compressStart history + 2 then .skipped
      else summarizeUpTo summarize history (settledEnd history) := by
  rw [planCompression_long hlong, hend, if_neg (Nat.not_lt.2 (settledEnd_le history))]

theorem planCompression_summaryFails (hlong : Long history keepRecent)
    (hend : compressEnd history keepRecent = settledEnd history) (hfails : SummaryFails summarize history) :
    planCompression summarize history keepRecent = .skipped := by
  rw [planCompression_settled hlong hend]
  unfold SummaryFails at hfails
  unfold summarizeUpTo
  split
  · rfl
  · cases hsummary : summarize (summaryPrompt ((history.take (settledEnd history)).drop (compressStart history))) with
    | error e => rfl
    | ok text => rw [hsummary] at hfails; cases hfails

theorem compressesWell_of_safe {later : List CountedMessage} (hsize : history.length < sizeMax / 2)
    (hkeep : keepRecent < sizeMax) (hpaired : Paired (history ++ later))
    (hsafe : CutIsSafe summarize history keepRecent !later.isEmpty) :
    CompressesWell history keepRecent later (compressContext summarize history keepRecent) := by
  by_cases hlong : Long history keepRecent
  case neg => exact compressesWell_of_skipped (planCompression_short hlong) hpaired
  have hshort := Nat.not_le.2 hlong
  by_cases hwrap : KeepFits history keepRecent
  · by_cases hkept : later = [] ∨ 0 < keepRecent ∨ endsInCalls history = true
    · obtain ⟨history', hcompress, hto⟩ :=
        compressContext_compressed summarize history keepRecent (by simp only [sizeMax] at hsize ⊢; omega) hwrap
      rw [hcompress]
      exact hto.compressesWell hkept hpaired
    · -- results are to come and nothing is kept in front of them: only a failing summary is safe
      simp only [not_or, Nat.not_lt, Nat.le_zero] at hkept
      obtain ⟨hlater, rfl, hcalls⟩ := hkept
      have hfails : SummaryFails summarize history := by
        simpa [CutIsSafe, hshort, hlater, hcalls, hwrap] using hsafe
      exact compressesWell_of_skipped (planCompression_summaryFails hlong (compressEnd_zero hsize) hfails) hpaired
  · have hcases : endsInCalls history = true ∧
        (history.length ≤ compressStart history + 2 ∨ SummaryFails summarize history) := by
      simpa [CutIsSafe, hshort, hwrap, ← and_or_left] using hsafe
    obtain ⟨hcalls, hrest⟩ := hcases
    have hend := Wraps.compressEnd ⟨hsize, hkeep, hwrap, hlong⟩ hcalls
    refine compressesWell_of_skipped ?_ hpaired
    cases hrest with
    | inl hfew =>
      rw [planCompression_settled hlong hend]
      refine if_pos ?_
      rw [settledEnd, if_pos hcalls]
      omega
    | inr hfails => exact planCompression_summaryFails hlong hend hfails

theorem not_paired_of_summary {start : ℕ} {text : Bytes} {result : CountedMessage} {later : List CountedMessage}
    (htool : result.isTool = true) :
    ¬ Paired ((history.take start ++ [summaryMessage text]) ++ result :: later) := by
  intro hpaired
  unfold Paired at hpaired
  rw [pairedFrom_append, openCallsAfter, foldl_append] at hpaired
  have hopen : Message.openCalls (foldl (fun calls m => m.openCalls calls) [] (history.take start))
      (summaryMessage text).toMessage = [] := rfl
  rw [foldl_cons, foldl_nil, hopen, pairedFrom, htool] at hpaired
  simp at hpaired

/- The history that a summary up to the settled end leaves. -/
theorem compressContext_settled (hlong : Long history keepRecent)
    (hend : compressEnd history keepRecent = settledEnd history)
    (hold : compressStart history + 2 ≤ settledEnd history) (hsummary : ¬ SummaryFails summarize history) :
    ∃ text, compressContext summarize history keepRecent =
      some (history.take (compressStart history) ++ summaryMessage text :: history.drop (settledEnd history)) := by
  unfold compressContext
  rw [planCompression_settled hlong hend, if_neg (by omega)]
  unfold SummaryFails at hsummary
  unfold summarizeUpTo
  cases hanswer : summarize (summaryPrompt ((history.take (settledEnd history)).drop (compressStart history))) with
  | error e => exact absurd (by rw [hanswer]; rfl) hsummary
  | ok text => exact ⟨text, rfl⟩

theorem Wraps.outOfRange (h : Wraps history keepRecent) (hcalls : endsInCalls history = false) :
    compressContext summarize history keepRecent = none := by
  obtain ⟨recent, hrecent, hbehind, hold, -⟩ := h.recent
  have hend : AgentCpp.compressEnd history keepRecent = recent := by
    rw [compressEnd_of_length_le hrecent (Nat.le_of_lt hbehind), hcalls]
    rfl
  unfold compressContext
  rw [planCompression_long h.long, hend, if_neg (by omega), if_pos hbehind]

theorem safe_of_compressesWell {later : List CountedMessage} (hsize : history.length < sizeMax / 2)
    (hkeep : keepRecent < sizeMax) (hlater : ∀ m ∈ later.head?, m.isTool = true)
    (hwell : CompressesWell history keepRecent later (compressContext summarize history keepRecent)) :
    CutIsSafe summarize history keepRecent !later.isEmpty := by
  obtain ⟨history', hresult, -, hrecent, hpaired⟩ := hwell
  by_cases hlong : Long history keepRecent
  case neg => exact Or.inl (Nat.le_of_not_lt hlong)
  by_cases hsummary : SummaryFails summarize history ∧ (KeepFits history keepRecent ∨ endsInCalls history = true)
  · exact Or.inr (Or.inr (Or.inr hsummary.symm))
  refine Or.inr ?_
  by_cases hwrap : KeepFits history keepRecent
  · have hmade : ¬ SummaryFails summarize history := fun hfails => hsummary ⟨hfails, Or.inl hwrap⟩
    by_cases hcalls : endsInCalls history = true
    · exact Or.inr (Or.inl ⟨hcalls, Or.inl hwrap⟩)
    refine Or.inl ⟨hwrap, ?_⟩
    by_contra hnone
    simp only [not_or, Nat.not_lt, Nat.le_zero] at hnone
    obtain ⟨hlate, rfl⟩ := hnone
    cases later with
    | nil => exact hlate rfl
    | cons result later =>
      have hlength : settledEnd history = history.length := if_neg hcalls
      have hmany := hlong
      rw [Long, Nat.mod_eq_of_lt hwrap] at hmany
      obtain ⟨text, htext⟩ := compressContext_settled hlong (compressEnd_zero hsize) (by omega) hmade
      cases htext.symm.trans hresult
      rw [hlength, drop_length] at hpaired
      exact not_paired_of_summary (hlater result rfl) hpaired
  · have hwraps : Wraps history keepRecent := ⟨hsize, hkeep, hwrap, hlong⟩
    obtain ⟨recent, -, -, -, hkept⟩ := hwraps.recent
    by_cases hcalls : endsInCalls history = true
    case neg =>
      rw [hwraps.outOfRange (Bool.eq_false_iff.2 hcalls)] at hresult
      cases hresult
    refine Or.inr (Or.inl ⟨hcalls, Or.inr ?_⟩)
    by_contra hmany
    have hmade : ¬ SummaryFails summarize history := fun hfails => hsummary ⟨hfails, Or.inr hcalls⟩
    have hlength : settledEnd history = history.length - 1 := if_pos hcalls
    obtain ⟨text, htext⟩ := compressContext_settled hlong (hwraps.compressEnd hcalls) (by omega) hmade
    -- all messages are recent, and the history has become shorter
    cases htext.symm.trans hresult
    have hle := hrecent.length_le
    simp only [length_drop, length_append, length_take, length_cons] at hle
    omega

theorem compressesWell_iff {later : List CountedMessage} (hsize : history.length < sizeMax / 2)
    (hkeep : keepRecent < sizeMax) (hpaired : Paired (history ++ later)) (hlater : ∀ m ∈ later.head?, m.isTool = true) :
    CompressesWell history keepRecent later (compressContext summarize history keepRecent) ↔
      CutIsSafe summarize history keepRecent !later.isEmpty :=
  ⟨safe_of_compressesWell hsize hkeep hlater, compressesWell_of_safe hsize hkeep hpaired⟩

variable (summarize keepRecent)

/-- `compress_context` on a paired history does what it owes exactly if the cut is safe: between
turns, and as call `k` of a round whose results from `k` on are appended afterwards. -/
theorem compressContext_keeps_pairing (history : List CountedMessage) (hpaired : Paired history)
    (hkeep : keepRecent < sizeMax) :
    (history.length < sizeMax / 2 →
      (CompressesWell history keepRecent [] (compressContext summarize history keepRecent) ↔
        CutIsSafe summarize history keepRecent false)) ∧
    (∀ asst : CountedMessage, asst.hasCalls = true → k < asst.toolCalls.length →
      let before := history ++ asst :: (roundResults k results 0 asst.toolCalls).take k
      before.length < sizeMax / 2 →
      ((∃ history' final, compressContext summarize before keepRecent = some history' ∧
        BlockReplaced before history' ∧ before.drop (before.length - keepRecent) <:+ history' ∧
        runToolRound (compressingTools summarize k keepRecent results) 0 asst.toolCalls (history ++ [asst]) =
          some final ∧
        Paired final) ↔ CutIsSafe summarize before keepRecent true)) := by
  constructor
  · intro hsize
    have hnone : Paired (history ++ []) := by rwa [append_nil]
    exact compressesWell_iff hsize hkeep hnone nofun
  · intro asst hasst hk before hsize
    set later := (roundResults k results 0 asst.toolCalls).drop k with hlater
    have hround : runToolRound (compressingTools summarize k keepRecent results) 0 asst.toolCalls (history ++ [asst]) =
        (compressContext summarize before keepRecent).map (· ++ later) := by
      have h := runToolRound_compressing summarize k keepRecent results 0 asst.toolCalls (history ++ [asst])
        (Nat.zero_le k) (by omega)
      rwa [Nat.sub_zero, append_assoc, singleton_append] at h
    have hwhole : Paired (before ++ later) := by
      simp only [before, hlater, append_assoc, cons_append, take_append_drop]
      exact paired_round k results hpaired hasst
    have htools : ∀ m ∈ later.head?, m.isTool = true := fun m hm =>
      roundResults_isTool k results 0 asst.toolCalls m (mem_of_mem_drop (mem_of_mem_head? hm))
    have hcome : later.isEmpty = false := by
      rw [isEmpty_eq_false_iff, ← length_pos_iff, hlater, length_drop, roundResults_length]
      omega
    have hiff : CompressesWell before keepRecent later (compressContext summarize before keepRecent) ↔ _ :=
      compressesWell_iff hsize hkeep hwhole htools
    rw [hcome, Bool.not_false] at hiff
    rw [← hiff, hround]
    constructor
    · rintro ⟨history', final, hcompress, hblock, hrecent, hfinal, hafter⟩
      rw [hcompress] at hfinal
      cases hfinal
      exact ⟨history', hcompress, hblock, hrecent, hafter⟩
    · rintro ⟨history', hcompress, hblock, hrecent, hafter⟩
      exact ⟨history', history' ++ later, hcompress, hblock, hrecent, by rw [hcompress]; rfl, hafter⟩

def question : CountedMessage := { role := lit "user", content := lit "q" }

def twoCalls : CountedMessage :=
  { role := lit "assistant", toolCalls := [⟨lit "a", lit "ls", []⟩, ⟨lit "b", lit "compress_context", []⟩] }

theorem compressContext_keeps_pairing_secondCall :
    (∃ history' final, compressContext (fun _ => .ok (lit "s")) ([question, question] ++ twoCalls ::
        (roundResults 1 (fun _ => { text := [] }) 0 twoCalls.toolCalls).take 1) 1 = some history' ∧
      runToolRound (compressingTools (fun _ => .ok (lit "s")) 1 1 fun _ => { text := [] }) 0 twoCalls.toolCalls
        ([question, question] ++ [twoCalls]) = some final ∧ Paired final) ∧
    CompressesWell [question] (sizeMax - 1) [] (compressContext (fun _ => .ok (lit "s")) [question] (sizeMax - 1)) := by
  have hmain := compressContext_keeps_pairing (fun _ => .ok (lit "s"))
  constructor
  · obtain ⟨history', final, hcompress, -, -, hround, hfinal⟩ :=
      ((hmain 1 1 (fun _ => { text := [] }) [question, question] (by decide) (by decide)).2 twoCalls (by decide)
        (by decide) (by decide)).2 (by decide)
    exact ⟨history', final, hcompress, hround, hfinal⟩
  · exact ((hmain 1 (sizeMax - 1) (fun _ => { text := [] }) [question] (by decide) (by decide)).1 (by decide)).2
      (by decide)

/- As the second call of a round the compression takes the assistant message with it; and a
`keep_recent` of 2^64 - 1 wraps to a cut past the end. -/
theorem compressContext_loses_calls : (Paired [question] ∧ twoCalls.hasCalls = true ∧
      ∃ final, runToolRound (compressingTools (fun _ => .ok (lit "s")) 1 0 fun _ => { text := [] }) 0
        twoCalls.toolCalls ([question] ++ [twoCalls]) = some final ∧ ¬ Paired final) ∧
    (Paired [question, question] ∧
      compressContext (fun _ => .ok (lit "s")) [question, question] (sizeMax - 1) = none) := by
  refine ⟨⟨by decide, by decide, _, rfl, by decide⟩, by decide, by decide⟩

end AgentCpp
