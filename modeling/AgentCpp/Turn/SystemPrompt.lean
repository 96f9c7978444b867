import AgentCpp.Lib.Machine
import AgentCpp.Turn.Compress

/-!
# A node's system prompt (`SystemPromptScope` of `graph_executor.cpp`)

An Agent node puts its system prompt at the front of the history for its turns, which
append, prune and compress, and takes it away again.
-/

namespace AgentCpp
open Lib List

structure SystemPromptScope where
  injected : Bool := false
  saved : Option CountedMessage := none

namespace SystemPromptScope

/- The constructor, with the history it leaves. -/
def enter (prompt : Bytes) (history : List CountedMessage) : SystemPromptScope × List CountedMessage :=
  if prompt.isEmpty then ({}, history)
  else match history with
    | [] => ({ injected := true }, [{ role := lit "system", content := prompt }])
    | first :: rest =>
      if first.isSystem && !first.isSummary then
        ({ saved := some first }, { first with content := prompt, tokenCount := -1 } :: rest)
      else ({ injected := true }, { role := lit "system", content := prompt } :: first :: rest)

/- The destructor; `none`: it writes to the front of an empty history. -/
def leave (scope : SystemPromptScope) (history : List CountedMessage) : Option (List CountedMessage) :=
  if scope.injected then
    match history with
    | [] => some []
    | first :: rest => some (if first.isSystem then rest else first :: rest)
  else
    match scope.saved, history with
    | none, history => some history
    | some _, [] => none
    | some saved, _ :: rest => some ({ saved with tokenCount := -1 } :: rest)

end SystemPromptScope

/- `appended` and `latest`, the messages appended and the last summary made, are not in the
source. -/
structure NodeHistory where
  history : List CountedMessage
  appended : List CountedMessage := []
  latest : Option CountedMessage := none

inductive TurnStep where
  | append (msg : CountedMessage)
  | prune (cfg : TurnConfig)
  | compress (summarize : Bytes → Result Bytes) (keepRecent : ℕ)

def turnStep (s : NodeHistory) : TurnStep → Option NodeHistory
  | .append msg => some { s with history := s.history ++ [msg], appended := s.appended ++ [msg] }
  | .prune cfg => some { s with history := pruneHistoryState cfg s.history }
  | .compress summarize keepRecent =>
    (compressContext summarize s.history keepRecent).map fun history =>
      { s with
        history
        latest := match planCompression summarize s.history keepRecent with
          | .summarized _ text => some (summaryMessage text)
          | _ => s.latest }

def messages (history : List CountedMessage) : List Message := history.map (·.toMessage)

theorem messages_append (first second : List CountedMessage) :
    messages (first ++ second) = messages first ++ messages second := map_append

theorem messages_cacheTokens (cfg : TurnConfig) (history : List CountedMessage) :
    messages (history.map (cacheTokens cfg)) = messages history := by
  unfold messages
  rw [map_map]
  rfl

theorem messages_takeWhile (p : Message → Bool) (history : List CountedMessage) :
    messages (history.takeWhile fun m => p m.toMessage) = (messages history).takeWhile p := by
  unfold messages
  rw [takeWhile_map]
  rfl

theorem messages_dropWhile (p : Message → Bool) (history : List CountedMessage) :
    messages (history.dropWhile fun m => p m.toMessage) = (messages history).dropWhile p := by
  unfold messages
  rw [dropWhile_map]
  rfl

theorem messages_pruneHistoryState (cfg : TurnConfig) (history : List CountedMessage) :
    ∃ kept, messages (pruneHistoryState cfg history) = (messages history).takeWhile (·.isSystem) ++ kept ∧
      kept.Sublist ((messages history).dropWhile (·.isSystem)) := by
  obtain ⟨k, hprune, -⟩ := pruneHistoryState_fits cfg history
  refine ⟨messages (((messageGroups ((history.map (cacheTokens cfg)).dropWhile (·.isSystem))).drop k).flatten), ?_, ?_⟩
  · rw [hprune, messages_append, messages_takeWhile (fun m => m.isSystem), messages_cacheTokens]
  · rw [← messages_cacheTokens cfg history, ← messages_dropWhile (fun m => m.isSystem)]
    refine List.Sublist.map _ ?_
    have hflat := flatten_splitBy (fun previous msg : CountedMessage =>
      msg.isTool && (previous.isTool || previous.hasCalls)) ((history.map (cacheTokens cfg)).dropWhile (·.isSystem))
    nth_rewrite 2 [← hflat]
    exact (drop_sublist _ _).flatten

theorem summaryMessage_isSummary (text : Bytes) : (summaryMessage text).isSummary = true :=
  isPrefixOf_iff_prefix.2 (prefix_append _ _)

inductive TurnMoves (s t : NodeHistory) : Prop where
  | append (msg : CountedMessage) (history : t.history = s.history ++ [msg])
      (appended : t.appended = s.appended ++ [msg]) (latest : t.latest = s.latest)
  | prune (kept : List Message)
      (history : messages t.history = (messages s.history).takeWhile (·.isSystem) ++ kept)
      (sublist : kept.Sublist ((messages s.history).dropWhile (·.isSystem)))
      (appended : t.appended = s.appended) (latest : t.latest = s.latest)
  | skip (same : t = s)
  | compress (cut : ℕ) (text : Bytes) (old : compressStart s.history + 2 ≤ cut)
      (history : t.history = s.history.take (compressStart s.history) ++ summaryMessage text :: s.history.drop cut)
      (appended : t.appended = s.appended) (latest : t.latest = some (summaryMessage text))

theorem turnMoves_of_step {s t : NodeHistory} {a : TurnStep} (h : turnStep s a = some t) : TurnMoves s t := by
  cases a with
  | append msg =>
    cases h
    exact .append msg rfl rfl rfl
  | prune cfg =>
    cases h
    obtain ⟨kept, hkept, hsublist⟩ := messages_pruneHistoryState cfg s.history
    exact .prune kept hkept hsublist rfl rfl
  | compress summarize keepRecent =>
    dsimp only [turnStep, compressContext] at h
    cases hplan : planCompression summarize s.history keepRecent with
    | skipped =>
      rw [hplan] at h
      cases h
      exact .skip rfl
    | outOfRange =>
      rw [hplan] at h
      cases h
    | summarized cut text =>
      rw [hplan] at h
      cases h
      have hold := planCompression_summarized hplan
      exact .compress cut text hold rfl rfl rfl

/- `after` is `before` with messages taken out and summaries put in. -/
inductive Survives : List Message → List Message → Prop where
  | nil : Survives [] []
  | keep (m : Message) {before after : List Message} : Survives before after → Survives (m :: before) (m :: after)
  | drop (m : Message) {before after : List Message} : Survives before after → Survives (m :: before) after
  | summary (text : Bytes) {before after : List Message} : Survives before after →
      Survives before ((summaryMessage text).toMessage :: after)

namespace Survives

variable {before after : List Message}

theorem refl (before : List Message) : Survives before before := by
  induction before with
  | nil => exact .nil
  | cons m before ih => exact .keep m ih

theorem snoc (h : Survives before after) (m : Message) : Survives (before ++ [m]) (after ++ [m]) := by
  induction h with
  | nil => exact .keep m .nil
  | keep x _ ih => exact .keep x ih
  | drop x _ ih => exact .drop x ih
  | summary text _ ih => exact .summary text ih

theorem sublist (h : Survives before after) {fewer : List Message} (hfewer : fewer.Sublist after) :
    Survives before fewer := by
  induction h generalizing fewer with
  | nil =>
    rw [sublist_nil.1 hfewer]
    exact .nil
  | keep m _ ih =>
    cases hfewer with
    | cons _ hrest => exact .drop m (ih hrest)
    | cons_cons _ hrest => exact .keep m (ih hrest)
  | drop m _ ih => exact .drop m (ih hfewer)
  | summary text _ ih =>
    cases hfewer with
    | cons _ hrest => exact ih hrest
    | cons_cons _ hrest => exact .summary text (ih hrest)

theorem insert {front rest : List Message} (h : Survives before (front ++ rest)) (text : Bytes) :
    Survives before (front ++ (summaryMessage text).toMessage :: rest) := by
  generalize hafter : front ++ rest = after at h
  induction h generalizing front with
  | nil =>
    obtain ⟨rfl, rfl⟩ := append_eq_nil_iff.1 hafter
    exact .summary text .nil
  | keep m hrest ih =>
    cases front with
    | nil =>
      subst hafter
      exact .summary text (.keep m hrest)
    | cons x front =>
      obtain ⟨rfl, hrest'⟩ := List.cons.inj hafter
      exact .keep x (ih hrest')
  | drop m _ ih => exact .drop m (ih hafter)
  | summary other hrest ih =>
    cases front with
    | nil =>
      subst hafter
      exact .summary text (.summary other hrest)
    | cons x front =>
      obtain ⟨rfl, hrest'⟩ := List.cons.inj hafter
      exact .summary other (ih hrest')

theorem tail {m n : Message} (h : Survives (m :: before) (n :: after)) (hn : n.isSummary = false) :
    Survives before after := by
  cases h with
  | keep _ h => exact h
  | drop _ h => exact h.sublist (sublist_cons_self n after)
  | summary text h =>
    cases hn

end Survives

variable {s t : NodeHistory}

theorem TurnMoves.survives (h : TurnMoves s t) (hs : Survives (before ++ messages s.appended) (messages s.history)) :
    Survives (before ++ messages t.appended) (messages t.history) := by
  cases h with
  | append msg history appended latest =>
    rw [appended, history, messages_append, messages_append, ← append_assoc]
    exact hs.snoc msg.toMessage
  | prune kept history sublist appended latest =>
    rw [appended, history]
    refine hs.sublist ?_
    nth_rewrite 2 [← takeWhile_append_dropWhile (p := fun m : Message => m.isSystem) (l := messages s.history)]
    exact List.Sublist.append_left sublist _
  | skip same => exact same ▸ hs
  | compress cut text old history appended latest =>
    rw [appended, history, messages_append]
    refine Survives.insert (hs.sublist ?_) text
    unfold messages
    rw [← map_append]
    refine List.Sublist.map _ ?_
    have hcut : cut = compressStart s.history + (cut - compressStart s.history) := by omega
    rw [hcut, ← drop_drop]
    refine (List.Sublist.append_left (drop_sublist _ _) _).trans ?_
    rw [take_append_drop]

/- The history starts with system messages: those of `block`, or since a compression the first of
them, if that is no summary, and the new summary. -/
def Leads (block : List Message) (s : NodeHistory) : Prop :=
  ∃ held, held <+: messages s.history ∧ (∀ m ∈ held, m.isSystem = true) ∧
    (∀ first ∈ block.head?, first.isSummary = false → held.head? = some first) ∧
    match s.latest with
    | none => held = block
    | some summary => summary.toMessage ∈ held ∧ summary.isSummary = true

variable {history : List CountedMessage}

theorem hasSystem_of_head {first : Message}
    (hhead : (messages history).head? = some first) (hsystem : first.isSystem = true)
    (hsummary : first.isSummary = false) : compressStart history = 1 := by
  cases history with
  | nil => cases hhead
  | cons m history =>
    obtain rfl : m.toMessage = first := Option.some.inj hhead
    have hfront : hasSystem (m :: history) = true := by
      change (m.isSystem && !m.isSummary) = true
      rw [hsystem, hsummary]
      rfl
    unfold compressStart
    rw [hfront]
    rfl

theorem take_compressStart_isSystem (history : List CountedMessage) :
    ∀ m ∈ messages (history.take (compressStart history)), m.isSystem = true := by
  intro m hm
  cases history with
  | nil => rw [take_nil] at hm; cases hm
  | cons first history =>
    unfold compressStart at hm
    cases hfront : hasSystem (first :: history) with
    | false =>
      rw [hfront] at hm
      cases hm
    | true =>
      rw [hfront] at hm
      obtain rfl : m = first.toMessage := mem_singleton.1 hm
      exact (Bool.and_eq_true _ _ ▸ hfront).1

theorem TurnMoves.leads {block : List Message} (h : TurnMoves s t) (hs : Leads block s) : Leads block t := by
  obtain ⟨held, hheld, hsystem, hfirst, hlatest⟩ := hs
  cases h with
  | append msg history appended latest =>
    refine ⟨held, ?_, hsystem, hfirst, by rw [latest]; exact hlatest⟩
    rw [history, messages_append]
    exact hheld.trans (prefix_append _ _)
  | prune kept history sublist appended latest =>
    refine ⟨held, ?_, hsystem, hfirst, by rw [latest]; exact hlatest⟩
    obtain ⟨rest, hrest⟩ := hheld
    rw [history, ← hrest, takeWhile_append_of_pos hsystem, append_assoc]
    exact prefix_append _ _
  | skip same => exact same ▸ ⟨held, hheld, hsystem, hfirst, hlatest⟩
  | compress cut text old history appended latest =>
    refine ⟨messages (s.history.take (compressStart s.history)) ++ [(summaryMessage text).toMessage], ?_, ?_, ?_, ?_⟩
    · rw [history, messages_append]
      exact prefix_append_right_inj _ |>.2 ⟨_, rfl⟩
    · intro m hm
      cases mem_append.1 hm with
      | inl hfront => exact take_compressStart_isSystem s.history m hfront
      | inr hnew =>
        obtain rfl := mem_singleton.1 hnew
        rfl
    · intro first hblock hsummary
      have hhead := hfirst first hblock hsummary
      have hfront : (messages s.history).head? = some first := by
        obtain ⟨rest, hrest⟩ := hheld
        rw [← hrest, head?_append, hhead]
        rfl
      rw [hasSystem_of_head hfront (hsystem first (mem_of_mem_head? hhead)) hsummary]
      cases hhistory : s.history with
      | nil => rw [hhistory] at hfront; cases hfront
      | cons m rest =>
        rw [hhistory] at hfront
        exact hfront
    · rw [latest]
      exact ⟨mem_append_right _ mem_cons_self, summaryMessage_isSummary text⟩

variable {steps : List TurnStep}

theorem run_survives {before : List CountedMessage} (h : run turnStep { history := before } steps = some s) :
    Survives (messages before ++ messages s.appended) (messages s.history) := by
  have hstep : ∀ s a t, Survives (messages before ++ messages s.appended) (messages s.history) →
      turnStep s a = some t → Survives (messages before ++ messages t.appended) (messages t.history) :=
    fun s a t hs hstep => (turnMoves_of_step hstep).survives hs
  exact run_invariant hstep h ((append_nil (messages before)).symm ▸ Survives.refl _)

theorem run_leads {before : List CountedMessage}
    (h : run turnStep { history := before } steps = some s) : Leads ((messages before).takeWhile (·.isSystem)) s := by
  refine run_invariant (fun s a t hs hstep => (turnMoves_of_step hstep).leads hs) h ?_
  exact ⟨_, takeWhile_prefix _, fun m hm => mem_takeWhile_imp hm, fun first hfirst _ => hfirst, rfl⟩

/- The summary made last, or if none was made those at the front before, are among `msgs`. -/
def LatestIn (s : NodeHistory) (before : List CountedMessage) (msgs : List Message) : Prop :=
  (∀ summary ∈ s.latest, summary.toMessage ∈ msgs) ∧
    (s.latest = none → ∀ m ∈ before.takeWhile (·.isSystem), m.isSummary = true → m.toMessage ∈ msgs)

theorem Leads.latestIn {before : List CountedMessage}
    (h : Leads ((messages before).takeWhile (·.isSystem)) s) : LatestIn s before (messages s.history) := by
  obtain ⟨held, hheld, -, -, hlatest⟩ := h
  constructor
  · intro summary hsummary
    rw [hsummary] at hlatest
    exact hheld.subset hlatest.1
  · intro hnone m hm _
    rw [hnone] at hlatest
    refine hheld.subset ?_
    rw [hlatest, ← messages_takeWhile (fun m => m.isSystem)]
    exact mem_map_of_mem hm

theorem run_front {node : CountedMessage} {tail : List CountedMessage}
    (hsystem : node.isSystem = true) (hsummary : node.isSummary = false)
    (h : run turnStep { history := node :: tail } steps = some s) :
    ∃ node' rest, s.history = node' :: rest ∧ node'.toMessage = node.toMessage ∧
      Survives (messages tail ++ messages s.appended) (messages rest) ∧ LatestIn s tail (messages rest) := by
  have hblock : ((messages (node :: tail)).takeWhile (·.isSystem)) =
      node.toMessage :: (messages tail).takeWhile (·.isSystem) := takeWhile_cons_of_pos hsystem
  obtain ⟨held, ⟨rest, hrest⟩, -, hfirst, hlatest⟩ := run_leads h
  rw [hblock] at hfirst hlatest
  have hhead : held.head? = some node.toMessage := hfirst _ rfl hsummary
  cases held with
  | nil => cases hhead
  | cons first held =>
    obtain rfl : first = node.toMessage := Option.some.inj hhead
    cases hhistory : s.history with
    | nil => rw [hhistory] at hrest; cases hrest
    | cons node' others =>
      rw [hhistory] at hrest
      obtain ⟨hnode, hothers⟩ := List.cons.inj hrest
      have hsurvives := run_survives h
      rw [hhistory] at hsurvives
      refine ⟨node', others, rfl, hnode.symm, hsurvives.tail (by rw [← hnode]; exact hsummary), ?_⟩
      rw [← show held ++ rest = messages others from hothers]
      constructor
      · intro summary hmade
        rw [hmade] at hlatest
        obtain ⟨hmem, hsum⟩ := hlatest
        cases mem_cons.1 hmem with
        | inl hsame =>
          -- the summary is not the message at the front, which is no summary
          rw [hsame, hsummary] at hsum
          cases hsum
        | inr hmem => exact mem_append_left _ hmem
      · intro hnone m hm _
        rw [hnone] at hlatest
        obtain ⟨-, hheld⟩ := List.cons.inj hlatest
        refine mem_append_left _ ?_
        rw [hheld, ← messages_takeWhile (fun m => m.isSystem)]
        exact mem_map_of_mem hm

variable {prompt : Bytes}

theorem SystemPromptScope.enter_injected (hprompt : prompt ≠ [])
    (hfront : hasSystem history = false) : SystemPromptScope.enter prompt history =
      ({ injected := true }, { role := lit "system", content := prompt } :: history) := by
  unfold SystemPromptScope.enter
  rw [if_neg (by rw [List.isEmpty_iff]; exact hprompt)]
  cases history with
  | nil => rfl
  | cons first rest => exact if_neg (by change ¬ hasSystem (first :: rest) = true; rw [hfront]; exact Bool.false_ne_true)

theorem SystemPromptScope.enter_saved {first : CountedMessage} {rest : List CountedMessage}
    (hprompt : prompt ≠ []) (hfront : hasSystem (first :: rest) = true) :
    SystemPromptScope.enter prompt (first :: rest) =
      ({ saved := some first }, { first with content := prompt, tokenCount := -1 } :: rest) := by
  unfold SystemPromptScope.enter
  rw [if_neg (by rw [List.isEmpty_iff]; exact hprompt)]
  exact if_pos hfront

/-- Once the scope is left, the history has no node prompt: only messages that were there before or
were appended, in their order, and summaries; a system message at the front that is no summary is
back, and the latest summary is there. -/
theorem systemPromptScope_leaves_no_trace (prompt : Bytes)
    (hprompt : kCompressedHistoryPrefix.isPrefixOf prompt = false) (history : List CountedMessage)
    (steps : List TurnStep) (s : NodeHistory)
    (hrun : run turnStep { history := (SystemPromptScope.enter prompt history).2 } steps = some s) :
    ∃ final, (SystemPromptScope.enter prompt history).1.leave s.history = some final ∧
      (prompt = [] → final = s.history) ∧
      (prompt ≠ [] → ∃ node rest front, s.history = node :: rest ∧ node.isSystem = true ∧ node.content = prompt ∧
        final = front ++ rest ∧ messages front = messages (history.take (compressStart history))) ∧
      Survives (messages history ++ messages s.appended) (messages final) ∧
      (∀ first ∈ history.head?, first.isSystem = true → first.isSummary = false →
        (messages final).head? = some first.toMessage) ∧
      LatestIn s history (messages final) := by
  by_cases hempty : prompt = []
  · subst hempty
    refine ⟨s.history, rfl, fun _ => rfl, fun hne => absurd rfl hne, run_survives hrun, ?_, (run_leads hrun).latestIn⟩
    intro first hfirst hsystem hsummary
    cases history with
    | nil => cases hfirst
    | cons m tail =>
      obtain rfl : m = first := Option.some.inj hfirst
      obtain ⟨node, rest, hhistory, hnode, -⟩ := run_front hsystem hsummary hrun
      rw [hhistory, ← hnode]
      rfl
  cases hfront : hasSystem history with
  | false =>
    rw [SystemPromptScope.enter_injected hempty hfront] at hrun ⊢
    obtain ⟨node, rest, hhistory, hnode, hsurvives, hlatest⟩ := run_front (by rfl) (by exact hprompt) hrun
    have hsystem : node.isSystem = true := by rw [hnode]; rfl
    refine ⟨rest, ?_, fun h => absurd h hempty, fun _ => ⟨node, rest, [], hhistory, hsystem, ?_, rfl, ?_⟩, hsurvives,
      ?_, hlatest⟩
    · rw [hhistory]
      change some (if node.isSystem = true then rest else node :: rest) = some rest
      rw [if_pos hsystem]
    · rw [hnode]
    · unfold compressStart
      rw [hfront]
      rfl
    · intro first hfirst hfirstSystem hfirstSummary
      cases history with
      | nil => cases hfirst
      | cons m tail =>
        obtain rfl : m = first := Option.some.inj hfirst
        have htrue : hasSystem (m :: tail) = true := by
          change (m.isSystem && !m.isSummary) = true
          rw [hfirstSystem, hfirstSummary]
          rfl
        rw [hfront] at htrue
        cases htrue
  | true =>
    cases history with
    | nil => cases hfront
    | cons first tail =>
      have hfirst : first.isSystem = true := (Bool.and_eq_true _ _ ▸ hfront).1
      have hstart : compressStart (first :: tail) = 1 := by
        unfold compressStart
        rw [hfront]
        rfl
      rw [SystemPromptScope.enter_saved hempty hfront] at hrun ⊢
      obtain ⟨node, rest, hhistory, hnode, hsurvives, hlatest⟩ := run_front (by exact hfirst) (by exact hprompt) hrun
      have hsystem : node.isSystem = true := by rw [hnode]; exact hfirst
      refine ⟨{ first with tokenCount := -1 } :: rest, by rw [hhistory]; rfl, fun h => absurd h hempty,
        fun _ => ⟨node, rest, [{ first with tokenCount := -1 }], hhistory, hsystem, ?_, rfl, ?_⟩,
        .keep first.toMessage hsurvives, ?_, ?_, ?_⟩
      · rw [hnode]
      · rw [hstart]
        rfl
      · intro m hm _ _
        obtain rfl : first = m := Option.some.inj hm
        rfl
      · intro summary hsummary
        exact mem_cons_of_mem _ (hlatest.1 summary hsummary)
      · intro hnone m hm hsummary
        rw [takeWhile_cons_of_pos (by exact hfirst)] at hm
        cases mem_cons.1 hm with
        | inl hsame =>
          rw [hsame]
          exact mem_cons_self
        | inr hm => exact mem_cons_of_mem _ (hlatest.2 hnone m hm hsummary)

def earlierSummary : CountedMessage := summaryMessage (lit "earlier")

def turnMessages : List CountedMessage :=
  [{ role := lit "user", content := lit "q" }, { role := lit "assistant", content := lit "a" },
   { role := lit "user", content := lit "q2" }]

def rules : CountedMessage := { role := lit "system", content := lit "rules" }

/- The first question is pruned, and all but the last message compressed. -/
def longTurn : List TurnStep :=
  .append { role := lit "user", content := lit "q0", tokenCount := 1000 } :: turnMessages.map .append ++
    [.append { role := lit "assistant", content := lit "a2" }, .prune { contextWindow := 1012 },
      .compress (fun _ => .ok (lit "newer")) 1]

theorem systemPromptScope_leaves_no_trace_longTurn :
    ∃ s final, run turnStep { history := (SystemPromptScope.enter (lit "node") [rules]).2 } longTurn = some s ∧
      (SystemPromptScope.enter (lit "node") [rules]).1.leave s.history = some final ∧ s.history.length = 3 ∧
      (messages final).head? = some rules.toMessage ∧ (summaryMessage (lit "newer")).toMessage ∈ messages final := by
  have hrun : ∃ s, run turnStep { history := (SystemPromptScope.enter (lit "node") [rules]).2 } longTurn = some s ∧
      s.history.length = 3 ∧ s.latest = some (summaryMessage (lit "newer")) := ⟨_, rfl, rfl, rfl⟩
  obtain ⟨s, hrun, hlength, hnewer⟩ := hrun
  obtain ⟨final, hfinal, -, -, -, hhead, hlatest⟩ := systemPromptScope_leaves_no_trace (lit "node") (by decide)
    [rules] longTurn s hrun
  exact ⟨s, final, hrun, hfinal, hlength, hhead rules rfl rfl rfl, hlatest.1 _ hnewer⟩

/- A summary at the front is a system message, and a compression during the node puts a newer
summary in its place. -/
theorem systemPromptScope_replaces_summary :
    ∃ s final, run turnStep { history := (SystemPromptScope.enter (lit "node") (earlierSummary :: turnMessages)).2 }
        [.compress (fun _ => .ok (lit "newer")) 1] = some s ∧
      (SystemPromptScope.enter (lit "node") (earlierSummary :: turnMessages)).1.leave s.history = some final ∧
      earlierSummary.isSystem = true ∧ (messages final).head? ≠ some earlierSummary.toMessage := by
  exact ⟨_, _, rfl, rfl, by decide, by decide⟩

end AgentCpp
