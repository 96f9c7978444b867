import AgentCpp.Core.Types
import AgentCpp.Lib.Words

/-!
# Pruning a conversation (`turn_executor.cpp`)

`prune_history_state` drops messages right after the leading system messages, an assistant
message with tool calls together with the results that follow it, and keeps at least one.
-/

namespace AgentCpp
open Lib List

def Message.isSystem (m : Message) : Bool := m.role == lit "system"

def Message.isTool (m : Message) : Bool := m.role == lit "tool"

/- An assistant message that asks for tools to be run. -/
def Message.hasCalls (m : Message) : Bool := m.role == lit "assistant" && !m.toolCalls.isEmpty

variable {m : Message}

theorem Message.not_isTool_of_isSystem (h : m.isSystem = true) : m.isTool = false := by
  have hrole : m.role = lit "system" := eq_of_beq h
  unfold Message.isTool
  rw [hrole]
  decide

theorem Message.not_hasCalls_of_isSystem (h : m.isSystem = true) : m.hasCalls = false := by
  have hrole : m.role = lit "system" := eq_of_beq h
  unfold Message.hasCalls
  rw [hrole]
  rfl

theorem Message.not_isTool_of_hasCalls (h : m.hasCalls = true) : m.isTool = false := by
  have hrole : m.role = lit "assistant" := eq_of_beq (Bool.and_eq_true _ _ ▸ h).1
  unfold Message.isTool
  rw [hrole]
  decide

/- A message with its `token_count`; below zero it has not been counted. -/
structure CountedMessage extends Message where
  tokenCount : ℤ := -1
  deriving DecidableEq, Repr

/- What a turn reads of its `Session`. -/
structure TurnConfig where
  contextWindow : ℤ := 2048
  maxTokens : ℤ := 512
  countTokens : Option (Bytes → Result ℤ) := none
  injectedSystemText : Bytes := []

def addTokens (countTokens : Bytes → Result ℤ) (tokens : ℤ) (part : Bytes) : ℤ :=
  if part.isEmpty then tokens
  else match countTokens part with
    | .ok n => int32 (tokens + n)
    | .error _ => tokens

def Message.countedParts (m : Message) : List Bytes :=
  m.role :: m.content :: m.toolCalls.flatMap fun tc => [tc.name, tc.arguments]

def Message.estimatedLength (m : Message) : ℕ :=
  m.role.length + 2 + m.content.length + 1 +
    (m.toolCalls.map fun tc => tc.name.length + tc.arguments.length).sum

def countMessageTokens (cfg : TurnConfig) (msg : CountedMessage) : ℤ :=
  if 0 ≤ msg.tokenCount then msg.tokenCount
  else
    let tokens := match cfg.countTokens with
      | none => 0
      | some countTokens => msg.countedParts.foldl (addTokens countTokens) 0
    if tokens = 0 then int32 ((msg.estimatedLength + 3) / 4 : ℕ) else tokens

/- `count_message_tokens` leaves its answer in the message. -/
def cacheTokens (cfg : TurnConfig) (msg : CountedMessage) : CountedMessage :=
  { msg with tokenCount := countMessageTokens cfg msg }

def countTextTokens (cfg : TurnConfig) (text : Bytes) : ℤ :=
  if text.isEmpty then 0
  else match cfg.countTokens with
    | none => int32 ((text.length + 3) / 4 : ℕ)
    | some countTokens =>
      match countTokens text with
      | .ok n => n
      | .error _ => int32 ((text.length + 3) / 4 : ℕ)

/- The sum in an `int`. -/
def historyTokens (cfg : TurnConfig) (history : List CountedMessage) : ℤ :=
  history.foldl (fun total msg => int32 (total + countMessageTokens cfg msg)) 0

def subtractTokens (cfg : TurnConfig) (total : ℤ) (group : List CountedMessage) : ℤ :=
  group.foldl (fun total msg => int32 (total - countMessageTokens cfg msg)) total

/- The sum itself. -/
def tokenSum (cfg : TurnConfig) (history : List CountedMessage) : ℤ := (history.map (countMessageTokens cfg)).sum

variable (cfg : TurnConfig) (msg : CountedMessage)

theorem tokenSum_append (first second : List CountedMessage) :
    tokenSum cfg (first ++ second) = tokenSum cfg first + tokenSum cfg second := by
  simp [tokenSum]

theorem historyTokens_eq (history : List CountedMessage) : historyTokens cfg history = int32 (tokenSum cfg history) := by
  have hfold : ∀ (history : List CountedMessage) (n : ℤ),
      history.foldl (fun total msg => int32 (total + countMessageTokens cfg msg)) (int32 n) =
        int32 (n + tokenSum cfg history) := by
    intro history
    induction history with
    | nil =>
      intro n
      rw [foldl_nil, tokenSum, map_nil, sum_nil, add_zero]
    | cons msg history ih =>
      intro n
      rw [foldl_cons, int32_add, ih, add_assoc]
      rfl
  have hsum := hfold history 0
  rwa [zero_add] at hsum

theorem subtractTokens_eq (n : ℤ) (group : List CountedMessage) :
    subtractTokens cfg (int32 n) group = int32 (n - tokenSum cfg group) := by
  induction group generalizing n with
  | nil => simp [subtractTokens, tokenSum]
  | cons msg group ih =>
    rw [subtractTokens, foldl_cons, int32_sub]
    refine (ih (n - countMessageTokens cfg msg)).trans ?_
    rw [sub_sub]
    rfl

def TurnConfig.maxAllowed (cfg : TurnConfig) : ℤ :=
  max 200 (int32 (int32 (int32 (cfg.contextWindow - cfg.maxTokens) - 100) - countTextTokens cfg cfg.injectedSystemText))

def TurnConfig.budget (cfg : TurnConfig) : ℤ :=
  cfg.contextWindow - cfg.maxTokens - 100 - countTextTokens cfg cfg.injectedSystemText

theorem TurnConfig.maxAllowed_eq {cfg : TurnConfig} (hlow : -2 ^ 31 ≤ cfg.budget) (hhigh : cfg.budget < 2 ^ 31) :
    cfg.maxAllowed = max 200 cfg.budget := by
  unfold TurnConfig.maxAllowed
  rw [int32_sub, sub_sub, int32_sub, ← sub_sub]
  exact congrArg (max 200) (int32_of_small hlow hhigh)

def toolRun (history : List CountedMessage) (i : ℕ) : ℕ :=
  ((history.drop i).takeWhile (·.isTool)).length

/- The source's two branches, for a tool message and for any other, count the same way. -/
def groupSize (history : List CountedMessage) (dropTo : ℕ) (msg : CountedMessage) : ℕ :=
  if msg.isTool || msg.hasCalls then 1 + toolRun history (dropTo + 1) else 1

/- The final `drop_to`. Every turn of the loop moves it, so the length of the history is
fuel enough. -/
def pruneLoop (cfg : TurnConfig) (history : List CountedMessage) (dropFrom minKeep : ℕ) : ℕ → ℕ → ℤ → ℕ
  | 0, dropTo, _ => dropTo
  | fuel + 1, dropTo, total =>
    if total ≤ cfg.maxAllowed then dropTo
    else match history[dropTo]? with
      | none => dropTo
      | some msg =>
        if history.length - (dropTo - dropFrom) ≤ minKeep then dropTo
        else
          let group := groupSize history dropTo msg
          if history.length - (dropTo - dropFrom) - group < minKeep then dropTo
          else pruneLoop cfg history dropFrom minKeep fuel (dropTo + group)
            (subtractTokens cfg total ((history.drop dropTo).take group))

def fixedStart (history : List CountedMessage) : ℕ :=
  let leading := (history.takeWhile (·.isSystem)).length
  if leading = history.length then history.length - 1 else leading

def pruneHistoryState (cfg : TurnConfig) (history : List CountedMessage) : List CountedMessage :=
  if history.isEmpty then history
  else
    let dropFrom := fixedStart history
    let counted := history.map (cacheTokens cfg)
    let dropTo := pruneLoop cfg counted dropFrom (dropFrom + 1) history.length dropFrom (historyTokens cfg counted)
    counted.take dropFrom ++ counted.drop dropTo

/- A message and, after an assistant message with calls, the tool messages that follow it. -/
def messageGroups (history : List CountedMessage) : List (List CountedMessage) :=
  history.splitBy fun previous msg => msg.isTool && (previous.isTool || previous.hasCalls)

def groupTail (msg : CountedMessage) (rest : List CountedMessage) : List CountedMessage :=
  if msg.isTool || msg.hasCalls then rest.takeWhile (·.isTool) else []

def groupRest (msg : CountedMessage) (rest : List CountedMessage) : List CountedMessage :=
  if msg.isTool || msg.hasCalls then rest.dropWhile (·.isTool) else rest

theorem groupTail_append_groupRest (rest : List CountedMessage) :
    groupTail msg rest ++ groupRest msg rest = rest := by
  unfold groupTail groupRest
  split
  · exact takeWhile_append_dropWhile
  · rfl

theorem isChain_groupTail (rest : List CountedMessage) (hopen : (msg.isTool || msg.hasCalls) = true) :
    (msg :: rest.takeWhile (·.isTool)).IsChain
      fun previous m => (m.isTool && (previous.isTool || previous.hasCalls)) = true := by
  induction rest generalizing msg with
  | nil => exact isChain_singleton msg
  | cons next rest ih =>
    cases htool : next.isTool with
    | false =>
      rw [takeWhile_cons_of_neg (by rw [htool]; exact Bool.false_ne_true)]
      exact isChain_singleton msg
    | true =>
      rw [takeWhile_cons_of_pos (by exact htool)]
      refine isChain_cons_cons.2 ⟨?_, ih next (by rw [htool]; rfl)⟩
      rw [htool, hopen]
      rfl

theorem messageGroups_cons (rest : List CountedMessage) :
    messageGroups (msg :: rest) = (msg :: groupTail msg rest) :: messageGroups (groupRest msg rest) := by
  unfold messageGroups groupTail groupRest
  cases hopen : (msg.isTool || msg.hasCalls) with
  | false =>
    refine (splitBy_append (l := [msg]) ?_).trans ?_
    · intro previous hprevious next _
      obtain rfl : msg = previous := Option.some.inj hprevious
      rw [hopen, Bool.and_false]
    · rfl
  | true =>
    have hsplit : msg :: rest = (msg :: rest.takeWhile (·.isTool)) ++ rest.dropWhile (·.isTool) := by
      rw [cons_append, takeWhile_append_dropWhile]
    rw [hsplit, splitBy_append, splitBy_of_isChain (cons_ne_nil _ _) (isChain_groupTail msg rest hopen)]
    · rfl
    · intro previous _ next hnext
      have hhead := head?_dropWhile_not (fun m : CountedMessage => m.isTool) rest
      rw [hnext] at hhead
      rw [hhead, Bool.false_and]

theorem messageGroups_singleton : messageGroups [msg] = [[msg]] :=
  splitBy_of_isChain (cons_ne_nil _ _) (isChain_singleton msg)

/- `k` groups are dropped: the fewest after which the rest is within `maxAllowed`, and no more than
leave one group. -/
structure PruneFits (cfg : TurnConfig) (front : List CountedMessage) (groups : List (List CountedMessage)) (k : ℕ) :
    Prop where
  fewest : ∀ j < k, cfg.maxAllowed < historyTokens cfg (front ++ (groups.drop j).flatten)
  enough : historyTokens cfg (front ++ (groups.drop k).flatten) ≤ cfg.maxAllowed ∨ groups.length ≤ k + 1
  keeps : groups ≠ [] → k < groups.length

variable {front history : List CountedMessage} {groups : List (List CountedMessage)}

theorem PruneFits.zero {cfg : TurnConfig}
    (h : historyTokens cfg (front ++ groups.flatten) ≤ cfg.maxAllowed ∨ groups.length ≤ 1) :
    PruneFits cfg front groups 0 where
  fewest j hj := absurd hj (Nat.not_lt_zero j)
  enough := h
  keeps hne := length_pos_iff.2 hne

theorem PruneFits.cons {cfg : TurnConfig} {group : List CountedMessage}
    {k : ℕ} (hover : cfg.maxAllowed < historyTokens cfg (front ++ (group :: groups).flatten))
    (hne : groups ≠ []) (h : PruneFits cfg front groups k) : PruneFits cfg front (group :: groups) (k + 1) where
  fewest j hj := by
    cases j with
    | zero => exact hover
    | succ j => exact h.fewest j (Nat.lt_of_succ_lt_succ hj)
  enough := h.enough.imp id fun hlen => Nat.succ_le_succ hlen
  keeps _ := Nat.succ_lt_succ (h.keeps hne)

theorem pruneLoop_end (history : List CountedMessage) (dropFrom minKeep fuel dropTo : ℕ) (total : ℤ)
    (h : history.length ≤ dropTo) : pruneLoop cfg history dropFrom minKeep (fuel + 1) dropTo total = dropTo := by
  rw [pruneLoop, getElem?_eq_none h]
  exact ite_self _

/- One turn of the loop: both tests on the number of messages left say that a group is the last one.
-/
theorem pruneLoop_turn (front dropped rest : List CountedMessage) (msg : CountedMessage) (fuel : ℕ) :
    pruneLoop cfg (front ++ dropped ++ msg :: rest) front.length (front.length + 1) (fuel + 1)
        (front ++ dropped).length (historyTokens cfg (front ++ msg :: rest)) =
      if historyTokens cfg (front ++ msg :: rest) ≤ cfg.maxAllowed ∨ groupRest msg rest = [] then
        (front ++ dropped).length
      else pruneLoop cfg (front ++ dropped ++ msg :: rest) front.length (front.length + 1) fuel
        (front ++ (dropped ++ msg :: groupTail msg rest)).length
        (historyTokens cfg (front ++ groupRest msg rest)) := by
  generalize hhistory : front ++ dropped ++ msg :: rest = history
  have hlen : history.length = front.length + dropped.length + (rest.length + 1) := by
    rw [← hhistory, length_append, length_append, length_cons]
  have hdrop : history.drop (front ++ dropped).length = msg :: rest := by rw [← hhistory, drop_left]
  have hat : history[(front ++ dropped).length]? = some msg := by rw [← head?_drop, hdrop]; rfl
  have hafter : history.drop ((front ++ dropped).length + 1) = rest := by
    rw [← drop_drop, hdrop]
    rfl
  have hgroup : groupSize history (front ++ dropped).length msg = (msg :: groupTail msg rest).length := by
    unfold groupSize toolRun groupTail
    rw [hafter]
    split <;> simp [Nat.add_comm]
  have hparts := groupTail_append_groupRest msg rest
  have hsizes : (groupTail msg rest).length + (groupRest msg rest).length = rest.length := by
    rw [← length_append, hparts]
  have htotal : subtractTokens cfg (historyTokens cfg (front ++ msg :: rest))
      ((history.drop (front ++ dropped).length).take (msg :: groupTail msg rest).length) =
        historyTokens cfg (front ++ groupRest msg rest) := by
    have hwhole : msg :: rest = (msg :: groupTail msg rest) ++ groupRest msg rest := by
      rw [cons_append, hparts]
    rw [hdrop, hwhole, take_left, historyTokens_eq, historyTokens_eq, subtractTokens_eq]
    simp only [tokenSum_append]
    congr 1
    omega
  rw [pruneLoop]
  by_cases hwithin : historyTokens cfg (front ++ msg :: rest) ≤ cfg.maxAllowed
  · rw [if_pos hwithin, if_pos (Or.inl hwithin)]
  rw [if_neg hwithin]
  simp only [hat, hgroup, htotal]
  simp only [length_append, length_cons]
  by_cases hlast : groupRest msg rest = []
  · rw [if_pos (Or.inr hlast)]
    rw [hlast, length_nil] at hsizes
    split
    · rfl
    · rw [if_pos (by omega)]
  · rw [if_neg (not_or.2 ⟨hwithin, hlast⟩)]
    have hpos := length_pos_iff.2 hlast
    rw [if_neg (by omega), if_neg (by omega), Nat.add_assoc]

theorem pruneLoop_fits (front dropped rest : List CountedMessage) (fuel : ℕ) (hfuel : rest.length ≤ fuel) :
    ∃ k, pruneLoop cfg (front ++ dropped ++ rest) front.length (front.length + 1) fuel (front ++ dropped).length
        (historyTokens cfg (front ++ rest)) = (front ++ dropped ++ ((messageGroups rest).take k).flatten).length ∧
      PruneFits cfg front (messageGroups rest) k := by
  induction fuel generalizing dropped rest with
  | zero =>
    obtain rfl : rest = [] := length_eq_zero_iff.1 (Nat.le_zero.1 hfuel)
    refine ⟨0, ?_, PruneFits.zero (Or.inr (Nat.zero_le 1))⟩
    rw [take_zero, flatten_nil, append_nil (front ++ dropped)]
    rfl
  | succ fuel ih =>
    cases rest with
    | nil =>
      refine ⟨0, ?_, PruneFits.zero (Or.inr (Nat.zero_le 1))⟩
      rw [append_nil, pruneLoop_end _ _ _ _ _ _ _ (Nat.le_refl _), take_zero, flatten_nil, append_nil]
    | cons msg rest =>
      have hflat : (messageGroups (msg :: rest)).flatten = msg :: rest := flatten_splitBy _ _
      rw [pruneLoop_turn]
      split
      · next hstop =>
        refine ⟨0, by rw [take_zero, flatten_nil, append_nil], PruneFits.zero ?_⟩
        rw [hflat]
        refine hstop.imp id fun hlast => ?_
        rw [messageGroups_cons, hlast]
        exact Nat.le_refl 1
      · next hgo =>
        obtain ⟨hover, hmore⟩ := not_or.1 hgo
        have hparts := groupTail_append_groupRest msg rest
        have hfuel' : (groupRest msg rest).length ≤ fuel := by
          have hsizes := congrArg List.length hparts
          rw [length_append] at hsizes
          rw [length_cons] at hfuel
          omega
        obtain ⟨k, hloop, hfits⟩ := ih (dropped ++ msg :: groupTail msg rest) (groupRest msg rest) hfuel'
        have hsame : front ++ (dropped ++ msg :: groupTail msg rest) ++ groupRest msg rest =
            front ++ dropped ++ msg :: rest := by
          simp only [append_assoc, cons_append, hparts]
        rw [hsame] at hloop
        refine ⟨k + 1, ?_, ?_⟩
        · rw [hloop, messageGroups_cons, take_succ_cons, flatten_cons]
          simp only [append_assoc]
        · rw [messageGroups_cons]
          refine PruneFits.cons ?_ (splitBy_ne_nil.2 hmore) hfits
          rw [← messageGroups_cons, hflat]
          exact not_le.1 hover

theorem pruneHistoryState_split (history front rest : List CountedMessage)
    (hsplit : history.map (cacheTokens cfg) = front ++ rest) (hstart : fixedStart history = front.length)
    (hne : rest ≠ []) : ∃ k, pruneHistoryState cfg history = front ++ ((messageGroups rest).drop k).flatten ∧
      PruneFits cfg front (messageGroups rest) k := by
  have hlen := congrArg List.length hsplit
  rw [length_map, length_append] at hlen
  have hpos := length_pos_iff.2 hne
  have hsome : history.isEmpty = false := by
    cases history with
    | nil => rw [length_nil] at hlen; omega
    | cons msg history => rfl
  obtain ⟨k, hloop, hfits⟩ := pruneLoop_fits cfg front [] rest history.length (by omega)
  rw [append_nil] at hloop
  refine ⟨k, ?_, hfits⟩
  unfold pruneHistoryState
  rw [hsome, if_neg Bool.false_ne_true]
  simp only [hstart, hsplit, hloop]
  have hflat : rest = ((messageGroups rest).take k).flatten ++ ((messageGroups rest).drop k).flatten := by
    rw [← flatten_append, take_append_drop]
    exact (flatten_splitBy _ _).symm
  rw [take_left]
  nth_rewrite 2 [hflat]
  rw [← append_assoc, drop_left]

/- No tool message stands first, and right before one stands another or an assistant message with
calls. -/
def ToolsFollowCalls (history : List CountedMessage) : Prop :=
  (∀ m ∈ history.head?, m.isTool = false) ∧
    history.IsChain fun previous m => m.isTool = true → previous.isTool = true ∨ previous.hasCalls = true

instance (history : List CountedMessage) : Decidable (ToolsFollowCalls history) :=
  inferInstanceAs (Decidable (_ ∧ _))

theorem toolsFollowCalls_map (history : List CountedMessage) :
    ToolsFollowCalls (history.map (cacheTokens cfg)) ↔ ToolsFollowCalls history := by
  unfold ToolsFollowCalls
  rw [isChain_map]
  cases history with
  | nil => rfl
  | cons msg history =>
    simp only [map_cons, head?_cons, Option.mem_some_iff, forall_eq']
    rfl

theorem ToolsFollowCalls.append_right {rest : List CountedMessage} (h : ToolsFollowCalls (front ++ rest))
    (hclosed : ∀ m ∈ front.getLast?, m.isTool = false ∧ m.hasCalls = false) : ToolsFollowCalls rest := by
  obtain ⟨-, hrest, hborder⟩ := isChain_append.1 h.2
  refine ⟨?_, hrest⟩
  intro m hm
  cases hlast : front.getLast? with
  | none =>
    rw [getLast?_eq_none_iff] at hlast
    rw [hlast] at h
    exact h.1 m hm
  | some last =>
    cases htool : m.isTool with
    | false => rfl
    | true =>
      obtain ⟨hnotool, hnocalls⟩ := hclosed last hlast
      cases hborder last hlast m hm htool with
      | inl h => rw [hnotool] at h; cases h
      | inr h => rw [hnocalls] at h; cases h

theorem ToolsFollowCalls.remove {removed kept : List CountedMessage}
    (h : ToolsFollowCalls (front ++ removed ++ kept)) (hkept : ∀ m ∈ kept.head?, m.isTool = false) :
    ToolsFollowCalls (front ++ kept) := by
  obtain ⟨hhead, hchain⟩ := h
  obtain ⟨hfront, hkeptChain, -⟩ := isChain_append.1 hchain
  refine ⟨?_, isChain_append.2 ⟨(isChain_append.1 hfront).1, hkeptChain, ?_⟩⟩
  · cases front with
    | nil => exact hkept
    | cons msg front => exact hhead
  · intro previous _ m hm htool
    rw [hkept m hm] at htool
    cases htool

theorem ToolsFollowCalls.groups_shape (h : ToolsFollowCalls history) :
    ∀ group ∈ messageGroups history, ∃ msg results, group = msg :: results ∧ msg.isTool = false ∧
      (∀ m ∈ results, m.isTool = true) ∧ (results ≠ [] → msg.hasCalls = true) := by
  induction hn : history.length using Nat.strong_induction_on generalizing history with
  | _ n ih =>
    cases history with
    | nil => exact fun group hgroup => absurd hgroup not_mem_nil
    | cons msg rest =>
      have hmsg : msg.isTool = false := h.1 msg rfl
      intro group hgroup
      rw [messageGroups_cons, mem_cons] at hgroup
      cases hgroup with
      | inl hfirst =>
        refine ⟨msg, groupTail msg rest, hfirst, hmsg, ?_⟩
        unfold groupTail
        rw [hmsg]
        split
        · next hcalls => exact ⟨fun m hm => mem_takeWhile_imp (p := fun m : CountedMessage => m.isTool) hm, fun _ => hcalls⟩
        · exact ⟨fun m hm => absurd hm not_mem_nil, fun hne => absurd rfl hne⟩
      | inr hgroup =>
        have hparts := groupTail_append_groupRest msg rest
        have hsizes := congrArg List.length hparts
        rw [length_append] at hsizes
        refine ih (groupRest msg rest).length (by rw [← hn, length_cons]; omega) ?_ rfl group hgroup
        have hwhole : ToolsFollowCalls ([] ++ (msg :: groupTail msg rest) ++ groupRest msg rest) := by
          rw [nil_append, cons_append, hparts]
          exact h
        refine hwhole.remove ?_
        intro next hnext
        unfold groupRest at hnext
        rw [hmsg] at hnext
        split at hnext
        · have hhead := head?_dropWhile_not (fun m : CountedMessage => m.isTool) rest
          rw [hnext] at hhead
          exact hhead
        · next hclosed =>
          -- `msg` opens no group, so what follows it is no tool message
          have hrest : ToolsFollowCalls rest := by
            have hcons : ToolsFollowCalls ([msg] ++ rest) := h
            refine hcons.append_right ?_
            intro m hm
            obtain rfl : msg = m := Option.some.inj hm
            exact ⟨hmsg, Bool.eq_false_iff.2 hclosed⟩
          exact hrest.1 next hnext

theorem head?_drop_groups (h : ToolsFollowCalls history) (k : ℕ) :
    ∀ m ∈ ((messageGroups history).drop k).flatten.head?, m.isTool = false := by
  intro m hm
  cases hdrop : (messageGroups history).drop k with
  | nil => rw [hdrop] at hm; cases hm
  | cons group groups =>
    have hgroup : group ∈ messageGroups history :=
      mem_of_mem_drop (hdrop ▸ mem_cons_self)
    obtain ⟨msg, results, rfl, hmsg, -⟩ := h.groups_shape group hgroup
    rw [hdrop] at hm
    obtain rfl : msg = m := Option.some.inj hm
    exact hmsg

theorem takeWhile_isSystem_closed (history : List CountedMessage) :
    ∀ m ∈ (history.takeWhile (·.isSystem)).getLast?, m.isTool = false ∧ m.hasCalls = false := by
  intro m hm
  have hsystem : m.isSystem = true :=
    mem_takeWhile_imp (p := fun m : CountedMessage => m.isSystem) (mem_of_getLast? hm)
  exact ⟨Message.not_isTool_of_isSystem hsystem, Message.not_hasCalls_of_isSystem hsystem⟩

/- A history of system messages only: the one message that is not fixed is the last group. -/
theorem pruneHistoryState_allSystem (history : List CountedMessage)
    (hall : (history.takeWhile (·.isSystem)).length = history.length) :
    pruneHistoryState cfg history = history.map (cacheTokens cfg) := by
  cases hlast : (history.map (cacheTokens cfg)).getLast? with
  | none =>
    rw [getLast?_eq_none_iff, map_eq_nil_iff] at hlast
    rw [hlast]
    rfl
  | some last =>
    have hsplit := dropLast_append_getLast? last hlast
    have hstart : fixedStart history = ((history.map (cacheTokens cfg)).dropLast).length := by
      unfold fixedStart
      simp only [hall, if_true, length_dropLast, length_map]
    obtain ⟨k, hprune, hfits⟩ := pruneHistoryState_split cfg history _ [last] hsplit.symm hstart (cons_ne_nil _ _)
    have hk : k = 0 := by
      have hlt := hfits.keeps (splitBy_ne_nil.2 (cons_ne_nil _ _))
      rw [messageGroups_singleton, length_singleton] at hlt
      omega
    rw [hprune, hk]
    exact hsplit

theorem pruneHistoryState_fits (cfg : TurnConfig) (history : List CountedMessage) :
    let counted := history.map (cacheTokens cfg)
    let leading := counted.takeWhile (·.isSystem)
    let groups := messageGroups (counted.dropWhile (·.isSystem))
    ∃ k, pruneHistoryState cfg history = leading ++ (groups.drop k).flatten ∧ PruneFits cfg leading groups k := by
  intro counted leading groups
  have hcounted : counted = leading ++ counted.dropWhile (·.isSystem) := takeWhile_append_dropWhile.symm
  have hleading : leading.length = (history.takeWhile (·.isSystem)).length := by
    simp only [leading, counted, takeWhile_map, length_map]
    rfl
  have hsizes := congrArg List.length hcounted
  rw [length_map, length_append, hleading] at hsizes
  by_cases hall : counted.dropWhile (·.isSystem) = []
  · have hgroups : groups = [] := splitBy_eq_nil.2 hall
    refine ⟨0, ?_, PruneFits.zero (Or.inr (by rw [hgroups]; exact Nat.zero_le 1))⟩
    rw [hall] at hsizes
    rw [pruneHistoryState_allSystem cfg history hsizes.symm, hgroups, drop_nil, flatten_nil, ← hall]
    exact hcounted
  · have hpos := length_pos_iff.2 hall
    refine pruneHistoryState_split cfg history leading _ hcounted ?_ hall
    unfold fixedStart
    rw [if_neg (by omega), hleading]

/- The counts are not negative and their sum is an `int`, as is the difference the budget is computed from. -/
structure CountsFit (cfg : TurnConfig) (history : List CountedMessage) : Prop where
  nonneg : ∀ m ∈ history, 0 ≤ countMessageTokens cfg m
  sum : tokenSum cfg history < 2 ^ 31
  budget : -2 ^ 31 ≤ cfg.budget ∧ cfg.budget < 2 ^ 31

instance (history : List CountedMessage) : Decidable (CountsFit cfg history) :=
  decidable_of_iff (_ ∧ _ ∧ _) ⟨fun h => ⟨h.1, h.2.1, h.2.2⟩, fun h => ⟨h.nonneg, h.sum, h.budget⟩⟩

theorem countMessageTokens_cache : countMessageTokens cfg (cacheTokens cfg msg) = countMessageTokens cfg msg := by
  unfold cacheTokens countMessageTokens
  split_ifs <;> simp_all

theorem tokenSum_counted (history : List CountedMessage) :
    tokenSum cfg (history.map (cacheTokens cfg)) = tokenSum cfg history := by
  unfold tokenSum
  rw [map_map]
  exact congrArg List.sum (map_congr_left fun m _ => countMessageTokens_cache cfg m)

theorem CountsFit.historyTokens_eq {cfg : TurnConfig} {part : List CountedMessage} (h : CountsFit cfg history)
    (hpart : part.Sublist (history.map (cacheTokens cfg))) : historyTokens cfg part = tokenSum cfg part := by
  have hcounts : ∀ n ∈ (history.map (cacheTokens cfg)).map (countMessageTokens cfg), 0 ≤ n := by
    intro n hn
    obtain ⟨counted, hcounted, rfl⟩ := mem_map.1 hn
    obtain ⟨m, hm, rfl⟩ := mem_map.1 hcounted
    rw [countMessageTokens_cache]
    exact h.nonneg m hm
  have hsub := hpart.map (countMessageTokens cfg)
  have hlow : 0 ≤ tokenSum cfg part := sum_nonneg fun n hn => hcounts n (hsub.subset hn)
  have hhigh : tokenSum cfg part ≤ tokenSum cfg (history.map (cacheTokens cfg)) := hsub.sum_le_sum hcounts
  have hsum := h.sum
  rw [tokenSum_counted] at hhigh
  rw [AgentCpp.historyTokens_eq]
  exact int32_of_small (by omega) (by omega)

/-- Pruning removes whole groups after the leading system messages, the fewest that bring the rest
within `max_allowed` or all but the last, and leaves tool messages behind their assistant message. -/
theorem pruneHistoryState_removes_groups (cfg : TurnConfig) (history : List CountedMessage)
    (hpaired : ToolsFollowCalls history) (hfit : CountsFit cfg history) :
    let counted := history.map (cacheTokens cfg)
    let leading := counted.takeWhile (·.isSystem)
    let groups := messageGroups (counted.dropWhile (·.isSystem))
    (∀ group ∈ groups, ∃ msg results, group = msg :: results ∧ msg.isTool = false ∧
      (∀ m ∈ results, m.isTool = true) ∧ (results ≠ [] → msg.hasCalls = true)) ∧
    ∃ removed kept k, counted = leading ++ removed ++ kept ∧ pruneHistoryState cfg history = leading ++ kept ∧
      removed = (groups.take k).flatten ∧ kept = (groups.drop k).flatten ∧
      ToolsFollowCalls (leading ++ kept) ∧ (∀ m ∈ kept.head?, m.isTool = false) ∧
      (counted.dropWhile (·.isSystem) ≠ [] → kept ≠ []) ∧
      (∀ j, tokenSum cfg (leading ++ (groups.drop j).flatten) ≤ max 200 cfg.budget → k ≤ j) ∧
      (tokenSum cfg (leading ++ kept) ≤ max 200 cfg.budget ∨ groups.length ≤ k + 1) := by
  intro counted leading groups
  have hcounted : counted = leading ++ counted.dropWhile (·.isSystem) := takeWhile_append_dropWhile.symm
  have hfollow : ToolsFollowCalls counted := (toolsFollowCalls_map cfg history).2 hpaired
  have hrest : ToolsFollowCalls (counted.dropWhile (·.isSystem)) :=
    (hcounted ▸ hfollow).append_right (takeWhile_isSystem_closed counted)
  refine ⟨hrest.groups_shape, ?_⟩
  obtain ⟨k, hprune, hfits⟩ := pruneHistoryState_fits cfg history
  have hparts : counted.dropWhile (·.isSystem) = (groups.take k).flatten ++ (groups.drop k).flatten := by
    rw [← flatten_append, take_append_drop]
    exact (flatten_splitBy _ _).symm
  have hwhole : counted = leading ++ (groups.take k).flatten ++ (groups.drop k).flatten := by
    rw [append_assoc, ← hparts]
    exact hcounted
  have hhead := head?_drop_groups hrest k
  have htokens : ∀ j, historyTokens cfg (leading ++ (groups.drop j).flatten) =
      tokenSum cfg (leading ++ (groups.drop j).flatten) := by
    intro j
    have hflat : leading ++ groups.flatten = counted :=
      (congrArg (leading ++ ·) (flatten_splitBy _ _)).trans hcounted.symm
    exact hfit.historyTokens_eq (((drop_sublist j groups).flatten.append_left leading).trans (hflat ▸ Sublist.refl _))
  rw [← TurnConfig.maxAllowed_eq hfit.budget.1 hfit.budget.2]
  simp only [← htokens]
  refine ⟨_, _, k, hwhole, hprune, rfl, rfl, (hwhole ▸ hfollow).remove hhead, hhead, ?_, ?_, ?_⟩
  · intro hne hnone
    have hlt := hfits.keeps (splitBy_ne_nil.2 hne)
    have hlast : groups[k] ∈ groups.drop k := by
      rw [drop_eq_getElem_cons hlt]
      exact mem_cons_self
    exact ne_nil_of_mem_splitBy (mem_of_mem_drop hlast) (flatten_eq_nil_iff.1 hnone _ hlast)
  · intro j hj
    by_contra hlt
    exact absurd hj (not_le.2 (hfits.fewest j (by omega)))
  · rw [← htokens]
    exact hfits.enough

def roundHistory : List CountedMessage :=
  [{ role := lit "system", tokenCount := 100 },
   { role := lit "user", tokenCount := 100 },
   { role := lit "assistant", toolCalls := [⟨lit "a", lit "ls", []⟩, ⟨lit "b", lit "cat", []⟩], tokenCount := 100 },
   { role := lit "tool", toolCallId := lit "a", tokenCount := 100 },
   { role := lit "tool", toolCallId := lit "b", tokenCount := 100 },
   { role := lit "assistant", content := lit "done", tokenCount := 100 }]

theorem pruneHistoryState_removes_groups_round :
    ToolsFollowCalls roundHistory ∧ CountsFit { contextWindow := 1012 } roundHistory ∧
      ToolsFollowCalls (pruneHistoryState { contextWindow := 1012 } roundHistory) := by
  have hpaired : ToolsFollowCalls roundHistory := by decide
  have hfit : CountsFit { contextWindow := 1012 } roundHistory := by decide
  obtain ⟨-, removed, kept, k, -, hprune, -, -, hfollow, -⟩ :=
    pruneHistoryState_removes_groups { contextWindow := 1012 } roundHistory hpaired hfit
  exact ⟨hpaired, hfit, hprune ▸ hfollow⟩

-- 400 tokens are allowed: the question goes, and the round goes as a whole
example : pruneHistoryState { contextWindow := 1012 } roundHistory =
    [{ role := lit "system", tokenCount := 100 },
     { role := lit "assistant", content := lit "done", tokenCount := 100 }] := by decide

def hugeHistory : List CountedMessage :=
  [{ role := lit "user", tokenCount := 2147483647 }, { role := lit "user", tokenCount := 1 },
   { role := lit "user", tokenCount := 1 }]

/- The sum in an `int` is negative, and nothing is removed. -/
theorem pruneHistoryState_sum_wraps : ToolsFollowCalls hugeHistory ∧ pruneHistoryState {} hugeHistory = hugeHistory ∧
    TurnConfig.maxAllowed {} < tokenSum {} hugeHistory := by
  decide

theorem map_cacheTokens_prune (cfg : TurnConfig) (history : List CountedMessage) :
    (pruneHistoryState cfg history).map (cacheTokens cfg) = pruneHistoryState cfg history := by
  refine (map_congr_left fun m hm => ?_).trans (map_id _)
  have hmem : m ∈ history.map (cacheTokens cfg) := by
    unfold pruneHistoryState at hm
    split at hm
    · next hnil =>
      rw [isEmpty_iff.1 hnil] at hm
      cases hm
    · exact (mem_append.1 hm).elim mem_of_mem_take mem_of_mem_drop
  obtain ⟨msg, -, rfl⟩ := mem_map.1 hmem
  exact congrArg (fun n => { msg with tokenCount := n }) (countMessageTokens_cache cfg msg)

/- A group that begins with a system message is that message. -/
theorem messageGroups_of_group (hgroup : group ∈ messageGroups history) :
    (messageGroups (group.dropWhile (·.isSystem))).length ≤ 1 := by
  have hchain := isChain_of_mem_splitBy hgroup
  cases group with
  | nil => exact Nat.zero_le 1
  | cons msg results =>
    rw [dropWhile_cons]
    split
    · next hsystem =>
      cases results with
      | nil => exact Nat.zero_le 1
      | cons m results =>
        have hfollows := (isChain_cons_cons.1 hchain).1
        rw [Message.not_isTool_of_isSystem hsystem, Message.not_hasCalls_of_isSystem hsystem, Bool.or_self,
          Bool.and_false] at hfollows
        cases hfollows
    · exact (congrArg length (splitBy_of_isChain (cons_ne_nil _ _) hchain)).le

theorem pruned_fits (cfg : TurnConfig) (history : List CountedMessage) :
    let kept := pruneHistoryState cfg history
    historyTokens cfg kept ≤ cfg.maxAllowed ∨ (messageGroups (kept.dropWhile (·.isSystem))).length ≤ 1 := by
  obtain ⟨k, hprune, hfits⟩ := pruneHistoryState_fits cfg history
  simp only [hprune]
  refine hfits.enough.imp_right fun hlast => ?_
  rw [dropWhile_append_of_pos fun m hm => mem_takeWhile_imp (p := fun m : CountedMessage => m.isSystem) hm]
  cases hgroups : drop k (messageGroups _) with
  | nil => exact Nat.zero_le 1
  | cons group rest =>
    have hlen := congrArg length hgroups
    rw [length_drop, length_cons] at hlen
    rw [eq_nil_of_length_eq_zero (l := rest) (by omega), flatten_cons, flatten_nil, append_nil]
    exact messageGroups_of_group (mem_of_mem_drop (hgroups ▸ mem_cons_self))

/-- A pruned history is not pruned further. -/
theorem pruneHistoryState_idempotent (cfg : TurnConfig) (history : List CountedMessage) :
    pruneHistoryState cfg (pruneHistoryState cfg history) = pruneHistoryState cfg history := by
  obtain ⟨k, hagain, hfits⟩ := pruneHistoryState_fits cfg (pruneHistoryState cfg history)
  have hsmall := pruned_fits cfg history
  rw [map_cacheTokens_prune] at hagain hfits
  generalize pruneHistoryState cfg history = kept at *
  have hwhole : kept.takeWhile (·.isSystem) ++ (messageGroups (kept.dropWhile (·.isSystem))).flatten = kept := by
    rw [messageGroups, flatten_splitBy, takeWhile_append_dropWhile]
  rw [hagain]
  cases k with
  | zero => exact hwhole
  | succ k =>
    have hover := hfits.fewest 0 k.succ_pos
    rw [drop_zero, hwhole] at hover
    by_cases hnone : messageGroups (kept.dropWhile (·.isSystem)) = []
    · rw [hnone] at hwhole ⊢
      exact hwhole
    · have hlt := hfits.keeps hnone
      omega

end AgentCpp
