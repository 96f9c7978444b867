import AgentCpp.Graph.Drive
import AgentCpp.Graph.Join
import AgentCpp.Graph.Workflow

/-!
# Chains as machines

`ChainMachine` is what the top-level chain of a call and the branches of a fan-out share,
and `Faithful` says what such a chain does at a Function, a Loop and a Parallel node.
-/

namespace AgentCpp
open Lib

/- A chain state as a workflow sees it. -/
structure Sees (state : GraphState) (w : Work) : Prop where
  values : dropCounters state.values = w.values
  histories : state.histories = w.histories
  written : state.written = []
  requested : state.interruptRequested = false
  reason : state.interruptReason = []

/- `step left current s` runs the node `current` with `left` steps to go and says where the chain
goes on, unless it stops. -/
structure ChainMachine where
  Config : Type
  state : Config → GraphState
  visits : Config → List Visit
  Tracks : Config → Set Bytes → Prop
  Ready : Config → Prop
  Stopped : Config → Prop
  stops : Bytes → Bool
  step : ℕ → Bytes → Config → Config × Option Bytes

namespace ChainMachine

variable (M : ChainMachine)

structure Views (s : M.Config) (w : Work) : Prop where
  sees : Sees (M.state s) w
  tracks : M.Tracks s w.writes
  ready : M.Ready s

def SameCounters (s s' : M.Config) : Prop :=
  ∀ key, isLoopKey key → (M.state s').values[key]? = (M.state s).values[key]?

inductive Reach : ℕ → Bytes → M.Config → ℕ → Bytes → M.Config → Prop where
  | refl {left current s} : Reach left current s left current s
  | step {left current next s s' left' target t} (hgo : M.stops current = false)
      (h : M.step left current s = (s', some next)) (hrest : Reach left next s' left' target t) :
      Reach (left + 1) current s left' target t

def Halts (left : ℕ) (current : Bytes) (s t : M.Config) : Prop :=
  ∃ left' at_ s', M.Reach left current s (left' + 1) at_ s' ∧ M.stops at_ = false ∧
    M.step left' at_ s' = (t, none) ∧ M.Stopped t

variable {M}

variable {l l' : ℕ} {a b : Bytes} {s t u : M.Config}

theorem Reach.trans {l'' : ℕ} {c : Bytes} (h : M.Reach l a s l' b t)
    (h' : M.Reach l' b t l'' c u) : M.Reach l a s l'' c u := by
  induction h with
  | refl => exact h'
  | step hgo hstep _ ih => exact .step hgo hstep (ih h')

theorem Reach.halts (h : M.Reach l a s l' b t) (h' : M.Halts l' b t u) : M.Halts l a s u := by
  obtain ⟨left, at_, v, hreach, hgo, hstep, hstop⟩ := h'
  exact ⟨left, at_, v, h.trans hreach, hgo, hstep, hstop⟩

def Clean (r : GraphState × Result Unit) : Prop := r.2 = .ok () ∧ r.1.interruptRequested = false

variable (M) {τ : Type}

/- What a chain does at each kind of node of a graph without edges. `fuel` is how
deep fan-outs may nest below the chain. -/
structure Faithful (env : Env τ) (graph : Graph) (fuel : ℕ) : Prop where
  function_step : ∀ left current s node f w, M.stops current = false →
    findNode graph current = some node → node.kind = .function → node.function = some f →
    CounterFree f → M.Views s w →
    ∃ pos s', M.visits s' = M.visits s ++ [.mk node.name []] ∧
      (Clean (f pos w.state) → M.step left current s = (s', some (leaveTo node graphEnd)) ∧
        M.Views s' (w.after (f pos w.state).1) ∧ M.SameCounters s s') ∧
      (¬Clean (f pos w.state) → M.step left current s = (s', none) ∧ M.Stopped s')
  loop_step : ∀ left current s node w, M.stops current = false →
    findNode graph current = some node → node.kind = .loop → node.loopBody ≠ [] →
    (∀ u, node.until_ = some u → CounterBlind u) → M.Views s w →
    ∃ pos s', M.visits s' = M.visits s ++ [.mk node.name []] ∧
      match loopTest node.maxIterations node.until_ (loopCount node.name (M.state s)) pos w.state with
      | .error _ => M.step left current s = (s', none) ∧ M.Stopped s'
      | .ok true => M.step left current s = (s', some (leaveTo node graphEnd)) ∧ M.Views s' w ∧
          (M.state s').values = (M.state s).values.erase (loopKey node.name)
      | .ok false => M.step left current s = (s', some node.loopBody) ∧ M.Views s' w ∧
          (M.state s').values = (M.state s).values.insert (loopKey node.name)
            (decimalInt (loopCount node.name (M.state s) + 1))
  parallel_step : ∀ inner left current s node w, fuel = inner + 1 → M.stops current = false →
    findNode graph current = some node → node.kind = .parallel → M.Views s w →
    ∃ ctx pos, ∀ branches : List (Branch τ),
      branches = nestedBranches env graph (runNode env graph inner ctx) pos node (M.state s).values →
      (∀ b ∈ branches, b.returned) →
      ∃ s', M.visits s' = M.visits s ++ [.mk node.name (branches.map fun b => b.chain.visits)] ∧
        (FanOutOk branches → M.step left current s = (s', some (leaveTo node graphEnd)) ∧ M.Ready s' ∧
          ∃ merged, Joined branches (M.state s) (M.state s') merged ∧
            M.Tracks s' (w.writes ∪ {key | ∃ value, (key, value) ∈ merged})) ∧
        (¬FanOutOk branches → M.step left current s = (s', none) ∧ M.Stopped s')

/- A turn of the loop at a node whose result neither fails nor pauses, with the state `after` and
the keys `written`. -/
structure Turn (left : ℕ) (current : Bytes) (s : M.Config) (node : GraphNode) (visit : Visit) (after : GraphState)
    (written : List Bytes) (res : Result NodeResult) : Prop where
  goes : ∀ result, res = .ok result → result.interrupted = false → ∃ s', M.visits s' = M.visits s ++ [visit] ∧
    M.step left current s = (s', some (if result.forcedNext = [] then leaveTo node graphEnd else result.forcedNext)) ∧
    M.Ready s' ∧ M.state s' = { after with written := [] } ∧
    ∀ writes, M.Tracks s writes → M.Tracks s' (writes ∪ {key | key ∈ written})
  halts : (∀ result, res = .ok result → result.interrupted = true) → ∃ s', M.visits s' = M.visits s ++ [visit] ∧
    M.step left current s = (s', none) ∧ M.Stopped s'

def mergedKeys : Result (NodeResult × List (Bytes × Bytes)) → List Bytes
  | .error _ => []
  | .ok (_, merged) => merged.map Prod.fst

/- What the two kinds of chain do in their own ways: a turn at a leaf and a turn at a fan-out. -/
structure Turns (env : Env τ) (graph : Graph) (fuel : ℕ) : Prop where
  leaf : ∀ left current s node, findNode graph current = some node → node.kind ≠ .parallel → M.Ready s →
    ∃ (ctx : ChainCtx) (pos : Pos) (c : Chain τ), c.state = M.state s ∧ ∀ state' res,
      runLeaf env ctx pos node none c = ({ c with state := state', visits := c.visits ++ [.mk node.name []] }, some res) →
        M.Turn left current s node (.mk node.name []) state' state'.written res
  fan : ∀ inner left current s node, fuel = inner + 1 → findNode graph current = some node → node.kind = .parallel →
    M.Ready s → ∃ (ctx : ChainCtx) (pos : Pos), ∀ branches : List (Branch τ),
      branches = nestedBranches env graph (runNode env graph inner ctx) pos node (M.state s).values →
      ∃ c : Chain τ, c.state = M.state s ∧ ∀ state' res, state'.written = [] →
        closeFanOut node branches c = ({ absorb node branches c with state := state' }, some res) →
          M.Turn left current s node (.mk node.name (branches.map fun b => b.chain.visits)) state'
            (mergedKeys res) (res.map Prod.fst)

end ChainMachine

section Chains

variable {τ : Type} {env : Env τ} {graph : Graph}

variable {state state' : GraphState} {w : Work}

theorem Sees.state_eq (h : Sees state w) : state.withoutCounters = w.state := by
  obtain ⟨values, histories, written, requested, reason⟩ := state
  obtain ⟨hv, hh, hw, hr, hs⟩ := h
  subst hw hr hs
  unfold GraphState.withoutCounters Work.state
  rw [hv, hh]

structure Took (state after state' : GraphState) : Prop where
  values : dropCounters state'.values = after.values
  histories : state'.histories = after.histories
  written : state'.written = after.written
  requested : state'.interruptRequested = false
  reason : state'.interruptReason = []
  counters : ∀ key, isLoopKey key → state'.values[key]? = state.values[key]?

theorem Took.sees {after : GraphState} (h : Took state after state') :
    Sees { state' with written := [] } (w.after after) :=
  { h with written := rfl }

theorem runFunctionNode_sees (ctx : ChainCtx) (pos : Pos) (node : GraphNode)
    (f : Pos → GraphState → GraphState × Result Unit) (c : Chain τ) (w : Work)
    (hnode : node.function = some f) (hf : CounterFree f) (hs : Sees c.state w) :
    ∃ state' res, runFunctionNode ctx pos node c = ({ c with state := state' }, res) ∧
      (ChainMachine.Clean (f pos w.state) → res = .ok {} ∧ Took c.state (f pos w.state).1 state') ∧
      (¬ChainMachine.Clean (f pos w.state) → ∀ result, res = .ok result → result.interrupted) := by
  have hinput : { c.state with interruptRequested := false } = c.state := by
    rw [← hs.requested]
  have hplain := hs.state_eq
  have hres := hf.result pos c.state
  have hint := hf.interrupt pos c.state
  have htook : Took c.state (f pos w.state).1
      { (f pos c.state).1 with interruptRequested := false, interruptReason := [] } := by
    rw [← hplain]
    exact ⟨hf.values pos c.state, hf.histories pos c.state, hf.written pos c.state, rfl, rfl, hf.counters pos c.state⟩
  rw [hplain] at hres hint
  unfold runFunctionNode
  simp only [hnode, hinput]
  refine ⟨_, _, rfl, fun hclean => ⟨?_, htook⟩, fun hdirty result h => ?_⟩
  · rw [hres, hclean.1]
    unfold functionResult
    rw [hint, hclean.2]
    rfl
  · unfold functionResult at h
    cases hr : (f pos c.state).2 with
    | error e =>
      rw [hr] at h
      cases h
    | ok u =>
      rw [hr] at h
      cases hi : (f pos c.state).1.interruptRequested with
      | false => exact absurd ⟨hres.symm.trans hr, hint.symm.trans hi⟩ hdirty
      | true =>
        simp only [hi, if_true] at h
        split at h
        · cases h
        · cases h
          rfl

theorem runLoopNode_sees (pos : Pos) (node : GraphNode) (c : Chain τ) (w : Work)
    (hu : ∀ u, node.until_ = some u → CounterBlind u) (hs : Sees c.state w) : loopExits pos node c.state =
      loopTest node.maxIterations node.until_ (loopCount node.name c.state) pos w.state := by
  unfold loopExits loopTest
  split
  · rfl
  · split
    · cases hn : node.until_ with
      | none => rfl
      | some u =>
        simp only
        rw [hu u hn pos c.state, hs.state_eq]
    · rfl

theorem dropCounters_insert (values : Table Bytes) (name value : Bytes) :
    dropCounters (values.insert (loopKey name) value) = dropCounters values := by
  apply Table.ext
  intro key
  rw [get_dropCounters, get_dropCounters, Table.get_insert]
  by_cases h : loopKey name = key
  · rw [← h]
    rfl
  · rw [if_neg h]

theorem dropCounters_erase (values : Table Bytes) (name : Bytes) :
    dropCounters (values.erase (loopKey name)) = dropCounters values := by
  apply Table.ext
  intro key
  rw [get_dropCounters, get_dropCounters, Table.get_erase]
  by_cases h : loopKey name = key
  · rw [← h]
    rfl
  · rw [if_neg h]

theorem resolve_without_edges (hedges : graph.edges = []) (pos : Pos) (state : GraphState)
    (node : GraphNode) (result : NodeResult) : resolveNext graph pos state node result =
      .ok (if result.forcedNext = [] then leaveTo node graphEnd else result.forcedNext) := by
  split
  · next h =>
    rw [resolveNext_edge _ _ _ _ _ h, edgeTarget_none]
    · rfl
    · unfold findEdge
      rw [hedges]
      rfl
  · next h => exact resolveNext_forced _ _ _ _ _ h

theorem runLeaf_function (env : Env τ) (ctx : ChainCtx) (pos : Pos) (node : GraphNode)
    (f : Pos → GraphState → GraphState × Result Unit) (c : Chain τ) (w : Work)
    (hk : node.kind = .function) (hnode : node.function = some f) (hf : CounterFree f) (hs : Sees c.state w) :
    ∃ state' res, runLeaf env ctx pos node none c =
        ({ c with state := state', visits := c.visits ++ [.mk node.name []] }, some res) ∧
      (ChainMachine.Clean (f pos w.state) → res = .ok {} ∧ Took c.state (f pos w.state).1 state') ∧
      (¬ChainMachine.Clean (f pos w.state) → ∀ result, res = .ok result → result.interrupted) := by
  obtain ⟨state', res, hrun, hclean, hdirty⟩ := runFunctionNode_sees ctx pos node f
    { c with visits := c.visits ++ [.mk node.name []] } w hnode hf hs
  refine ⟨state', res, ?_, hclean, hdirty⟩
  unfold runLeaf
  simp only [hk, hrun]

theorem runLeaf_loop (env : Env τ) (ctx : ChainCtx) (pos : Pos) (node : GraphNode) (c : Chain τ) (w : Work)
    (hk : node.kind = .loop) (hu : ∀ u, node.until_ = some u → CounterBlind u) (hs : Sees c.state w) :
    ∃ values' res, runLeaf env ctx pos node none c =
        ({ c with state := { c.state with values := values' }
                  visits := c.visits ++ [.mk node.name []] }, some res) ∧
      match loopTest node.maxIterations node.until_ (loopCount node.name c.state) pos w.state with
      | .error e => res = .error e
      | .ok true => res = .ok {} ∧ values' = c.state.values.erase (loopKey node.name)
      | .ok false => res = .ok { forcedNext := node.loopBody } ∧ values' = c.state.values.insert (loopKey node.name)
            (decimalInt (loopCount node.name c.state + 1)) := by
  have htest := runLoopNode_sees pos node c w hu hs
  unfold runLeaf runLoopNode
  simp only [hk]
  rw [← htest]
  cases loopExits pos node c.state with
  | error e => exact ⟨c.state.values, _, rfl, rfl⟩
  | ok b =>
    cases b with
    | true => exact ⟨_, _, rfl, rfl, rfl⟩
    | false => exact ⟨_, _, rfl, rfl, rfl⟩

theorem nestedBranches_length (env : Env τ) (graph : Graph) (runNode : NodeRunner τ) (pos : Pos) (node : GraphNode)
    (values : Table Bytes) : (nestedBranches env graph runNode pos node values).length = node.branches.length :=
  List.length_mapIdx

variable {fuel left : ℕ}

theorem ChainMachine.Turns.faithful {M : ChainMachine} (h : M.Turns env graph fuel) : M.Faithful env graph fuel where
  function_step := by
    intro left current s node f w _ hnode hk hfun hf hv
    obtain ⟨ctx, pos, c, hc, hturn⟩ := h.leaf left current s node hnode (by rw [hk]; simp) hv.ready
    obtain ⟨state', res, hleaf, hclean, hdirty⟩ := runLeaf_function env ctx pos node f c w hk hfun hf (hc ▸ hv.sees)
    have hturn := hturn state' res hleaf
    by_cases hgood : Clean (f pos w.state)
    · obtain ⟨rfl, htook⟩ := hclean hgood
      obtain ⟨s', hvisits, hstep, hready, hstate, htracks⟩ := hturn.goes _ rfl rfl
      refine ⟨pos, s', hvisits, fun _ => ⟨hstep, ⟨?_, ?_, hready⟩, fun key hkey => ?_⟩, fun h => absurd hgood h⟩
      · rw [hstate]
        exact htook.sees
      · simpa only [Work.after, htook.written] using htracks _ hv.tracks
      · rw [hstate, ← hc]
        exact htook.counters key hkey
    · obtain ⟨s', hvisits, hstep, hstop⟩ := hturn.halts (hdirty hgood)
      exact ⟨pos, s', hvisits, fun h => absurd h hgood, fun _ => ⟨hstep, hstop⟩⟩
  loop_step := by
    intro left current s node w _ hnode hk hbody hu hv
    obtain ⟨ctx, pos, c, hc, hturn⟩ := h.leaf left current s node hnode (by rw [hk]; simp) hv.ready
    obtain ⟨values', res, hleaf, hres⟩ := runLeaf_loop env ctx pos node c w hk hu (hc ▸ hv.sees)
    have hturn := hturn _ res hleaf
    rw [hc] at hres hturn
    -- a clean turn keeps what the workflow sees, whatever happened to the counter
    have hviews : ∀ s', M.Ready s' → M.state s' = { M.state s with values := values', written := [] } →
        (∀ writes, M.Tracks s writes → M.Tracks s' (writes ∪ {key | key ∈ (M.state s).written})) →
        dropCounters values' = dropCounters (M.state s).values → M.Views s' w := by
      intro s' hready hstate htracks hdrop
      have hsame := htracks _ hv.tracks
      refine ⟨?_, by simpa [hv.sees.written] using hsame, hready⟩
      rw [hstate]
      exact ⟨hdrop.trans hv.sees.values, hv.sees.histories, rfl, hv.sees.requested, hv.sees.reason⟩
    refine ⟨pos, ?_⟩
    cases htest : loopTest node.maxIterations node.until_ (loopCount node.name (M.state s)) pos w.state with
    | error e =>
      rw [htest] at hres
      subst hres
      exact hturn.halts nofun
    | ok stop =>
      rw [htest] at hres
      cases stop with
      | true =>
        obtain ⟨rfl, hvalues⟩ := hres
        obtain ⟨s', hvisits, hstep, hready, hstate, htracks⟩ := hturn.goes _ rfl rfl
        have hdrop := (congrArg dropCounters hvalues).trans (dropCounters_erase _ _)
        exact ⟨s', hvisits, hstep, hviews s' hready hstate htracks hdrop, by rw [hstate, ← hvalues]⟩
      | false =>
        obtain ⟨rfl, hvalues⟩ := hres
        obtain ⟨s', hvisits, hstep, hready, hstate, htracks⟩ := hturn.goes _ rfl rfl
        have hdrop := (congrArg dropCounters hvalues).trans (dropCounters_insert _ _ _)
        rw [if_neg hbody] at hstep
        exact ⟨s', hvisits, hstep, hviews s' hready hstate htracks hdrop, by rw [hstate, ← hvalues]⟩
  parallel_step := by
    intro inner left current s node w hinner _ hnode hk hv
    obtain ⟨ctx, pos, hfan⟩ := h.fan inner left current s node hinner hnode hk hv.ready
    refine ⟨ctx, pos, fun branches hbranches hret => ?_⟩
    obtain ⟨c, hc, hturn⟩ := hfan branches hbranches
    have hlen : branches.length = node.branches.length := by rw [hbranches, nestedBranches_length]
    by_cases hok : FanOutOk branches
    · obtain ⟨state', merged, hclose, hjoined⟩ := closeFanOut_ok node branches c hlen hret hok
      rw [hc] at hjoined
      have hwritten : state'.written = [] := hjoined.rest.1.trans hv.sees.written
      obtain ⟨s', hvisits, hstep, hready, hstate, htracks⟩ := (hturn state' _ hwritten hclose).goes _ rfl rfl
      rw [← hwritten] at hstate
      refine ⟨s', hvisits, fun _ => ⟨hstep, hready, merged, hstate ▸ hjoined, ?_⟩, fun h => absurd hok h⟩
      simpa [mergedKeys] using htracks _ hv.tracks
    · obtain ⟨res, hclose, hdirty⟩ := closeFanOut_not_ok node branches c hlen hret hok
      obtain ⟨s', hvisits, hstep, hstop⟩ := (hturn c.state res (hc ▸ hv.sees.written) hclose).halts (by
        rintro result hres
        cases res with
        | error e => cases hres
        | ok r =>
          cases hres
          exact hdirty r.1 r.2 rfl)
      exact ⟨s', hvisits, fun h => absurd h hok, fun _ => ⟨hstep, hstop⟩⟩

theorem runNode_leaf (graph : Graph) (fuel : ℕ) (ctx : ChainCtx) (pos : Pos) (node : GraphNode) (c c' : Chain τ)
    (res : Outcome NodeResult) (hk : node.kind ≠ .parallel)
    (h : runLeaf env ctx pos node none (emit env pos c .nodeStart node.name [] []) = (c', res)) :
    ∃ events, runNode env graph fuel ctx pos node none c = ({ c' with events }, res) := by
  obtain ⟨events, hend⟩ := endNode_eq env pos node c' res
  refine ⟨events, ?_⟩
  unfold runNode
  simp only [if_neg hk, h, hend]

theorem runNode_parallel (env : Env τ) (graph : Graph) (fuel : ℕ) (ctx : ChainCtx) (pos : Pos) (node : GraphNode)
    (c : Chain τ)
    (hk : node.kind = .parallel) : ∃ (started : List GraphEvent) (ctx' : ChainCtx) (events : List GraphEvent),
      runNode env graph (fuel + 1) ctx pos node none c =
        ({ (runNestedParallel env graph (runNode env graph fuel ctx') pos node
            { c with events := started }).1 with events },
          (runNestedParallel env graph (runNode env graph fuel ctx') pos node
            { c with events := started }).2) := by
  unfold runNode
  simp only [if_pos hk]
  obtain ⟨events, hend⟩ := endNode_eq env pos node
    (runNestedParallel env graph (runNode env graph fuel (ctx.branch c.state.histories)) pos node
      { c with events := (emit env pos c .nodeStart node.name [] []).events }).1
    (runNestedParallel env graph (runNode env graph fuel (ctx.branch c.state.histories)) pos node
      { c with events := (emit env pos c .nodeStart node.name [] []).events }).2
  exact ⟨_, ctx.branch c.state.histories, events, Prod.ext hend rfl⟩

def branchMachine (env : Env τ) (graph : Graph) (fuel : ℕ) (ctx : ChainCtx) (pos : Pos)
    (join : Bytes) : ChainMachine where
  Config := Branch τ
  state b := b.chain.state
  visits b := b.chain.visits
  Tracks b writes := ∀ key, key ∈ writes ↔ key ∈ b.chain.writes
  Ready b := b.returned = true ∧ b.Joins
  Stopped b := b.returned = true ∧ ¬b.Joins
  stops := atEnd join
  step left current b := stepBranch env graph (runNode env graph fuel ctx) (left :: pos) join none
    current b

theorem stepBranch_clean (runNode : NodeRunner τ) (pos : Pos) (join current next : Bytes) (b : Branch τ)
    (node : GraphNode) (chain : Chain τ) (result : NodeResult) (hnode : findNode graph current = some node)
    (hrun : runNode pos node none b.chain = (chain, some (.ok result))) (hgo : result.interrupted = false)
    (hnext : resolveNext graph pos { chain.state with written := [] } node result = .ok next) :
    ∃ (events : List GraphEvent) (saves : List Save), stepBranch env graph runNode pos join none current b = ({ b with
        chain := { chain with
          state := { chain.state with written := [] }, events,
          writes := chain.writes ++ chain.state.written }
        saves }, some next) := by
  obtain ⟨events, hdrain⟩ := drainBranch_eq env pos node.name chain
  unfold stepBranch
  simp only [hnode, ite_self, hrun]
  unfold afterNode
  simp only [hgo, hdrain, Bool.false_eq_true, if_false, hnext]
  exact ⟨events, _, rfl⟩

theorem stepBranch_dirty (runNode : NodeRunner τ) (pos : Pos) (join current : Bytes) (b : Branch τ)
    (node : GraphNode) (chain : Chain τ) (res : Result NodeResult) (hnode : findNode graph current = some node)
    (hrun : runNode pos node none b.chain = (chain, some res))
    (hdirty : ∀ result, res = .ok result → result.interrupted = true) (hb : b.returned = true) :
    ∃ b' : Branch τ, stepBranch env graph runNode pos join none current b = (b', none) ∧
      b'.chain.visits = chain.visits ∧ b'.returned = true ∧ ¬b'.Joins := by
  unfold stepBranch
  simp only [hnode, ite_self, hrun]
  cases res with
  | error e => exact ⟨_, rfl, rfl, hb, by simp [Branch.Joins, Branch.failed, Branch.save]⟩
  | ok result =>
    obtain ⟨events, hdrain⟩ := drainBranch_eq env pos node.name chain
    unfold afterNode
    simp only [hdirty result rfl, hdrain]
    exact ⟨_, rfl, rfl, hb, by simp [Branch.Joins, Branch.save]⟩

variable {current : Bytes} {node : GraphNode} {res : Result NodeResult} {visit : Visit} {written : List Bytes}

theorem branchMachine_turn (hedges : graph.edges = []) {ctx : ChainCtx} {pos : Pos} {join : Bytes}
    {b : Branch τ} {chain : Chain τ} (hnode : findNode graph current = some node)
    (hready : (branchMachine env graph fuel ctx pos join).Ready b)
    (hrun : runNode env graph fuel ctx (left :: pos) node none b.chain = (chain, some res))
    (hvisits : chain.visits = b.chain.visits ++ [visit])
    (hwrites : ∀ key, key ∈ chain.writes ++ chain.state.written ↔ key ∈ b.chain.writes ∨ key ∈ written) :
    (branchMachine env graph fuel ctx pos join).Turn left current b node visit chain.state written res := by
  constructor
  · rintro result rfl hgo
    obtain ⟨events, saves, hstep⟩ := stepBranch_clean _ _ join current _ b node _ _ hnode hrun hgo
      (resolve_without_edges hedges _ _ _ _)
    refine ⟨_, ?_, hstep, hready, rfl, fun writes htracks key => ?_⟩
    · exact hvisits
    · exact (or_congr (htracks key) Iff.rfl).trans (hwrites key).symm
  · intro hdirty
    obtain ⟨b', hstep, hvisits', hstop⟩ := stepBranch_dirty _ _ join current b node _ res hnode hrun hdirty hready.1
    exact ⟨b', hvisits'.trans hvisits, hstep, hstop⟩

theorem branchMachine_faithful (hedges : graph.edges = []) (fuel : ℕ) (ctx : ChainCtx) (pos : Pos)
    (join : Bytes) : (branchMachine env graph fuel ctx pos join).Faithful env graph fuel := by
  refine ChainMachine.Turns.faithful ⟨fun left current b node hnode hk hready => ?_, ?_⟩
  · refine ⟨ctx, left :: pos, emit env (left :: pos) b.chain .nodeStart node.name [] [], rfl, fun state' res hleaf => ?_⟩
    obtain ⟨events, hrun⟩ := runNode_leaf graph fuel ctx (left :: pos) node b.chain _ _ hk hleaf
    exact branchMachine_turn hedges hnode hready hrun rfl fun key => List.mem_append
  · rintro inner left current b node rfl hnode hk hready
    obtain ⟨started, ctx', events, hrun⟩ := runNode_parallel env graph inner ctx (left :: pos) node b.chain hk
    refine ⟨ctx', left :: pos, ?_⟩
    rintro branches rfl
    refine ⟨{ b.chain with events := started }, rfl, fun state' res hwritten hclose => ?_⟩
    replace hclose : closeFanOut node (nestedBranches env graph (runNode env graph inner ctx') (left :: pos) node
      b.chain.state.values) _ = _ := hclose
    unfold runNestedParallel at hrun
    cases res with
    | error e =>
      simp only [hclose] at hrun
      exact branchMachine_turn hedges hnode hready hrun rfl (by simp [absorb, hwritten, ChainMachine.mergedKeys])
    | ok r =>
      simp only [hclose] at hrun
      exact branchMachine_turn hedges hnode hready hrun rfl (by simp [absorb, hwritten, ChainMachine.mergedKeys])

def goTo (current : Bytes) (c : RunCtx τ) : RunCtx τ :=
  { c with run := { c.run with nextNode := current } }

/- A configuration is the context with the result of the call, once there is one. -/
def topMachine (env : Env τ) (graph : Graph) (fuel : ℕ) : ChainMachine where
  Config := RunCtx τ × Outcome Unit
  state c := c.1.run.state
  visits c := c.1.visits
  Tracks _ _ := True
  Ready c := c.1.progress = none
  Stopped c := c.2.isSome = true ∧ c.1.run.status ≠ .completed
  stops := atEnd graphEnd
  step left current c :=
    match stepTop env graph fuel [left] none (goTo current c.1) with
    | (d, none) => ((d, none), some d.run.nextNode)
    | (d, some out) => ((d, out), none)

/- No write to the store fails. -/
def Env.Stores (env : Env τ) : Prop := ∀ events key index, env.storePut events key index = none

theorem persistScoped_ok (hstores : env.Stores) (c : RunCtx τ) (key value : Bytes) :
    (persistScoped env c key value).2 = .ok () := by
  unfold persistScoped persistScopedValue
  simp only [hstores _ _ _]
  split
  · simp only
    split
    · rfl
    · rfl
  · rfl

theorem drainTop_ok (hstores : env.Stores) (pos : Pos) (name : Bytes) (c : RunCtx τ) :
    (drainTop env pos name c).2 = .ok () :=
  forEach_ok (fun _ _ _ => persistScoped_ok hstores _ _ _) _

theorem stepTop_clean (hstores : env.Stores) (fuel : ℕ) (pos : Pos) (c d : RunCtx τ) (next : Bytes)
    (node : GraphNode) (result : NodeResult) (hnode : findNode graph c.run.nextNode = some node)
    (hrun : runTopNode env graph fuel pos node none c = (d, some (.ok result))) (hgo : result.interrupted = false)
    (hnext : resolveNext graph pos { d.run.state with written := [] } node result = .ok next) :
    ∃ e : RunCtx τ, stepTop env graph fuel pos none c = (e, none) ∧ e.run.nextNode = next ∧
      e.run.state = { d.run.state with written := [] } ∧ e.visits = d.visits ∧ e.progress = d.progress := by
  have hok := drainTop_ok hstores pos node.name d
  have hdrained := drainTop_drained env pos node.name d
  rcases hdrain : drainTop env pos node.name d with ⟨e, res⟩
  rw [hdrain] at hok hdrained
  have hadv := advance_advanced env graph next e
  rw [← hdrained.state] at hnext
  refine ⟨advance env graph next e, ?_, hadv.nextNode, hadv.state.trans hdrained.state,
    hadv.visits.trans hdrained.visits, hadv.progress.trans hdrained.progress⟩
  unfold stepTop
  cases hok
  simp only [hnode, ite_self, hrun, hdrain, hgo, Bool.false_eq_true, if_false, hnext]

theorem stepTop_dirty (fuel : ℕ) (pos : Pos) (c d : RunCtx τ) (node : GraphNode)
    (res : Result NodeResult) (hnode : findNode graph c.run.nextNode = some node)
    (hrun : runTopNode env graph fuel pos node none c = (d, some res))
    (hdirty : ∀ result, res = .ok result → result.interrupted = true) :
    ∃ (e : RunCtx τ) (out : Outcome Unit), stepTop env graph fuel pos none c = (e, some out) ∧
      e.visits = d.visits ∧ out.isSome = true ∧ e.run.status ≠ .completed := by
  unfold stepTop
  simp only [hnode, ite_self, hrun]
  cases res with
  | error e => exact ⟨_, _, rfl, rfl, rfl, by simp [finish, writeCheckpoint, logRun]⟩
  | ok result =>
    have hdrained := drainTop_drained env pos node.name d
    simp only [hdirty result rfl]
    split
    · next hdrain =>
      rw [hdrain] at hdrained
      exact ⟨_, _, rfl, hdrained.visits, rfl, by simp [finish, writeCheckpoint, logRun]⟩
    · next hdrain =>
      rw [hdrain] at hdrained
      exact ⟨_, _, rfl, hdrained.visits, rfl, by simp [finish, writeCheckpoint, logRun, interruptRun]⟩

theorem runTopNode_leaf (graph : Graph) (fuel : ℕ) (pos : Pos) (node : GraphNode) (c : RunCtx τ) (chain : Chain τ)
    (res : Outcome NodeResult) (hk : node.kind ≠ .parallel)
    (h : runLeaf env (topCtx c) pos node none (emit env pos (chainOf c) .nodeStart node.name [] []) =
      (chain, res)) :
    ∃ events, runTopNode env graph fuel pos node none c = (withChain c { chain with events }, res) := by
  obtain ⟨events, hend⟩ := endNode_eq env pos node { chain with writes := [] } res
  refine ⟨events, ?_⟩
  have hstart : chainOf (withChain c (emit env pos (chainOf c) .nodeStart node.name [] [])) =
      emit env pos (chainOf c) .nodeStart node.name [] [] := rfl
  have hctx : topCtx (withChain c (emit env pos (chainOf c) .nodeStart node.name [] [])) = topCtx c := rfl
  unfold runTopNode
  simp only [if_neg hk, hstart, hctx, h]
  have hchain : chainOf (withChain (withChain c (emit env pos (chainOf c) .nodeStart node.name [] []))
      chain) = { chain with writes := [] } := rfl
  rw [hchain, hend]
  rfl

theorem topMachine_turn (hstores : env.Stores) (hedges : graph.edges = []) {c : RunCtx τ × Outcome Unit} {d : RunCtx τ}
    (hnode : findNode graph current = some node)
    (hrun : runTopNode env graph fuel [left] node none (goTo current c.1) = (d, some res))
    (hvisits : d.visits = c.1.visits ++ [visit])
    (hready : ∀ result, res = .ok result → result.interrupted = false → d.progress = none) :
    (topMachine env graph fuel).Turn left current c node visit d.run.state written res := by
  constructor
  · rintro result rfl hgo
    obtain ⟨e, hstep, hnext, hstate, hvisits', hprogress⟩ := stepTop_clean hstores fuel [left] (goTo current c.1) _ _ node _
      hnode hrun hgo (resolve_without_edges hedges _ _ _ _)
    refine ⟨(e, none), hvisits'.trans hvisits, ?_, hprogress.trans (hready result rfl hgo), hstate, fun _ _ => trivial⟩
    simp only [topMachine, hstep, hnext]
  · intro hdirty
    obtain ⟨e, out, hstep, hvisits', hstatus⟩ := stepTop_dirty fuel [left] (goTo current c.1) _ node res hnode hrun hdirty
    exact ⟨(e, out), hvisits'.trans hvisits, by simp only [topMachine, hstep], hstatus⟩

theorem joinTop_close (hstores : env.Stores) {branches : List (Branch τ)} {c : RunCtx τ}
    {res : Result (NodeResult × List (Bytes × Bytes))}
    (hclose : closeFanOut node branches (chainOf c) =
      ({ absorb node branches (chainOf c) with state := state' }, some res)) :
    ∃ d : RunCtx τ, joinTop env node branches c = (d, some (res.map Prod.fst)) ∧ d.run.state = state' ∧
      d.visits = c.visits ++ [.mk node.name (branches.map fun b => b.chain.visits)] ∧
      ∀ result, res.map Prod.fst = .ok result → result.interrupted = false → d.progress = none := by
  unfold joinTop
  cases res with
  | error e =>
    simp only [hclose]
    exact ⟨_, rfl, rfl, rfl, nofun⟩
  | ok r =>
    obtain ⟨result, merged⟩ := r
    simp only [hclose]
    split
    · next hint =>
      refine ⟨_, rfl, rfl, rfl, ?_⟩
      rintro _ ⟨⟩ hgo
      cases hint.symm.trans hgo
    · have hok : ∀ d : RunCtx τ, (forEach (mergeKey env) merged d).2 = .ok () :=
        forEach_ok fun _ _ _ => persistScoped_ok hstores _ _ _
      split
      · next heq =>
        have hfail := hok (withChain c { absorb node branches (chainOf c) with state := c.run.state })
        rw [show forEach _ _ _ = _ from heq] at hfail
        cases hfail
      · exact ⟨_, rfl, rfl, rfl, fun _ _ _ => rfl⟩

theorem runTopNode_parallel (env : Env τ) (graph : Graph) (fuel : ℕ) (pos : Pos) (node : GraphNode) (c : RunCtx τ)
    (hk : node.kind = .parallel) (hc : c.progress = none) :
    ∃ (ctx : ChainCtx) (d : RunCtx τ), d.run.state = c.run.state ∧ d.visits = c.visits ∧
      ∀ e res, joinTop env node (nestedBranches env graph (runNode env graph fuel ctx) pos node
          c.run.state.values) d = (e, res) →
        ∃ events, runTopNode env graph fuel pos node none c = (withChain e { chainOf e with events }, res) := by
  let start := withChain c (emit env pos (chainOf c) .nodeStart node.name [] [])
  let ctx := (topCtx c).branch c.run.state.histories
  let branches := nestedBranches env graph (runNode env graph fuel ctx) pos node c.run.state.values
  obtain ⟨⟨_, hsaved⟩, hvisits⟩ := saveBranches_saved env graph pos (freshProgress node) branches start
  refine ⟨ctx, saveBranches env graph pos (freshProgress node) branches start, by rw [hsaved]; rfl, hvisits, ?_⟩
  intro e res hjoin
  obtain ⟨events, hend⟩ := endNode_eq env pos node (chainOf e) res
  refine ⟨events, ?_⟩
  have hopen : openProgress node start.progress = freshProgress node := by
    change openProgress node c.progress = _
    rw [hc]
    rfl
  have hpar : runTopParallel env graph fuel pos node start = (e, res) := by
    unfold runTopParallel
    simp only [hopen, trackedBranches_fresh]
    exact hjoin
  unfold runTopNode
  simp only [if_pos hk]
  rw [hpar]
  simp only [hend]

theorem topMachine_faithful (hstores : env.Stores) (hedges : graph.edges = []) (fuel : ℕ) :
    (topMachine env graph fuel).Faithful env graph (fuel + 1) := by
  refine ChainMachine.Turns.faithful ⟨fun left current c node hnode hk hready => ?_, ?_⟩
  · refine ⟨topCtx (goTo current c.1), [left], emit env [left] (chainOf (goTo current c.1)) .nodeStart node.name [] [],
      rfl, fun state' res hleaf => ?_⟩
    obtain ⟨events, hrun⟩ := runTopNode_leaf graph fuel [left] node (goTo current c.1) _ _ hk hleaf
    exact topMachine_turn hstores hedges hnode hrun rfl fun _ _ _ => hready
  · intro inner left current c node hinner hnode hk hready
    obtain rfl : inner = fuel := by omega
    obtain ⟨ctx, d, hstate, hvisits, hjoin⟩ := runTopNode_parallel env graph inner [left] node (goTo current c.1) hk hready
    refine ⟨ctx, [left], ?_⟩
    rintro branches rfl
    refine ⟨chainOf d, hstate, fun state' res _ hclose => ?_⟩
    obtain ⟨e, htop, rfl, hvisits', hprogress⟩ := joinTop_close hstores hclose
    obtain ⟨events, hrun⟩ := hjoin e _ htop
    rw [hvisits] at hvisits'
    exact topMachine_turn (d := withChain e { chainOf e with events }) hstores hedges hnode hrun hvisits' hprogress

end Chains

end AgentCpp
