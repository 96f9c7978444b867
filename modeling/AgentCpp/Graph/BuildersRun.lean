import AgentCpp.Graph.ChainMachine
import AgentCpp.Lib.JsonReader

/-!
# Composed graphs run as their expressions say

By induction over the expression: a chain that enters the graph of `e` leaves it again where
`e` was pointed, with the state the structural semantics gives.
-/

namespace AgentCpp
open Lib List

def goal (target : Bytes) : Bytes := if target = [] then graphEnd else target

theorem leaveTo_graphEnd (node : GraphNode) : leaveTo node graphEnd = goal node.exitTo := by
  unfold leaveTo goal
  by_cases h : node.exitTo = []
  · rw [if_neg (fun hboth => hboth.2 h), if_pos h]
  · rw [if_pos ⟨rfl, h⟩, if_neg h]

theorem goal_of_ne {target : Bytes} (h : target ≠ []) : goal target = target := if_neg h

def Work.Clear (w : Work) : Prop := ∀ key ∈ w.writes, isLoopKey key = false

theorem Work.clear_copy (w : Work) : w.copy.Clear := fun _ h => h.elim

variable {w : Work}

theorem Work.Clear.after {f : Pos → GraphState → GraphState × Result Unit} {pos : Pos}
    (h : w.Clear) (hf : CounterFree f) : (w.after (f pos w.state).1).Clear := by
  intro key hkey
  rcases hkey with hkey | hkey
  · exact h key hkey
  · rcases hf.not_counter pos w.state key hkey with hmem | hmem
    · cases hmem
    · exact hmem

theorem Work.Joins.clear {w' : Work} {results : List Work} (h : w.Joins results w') (hw : w.Clear)
    (hresults : ∀ r ∈ results, r.Clear) : w'.Clear := by
  intro key hkey
  rcases (h.writes key).1 hkey with hkey | ⟨r, hr, hkey, -⟩
  · exact hw key hkey
  · exact hresults r hr key hkey

namespace ChainMachine

variable {M : ChainMachine}

/- The chain comes from `current` to `target` within `n` steps or stops, as `out` says, left with
`counters`. -/
def Lands (M : ChainMachine) (left : ℕ) (current : Bytes) (s : M.Config) (target : Bytes) (n : ℕ)
    (counters : Bytes → Option Bytes) : Option Work → List Visit → Prop
  | some w', visits => ∃ left' s', M.Reach left current s left' target s' ∧ left ≤ left' + n ∧
      M.Views s' w' ∧ w'.Clear ∧ (∀ key, isLoopKey key → (M.state s').values[key]? = counters key) ∧
      M.visits s' = M.visits s ++ visits
  | none, visits => ∃ s', M.Halts left current s s' ∧ M.visits s' = M.visits s ++ visits

variable {left n' : ℕ} {current : Bytes} {s s' : M.Config} {out : Option Work} {visits : List Visit}

variable {n : ℕ} {target : Bytes} {counters : Bytes → Option Bytes}

theorem Lands.mono (h : M.Lands left current s target n counters out visits) (hn : n ≤ n') :
    M.Lands left current s target n' counters out visits := by
  cases out with
  | none => exact h
  | some w' =>
    obtain ⟨left', s', hreach, hleft, hrest⟩ := h
    exact ⟨left', s', hreach, by omega, hrest⟩

theorem Lands.congr {counters' : Bytes → Option Bytes} (h : M.Lands left current s target n counters out visits)
    (hc : ∀ key, isLoopKey key → counters key = counters' key) :
    M.Lands left current s target n counters' out visits := by
  cases out with
  | none => exact h
  | some w' =>
    obtain ⟨left', s', hreach, hleft, hviews, hclear, hcounters, hvisits⟩ := h
    exact ⟨left', s', hreach, hleft, hviews, hclear,
      fun key hkey => (hcounters key hkey).trans (hc key hkey), hvisits⟩

theorem Lands.after {left' k : ℕ} {mid : Bytes}
    {before : List Visit} (hreach : M.Reach left current s left' mid s') (hleft : left ≤ left' + k)
    (hvisits : M.visits s' = M.visits s ++ before) (h : M.Lands left' mid s' target n counters out visits) :
    M.Lands left current s target (k + n) counters out (before ++ visits) := by
  cases out with
  | none =>
    obtain ⟨t, hhalts, ht⟩ := h
    refine ⟨t, hreach.halts hhalts, ?_⟩
    rw [ht, hvisits, append_assoc]
  | some w' =>
    obtain ⟨left'', t, hreach', hleft', hviews, hclear, hcounters, ht⟩ := h
    refine ⟨left'', t, hreach.trans hreach', by omega, hviews, hclear, hcounters, ?_⟩
    rw [ht, hvisits, append_assoc]

theorem lands_stop (hgo : M.stops current = false) (hstep : M.step left current s = (s', none)) (hstop : M.Stopped s')
    (hvisits : M.visits s' = M.visits s ++ visits) : M.Lands (left + 1) current s target n counters none visits :=
  ⟨s', ⟨left, current, s, .refl, hgo, hstep, hstop⟩, hvisits⟩

theorem reach_one {next : Bytes} (hgo : M.stops current = false)
    (hstep : M.step left current s = (s', some next)) : M.Reach (left + 1) current s left next s' :=
  .step hgo hstep .refl

/- Enough steps and a clean start make the chain do what `R` says. -/
def Performs (M : ChainMachine) (n : ℕ) (names : List Bytes) (entry target : Bytes)
    (R : Work → Option Work → List Visit → Prop) : Prop :=
  ∀ left s w, n ≤ left → M.Views s w → w.Clear →
    (∀ name ∈ names, (M.state s).values[loopKey name]? = none) →
    ∃ out visits, R w out visits ∧
      M.Lands left entry s target n (fun key => (M.state s).values[key]?) out visits

theorem Performs.mono {names : List Bytes} {entry : Bytes}
    {R : Work → Option Work → List Visit → Prop} (h : M.Performs n names entry target R) (hn : n ≤ n') :
    M.Performs n' names entry target R := by
  intro left s w hleft hviews hclear hnames
  obtain ⟨out, visits, hruns, hlands⟩ := h left s w (by omega) hviews hclear hnames
  exact ⟨out, visits, hruns, hlands.mono hn⟩

structure Hosts {τ : Type} (M : ChainMachine) (env : Env τ) (graph : Graph) (fuel n : ℕ) : Prop where
  faithful : M.Faithful env graph fuel
  edges : graph.edges = []
  distinct : (graph.nodes.map GraphNode.name).Nodup
  nesting : n ≤ fuel
  steps : n ≤ graph.maxSteps.toNat

theorem Hosts.mono {τ : Type} {env : Env τ} {graph : Graph} {fuel : ℕ} (h : M.Hosts env graph fuel n')
    (hn : n ≤ n') : M.Hosts env graph fuel n :=
  ⟨h.faithful, h.edges, h.distinct, by have := h.nesting; omega, by have := h.steps; omega⟩

end ChainMachine

section Realised

variable {τ : Type} (env : Env τ)

/- Wherever it is embedded, what is entered at `entry` does what `R` says. -/
def Realises (n : ℕ) (names : List Bytes) (entry : Bytes) (embedded : Graph → Bytes → Prop)
    (R : Work → Option Work → List Visit → Prop) : Prop :=
  ∀ (graph : Graph) (fuel : ℕ) (M : ChainMachine) (target : Bytes), M.Hosts env graph fuel n →
    (∀ name ∈ names, M.stops name = false) → embedded graph target → M.Performs n names entry (goal target) R

def Workflow.RealisedIn (n : ℕ) (e : Workflow) : Prop :=
  Realises env n e.names e.graph.entry (Embeds · e ·) (Runs e)

def Workflow.Realised (e : Workflow) : Prop := ∃ n, e.RealisedIn env n

variable {env}

theorem realised_leaf {name : Bytes} {f : Pos → GraphState → GraphState × Result Unit}
    (hf : CounterFree f) : (Workflow.leaf name f).Realised env := by
  refine ⟨1, ?_⟩
  intro graph fuel M target hosts hstops hembeds left s w hleft hviews hclear _
  obtain ⟨left, rfl⟩ : ∃ k, left = k + 1 := ⟨left - 1, by omega⟩
  have hnode := findNode_of_mem graph _ (embeds_leaf hembeds) hosts.distinct
  have hgo : M.stops name = false := hstops name (mem_singleton.2 rfl)
  obtain ⟨pos, s', hvisits, hclean, hdirty⟩ := hosts.faithful.function_step left name s _ f w hgo hnode
    rfl rfl hf hviews
  by_cases hc : ChainMachine.Clean (f pos w.state)
  · obtain ⟨hstep, hviews', hcounters⟩ := hclean hc
    rw [leaveTo_graphEnd] at hstep
    exact ⟨_, _, Runs.leaf pos hc.1 hc.2, left, s', ChainMachine.reach_one hgo hstep, le_refl _, hviews',
      hclear.after hf, hcounters, hvisits⟩
  · obtain ⟨hstep, hstop⟩ := hdirty hc
    exact ⟨_, _, Runs.leafStops pos hc, ChainMachine.lands_stop hgo hstep hstop hvisits⟩

theorem realised_steps (name : Bytes) (steps : List Workflow) (hne : steps ≠ [])
    (hentry : ∀ s ∈ steps, s.graph.entry ≠ []) (h : ∀ s ∈ steps, s.Realised env) :
    ∃ n, Realises env n (steps.flatMap Workflow.names) ((steps.head?.map fun s => s.graph.entry).getD [])
      (Embeds · (.sequential name steps) ·) (RunsAll steps) := by
  induction steps with
  | nil => exact absurd rfl hne
  | cons e es ih =>
    obtain ⟨he, hes⟩ := forall_mem_cons.1 h
    obtain ⟨n, hn⟩ := he
    cases es with
    | nil =>
      refine ⟨n, ?_⟩
      intro graph fuel M target hosts hstops hembeds left s w hleft hviews hclear hnames
      have hflat : [e].flatMap Workflow.names = e.names := flatMap_singleton ..
      rw [hflat] at hstops hnames
      obtain ⟨out, visits, hruns, hlands⟩ := hn graph fuel M target hosts hstops
        (embeds_sequential_last hembeds) left s w hleft hviews hclear hnames
      refine ⟨out, visits, ?_, hlands⟩
      cases out with
      | none => exact .stop hruns
      | some w' =>
        have hall := RunsAll.cons hruns .nil
        rw [append_nil] at hall
        exact hall
    | cons f es =>
      have hf : f.graph.entry ≠ [] := hentry f (by simp)
      obtain ⟨m, hm⟩ := ih (by simp) (fun s hs => hentry s (mem_cons_of_mem _ hs)) hes
      refine ⟨n + m, ?_⟩
      intro graph fuel M target hosts hstops hembeds left s w hleft hviews hclear hnames
      obtain ⟨hstops₁, hstops₂⟩ := forall_mem_append.1 hstops
      obtain ⟨hnames₁, hnames₂⟩ := forall_mem_append.1 hnames
      obtain ⟨hembeds₁, hembeds₂⟩ := embeds_sequential_cons hembeds hf
      obtain ⟨out, visits, hruns, hlands⟩ := hn graph fuel M _ (hosts.mono (by omega)) hstops₁ hembeds₁
        left s w (by omega) hviews hclear hnames₁
      rw [goal_of_ne hf] at hlands
      cases out with
      | none => exact ⟨none, visits, .stop hruns, hlands⟩
      | some w' =>
        obtain ⟨left', s', hreach, hleft', hviews', hclear', hcounters, hvisits⟩ := hlands
        have hnames' : ∀ name ∈ (f :: es).flatMap Workflow.names, (M.state s').values[loopKey name]? = none := by
          intro name hname
          rw [hcounters _ (isLoopKey_loopKey name)]
          exact hnames₂ name hname
        obtain ⟨out', visits', hruns', hlands'⟩ := hm graph fuel M target (hosts.mono (by omega)) hstops₂
          hembeds₂ left' s' w' (by omega) hviews' hclear' hnames'
        refine ⟨out', visits ++ visits', .cons hruns hruns', ?_⟩
        refine (ChainMachine.Lands.after hreach hleft' hvisits hlands').congr ?_
        exact hcounters

theorem loopKey_injective {a b : Bytes} (h : loopKey a = loopKey b) : a = b :=
  append_cancel_left h

theorem loopCount_absent (name : Bytes) (state : GraphState)
    (h : state.values[loopKey name]? = none) : loopCount name state = 0 := by
  unfold loopCount getState
  rw [h]
  decide

theorem loopCount_counter (name : Bytes) (state : GraphState) (k : ℕ) (hk : k < 2 ^ 31)
    (h : state.values[loopKey name]? = some (decimalInt k)) : loopCount name state = k := by
  have htext : decimalInt k = decimal k := if_neg (by omega)
  unfold loopCount getState
  rw [h, htext, Option.getD_some, fromCharsInt_decimal _ _ hk]
  rfl

section Visit

variable {M : ChainMachine} {graph : Graph} {fuel n : ℕ} {name target : Bytes} {body : Workflow}
  {maxIterations : ℤ} {until_ : Option (Pos → GraphState → Result Bool)}
  {counters : Bytes → Option Bytes}

/- The counters between two iterations: the loop's own holds `count`, and is absent
before the first one. -/
structure Counted (state : GraphState) (name : Bytes) (counters : Bytes → Option Bytes) (count : ℕ) :
    Prop where
  own : loopCount name state = count
  others : ∀ key, isLoopKey key → key ≠ loopKey name → state.values[key]? = counters key

theorem iterates_lands (hosts : M.Hosts env graph fuel n) (hgo : M.stops name = false)
    (hnode : findNode graph name = some
      { name, kind := .loop, loopBody := body.graph.entry, maxIterations, until_, exitTo := target })
    (hmax : maxIterations < 2 ^ 31) (hu : ∀ u, until_ = some u → CounterBlind u)
    (hentry : body.graph.entry ≠ []) (hfresh : name ∉ body.names)
    (hbody : M.Performs n body.names body.graph.entry name (Runs body))
    (hown : counters (loopKey name) = none) (hnames : ∀ m ∈ body.names, counters (loopKey m) = none)
    (rest count : ℕ) (hcount : (count + rest : ℤ) = maxIterations) (left : ℕ) (s : M.Config) (w : Work)
    (hleft : rest * (n + 1) + 1 ≤ left) (hviews : M.Views s w) (hclear : w.Clear)
    (hcounted : Counted (M.state s) name counters count) :
    ∃ out visits, Iterates name body maxIterations until_ count w out visits ∧
      M.Lands left name s (goal target) (rest * (n + 1) + 1) counters out visits := by
  induction rest using Nat.strong_induction_on generalizing count left s w with
  | _ rest ih =>
    obtain ⟨left, rfl⟩ : ∃ k, left = k + 1 := ⟨left - 1, by omega⟩
    obtain ⟨pos, s', hvisits, hstep⟩ := hosts.faithful.loop_step left name s _ w hgo hnode rfl hentry hu hviews
    simp only [hcounted.own] at hstep
    cases htest : loopTest maxIterations until_ count pos w.state with
    | error e =>
      simp only [htest] at hstep
      obtain ⟨hstep, hstop⟩ := hstep
      exact ⟨none, _, .testFails pos htest, ChainMachine.lands_stop hgo hstep hstop hvisits⟩
    | ok stop =>
      rw [htest] at hstep
      cases stop with
      | true =>
        obtain ⟨hstep, hviews', hvalues⟩ := hstep
        rw [leaveTo_graphEnd] at hstep
        refine ⟨some w, _, .exits pos htest, left, s', ChainMachine.reach_one hgo hstep, by omega,
          hviews', hclear, ?_, hvisits⟩
        intro key hkey
        rw [hvalues, Table.get_erase]
        split
        · next heq => rw [← heq, hown]
        · next hne => exact hcounted.others key hkey (Ne.symm hne)
      | false =>
        obtain ⟨hstep, hviews', hvalues⟩ := hstep
        have hless : ¬maxIterations ≤ count := fun hle => by simp [loopTest, hle] at htest
        obtain ⟨rest, rfl⟩ : ∃ k, rest = k + 1 := ⟨rest - 1, by omega⟩
        have harith : (rest + 1) * (n + 1) = rest * (n + 1) + n + 1 := by ring
        have hreach := ChainMachine.reach_one hgo hstep
        have hkeep : ∀ key, isLoopKey key → key ≠ loopKey name → (M.state s').values[key]? = counters key := by
          intro key hkey hne
          rw [hvalues, Table.get_insert, if_neg (Ne.symm hne)]
          exact hcounted.others key hkey hne
        have hbodyNames : ∀ m ∈ body.names, (M.state s').values[loopKey m]? = none := by
          intro m hm
          rw [hkeep _ (isLoopKey_loopKey m) (fun h => hfresh (loopKey_injective h ▸ hm))]
          exact hnames m hm
        obtain ⟨out, visits, hruns, hlands⟩ := hbody left s' w (by omega) hviews' hclear hbodyNames
        cases out with
        | none =>
          refine ⟨none, _, .bodyStops pos htest hruns, ?_⟩
          exact (ChainMachine.Lands.after (k := 1) hreach (Nat.le_refl _) hvisits hlands)
        | some w' =>
          obtain ⟨left', s'', hreach', hleft', hviews'', hclear', hcounters', hvisits'⟩ := hlands
          have hcounted' : Counted (M.state s'') name counters (count + 1) := by
            constructor
            · refine loopCount_counter name _ (count + 1) (by omega) ?_
              rw [hcounters' _ (isLoopKey_loopKey name)]
              change (M.state s').values[loopKey name]? = _
              rw [hvalues, Table.get_insert, if_pos rfl]
              rfl
            · intro key hkey hne
              rw [hcounters' key hkey]
              exact hkeep key hkey hne
          obtain ⟨out, visits', hiter, hlands'⟩ := ih rest (Nat.lt_succ_self rest) (count + 1) (by push_cast; omega)
            left' s'' w'
            (by omega) hviews'' hclear' hcounted'
          refine ⟨out, _, .again pos htest hruns hiter, ?_⟩
          have hinner := ChainMachine.Lands.after hreach' hleft' hvisits' hlands'
          exact (ChainMachine.Lands.after (k := 1) hreach (Nat.le_refl _) hvisits hinner).mono (by omega)

end Visit

theorem realised_loop (hmin : 1 ≤ maxIterations)
    (hmax : maxIterations < 2 ^ 31) (hu : ∀ u, until_ = some u → CounterBlind u) (hname : name ≠ [])
    (hentry : body.graph.entry ≠ []) (hfresh : name ∉ body.names) (h : body.Realised env) :
    (Workflow.loop name body maxIterations until_).Realised env := by
  obtain ⟨n, hn⟩ := h
  obtain ⟨rest, hrest⟩ : ∃ k : ℕ, (k : ℤ) = maxIterations := ⟨maxIterations.toNat, by omega⟩
  have hle : n ≤ rest * (n + 1) + 1 := by
    have h1 : 1 * (n + 1) ≤ rest * (n + 1) := Nat.mul_le_mul_right _ (by omega)
    omega
  refine ⟨rest * (n + 1) + 1, ?_⟩
  intro graph fuel M target hosts hstops hembeds left s w hleft hviews hclear hnames
  rw [names_loop] at hstops hnames
  obtain ⟨hgo, hstops'⟩ := forall_mem_cons.1 hstops
  obtain ⟨hown, hnames'⟩ := forall_mem_cons.1 hnames
  obtain ⟨hmem, hembeds'⟩ := embeds_loop hembeds hname
  have hnode := findNode_of_mem graph _ hmem hosts.distinct
  have hbody := hn graph fuel M name (hosts.mono hle) hstops' hembeds'
  rw [goal_of_ne hname] at hbody
  have hcounted : Counted (M.state s) name (fun key => (M.state s).values[key]?) 0 :=
    ⟨loopCount_absent name _ hown, fun _ _ _ => rfl⟩
  obtain ⟨out, visits, hiter, hlands⟩ := iterates_lands (hosts.mono hle) hgo hnode hmax hu hentry hfresh
    hbody hown hnames' rest 0 (by push_cast; omega) left s w hleft hviews hclear hcounted
  exact ⟨out, visits, .loop hiter, hlands⟩

variable {ctx : ChainCtx} {pos : Pos} {join : Bytes} {w : Work} {bs : List (Branch τ)} {results : List Work}

variable {a : Bytes} {t : (branchMachine env graph fuel ctx pos join).Config}

theorem runBranch_reach {left' : ℕ} {b : Bytes} {s : (branchMachine env graph fuel ctx pos join).Config}
    (h : (branchMachine env graph fuel ctx pos join).Reach left a s left' b t) :
    runBranch env graph (runNode env graph fuel ctx) pos join left none a s =
      runBranch env graph (runNode env graph fuel ctx) pos join left' none b t := by
  induction h with
  | refl => rfl
  | step hgo hstep _ ih =>
    rw [runBranch_step env graph _ pos join _ none _ _ _ _ hgo hstep]
    exact ih

theorem runBranch_halts {s : (branchMachine env graph fuel ctx pos join).Config}
    (h : (branchMachine env graph fuel ctx pos join).Halts left a s t) :
    runBranch env graph (runNode env graph fuel ctx) pos join left none a s = t := by
  obtain ⟨left', at_, s', hreach, hgo, hstep, -⟩ := h
  rw [runBranch_reach hreach]
  exact runBranch_stop env graph _ pos join left' none at_ s' t hgo hstep

structure Holds (b : Branch τ) (r : Work) : Prop where
  sees : Sees b.chain.state r
  tracks : ∀ key, key ∈ r.writes ↔ key ∈ b.chain.writes
  clear : r.Clear

def Ends (b : Branch τ) : Option Work → Prop
  | some r => b.Joins ∧ Holds b r
  | none => ¬b.Joins

variable {e : Workflow} {values : Table Bytes}

theorem branch_ends {entry : Bytes} {names : List Bytes}
    (hperf : (branchMachine env graph fuel ctx pos join).Performs n names entry join (Runs e))
    (hsteps : n ≤ graph.maxSteps.toNat) (hvalues : dropCounters values = w.values)
    (hnames : ∀ name ∈ names, values[loopKey name]? = none) :
    let b := runBranch env graph (runNode env graph fuel ctx) pos join graph.maxSteps.toNat none entry
      (freshBranch values entry)
    b.returned = true ∧ ∃ out, Runs e w.copy out b.chain.visits ∧ Ends b out := by
  have hviews : (branchMachine env graph fuel ctx pos join).Views (freshBranch values entry) w.copy :=
    ⟨⟨hvalues, rfl, rfl, rfl, rfl⟩, fun _ => ⟨False.elim, nofun⟩, rfl, rfl, rfl⟩
  obtain ⟨out, visits, hruns, hlands⟩ := hperf graph.maxSteps.toNat (freshBranch values entry) w.copy
    hsteps hviews w.clear_copy hnames
  cases out with
  | none =>
    obtain ⟨b, hhalts, hvisits⟩ := hlands
    have hb : visits = b.chain.visits := hvisits.symm
    have hstopped : b.returned = true ∧ ¬b.Joins := by
      obtain ⟨-, -, -, -, -, -, hstop⟩ := hhalts
      exact hstop
    simp only [runBranch_halts hhalts]
    exact ⟨hstopped.1, none, hb ▸ hruns, hstopped.2⟩
  | some w' =>
    obtain ⟨left', b, hreach, -, ⟨hsees, htracks, hret, hjoins⟩, hclear, -, hvisits⟩ := hlands
    have hb : visits = b.chain.visits := hvisits.symm
    have hend : atEnd join join = true := by simp [atEnd]
    simp only [runBranch_reach hreach, runBranch_atEnd env graph _ pos join left' none join b hend]
    exact ⟨hret, some w', hb ▸ hruns, hjoins, hsees, htracks, hclear⟩

theorem runsEach_of_ends {es : List Workflow}
    (h : List.Forall₂ (fun e b => ∃ out, Runs e w out b.chain.visits ∧ Ends b out) es bs) :
    ∃ outs, RunsEach es w outs (bs.map fun b => b.chain.visits) ∧ List.Forall₂ Ends bs outs := by
  induction h with
  | nil => exact ⟨[], .nil, .nil⟩
  | cons hb _ ih =>
    obtain ⟨out, hruns, hends⟩ := hb
    obtain ⟨outs, heach, hrest⟩ := ih
    exact ⟨out :: outs, .cons hruns heach, .cons hends hrest⟩

theorem ends_joined {outs : List (Option Work)} (h : List.Forall₂ Ends bs outs) (hjoins : ∀ b ∈ bs, b.Joins) :
    ∃ results, outs = results.map some ∧ List.Forall₂ Holds bs results := by
  induction h with
  | nil => exact ⟨[], rfl, .nil⟩
  | @cons b out _ _ hb _ ih =>
    obtain ⟨hj, hrest⟩ := forall_mem_cons.1 hjoins
    obtain ⟨results, houts, hholds⟩ := ih hrest
    cases out with
    | none => exact absurd hj hb
    | some r => exact ⟨r :: results, by rw [houts, map_cons], .cons hb.2 hholds⟩

theorem ends_of_map_some (h : List.Forall₂ Ends bs (results.map some)) :
    (∀ b ∈ bs, b.Joins) ∧ List.Forall₂ Holds bs results := by
  rw [forall₂_map_right_iff] at h
  induction h with
  | nil => exact ⟨by simp, .nil⟩
  | cons hb _ ih => exact ⟨forall_mem_cons.2 ⟨hb.1, ih.1⟩, .cons hb.2 ih.2⟩

theorem forall₂_getElem? {α β : Type} {R : α → β → Prop} {as : List α} {bs : List β}
    (h : List.Forall₂ R as bs) (i : ℕ) : (∀ a, as[i]? = some a → ∃ b, bs[i]? = some b ∧ R a b) ∧
      ∀ b, bs[i]? = some b → ∃ a, as[i]? = some a ∧ R a b := by
  induction h generalizing i with
  | nil => simp
  | cons hab _ ih =>
    cases i with
    | zero => simpa using hab
    | succ i => simpa using ih i

theorem forall₂_mem {α β : Type} {R : α → β → Prop} {as : List α} {bs : List β} (h : List.Forall₂ R as bs) :
    (∀ a ∈ as, ∃ b ∈ bs, R a b) ∧ ∀ b ∈ bs, ∃ a ∈ as, R a b := by
  induction h with
  | nil => exact ⟨nofun, nofun⟩
  | cons hab _ ih =>
    exact ⟨forall_mem_cons.2 ⟨⟨_, mem_cons_self, hab⟩, fun a ha => (ih.1 a ha).imp fun _ => .imp_left (mem_cons_of_mem _)⟩,
      forall_mem_cons.2 ⟨⟨_, mem_cons_self, hab⟩, fun b hb => (ih.2 b hb).imp fun _ => .imp_left (mem_cons_of_mem _)⟩⟩

theorem collide_iff (h : List.Forall₂ Holds bs results) :
    Work.Collide results ↔ WritesCollide bs ∨ HistoriesCollide bs := by
  constructor
  · rintro ⟨i, j, r, q, hij, hr, hq, hboth⟩
    obtain ⟨a, ha, hholds⟩ := (forall₂_getElem? h i).2 r hr
    obtain ⟨b, hb, hholds'⟩ := (forall₂_getElem? h j).2 q hq
    rcases hboth with ⟨key, hk, hk'⟩ | ⟨name, hn, hn'⟩
    · exact Or.inl ⟨i, j, a, b, key, hij, ha, hb, (hholds.tracks key).1 hk, (hholds'.tracks key).1 hk'⟩
    · refine Or.inr ⟨i, j, a, b, name, hij, ha, hb, ?_, ?_⟩
      · rw [hholds.sees.histories]
        exact hn
      · rw [hholds'.sees.histories]
        exact hn'
  · rintro (⟨i, j, a, b, key, hij, ha, hb, hk, hk'⟩ | ⟨i, j, a, b, name, hij, ha, hb, hn, hn'⟩)
    · obtain ⟨r, hr, hholds⟩ := (forall₂_getElem? h i).1 a ha
      obtain ⟨q, hq, hholds'⟩ := (forall₂_getElem? h j).1 b hb
      exact ⟨i, j, r, q, hij, hr, hq, Or.inl ⟨key, (hholds.tracks key).2 hk, (hholds'.tracks key).2 hk'⟩⟩
    · obtain ⟨r, hr, hholds⟩ := (forall₂_getElem? h i).1 a ha
      obtain ⟨q, hq, hholds'⟩ := (forall₂_getElem? h j).1 b hb
      refine ⟨i, j, r, q, hij, hr, hq, Or.inr ⟨name, ?_, ?_⟩⟩
      · rw [← hholds.sees.histories]
        exact hn
      · rw [← hholds'.sees.histories]
        exact hn'

def Work.joined (w : Work) (state : GraphState) (merged : List (Bytes × Bytes)) : Work :=
  ⟨dropCounters state.values, state.histories, w.writes ∪ {key | ∃ value, (key, value) ∈ merged}⟩

theorem Holds.get {b : Branch τ} {r : Work} (h : Holds b r) (key : Bytes)
    (hkey : isLoopKey key = false) : r.values[key]? = b.chain.state.values[key]? := by
  rw [← h.sees.values, get_dropCounters, hkey]
  rfl

variable {state state' : GraphState} {merged : List (Bytes × Bytes)}

theorem joined_counters (h : List.Forall₂ Holds bs results) (hjoined : Joined bs state state' merged) (key : Bytes)
    (hkey : isLoopKey key) : state'.values[key]? = state.values[key]? := by
  refine hjoined.kept key fun b hb hmem => ?_
  obtain ⟨r, -, hholds⟩ := (forall₂_mem h).1 b hb
  have hclear := hholds.clear key ((hholds.tracks key).2 hmem)
  rw [hkey] at hclear
  cases hclear

theorem joined_joins
    (h : List.Forall₂ Holds bs results) (hsees : Sees state w) (hjoined : Joined bs state state' merged) :
    w.Joins results (w.joined state' merged) := by
  obtain ⟨hbranch, hresult⟩ := forall₂_mem h
  constructor
  · intro key hkey
    have hkept : state'.values[key]? = state.values[key]? := by
      refine hjoined.kept key fun b hb hmem => ?_
      obtain ⟨r, hr, hholds⟩ := hbranch b hb
      exact hkey r hr ((hholds.tracks key).2 hmem)
    rw [← hsees.values, Work.joined, get_dropCounters, get_dropCounters, hkept]
  · intro r hr key hkey
    obtain ⟨b, hb, hholds⟩ := hresult r hr
    have hclear := hholds.clear key hkey
    rw [hholds.get key hclear, ← hsees.values, Work.joined, get_dropCounters, get_dropCounters, hclear]
    exact hjoined.taken b hb key ((hholds.tracks key).1 hkey)
  · intro name hname
    rw [← hsees.histories]
    refine hjoined.histories_kept name fun b hb => ?_
    obtain ⟨r, hr, hholds⟩ := hbranch b hb
    rw [hholds.sees.histories]
    exact hname r hr
  · intro r hr name memory hmem
    obtain ⟨b, hb, hholds⟩ := hresult r hr
    refine hjoined.histories_taken b hb name memory ?_
    rw [hholds.sees.histories]
    exact hmem
  · intro key
    refine or_congr Iff.rfl ⟨?_, ?_⟩
    · rintro ⟨value, hmem⟩
      obtain ⟨b, hb, hkey, hvalue⟩ := (hjoined.merged key value).1 hmem
      obtain ⟨r, hr, hholds⟩ := hbranch b hb
      have hwritten := (hholds.tracks key).2 hkey
      refine ⟨r, hr, hwritten, ?_⟩
      rw [Std.ExtTreeMap.mem_iff_isSome_getElem?, hholds.get key (hholds.clear key hwritten), hvalue]
      rfl
    · rintro ⟨r, hr, hkey, hmem⟩
      obtain ⟨b, hb, hholds⟩ := hresult r hr
      rw [Std.ExtTreeMap.mem_iff_isSome_getElem?, hholds.get key (hholds.clear key hkey)] at hmem
      obtain ⟨value, hvalue⟩ := Option.isSome_iff_exists.1 hmem
      exact ⟨value, (hjoined.merged key value).2 ⟨b, hb, (hholds.tracks key).1 hkey, hvalue⟩⟩

variable {branches : List Workflow}

theorem nestedBranches_ends {inner : ℕ} (pos : Pos) (node : GraphNode)
    (hbranches : node.branches = branches.map fun b => b.graph.entry) (hname : node.name = name)
    (hperf : ∀ b ∈ branches, ∀ pos, (branchMachine env graph inner ctx pos name).Performs n b.names b.graph.entry name
      (Runs b))
    (hsteps : n ≤ graph.maxSteps.toNat) (hvalues : dropCounters values = w.values)
    (hnames : ∀ b ∈ branches, ∀ m ∈ b.names, values[loopKey m]? = none) :
    List.Forall₂ (fun e b => b.returned = true ∧ ∃ out, Runs e w.copy out b.chain.visits ∧ Ends b out) branches
      (nestedBranches env graph (runNode env graph inner ctx) pos node values) := by
  refine forall₂_iff_get.2 ⟨?_, fun i hi hi' => ?_⟩
  · rw [nestedBranches_length, hbranches, length_map]
  · have hmem := getElem_mem hi
    have hends := branch_ends (hperf _ hmem (i :: pos)) hsteps hvalues (hnames _ hmem)
    simp only [nestedBranches, get_eq_getElem, getElem_mapIdx, hbranches, getElem_map, hname]
    exact hends

theorem exists_bound {α : Type} (P : α → ℕ → Prop) (hmono : ∀ a n n', P a n → n ≤ n' → P a n')
    (as : List α) (h : ∀ a ∈ as, ∃ n, P a n) : ∃ n, ∀ a ∈ as, P a n := by
  induction as with
  | nil => exact ⟨0, by simp⟩
  | cons a as ih =>
    obtain ⟨⟨n, hn⟩, has⟩ := forall_mem_cons.1 h
    obtain ⟨m, hm⟩ := ih has
    refine ⟨max n m, forall_mem_cons.2 ⟨hmono a n _ hn (le_max_left _ _), ?_⟩⟩
    intro b hb
    exact hmono b m _ (hm b hb) (le_max_right _ _)

theorem realised_parallel (hname : name ≠ []) (hproper : ∀ b ∈ branches, ∀ m ∈ b.names, m ≠ graphEnd ∧ m ≠ name)
    (h : ∀ b ∈ branches, b.Realised env) : (Workflow.parallel name branches).Realised env := by
  -- one bound for all branches
  obtain ⟨n, hn⟩ := exists_bound (fun (b : Workflow) n => b.RealisedIn env n)
    (fun b n n' hn hle graph fuel M target hosts hstops hembeds =>
      (hn graph fuel M target (hosts.mono hle) hstops hembeds).mono hle) branches h
  refine ⟨n + 1, ?_⟩
  intro graph fuel M target hosts hstops hembeds left s w hleft hviews hclear hnames
  rw [names_parallel] at hstops hnames
  obtain ⟨hgo, -⟩ := forall_mem_cons.1 hstops
  obtain ⟨-, hnames'⟩ := forall_mem_cons.1 hnames
  obtain ⟨hmem, hembeds'⟩ := embeds_parallel hembeds hname
  have hnode := findNode_of_mem graph _ hmem hosts.distinct
  obtain ⟨left, rfl⟩ : ∃ k, left = k + 1 := ⟨left - 1, by omega⟩
  obtain ⟨inner, rfl⟩ : ∃ k, fuel = k + 1 := ⟨fuel - 1, by have := hosts.nesting; omega⟩
  obtain ⟨ctx, pos, hpar⟩ := hosts.faithful.parallel_step inner left name s _ w rfl hgo hnode rfl hviews
  have hperf : ∀ b ∈ branches, ∀ pos, (branchMachine env graph inner ctx pos name).Performs n b.names
      b.graph.entry name (Runs b) := by
    intro b hb pos
    have hhosts : (branchMachine env graph inner ctx pos name).Hosts env graph inner n :=
      ⟨branchMachine_faithful hosts.edges inner ctx pos name, hosts.edges, hosts.distinct,
        by have := hosts.nesting; omega, by have := hosts.steps; omega⟩
    have hgoes := hn b hb graph inner _ name hhosts ?_ (hembeds' b hb)
    · rw [goal_of_ne hname] at hgoes
      exact hgoes
    · intro m hm
      obtain ⟨h1, h2⟩ := hproper b hb m hm
      simp [branchMachine, atEnd, h1, h2]
  have hall := nestedBranches_ends pos
    { name, kind := .parallel, branches := branches.map fun b => b.graph.entry, exitTo := target }
    rfl rfl hperf (by have := hosts.steps; omega) hviews.sees.values
    (fun b hb m hm => hnames' m (mem_flatMap.2 ⟨b, hb, hm⟩))
  generalize hbs : nestedBranches env graph (runNode env graph inner ctx) pos _ (M.state s).values = bs at hall
  obtain ⟨outs, heach, houts⟩ := runsEach_of_ends (hall.imp fun _ _ => And.right)
  obtain ⟨s', hvisits, hok, hbad⟩ := hpar bs hbs.symm fun b hb => by
    obtain ⟨e, -, hret, -⟩ := (forall₂_mem hall).2 b hb
    exact hret
  rw [entry_parallel]
  by_cases hfan : FanOutOk bs
  · obtain ⟨hstep, hready, merged, hjoined, htracks⟩ := hok hfan
    rw [leaveTo_graphEnd] at hstep
    obtain ⟨results, rfl, hholds⟩ := ends_joined houts hfan.joins
    have hjoins := joined_joins hholds hviews.sees hjoined
    have hapart : ¬Work.Collide results := by
      rw [collide_iff hholds]
      exact not_or.2 ⟨hfan.writes, hfan.histories⟩
    refine ⟨some _, _, .parallel heach hapart hjoins, left, s', ChainMachine.reach_one hgo hstep, by omega,
      ⟨⟨rfl, rfl, ?_, ?_, ?_⟩, htracks, hready⟩, ?_, ?_, hvisits⟩
    · exact hjoined.rest.1.trans hviews.sees.written
    · exact hjoined.rest.2.1.trans hviews.sees.requested
    · exact hjoined.rest.2.2.trans hviews.sees.reason
    · refine hjoins.clear hclear fun r hr => ?_
      obtain ⟨b, -, hb⟩ := (forall₂_mem hholds).2 r hr
      exact hb.clear
    · exact joined_counters hholds hjoined
  · obtain ⟨hstep, hstop⟩ := hbad hfan
    refine ⟨none, _, .parallelStops heach ?_, ChainMachine.lands_stop hgo hstep hstop hvisits⟩
    rintro results rfl
    obtain ⟨hjoins, hholds⟩ := ends_of_map_some houts
    rw [collide_iff hholds]
    by_contra hnone
    exact hfan ⟨hjoins, fun h => hnone (Or.inl h), fun h => hnone (Or.inr h)⟩

theorem realised (h : e.Proper) (hnames : e.Named) : e.Realised env := by
  induction h with
  | leaf hf => exact realised_leaf hf
  | @sequential name steps hne hsteps ih =>
    have hsub : ∀ s ∈ steps, s.Named := by
      intro s hs
      have hd := hnames.distinct
      have hp := hnames.proper
      rw [names_sequential] at hd hp
      exact ⟨(nodup_flatMap.1 hd).1 s hs, fun m hm => hp m (mem_flatMap.2 ⟨s, hs, hm⟩)⟩
    obtain ⟨n, hn⟩ := realised_steps name steps hne
      (fun s hs => ((hsub s hs).proper _ (entry_mem_names (hsteps s hs))).1) (fun s hs => ih s hs (hsub s hs))
    refine ⟨n, ?_⟩
    intro graph fuel M target hosts hstops hembeds left s w hleft hviews hclear habsent
    rw [names_sequential] at hstops habsent
    obtain ⟨out, visits, hruns, hlands⟩ := hn graph fuel M target hosts hstops hembeds left s w hleft
      hviews hclear habsent
    refine ⟨out, visits, .sequential hruns, ?_⟩
    rw [entry_sequential]
    exact hlands
  | @parallel name branches hne hbranches ih =>
    have hd := hnames.distinct
    have hp := hnames.proper
    rw [names_parallel] at hd hp
    obtain ⟨hname, hp⟩ := forall_mem_cons.1 hp
    obtain ⟨hfresh, hd⟩ := nodup_cons.1 hd
    refine realised_parallel hname.1 ?_ ?_
    · intro b hb m hm
      have hmem := mem_flatMap.2 ⟨b, hb, hm⟩
      exact ⟨(hp m hmem).2, fun h => hfresh (h ▸ hmem)⟩
    · intro b hb
      exact ih b hb ⟨(nodup_flatMap.1 hd).1 b hb, fun m hm => hp m (mem_flatMap.2 ⟨b, hb, hm⟩)⟩
  | @loop name body maxIterations until_ hmin hmax hu hbody ih =>
    have hd := hnames.distinct
    have hp := hnames.proper
    rw [names_loop] at hd hp
    obtain ⟨hname, hp⟩ := forall_mem_cons.1 hp
    obtain ⟨hfresh, hd⟩ := nodup_cons.1 hd
    exact realised_loop hmin hmax hu hname.1 (hp _ (entry_mem_names hbody)).1 hfresh (ih ⟨hd, hp⟩)

end Realised

section Call

variable {τ : Type} {env : Env τ} {graph : Graph} {fuel : ℕ}

variable {c c' : RunCtx τ × Outcome Unit}

theorem topMachine_step_some {next : Bytes} (h : (topMachine env graph fuel).step left current c = (c', some next)) :
    stepTop env graph fuel [left] none (goTo current c.1) = (c'.1, none) ∧ goTo next c'.1 = c'.1 := by
  unfold topMachine at h
  simp only at h
  split at h
  · next d hstep =>
    cases h
    exact ⟨hstep, rfl⟩
  · cases h

theorem topMachine_step_none (h : (topMachine env graph fuel).step left current c = (c', none)) :
    stepTop env graph fuel [left] none (goTo current c.1) = (c'.1, some c'.2) := by
  unfold topMachine at h
  simp only at h
  split at h
  · cases h
  · next hstep =>
    cases h
    exact hstep

theorem topMachine_goes (h : (topMachine env graph fuel).stops current = false) : current ≠ graphEnd := by
  rintro rfl
  simp [topMachine, atEnd] at h

variable {a : Bytes} {t : (topMachine env graph fuel).Config}

theorem driveLoop_reach {left' : ℕ} {b : Bytes} {s : (topMachine env graph fuel).Config}
    (h : (topMachine env graph fuel).Reach left a s left' b t) : driveLoop env graph fuel left none (goTo a s.1) =
      driveLoop env graph fuel left' none (goTo b t.1) := by
  induction h with
  | refl => rfl
  | step hgo hstep _ ih =>
    obtain ⟨htop, hnext⟩ := topMachine_step_some hstep
    rw [driveLoop_step env graph fuel _ none _ _ (topMachine_goes hgo) htop, ← hnext]
    exact ih

theorem driveLoop_halts {s : (topMachine env graph fuel).Config}
    (h : (topMachine env graph fuel).Halts left a s t) : driveLoop env graph fuel left none (goTo a s.1) = t := by
  obtain ⟨left', at_, s', hreach, hgo, hstep, -⟩ := h
  rw [driveLoop_reach hreach, driveLoop_stop env graph fuel left' none _ _ _ (topMachine_goes hgo)
    (topMachine_step_none hstep)]
  rfl

theorem dropCounters_dropTemp (values : Table Bytes) :
    dropCounters (dropTemp values) = dropTemp (dropCounters values) := by
  apply Table.ext
  intro key
  rw [get_dropCounters, get_dropTemp, get_dropTemp, get_dropCounters]
  cases isLoopKey key <;> cases isTempKey key <;> rfl

end Call

def Workflow.flat (e : Workflow) (steps : ℤ) : Graph := { e.graph with maxSteps := steps }

def startWork (state : GraphState) : Work := ⟨dropCounters state.values, state.histories, ∅⟩

def EndsAs {τ : Type} (r : RunCtx τ × Outcome Unit) : Option Work → Prop
  | some w => r.2 = some (.ok ()) ∧ r.1.run.status = .completed ∧
      dropCounters r.1.run.state.values = dropTemp w.values ∧ r.1.run.state.histories = w.histories
  | none => r.2.isSome = true ∧ r.1.run.status ≠ .completed

theorem driveLoop_workflow (env : Env τ) (hstores : env.Stores) (e : Workflow) (hproper : e.Proper) (hnamed : e.Named) :
    ∃ n : ℕ, ∀ (steps : ℤ) (fuel : ℕ) (c : RunCtx τ), n ≤ steps → n ≤ fuel → c.progress = none →
      c.run.nextNode = e.graph.entry → Sees c.run.state (startWork c.run.state) →
      (∀ name ∈ e.names, c.run.state.values[loopKey name]? = none) →
      ∃ out visits, Runs e (startWork c.run.state) out visits ∧
        (driveLoop env (e.flat steps) fuel steps.toNat none c).1.visits = c.visits ++ visits ∧
        EndsAs (driveLoop env (e.flat steps) fuel steps.toNat none c) out := by
  obtain ⟨n, hn⟩ : e.Realised env := realised hproper hnamed
  refine ⟨n, ?_⟩
  intro steps fuel c hsteps hfuel hprogress hnext hsees hcounters
  have hedges : (e.flat steps).edges = [] := edges_eq_nil hproper
  have hhosts : (topMachine env (e.flat steps) fuel).Hosts env (e.flat steps) (fuel + 1) n :=
    ⟨topMachine_faithful hstores hedges fuel, hedges, hnamed.distinct, by omega, by change n ≤ steps.toNat; omega⟩
  have hstops : ∀ name ∈ e.names, (topMachine env (e.flat steps) fuel).stops name = false := by
    intro name hname
    simp [topMachine, atEnd, (hnamed.proper name hname).2]
  have hviews : (topMachine env (e.flat steps) fuel).Views (c, none) (startWork c.run.state) :=
    ⟨hsees, trivial, hprogress⟩
  have hclear : (startWork c.run.state).Clear := fun _ h => h.elim
  obtain ⟨out, visits, hruns, hlands⟩ := hn _ _ _ [] hhosts hstops (embeds_self e steps) steps.toNat
    (c, none) _ (by omega) hviews hclear hcounters
  have hstart : goTo e.graph.entry c = c := by
    unfold goTo
    rw [← hnext]
  refine ⟨out, visits, hruns, ?_⟩
  cases out with
  | none =>
    obtain ⟨d, hhalts, hvisits⟩ := hlands
    have hrun := driveLoop_halts hhalts
    simp only [hstart] at hrun
    rw [hrun]
    obtain ⟨-, -, -, -, -, -, hstop⟩ := hhalts
    exact ⟨hvisits, hstop⟩
  | some w =>
    obtain ⟨left', d, hreach, -, ⟨hsees', -, -⟩, -, -, hvisits⟩ := hlands
    have hrun := driveLoop_reach hreach
    have hend : (goTo (goal []) d.1).run.nextNode = graphEnd := rfl
    rw [driveLoop_atEnd env _ fuel left' none _ hend] at hrun
    simp only [hstart] at hrun
    rw [hrun]
    refine ⟨hvisits, rfl, rfl, ?_, hsees'.histories⟩
    change dropCounters (dropTemp d.1.run.state.values) = _
    rw [dropCounters_dropTemp, ← hsees'.values]
    rfl

def setLeaf (name key value : Bytes) : Workflow :=
  .leaf name fun _ state => (setState state key value, .ok ())

theorem counterFree_setState (key value : Bytes) (h : isLoopKey key = false) :
    CounterFree fun _ state => (setState state key value, .ok ()) where
  result := fun _ _ => rfl
  values := by
    intro _ state
    apply Table.ext
    intro k
    simp only [setState, GraphState.withoutCounters]
    rw [get_dropCounters, Table.get_insert, Table.get_insert, get_dropCounters]
    by_cases hk : key = k
    · subst hk
      simp [h]
    · simp [hk]
  counters := by
    intro _ state k hk
    simp only [setState]
    rw [Table.get_insert, if_neg]
    rintro rfl
    rw [h] at hk
    cases hk
  histories := fun _ _ => rfl
  written := fun _ _ => rfl
  not_counter := by
    intro _ state k hk
    rcases mem_append.1 hk with hk | hk
    · exact Or.inl hk
    · exact Or.inr (by rw [mem_singleton.1 hk]; exact h)
  interrupt := fun _ _ => rfl

def sampleWorkflow : Workflow :=
  .sequential (lit "flow") [setLeaf (lit "first") (lit "a") (lit "1"),
    .loop (lit "again") (.parallel (lit "both")
      [setLeaf (lit "left") (lit "x") (lit "2"), setLeaf (lit "right") (lit "y") (lit "3")]) 2 none]

theorem sampleWorkflow_proper : sampleWorkflow.Proper := by
  have hset : ∀ name key value, isLoopKey key = false → (setLeaf name key value).Proper :=
    fun _ key value h => .leaf (counterFree_setState key value h)
  refine .sequential (by simp) ?_
  simp only [forall_mem_cons, not_mem_nil, false_implies, implies_true, and_true]
  refine ⟨hset _ _ _ (by decide), .loop (by decide) (by decide) (by simp) (.parallel (by simp) ?_)⟩
  simp only [forall_mem_cons, not_mem_nil, false_implies, implies_true, and_true]
  exact ⟨hset _ _ _ (by decide), hset _ _ _ (by decide)⟩

theorem sampleWorkflow_named : sampleWorkflow.Named := ⟨by decide, by decide⟩

def failingLoop : Workflow :=
  .loop (lit "l") (.leaf (lit "body") fun _ state => (state, fail .networkError (lit "body failed"))) 1 none

theorem failingLoop_proper : failingLoop.Proper :=
  .loop (by decide) (by decide) (by simp) (.leaf
    { result := fun _ _ => rfl, values := fun _ _ => rfl, counters := fun _ _ _ _ => rfl, histories := fun _ _ => rfl
      written := fun _ _ => rfl, not_counter := fun _ _ _ hk => Or.inl hk, interrupt := fun _ _ => rfl })

theorem failingLoop_runs_body {w : Work} {out : Option Work} {visits : List Visit} (h : Runs failingLoop w out visits) :
    2 ≤ visits.length := by
  cases h with
  | loop h =>
    cases h with
    | exits pos h => cases h
    | testFails pos h => cases h
    | again pos h hbody hrest =>
      cases hbody with
      | leaf pos hok hgo => cases hok
    | bodyStops pos h hbody =>
      cases hbody
      simp

/- The caller runs the graph again with the `GraphRun` of a run that failed in the body. -/
def firstCall : RunCtx Unit × Outcome Unit := runGraph quietEnv (failingLoop.flat 10) JsonReader.parser 0 {} {}

def secondCall : RunCtx Unit × Outcome Unit :=
  runGraph quietEnv (failingLoop.flat 10) JsonReader.parser 0 firstCall.1.world firstCall.1.run

end AgentCpp
