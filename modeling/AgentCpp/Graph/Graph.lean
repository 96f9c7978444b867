import AgentCpp.Graph.State

/-!
# Graphs and their validation (`agent.hpp`, `graph_executor.cpp`)

A callback is a function of the state it reads and of the `Pos` of its invocation, which no
two invocations share.
-/

namespace AgentCpp
open Lib List Option

/- The place of a node execution in a call: the step in its chain, the branch, the step of the
fan-out and so on, innermost first. -/
abbrev Pos := List ℕ

inductive GraphNodeKind where
  | agent
  | function
  | tool
  | parallel
  | loop
  deriving DecidableEq, Repr

/- Tool hooks are observers and are left out. -/
structure GraphNode where
  name : Bytes
  kind : GraphNodeKind := .function
  systemPrompt : Bytes := []
  allowedTools : List Bytes := []
  prompt : Bytes := []
  inputKey : Bytes := []
  outputKey : Bytes := []
  interruptBeforeTools : Bool := false
  historyKey : Bytes := []
  contextProvider : Option (Pos → GraphState → Result Bytes) := none
  model : Bytes := []
  function : Option (Pos → GraphState → GraphState × Result Unit) := none
  toolName : Bytes := []
  toolArgs : Option (Pos → GraphState → Result Bytes) := none
  branches : List Bytes := []
  loopBody : Bytes := []
  maxIterations : ℤ := 1
  until_ : Option (Pos → GraphState → Result Bool) := none
  exitTo : Bytes := []

structure GraphEdge where
  src : Bytes
  dst : Bytes := []
  router : Option (Pos → GraphState → Result Bytes) := none

structure Graph where
  name : Bytes := []
  entry : Bytes := []
  nodes : List GraphNode := []
  edges : List GraphEdge := []
  maxSteps : ℤ := 1000

def findNode (graph : Graph) (name : Bytes) : Option GraphNode :=
  graph.nodes.find? fun node => node.name = name

def findEdge (graph : Graph) (src : Bytes) : Option GraphEdge :=
  graph.edges.find? fun edge => edge.src = src

def invalid (graph : Graph) (message : Bytes) : Result Unit :=
  fail .invalidConfig (lit "graph '" ++ graph.name ++ lit "': " ++ message)

/- The checks of one node that depend on its kind. -/
def validateKind (graph : Graph) (node : GraphNode) : Result Unit :=
  match node.kind with
  | .agent => .ok ()
  | .function =>
    if node.function.isNone then
      invalid graph (lit "function node '" ++ node.name ++ lit "' has no function")
    else .ok ()
  | .tool =>
    if node.toolName = [] then
      invalid graph (lit "tool node '" ++ node.name ++ lit "' has no tool_name")
    else .ok ()
  | .parallel =>
    if node.branches = [] then
      invalid graph (lit "parallel node '" ++ node.name ++ lit "' has no branches")
    else
      match node.branches.find? fun b => (findNode graph b).isNone with
      | some b => invalid graph
          (lit "parallel node '" ++ node.name ++ lit "' branch '" ++ b ++ lit "' does not exist")
      | none => .ok ()
  | .loop =>
    if (findNode graph node.loopBody).isNone then
      invalid graph (lit "loop node '" ++ node.name ++ lit "' has no valid loop_body")
    else if node.maxIterations < 1 then
      invalid graph (lit "loop node '" ++ node.name ++ lit "' needs max_iterations >= 1")
    else .ok ()

/- `before` holds the nodes at smaller indices. -/
def validateNode (graph : Graph) (before : List GraphNode) (node : GraphNode) : Result Unit :=
  if node.name = [] ∨ node.name = graphEnd then
    invalid graph (lit "invalid node name '" ++ node.name ++ lit "'")
  else if before.any fun b => b.name = node.name then
    invalid graph (lit "duplicate node name '" ++ node.name ++ lit "'")
  else if node.exitTo ≠ [] ∧ (findNode graph node.exitTo).isNone then
    invalid graph (lit "node '" ++ node.name ++ lit "' exits to unknown node '" ++ node.exitTo ++
      lit "'")
  else validateKind graph node

def validateEdge (graph : Graph) (before : List GraphEdge) (edge : GraphEdge) : Result Unit :=
  if (findNode graph edge.src).isNone then
    invalid graph (lit "edge from unknown node '" ++ edge.src ++ lit "'")
  else if edge.router.isNone ∧ edge.dst ≠ graphEnd ∧ (findNode graph edge.dst).isNone then
    invalid graph (lit "edge '" ++ edge.src ++ lit "' -> unknown node '" ++ edge.dst ++ lit "'")
  else if before.any fun b => b.src = edge.src then
    invalid graph (lit "node '" ++ edge.src ++
      lit "' has more than one outgoing edge (use a Parallel node to fan out)")
  else .ok ()

def validateNodes (graph : Graph) : List GraphNode → List GraphNode → Result Unit
  | _, [] => .ok ()
  | before, node :: nodes => do
    validateNode graph before node
    validateNodes graph (before ++ [node]) nodes

def validateEdges (graph : Graph) : List GraphEdge → List GraphEdge → Result Unit
  | _, [] => .ok ()
  | before, edge :: edges => do
    validateEdge graph before edge
    validateEdges graph (before ++ [edge]) edges

def validate (graph : Graph) : Result Unit :=
  if graph.entry = [] then invalid graph (lit "no entry node")
  else if (findNode graph graph.entry).isNone then
    invalid graph (lit "entry node '" ++ graph.entry ++ lit "' does not exist")
  else do
    validateNodes graph [] graph.nodes
    validateEdges graph [] graph.edges

variable (graph : Graph)

theorem findNode_name (name : Bytes) (node : GraphNode) (h : findNode graph name = some node) :
    node.name = name ∧ node ∈ graph.nodes := by
  have hp := List.find?_some h
  exact ⟨of_decide_eq_true hp, mem_of_find?_eq_some h⟩

structure NodeValid (graph : Graph) (node : GraphNode) : Prop where
  name_ne : node.name ≠ [] ∧ node.name ≠ graphEnd
  exitTo : node.exitTo = [] ∨ (findNode graph node.exitTo).isSome
  function : node.kind = .function → node.function.isSome
  tool : node.kind = .tool → node.toolName ≠ []
  branches_ne : node.kind = .parallel → node.branches ≠ []
  branches : node.kind = .parallel → ∀ b ∈ node.branches, (findNode graph b).isSome
  loopBody : node.kind = .loop → (findNode graph node.loopBody).isSome
  maxIterations : node.kind = .loop → 1 ≤ node.maxIterations

structure EdgeValid (graph : Graph) (edge : GraphEdge) : Prop where
  src : (findNode graph edge.src).isSome
  dst : edge.router = none → edge.dst = graphEnd ∨ (findNode graph edge.dst).isSome

structure GraphValid (graph : Graph) : Prop where
  entry : graph.entry ≠ []
  entry_found : (findNode graph graph.entry).isSome
  nodes : ∀ node ∈ graph.nodes, NodeValid graph node
  names : graph.nodes.Pairwise fun a b => a.name ≠ b.name
  edges : ∀ edge ∈ graph.edges, EdgeValid graph edge
  sources : graph.edges.Pairwise fun a b => a.src ≠ b.src

theorem invalid_ne_ok (message : Bytes) : invalid graph message ≠ .ok () := by
  intro h
  cases h

theorem validateKind_ok (node : GraphNode) : validateKind graph node = .ok () ↔
      (node.kind = .function → node.function.isSome) ∧ (node.kind = .tool → node.toolName ≠ []) ∧
      (node.kind = .parallel → node.branches ≠ []) ∧
      (node.kind = .parallel → ∀ b ∈ node.branches, (findNode graph b).isSome) ∧
      (node.kind = .loop → (findNode graph node.loopBody).isSome) ∧ (node.kind = .loop → 1 ≤ node.maxIterations) := by
  have hbad := invalid_ne_ok graph
  unfold validateKind
  cases hk : node.kind with
  | agent => simp
  | function =>
    cases hf : node.function with
    | none => simpa using hbad _
    | some f => simp
  | tool =>
    by_cases ht : node.toolName = []
    · simpa [ht] using hbad _
    · simp [ht]
  | parallel =>
    by_cases hb : node.branches = []
    · simpa [hb] using hbad _
    · cases hf : node.branches.find? fun b => (findNode graph b).isNone with
      | none =>
        have hall := List.find?_eq_none.1 hf
        have hsome : ∀ b ∈ node.branches, (findNode graph b).isSome := by
          intro b hbm
          exact isSome_iff_ne_none.2 (by simpa using hall b hbm)
        simpa [hb] using hsome
      | some b =>
        have hp := List.find?_some hf
        have hm := mem_of_find?_eq_some hf
        have hnone : findNode graph b = none := isNone_iff_eq_none.1 hp
        simp only [hb, ite_false, reduceCtorEq, false_implies, true_and, hbad, false_iff, not_and]
        intro _ hall
        have hb := hall trivial b hm
        rw [hnone] at hb
        exact absurd hb (by simp)
  | loop =>
    by_cases hl : (findNode graph node.loopBody).isNone
    · have hn : findNode graph node.loopBody = none := isNone_iff_eq_none.1 hl
      simpa [hn] using hbad _
    · have hs := isSome_iff_ne_none.2 fun h => hl (isNone_iff_eq_none.2 h)
      by_cases hm : node.maxIterations < 1
      · have hge : ¬1 ≤ node.maxIterations := by omega
        simpa [hl, hm, hge] using hbad _
      · have hge : 1 ≤ node.maxIterations := by omega
        simp [hs, hge, hl]

theorem any_name_eq {α : Type} (name : α → Bytes) (before : List α) (n : Bytes) :
    (before.any fun b => name b = n) = true ↔ ¬∀ b ∈ before, name b ≠ n := by
  simp

theorem known_or_end {name stop : Bytes} {graph : Graph}
    (h : ¬(name ≠ stop ∧ (findNode graph name).isNone)) : name = stop ∨ (findNode graph name).isSome := by
  by_cases he : name = stop
  · exact Or.inl he
  · cases hf : findNode graph name with
    | none => exact absurd ⟨he, by rw [hf]; rfl⟩ h
    | some n => exact Or.inr rfl

theorem not_known_or_end {name stop : Bytes} {graph : Graph} (h : name ≠ stop ∧ (findNode graph name).isNone) :
    ¬(name = stop ∨ (findNode graph name).isSome) := by
  rintro (he | hs)
  · exact h.1 he
  · rw [isNone_iff_eq_none.1 h.2] at hs
    exact absurd hs (by simp)

theorem validateNode_ok (before : List GraphNode) (node : GraphNode) : validateNode graph before node = .ok () ↔
      NodeValid graph node ∧ ∀ b ∈ before, b.name ≠ node.name := by
  have hbad := invalid_ne_ok graph
  unfold validateNode
  by_cases hname : node.name = [] ∨ node.name = graphEnd
  · rw [if_pos hname]
    refine iff_of_false (hbad _) ?_
    rintro ⟨hv, -⟩
    exact hname.elim hv.name_ne.1 hv.name_ne.2
  rw [if_neg hname]
  by_cases hdup : (before.any fun b => b.name = node.name) = true
  · rw [if_pos hdup]
    exact iff_of_false (hbad _) fun h => (any_name_eq GraphNode.name before _).1 hdup h.2
  have hne := not_not.1 (mt (any_name_eq GraphNode.name before _).2 hdup)
  rw [if_neg hdup]
  by_cases hexit : node.exitTo ≠ [] ∧ (findNode graph node.exitTo).isNone
  · rw [if_pos hexit]
    exact iff_of_false (hbad _) fun h => not_known_or_end hexit h.1.exitTo
  rw [if_neg hexit, validateKind_ok]
  have hexit' := known_or_end hexit
  constructor
  · rintro ⟨h1, h2, h3, h4, h5, h6⟩
    exact ⟨⟨not_or.1 hname, hexit', h1, h2, h3, h4, h5, h6⟩, hne⟩
  · rintro ⟨hv, -⟩
    exact ⟨hv.function, hv.tool, hv.branches_ne, hv.branches, hv.loopBody, hv.maxIterations⟩

theorem bind_unit_ok {r s : Result Unit} : (r >>= fun _ => s) = .ok () ↔ r = .ok () ∧ s = .ok () :=
  bind_eq_ok.trans ⟨fun ⟨_, hr, hs⟩ => ⟨hr, hs⟩, fun ⟨hr, hs⟩ => ⟨(), hr, hs⟩⟩

theorem checked_cons {α : Type} (P : α → Prop) (R : α → α → Prop) (before : List α) (a : α) (as : List α) :
    ((P a ∧ ∀ b ∈ before, R b a) ∧ (∀ x ∈ as, P x) ∧ as.Pairwise R ∧ ∀ b ∈ before ++ [a], ∀ x ∈ as, R b x) ↔
      (∀ x ∈ a :: as, P x) ∧ (a :: as).Pairwise R ∧ ∀ b ∈ before, ∀ x ∈ a :: as, R b x := by
  simp only [forall_mem_cons, forall_mem_append, pairwise_cons, not_mem_nil, false_implies, implies_true, and_true]
  constructor
  · rintro ⟨⟨hv, hne⟩, hvs, hpw, hbefore, ha⟩
    exact ⟨⟨hv, hvs⟩, ⟨ha, hpw⟩, fun b hb => ⟨hne b hb, hbefore b hb⟩⟩
  · rintro ⟨⟨hv, hvs⟩, ⟨ha, hpw⟩, hb⟩
    exact ⟨⟨hv, fun b hm => (hb b hm).1⟩, hvs, hpw, fun b hm => (hb b hm).2, ha⟩

theorem validateNodes_ok (before nodes : List GraphNode) : validateNodes graph before nodes = .ok () ↔
      (∀ node ∈ nodes, NodeValid graph node) ∧ (nodes.Pairwise fun a b => a.name ≠ b.name) ∧
        ∀ b ∈ before, ∀ node ∈ nodes, b.name ≠ node.name := by
  induction nodes generalizing before with
  | nil =>
    simp only [validateNodes, not_mem_nil, false_implies, implies_true, List.Pairwise.nil, and_self]
  | cons node nodes ih =>
    change (validateNode graph before node >>= fun _ => _) = .ok () ↔ _
    rw [bind_unit_ok, validateNode_ok, ih]
    exact checked_cons (NodeValid graph) (fun a b => a.name ≠ b.name) before node nodes

theorem validateEdge_ok (before : List GraphEdge) (edge : GraphEdge) : validateEdge graph before edge = .ok () ↔
      EdgeValid graph edge ∧ ∀ b ∈ before, b.src ≠ edge.src := by
  have hbad := invalid_ne_ok graph
  unfold validateEdge
  cases hs : findNode graph edge.src with
  | none =>
    refine iff_of_false (hbad _) ?_
    rintro ⟨hv, -⟩
    have h := hv.src
    rw [hs] at h
    exact absurd h (by simp)
  | some n =>
    by_cases hd : edge.router.isNone ∧ edge.dst ≠ graphEnd ∧ (findNode graph edge.dst).isNone
    · rw [if_pos hd]
      exact iff_of_false (hbad _) fun h =>
        not_known_or_end hd.2 (h.1.dst (isNone_iff_eq_none.1 hd.1))
    · have hdst : edge.router = none → edge.dst = graphEnd ∨ (findNode graph edge.dst).isSome := by
        intro hr
        exact known_or_end fun h => hd ⟨by rw [hr]; rfl, h⟩
      rw [if_neg hd]
      by_cases hdup : (before.any fun b => b.src = edge.src) = true
      · rw [if_pos hdup]
        exact iff_of_false (hbad _) fun h => (any_name_eq GraphEdge.src before _).1 hdup h.2
      · rw [if_neg hdup]
        exact iff_of_true rfl ⟨⟨by rw [hs]; rfl, hdst⟩, not_not.1 (mt (any_name_eq GraphEdge.src before _).2 hdup)⟩

theorem validateEdges_ok (before edges : List GraphEdge) : validateEdges graph before edges = .ok () ↔
      (∀ edge ∈ edges, EdgeValid graph edge) ∧ (edges.Pairwise fun a b => a.src ≠ b.src) ∧
        ∀ b ∈ before, ∀ edge ∈ edges, b.src ≠ edge.src := by
  induction edges generalizing before with
  | nil =>
    simp only [validateEdges, not_mem_nil, false_implies, implies_true, List.Pairwise.nil, and_self]
  | cons edge edges ih =>
    change (validateEdge graph before edge >>= fun _ => _) = .ok () ↔ _
    rw [bind_unit_ok, validateEdge_ok, ih]
    exact checked_cons (EdgeValid graph) (fun a b => a.src ≠ b.src) before edge edges

theorem validate_ok : validate graph = .ok () ↔ GraphValid graph := by
  have hbad := invalid_ne_ok graph
  unfold validate
  by_cases he : graph.entry = []
  · rw [if_pos he]
    exact iff_of_false (hbad _) fun hv => hv.entry he
  rw [if_neg he]
  cases hf : findNode graph graph.entry with
  | none =>
    refine iff_of_false (hbad _) fun hv => ?_
    have h := hv.entry_found
    rw [hf] at h
    exact absurd h (by simp)
  | some n =>
    rw [if_neg (by simp)]
    rw [bind_unit_ok, validateNodes_ok, validateEdges_ok]
    constructor
    · rintro ⟨⟨hn, hnames, -⟩, hedges, hsrc, -⟩
      exact ⟨he, by rw [hf]; rfl, hn, hnames, hedges, hsrc⟩
    · intro hv
      exact ⟨⟨hv.nodes, hv.names, by simp⟩, hv.edges, hv.sources, by simp⟩

end AgentCpp
