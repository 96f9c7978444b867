import AgentCpp.Graph.Graph

/-!
# Workflow builders (`graph_builders.cpp`)

A composed graph has no edges: where a part goes on when it is done is written into the
`exit_to` of its one node that has none yet.
-/

namespace AgentCpp
open Lib List

def chainExits (target : Bytes) (g : Graph) : Graph :=
  { g with nodes := g.nodes.map fun node =>
      if node.exitTo = [] then { node with exitTo := target } else node }

def appendGraph (dst src : Graph) : Graph :=
  { dst with
    nodes := dst.nodes ++ src.nodes
    edges := dst.edges ++ src.edges
    maxSteps := max dst.maxSteps src.maxSteps }

def makeGraph (node : GraphNode) : Graph := { name := node.name, entry := node.name, nodes := [node] }

/- Every step but the last is pointed at the entry of the one after it. -/
def chainSteps : List Graph → List Graph
  | [] => []
  | [g] => [g]
  | g :: h :: rest => chainExits h.entry g :: chainSteps (h :: rest)

def makeSequential (name : Bytes) (steps : List Graph) : Graph :=
  { (chainSteps steps).foldl appendGraph { name } with entry := (steps.head?.map Graph.entry).getD [] }

def makeParallel (name : Bytes) (branches : List Graph) : Graph :=
  (branches.map (chainExits name)).foldl appendGraph
    { name, entry := name
      nodes := [{ name, kind := .parallel, branches := branches.map Graph.entry }] }

def makeLoop (name : Bytes) (body : Graph) (maxIterations : ℤ)
    (until_ : Option (Pos → GraphState → Result Bool)) : Graph :=
  appendGraph
    { name, entry := name
      nodes := [{ name, kind := .loop, loopBody := body.entry, maxIterations, until_ }] }
    (chainExits name body)

inductive Workflow where
  | leaf (name : Bytes) (function : Pos → GraphState → GraphState × Result Unit)
  | sequential (name : Bytes) (steps : List Workflow)
  | parallel (name : Bytes) (branches : List Workflow)
  | loop (name : Bytes) (body : Workflow) (maxIterations : ℤ)
      (until_ : Option (Pos → GraphState → Result Bool))

mutual

def Workflow.graph : Workflow → Graph
  | .leaf name function => makeGraph { name, function := some function }
  | .sequential name steps => makeSequential name (Workflow.graphs steps)
  | .parallel name branches => makeParallel name (Workflow.graphs branches)
  | .loop name body maxIterations until_ => makeLoop name body.graph maxIterations until_

def Workflow.graphs : List Workflow → List Graph
  | [] => []
  | e :: es => e.graph :: Workflow.graphs es

end

theorem Workflow.graphs_eq (es : List Workflow) : Workflow.graphs es = es.map Workflow.graph := by
  induction es with
  | nil => rfl
  | cons e es ih => rw [Workflow.graphs, ih, map_cons]

def dropCounters (values : Table Bytes) : Table Bytes := values.filter fun key _ => !isLoopKey key

theorem get_dropCounters (values : Table Bytes) (key : Bytes) :
    (dropCounters values)[key]? = if isLoopKey key then none else values[key]? := by
  unfold dropCounters
  rw [Std.ExtTreeMap.getElem?_filter']
  cases isLoopKey key <;> cases values[key]? <;> simp [Option.filter]

def GraphState.withoutCounters (state : GraphState) : GraphState :=
  { state with values := dropCounters state.values }

/- A function that neither reads nor writes loop counters. -/
structure CounterFree (f : Pos → GraphState → GraphState × Result Unit) : Prop where
  result : ∀ pos s, (f pos s).2 = (f pos s.withoutCounters).2
  values : ∀ pos s, dropCounters (f pos s).1.values = (f pos s.withoutCounters).1.values
  counters : ∀ pos s key, isLoopKey key → (f pos s).1.values[key]? = s.values[key]?
  histories : ∀ pos s, (f pos s).1.histories = (f pos s.withoutCounters).1.histories
  written : ∀ pos s, (f pos s).1.written = (f pos s.withoutCounters).1.written
  not_counter : ∀ pos s, ∀ key ∈ (f pos s).1.written, key ∈ s.written ∨ isLoopKey key = false
  interrupt : ∀ pos s, (f pos s).1.interruptRequested = (f pos s.withoutCounters).1.interruptRequested

/- A test that does not read them. -/
def CounterBlind (test : Pos → GraphState → Result Bool) : Prop :=
  ∀ pos s, test pos s = test pos s.withoutCounters

/- The expressions the builders are for: no empty lists, `max_iterations` positive, callbacks that
leave the counters alone. -/
inductive Workflow.Proper : Workflow → Prop where
  | leaf {name f} (hf : CounterFree f) : Proper (.leaf name f)
  | sequential {name steps} (hne : steps ≠ []) (h : ∀ s ∈ steps, Proper s) :
      Proper (.sequential name steps)
  | parallel {name branches} (hne : branches ≠ []) (h : ∀ b ∈ branches, Proper b) :
      Proper (.parallel name branches)
  | loop {name body maxIterations until_} (hmin : 1 ≤ maxIterations) (hmax : maxIterations < 2 ^ 31)
      (hu : ∀ u, until_ = some u → CounterBlind u) (h : Proper body) :
      Proper (.loop name body maxIterations until_)

variable (gs : List Graph)

theorem foldl_appendGraph_nodes (g : Graph) :
    (gs.foldl appendGraph g).nodes = g.nodes ++ gs.flatMap Graph.nodes := by
  induction gs generalizing g with
  | nil => simp
  | cons h gs ih =>
    rw [foldl_cons, ih]
    simp [appendGraph]

theorem foldl_appendGraph_edges (g : Graph) :
    (gs.foldl appendGraph g).edges = g.edges ++ gs.flatMap Graph.edges := by
  induction gs generalizing g with
  | nil => simp
  | cons h gs ih =>
    rw [foldl_cons, ih]
    simp [appendGraph]

theorem foldl_appendGraph_entry (g : Graph) : (gs.foldl appendGraph g).entry = g.entry := by
  induction gs generalizing g with
  | nil => rfl
  | cons h gs ih =>
    rw [foldl_cons, ih]
    rfl

theorem mem_chainExits (target : Bytes) (g : Graph) (node : GraphNode) : node ∈ (chainExits target g).nodes ↔
      ∃ n ∈ g.nodes, (if n.exitTo = [] then { n with exitTo := target } else n) = node := mem_map

theorem chainExits_names (target : Bytes) (g : Graph) :
    (chainExits target g).nodes.map GraphNode.name = g.nodes.map GraphNode.name := by
  unfold chainExits
  rw [map_map]
  refine map_congr_left fun node _ => ?_
  simp only [Function.comp_apply]
  split
  · rfl
  · rfl

theorem chainExits_chainExits (target other : Bytes) (g : Graph) (h : other ≠ []) :
    chainExits target (chainExits other g) = chainExits other g := by
  unfold chainExits
  simp only [map_map]
  congr 1
  refine map_congr_left fun node _ => ?_
  simp only [Function.comp_apply]
  split
  · rfl
  · rfl

/- The nodes of `e` are in `g`, and the open one goes on at `target`. -/
def Embeds (g : Graph) (e : Workflow) (target : Bytes) : Prop :=
  ∀ node ∈ (chainExits target e.graph).nodes, node ∈ g.nodes

theorem embeds_self (e : Workflow) (steps : ℤ) : Embeds { e.graph with maxSteps := steps } e [] := by
  intro node hnode
  obtain ⟨n, hn, rfl⟩ := (mem_chainExits _ _ _).1 hnode
  split
  · next h =>
    have hsame : { n with exitTo := [] } = n := by
      rw [← h]
    rw [hsame]
    exact hn
  · exact hn

variable {g : Graph} {name target : Bytes} {e : Workflow}

theorem embeds_leaf {function : Pos → GraphState → GraphState × Result Unit}
    (h : Embeds g (.leaf name function) target) :
    { name, function := some function, exitTo := target } ∈ g.nodes := by
  refine h _ ((mem_chainExits _ _ _).2 ⟨_, mem_singleton.2 rfl, ?_⟩)
  rfl

theorem sequential_nodes (name : Bytes) (steps : List Workflow) : (Workflow.sequential name steps).graph.nodes =
      (chainSteps (steps.map Workflow.graph)).flatMap Graph.nodes := by
  rw [Workflow.graph, Workflow.graphs_eq]
  unfold makeSequential
  simp only [foldl_appendGraph_nodes, nil_append]

theorem parallel_nodes (name : Bytes) (branches : List Workflow) : (Workflow.parallel name branches).graph.nodes =
      { name, kind := .parallel, branches := branches.map fun b => b.graph.entry } ::
        branches.flatMap fun b => (chainExits name b.graph).nodes := by
  rw [Workflow.graph, Workflow.graphs_eq]
  unfold makeParallel
  simp only [foldl_appendGraph_nodes, map_map, flatMap_map, cons_append, nil_append]
  rfl

theorem loop_nodes (name : Bytes) (body : Workflow) (maxIterations : ℤ)
    (until_ : Option (Pos → GraphState → Result Bool)) : (Workflow.loop name body maxIterations until_).graph.nodes =
      { name, kind := .loop, loopBody := body.graph.entry, maxIterations, until_ } ::
        (chainExits name body.graph).nodes := rfl

theorem Embeds.part (h : Embeds g e target) {part : Workflow} {inner : Bytes} (hinner : inner ≠ [])
    (hsub : ∀ n ∈ (chainExits inner part.graph).nodes, n ∈ e.graph.nodes) : Embeds g part inner := by
  intro node hnode
  have hsame := hnode
  rw [← chainExits_chainExits target _ _ hinner] at hsame
  obtain ⟨n, hn, rfl⟩ := (mem_chainExits _ _ _).1 hsame
  exact h _ ((mem_chainExits _ _ _).2 ⟨n, hsub n hn, rfl⟩)

theorem embeds_sequential_last (h : Embeds g (.sequential name [e]) target) : Embeds g e target := by
  intro node hnode
  refine h node ?_
  obtain ⟨n, hn, rfl⟩ := (mem_chainExits _ _ _).1 hnode
  refine (mem_chainExits _ _ _).2 ⟨n, ?_, rfl⟩
  rw [sequential_nodes]
  simpa [chainSteps] using hn

theorem embeds_sequential_cons {f : Workflow} {es : List Workflow} (h : Embeds g (.sequential name (e :: f :: es))
    target) (hf : f.graph.entry ≠ []) : Embeds g e f.graph.entry ∧ Embeds g (.sequential name (f :: es)) target := by
  have hnodes : (Workflow.sequential name (e :: f :: es)).graph.nodes =
      (chainExits f.graph.entry e.graph).nodes ++ (Workflow.sequential name (f :: es)).graph.nodes := by
    rw [sequential_nodes, sequential_nodes]
    rfl
  constructor
  · refine h.part hf fun n hn => ?_
    rw [hnodes]
    exact mem_append_left _ hn
  · intro node hnode
    obtain ⟨n, hn, rfl⟩ := (mem_chainExits _ _ _).1 hnode
    refine h _ ((mem_chainExits _ _ _).2 ⟨n, ?_, rfl⟩)
    rw [hnodes]
    exact mem_append_right _ hn

theorem embeds_parallel {branches : List Workflow} (h : Embeds g (.parallel name branches) target)
    (hname : name ≠ []) :
    { name, kind := .parallel, branches := branches.map fun b => b.graph.entry, exitTo := target } ∈
        g.nodes ∧ ∀ b ∈ branches, Embeds g b name := by
  constructor
  · refine h _ ((mem_chainExits _ _ _).2 ⟨{ name, kind := .parallel, branches := _ }, ?_, rfl⟩)
    rw [parallel_nodes]
    exact mem_cons_self ..
  · refine fun b hb => h.part hname fun n hn => ?_
    rw [parallel_nodes]
    exact mem_cons_of_mem _ (mem_flatMap.2 ⟨b, hb, hn⟩)

theorem embeds_loop {body : Workflow} {maxIterations : ℤ} {until_ : Option (Pos → GraphState → Result Bool)}
    (h : Embeds g (.loop name body maxIterations until_) target) (hname : name ≠ []) :
    { name, kind := .loop, loopBody := body.graph.entry, maxIterations, until_, exitTo := target } ∈
        g.nodes ∧ Embeds g body name := by
  constructor
  · refine h _ ((mem_chainExits _ _ _).2 ⟨{ name, kind := .loop, loopBody := _, maxIterations, until_ }, ?_, rfl⟩)
    rw [loop_nodes]
    exact mem_cons_self ..
  · refine h.part hname fun n hn => ?_
    rw [loop_nodes]
    exact mem_cons_of_mem _ hn

def Workflow.names (e : Workflow) : List Bytes := e.graph.nodes.map GraphNode.name

/- What `validate` asks of a node, with the names it may refer to. -/
structure RefersWithin (names : List Bytes) (node : GraphNode) : Prop where
  exitTo : node.exitTo = [] ∨ node.exitTo ∈ names
  function : node.kind = .function → node.function.isSome
  tool : node.kind ≠ .tool
  branches : node.kind = .parallel → node.branches ≠ [] ∧ ∀ b ∈ node.branches, b ∈ names
  loopBody : node.kind = .loop → node.loopBody ∈ names ∧ 1 ≤ node.maxIterations

theorem RefersWithin.mono {names names' : List Bytes} {node : GraphNode} (h : RefersWithin names node)
    (hsub : ∀ n ∈ names, n ∈ names') : RefersWithin names' node where
  exitTo := h.exitTo.imp_right (hsub _)
  function := h.function
  tool := h.tool
  branches hk := ⟨(h.branches hk).1, fun b hb => hsub b ((h.branches hk).2 b hb)⟩
  loopBody hk := ⟨hsub _ (h.loopBody hk).1, (h.loopBody hk).2⟩

theorem RefersWithin.chained {names : List Bytes} (h : ∀ node ∈ g.nodes, RefersWithin names node)
    (htarget : target ∈ names) : ∀ node ∈ (chainExits target g).nodes, RefersWithin names node := by
  intro node hnode
  obtain ⟨n, hn, rfl⟩ := (mem_chainExits _ _ _).1 hnode
  have hw := h n hn
  split
  · exact { hw with exitTo := Or.inr htarget }
  · exact hw

theorem mem_chainSteps (node : GraphNode) (h : node ∈ (chainSteps gs).flatMap Graph.nodes) :
    ∃ g ∈ gs, node ∈ g.nodes ∨ ∃ next ∈ gs, node ∈ (chainExits next.entry g).nodes := by
  induction gs with
  | nil => cases h
  | cons g gs ih =>
    cases gs with
    | nil =>
      refine ⟨g, mem_singleton.2 rfl, Or.inl ?_⟩
      simpa [chainSteps] using h
    | cons next rest =>
      rw [chainSteps, flatMap_cons, mem_append] at h
      rcases h with h | h
      · exact ⟨g, mem_cons_self .., Or.inr ⟨next, by simp, h⟩⟩
      · obtain ⟨g', hg', hor⟩ := ih h
        refine ⟨g', mem_cons_of_mem _ hg', hor.imp_right ?_⟩
        rintro ⟨n, hn, hmem⟩
        exact ⟨n, mem_cons_of_mem _ hn, hmem⟩

theorem chainSteps_names : ((chainSteps gs).flatMap Graph.nodes).map GraphNode.name =
      gs.flatMap fun g => g.nodes.map GraphNode.name := by
  induction gs with
  | nil => rfl
  | cons g gs ih =>
    cases gs with
    | nil => simp [chainSteps]
    | cons next rest =>
      rw [chainSteps, flatMap_cons, map_append, ih, chainExits_names]
      rfl

theorem names_sequential (name : Bytes) (steps : List Workflow) :
    (Workflow.sequential name steps).names = steps.flatMap Workflow.names := by
  unfold Workflow.names
  rw [sequential_nodes, chainSteps_names, flatMap_map]

theorem names_parallel (name : Bytes) (branches : List Workflow) :
    (Workflow.parallel name branches).names = name :: branches.flatMap Workflow.names := by
  unfold Workflow.names
  rw [parallel_nodes, map_cons, map_flatMap]
  simp only [chainExits_names]

theorem names_loop (name : Bytes) (body : Workflow) (maxIterations : ℤ)
    (until_ : Option (Pos → GraphState → Result Bool)) :
    (Workflow.loop name body maxIterations until_).names = name :: body.names := by
  unfold Workflow.names
  rw [loop_nodes, map_cons, chainExits_names]

theorem entry_sequential (name : Bytes) (steps : List Workflow) : (Workflow.sequential name steps).graph.entry =
      (steps.head?.map fun s => s.graph.entry).getD [] := by
  rw [Workflow.graph, Workflow.graphs_eq]
  unfold makeSequential
  simp only [head?_map, Option.map_map]
  rfl

theorem entry_parallel (name : Bytes) (branches : List Workflow) :
    (Workflow.parallel name branches).graph.entry = name := by
  rw [Workflow.graph]
  unfold makeParallel
  rw [foldl_appendGraph_entry]

theorem entry_mem_names (h : e.Proper) : e.graph.entry ∈ e.names := by
  induction h with
  | leaf => exact mem_singleton.2 rfl
  | @sequential name steps hne _ ih =>
    cases steps with
    | nil => exact absurd rfl hne
    | cons s rest =>
      rw [names_sequential]
      exact mem_flatMap.2 ⟨s, mem_cons_self .., ih s (mem_cons_self ..)⟩
  | @parallel name branches =>
    rw [names_parallel, entry_parallel]
    exact mem_cons_self ..
  | loop =>
    rw [names_loop]
    exact mem_cons_self ..

theorem edges_eq_nil (h : e.Proper) : e.graph.edges = [] := by
  induction h with
  | leaf => rfl
  | @sequential name steps hne _ ih =>
    have hchain : ∀ gs : List Graph, (∀ g ∈ gs, g.edges = []) → (chainSteps gs).flatMap Graph.edges = [] := by
      intro gs hgs
      induction gs with
      | nil => rfl
      | cons g gs ihg =>
        obtain ⟨hg, hrest⟩ := forall_mem_cons.1 hgs
        cases gs with
        | nil => simpa [chainSteps] using hg
        | cons next rest =>
          rw [chainSteps, flatMap_cons, ihg hrest, append_nil]
          exact hg
    rw [Workflow.graph, Workflow.graphs_eq]
    unfold makeSequential
    simp only [foldl_appendGraph_edges, nil_append]
    refine hchain _ fun g hg => ?_
    obtain ⟨s, hs, rfl⟩ := mem_map.1 hg
    exact ih s hs
  | @parallel name branches hne _ ih =>
    rw [Workflow.graph, Workflow.graphs_eq]
    unfold makeParallel
    simp only [foldl_appendGraph_edges, nil_append, map_map, flatMap_map]
    rw [flatMap_eq_nil_iff]
    intro b hb
    exact ih b hb
  | loop _ _ _ _ ih => exact ih

theorem refersWithin (h : e.Proper) : ∀ node ∈ e.graph.nodes, RefersWithin e.names node := by
  induction h with
  | leaf =>
    intro node hnode
    rw [mem_singleton.1 hnode]
    exact ⟨Or.inl rfl, fun _ => rfl, by simp, by simp, by simp⟩
  | @sequential name steps hne hsteps ih =>
    intro node hnode
    rw [names_sequential]
    rw [sequential_nodes] at hnode
    have hsub : ∀ s ∈ steps, ∀ n ∈ s.names, n ∈ steps.flatMap Workflow.names := fun s hs n hn =>
      mem_flatMap.2 ⟨s, hs, hn⟩
    obtain ⟨g, hg, hor⟩ := mem_chainSteps _ _ hnode
    obtain ⟨s, hs, rfl⟩ := mem_map.1 hg
    rcases hor with hmem | ⟨next, hnext, hmem⟩
    · exact (ih s hs node hmem).mono (hsub s hs)
    · obtain ⟨t, ht, rfl⟩ := mem_map.1 hnext
      exact RefersWithin.chained (fun n hn => (ih s hs n hn).mono (hsub s hs))
        (hsub t ht _ (entry_mem_names (hsteps t ht))) node hmem
  | @parallel name branches hne hbranches ih =>
    intro node hnode
    rw [names_parallel]
    rw [parallel_nodes, mem_cons] at hnode
    have hsub : ∀ b ∈ branches, ∀ n ∈ b.names, n ∈ name :: branches.flatMap Workflow.names :=
      fun b hb n hn => mem_cons_of_mem _ (mem_flatMap.2 ⟨b, hb, hn⟩)
    rcases hnode with rfl | hnode
    · refine ⟨Or.inl rfl, by simp, by simp, fun _ => ⟨?_, ?_⟩, by simp⟩
      · simpa using hne
      · intro entry hentry
        obtain ⟨b, hb, rfl⟩ := mem_map.1 hentry
        exact hsub b hb _ (entry_mem_names (hbranches b hb))
    · obtain ⟨b, hb, hmem⟩ := mem_flatMap.1 hnode
      exact RefersWithin.chained (fun n hn => (ih b hb n hn).mono (hsub b hb)) (mem_cons_self ..) node hmem
  | @loop name body maxIterations until_ hmin hmax hu hbody ih =>
    intro node hnode
    rw [names_loop]
    rw [loop_nodes, mem_cons] at hnode
    have hsub : ∀ n ∈ body.names, n ∈ name :: body.names := fun n hn => mem_cons_of_mem _ hn
    rcases hnode with rfl | hnode
    · exact ⟨Or.inl rfl, by simp, by simp, by simp, fun _ => ⟨hsub _ (entry_mem_names hbody), hmin⟩⟩
    · exact RefersWithin.chained (fun n hn => (ih n hn).mono hsub) (mem_cons_self ..) node hnode

/- Names `validate` accepts, all different. -/
structure Workflow.Named (e : Workflow) : Prop where
  distinct : e.names.Nodup
  proper : ∀ name ∈ e.names, name ≠ [] ∧ name ≠ graphEnd

theorem findNode_isSome (graph : Graph) (name : Bytes) :
    (findNode graph name).isSome ↔ name ∈ graph.nodes.map GraphNode.name := by
  unfold findNode
  rw [find?_isSome, mem_map]
  simp

theorem findNode_of_mem (graph : Graph) (node : GraphNode) (hmem : node ∈ graph.nodes)
    (hdistinct : (graph.nodes.map GraphNode.name).Nodup) : findNode graph node.name = some node := by
  have hsome : (findNode graph node.name).isSome :=
    (findNode_isSome _ _).2 (mem_map.2 ⟨node, hmem, rfl⟩)
  obtain ⟨n, hn⟩ := Option.isSome_iff_exists.1 hsome
  obtain ⟨hname, hn'⟩ := findNode_name _ _ _ hn
  rw [hn, inj_on_of_nodup_map hdistinct hn' hmem hname]

theorem workflow_valid (h : e.Proper) (hnames : e.Named) (steps : ℤ) :
    GraphValid { e.graph with maxSteps := steps } := by
  have hentry := entry_mem_names h
  have hfound : ∀ name ∈ e.names, (findNode { e.graph with maxSteps := steps } name).isSome :=
    fun name hname => (findNode_isSome _ _).2 hname
  refine ⟨(hnames.proper _ hentry).1, hfound _ hentry, ?_, ?_, ?_, ?_⟩
  · intro node hnode
    have hw := refersWithin h node hnode
    have hn := hnames.proper node.name (mem_map.2 ⟨node, hnode, rfl⟩)
    exact ⟨hn, hw.exitTo.imp_right (hfound _), hw.function, fun hk => absurd hk hw.tool,
      fun hk => (hw.branches hk).1, fun hk b hb => hfound b ((hw.branches hk).2 b hb),
      fun hk => hfound _ (hw.loopBody hk).1, fun hk => (hw.loopBody hk).2⟩
  · exact pairwise_map.1 hnames.distinct
  · simp [edges_eq_nil h]
  · simp [edges_eq_nil h]

end AgentCpp
