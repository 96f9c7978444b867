import AgentCpp.Lib.Bytes

/-!
# Warnings about static cycles

The loader follows `static_next` from every node it has not met yet. A walk that comes back to
itself has found a cycle; one that ends, or runs into an earlier walk, has not.
-/

namespace AgentCpp.StaticCycles

open AgentCpp.Lib List Function

inductive Mark where
  | new
  | onWalk
  | done
  deriving DecidableEq

/- `next` is `static_next` of the node of that name, `[]` where there is no static successor. -/
variable (next : Bytes → Bytes) (nodes : List Bytes)

/- The inner loop; `none` is a walk that has not ended within `fuel` turns. -/
def walkFrom : ℕ → (Bytes → Mark) → List Bytes → Bytes → Option ((Bytes → Mark) × List Bytes × Bytes)
  | 0, _, _, _ => none
  | fuel + 1, state, walk, cur =>
    if cur ≠ [] ∧ state cur = .new then
      walkFrom fuel (update state cur .onWalk) (walk ++ [cur]) (next cur)
    else some (state, walk, cur)

/- The part of the walk from `cur` on; `inCycle` is set once `cur` has been met. -/
def cycleNodes (cur : Bytes) : Bool → List Bytes → Bytes
  | _, [] => []
  | inCycle, w :: walk =>
    if inCycle || w == cur then w ++ lit " -> " ++ cycleNodes cur true walk else cycleNodes cur false walk

def warning (text : Bytes) : Bytes := lit "cycle " ++ text ++
  lit " has no conditional edge or loop node; it only stops at max_steps or when a node interrupts"

def visit (fuel : ℕ) (s : (Bytes → Mark) × List Bytes) (start : Bytes) : Option ((Bytes → Mark) × List Bytes) :=
  if s.1 start ≠ .new then some s
  else (walkFrom next fuel s.1 [] start).map fun (state, walk, cur) =>
    (walk.foldl (fun state w => update state w .done) state,
      if cur ≠ [] ∧ state cur = .onWalk then s.2 ++ [warning (cycleNodes cur false walk ++ cur)] else s.2)

def warnStaticCycles (fuel : ℕ) : Option (List Bytes) :=
  (nodes.foldlM (visit next fuel) (fun _ => .new, [])).map (·.2)

/- A cycle of `next`: distinct nodes in order, the last leading back to the first. -/
structure IsCycle (c : List Bytes) : Prop where
  nodup : c.Nodup
  inside : ∀ x ∈ c, x ∈ nodes ∧ x ≠ []
  closed : ∃ x t, c = x :: t ∧ (c ++ [x]).IsChain (next · = ·)

/- The text of a cycle: its nodes, and the first one again. -/
def cycleLine (c : List Bytes) : Bytes := warning (c.flatMap (· ++ lit " -> ") ++ c.headD [])

variable {next nodes}

theorem cycleNodes_eq (pre : List Bytes) (cur : Bytes) (t : List Bytes) (h : cur ∉ pre) :
    warning (cycleNodes cur false (pre ++ cur :: t) ++ cur) = cycleLine (cur :: t) := by
  have hafter : ∀ t, cycleNodes cur true t = t.flatMap (· ++ lit " -> ") := by
    intro t
    induction t with
    | nil => rfl
    | cons w t ih => simp [cycleNodes, ih]
  induction pre with
  | nil => simp [cycleNodes, cycleLine, hafter]
  | cons w pre ih =>
    rw [mem_cons, not_or] at h
    rw [← ih h.2, cons_append, cycleNodes, if_neg (by simp [Ne.symm h.1])]

variable {l walk : List Bytes} {x cur : Bytes}

theorem next_mem_of_chain {y : Bytes} (h : (l ++ [y]).IsChain (next · = ·)) (hx : x ∈ l) :
    next x ∈ l ++ [y] := by
  obtain ⟨l₁, l₂, rfl⟩ := append_of_mem hx
  rw [append_assoc, cons_append] at h ⊢
  refine mem_append_right _ (mem_cons_of_mem _ ?_)
  have hstep := h.right_of_append
  cases hl : l₂ ++ [y] with
  | nil => simp at hl
  | cons z l =>
    rw [hl, isChain_cons_cons] at hstep
    rw [hstep.1]
    exact mem_cons_self

variable {c c' : List Bytes}

theorem IsCycle.follows (h : IsCycle next nodes c) (hl : (x :: l).IsChain (next · = ·))
    (hx : x ∈ c) : ∀ y ∈ l, y ∈ c := by
  induction l generalizing x with
  | nil => exact nofun
  | cons y l ih =>
    obtain ⟨rfl, hl⟩ := isChain_cons_cons.1 hl
    have hy : next x ∈ c := by
      obtain ⟨a, t, rfl, hchain⟩ := h.closed
      simpa [or_comm, or_assoc] using next_mem_of_chain hchain hx
    exact forall_mem_cons.2 ⟨hy, ih hl hy⟩

theorem IsCycle.follows_walk (h : IsCycle next nodes c)
    (hwalk : (walk ++ [cur]).IsChain (next · = ·)) (hx : x ∈ walk) (hc : x ∈ c) : cur ∈ c := by
  obtain ⟨l₁, l₂, rfl⟩ := append_of_mem hx
  rw [append_assoc] at hwalk
  exact h.follows hwalk.right_of_append hc cur (by simp)

theorem IsCycle.subset (h : IsCycle next nodes c) (h' : IsCycle next nodes c') (hx : x ∈ c) (hx' : x ∈ c') :
    ∀ y ∈ c, y ∈ c' := by
  obtain ⟨a, t, rfl, hchain⟩ := h.closed
  have ha := h'.follows_walk hchain hx hx'
  exact forall_mem_cons.2 ⟨ha, h'.follows hchain.left_of_append ha⟩

/- A walk under way, from `start` and over the marks `state₀`. -/
structure Walk (next : Bytes → Bytes) (nodes : List Bytes) (state₀ : Bytes → Mark) (start : Bytes)
    (state : Bytes → Mark) (walk : List Bytes) (cur : Bytes) : Prop where
  nodup : walk.Nodup
  fresh : ∀ x ∈ walk, x ∈ nodes ∧ x ≠ [] ∧ state₀ x = .new
  marks : ∀ x, state x = if x ∈ walk then .onWalk else state₀ x
  chain : (walk ++ [cur]).IsChain (next · = ·)
  began : start ∈ walk ++ [cur]
  inside : cur = [] ∨ cur ∈ nodes

theorem foldl_done (walk : List Bytes) (state : Bytes → Mark) (x : Bytes) :
    walk.foldl (fun state w => update state w .done) state x = if x ∈ walk then .done else state x := by
  induction walk generalizing state with
  | nil => simp
  | cons w walk ih =>
    rw [foldl_cons, ih, update_apply]
    by_cases hx : x = w
    · simp [hx]
    · simp [hx]

/- Between two walks: every mark is settled, and the cycles met are the ones listed. -/
structure Swept (next : Bytes → Bytes) (nodes : List Bytes) (state : Bytes → Mark) (cycles : List (List Bytes)) :
    Prop where
  settled : ∀ x, state x ≠ .onWalk
  closed : ∀ x, state x = .done → next x ≠ [] → state (next x) = .done
  cycle : ∀ c ∈ cycles, IsCycle next nodes c ∧ ∀ x ∈ c, state x = .done
  apart : cycles.Pairwise List.Disjoint
  listed : ∀ c, IsCycle next nodes c → (∃ x ∈ c, state x = .done) → ∃ w ∈ cycles, ∀ x, x ∈ w ↔ x ∈ c

theorem Swept.extend {cycles : List (List Bytes)} {state₀ state state' : Bytes → Mark} {start : Bytes}
    (hs : Swept next nodes state₀ cycles) (h : Walk next nodes state₀ start state walk cur)
    (hstop : ¬(cur ≠ [] ∧ state cur = .new)) (hdone : ∀ x, state' x = if x ∈ walk then .done else state₀ x) :
    ∃ cycles', Swept next nodes state' cycles' ∧ cycles'.map cycleLine = cycles.map cycleLine ++
      if cur ≠ [] ∧ state cur = .onWalk then [warning (cycleNodes cur false walk ++ cur)] else [] := by
  have hmark := h.marks
  have hfresh := h.fresh
  have hsettled := hs.settled
  have hcur : cur ≠ [] → state' cur = .done := by
    have hvalue : state₀ cur = .new ∨ state₀ cur = .onWalk ∨ state₀ cur = .done := by cases state₀ cur <;> simp
    grind
  have hold : ∀ c ∈ cycles, IsCycle next nodes c ∧ ∀ x ∈ c, state' x = .done := by grind [hs.cycle]
  -- a cycle met by this walk goes through the node the walk stops at
  have hmet : ∀ c, IsCycle next nodes c → (∃ x ∈ c, state' x = .done) →
      cur ∈ c ∨ ∃ w ∈ cycles, ∀ x, x ∈ w ↔ x ∈ c := by
    rintro c hc ⟨x, hx, hxdone⟩
    by_cases hw : x ∈ walk
    · exact .inl (hc.follows_walk h.chain hw hx)
    · rw [hdone, if_neg hw] at hxdone
      exact .inr (hs.listed c hc ⟨x, hx, hxdone⟩)
  have hclosed : ∀ x, state' x = .done → next x ≠ [] → state' (next x) = .done := by
    intro x hx hne
    have hstep := @next_mem_of_chain next walk x cur h.chain
    grind [hs.closed x]
  by_cases hloop : cur ∈ walk
  · obtain ⟨pre, t, rfl⟩ := append_of_mem hloop
    have hpre : cur ∉ pre := fun hm => (nodup_append.1 h.nodup).2.2 cur hm cur mem_cons_self rfl
    have hchain := h.chain
    rw [append_assoc] at hchain
    have hc : IsCycle next nodes (cur :: t) :=
      ⟨(nodup_append.1 h.nodup).2.1, by grind, cur, t, rfl, hchain.right_of_append⟩
    refine ⟨cycles ++ [cur :: t], ⟨by grind, hclosed, by grind, ?_, fun c hc' hx => ?_⟩, ?_⟩
    · rw [pairwise_append]
      refine ⟨hs.apart, pairwise_singleton _ _, fun w hw c hmem x hx hx' => ?_⟩
      grind [hs.cycle w hw]
    · rcases hmet c hc' hx with hback | ⟨w, hw, hsame⟩
      · exact ⟨_, mem_append_right _ (mem_singleton_self _), fun y =>
          ⟨hc.subset hc' mem_cons_self hback y, hc'.subset hc hback mem_cons_self y⟩⟩
      · exact ⟨w, mem_append_left _ hw, hsame⟩
    · rw [if_pos (by grind), cycleNodes_eq pre cur t hpre, map_append]
      rfl
  · refine ⟨cycles, ⟨by grind, hclosed, hold, hs.apart, fun c hc hx => ?_⟩, by rw [if_neg (by grind), append_nil]⟩
    refine (hmet c hc hx).elim (fun hback => hs.listed c hc ⟨cur, hback, ?_⟩) id
    rw [← hcur (hc.inside cur hback).2, hdone, if_neg hloop]

section Visit

variable (hnext : ∀ x ∈ nodes, next x = [] ∨ next x ∈ nodes) {state₀ state : Bytes → Mark} {start cur : Bytes}
  {walk : List Bytes} {cycles : List (List Bytes)} {fuel : ℕ}

include hnext

theorem Walk.step (h : Walk next nodes state₀ start state walk cur) (hne : cur ≠ []) (hnew : state cur = .new) :
    Walk next nodes state₀ start (update state cur .onWalk) (walk ++ [cur]) (next cur) := by
  have hcur := h.inside.resolve_left hne
  have hmarks := h.marks
  have hnodup := h.nodup
  refine ⟨by grind, by grind [h.fresh], by grind [update_apply], ?_, mem_append_left _ h.began, hnext cur hcur⟩
  rw [append_assoc, singleton_append, isChain_split]
  exact ⟨h.chain, isChain_pair.2 rfl⟩

theorem Walk.ends (h : Walk next nodes state₀ start state walk cur) (hfuel : nodes.length < fuel + walk.length) :
    ∃ state' walk' cur', walkFrom next fuel state walk cur = some (state', walk', cur') ∧
      Walk next nodes state₀ start state' walk' cur' ∧ ¬(cur' ≠ [] ∧ state' cur' = .new) := by
  induction fuel generalizing state walk cur with
  | zero =>
    have hle := (h.nodup.subperm fun x hx => (h.fresh x hx).1).length_le
    omega
  | succ fuel ih =>
    rw [walkFrom]
    split
    · next hgo => exact ih (h.step hnext hgo.1 hgo.2) (by simp; omega)
    · next hstop => exact ⟨_, _, _, rfl, h, hstop⟩

theorem Swept.visit (hfuel : nodes.length < fuel) (hs : Swept next nodes state cycles) (hstart : start ∈ nodes) :
    ∃ state' cycles', visit next fuel (state, cycles.map cycleLine) start = some (state', cycles'.map cycleLine) ∧
      Swept next nodes state' cycles' ∧ (start ≠ [] → state' start = .done) ∧ ∀ x, state x = .done → state' x = .done := by
  unfold StaticCycles.visit
  by_cases hnew : state start = .new
  · have hwalk : Walk next nodes state start state [] start :=
      ⟨nodup_nil, nofun, fun x => by simp, isChain_singleton _, mem_singleton_self _, .inr hstart⟩
    obtain ⟨state', walk, cur, hrun, h, hstop⟩ := hwalk.ends hnext (show _ < fuel + 0 from hfuel)
    have hdone : ∀ x, walk.foldl (fun state w => update state w .done) state' x =
        if x ∈ walk then .done else state x := by
      intro x
      rw [foldl_done, h.marks]
      split <;> rfl
    obtain ⟨cycles', hswept, hlines⟩ := hs.extend h hstop hdone
    refine ⟨_, cycles', ?_, hswept, fun hne => ?_, fun x hx => ?_⟩
    · rw [if_neg (by simpa using hnew), hrun, hlines]
      simp only [Option.map_some]
      split <;> simp
    · grind [h.began, h.marks cur]
    · rw [hdone, hx, ite_self]
  · refine ⟨state, cycles, if_pos hnew, hs, fun _ => ?_, fun _ => id⟩
    have hsettled := hs.settled start
    cases hm : state start <;> simp_all

theorem Swept.sweep (hfuel : nodes.length < fuel) (hs : Swept next nodes state cycles) {starts : List Bytes}
    (hstarts : ∀ x ∈ starts, x ∈ nodes) :
    ∃ state' cycles', starts.foldlM (StaticCycles.visit next fuel) (state, cycles.map cycleLine) =
        some (state', cycles'.map cycleLine) ∧ Swept next nodes state' cycles' ∧
      (∀ x ∈ starts, x ≠ [] → state' x = .done) ∧ ∀ x, state x = .done → state' x = .done := by
  induction starts generalizing state cycles with
  | nil => exact ⟨state, cycles, rfl, hs, nofun, fun _ => id⟩
  | cons start starts ih =>
    rw [forall_mem_cons] at hstarts
    obtain ⟨state₁, cycles₁, hvisit, hs₁, hstart, hkeep₁⟩ := hs.visit hnext hfuel hstarts.1
    obtain ⟨state₂, cycles₂, hrest, hs₂, hdone, hkeep₂⟩ := ih hs₁ hstarts.2
    refine ⟨state₂, cycles₂, ?_, hs₂, ?_, fun x hx => hkeep₂ x (hkeep₁ x hx)⟩
    · rw [foldlM_cons, hvisit]
      exact hrest
    · exact forall_mem_cons.2 ⟨fun hne => hkeep₂ _ (hstart hne), hdone⟩

end Visit

/-- Every cycle of `next` is listed by exactly one warning, in order. -/
theorem warnStaticCycles_exact (next : Bytes → Bytes) (nodes : List Bytes)
    (hnext : ∀ x ∈ nodes, next x = [] ∨ next x ∈ nodes) (fuel : ℕ) (hfuel : nodes.length < fuel) :
    ∃ cycles : List (List Bytes), warnStaticCycles next nodes fuel = some (cycles.map cycleLine) ∧
      (∀ c ∈ cycles, IsCycle next nodes c) ∧ cycles.Pairwise List.Disjoint ∧
      ∀ c, IsCycle next nodes c → ∃ w ∈ cycles, ∀ x, x ∈ w ↔ x ∈ c := by
  have hstart : Swept next nodes (fun _ => .new) [] := ⟨nofun, nofun, nofun, .nil, nofun⟩
  obtain ⟨state, cycles, hrun, hs, hdone, -⟩ := hstart.sweep hnext hfuel fun _ => id
  refine ⟨cycles, by rw [warnStaticCycles, ← map_nil, hrun]; rfl, fun c hc => (hs.cycle c hc).1, hs.apart, ?_⟩
  intro c hc
  obtain ⟨x, t, rfl, -⟩ := hc.closed
  obtain ⟨hin, hne⟩ := hc.inside x mem_cons_self
  exact hs.listed _ hc ⟨x, mem_cons_self, hdone x hin hne⟩

/- A tail into a cycle of three, and a cycle of two. -/
def tailAndCycles (x : Bytes) : Bytes :=
  (([(lit "t", lit "a"), (lit "a", lit "b"), (lit "b", lit "c"), (lit "c", lit "a"), (lit "d", lit "e"),
    (lit "e", lit "d")].lookup x)).getD []

theorem warnStaticCycles_exact_twoCycles : ∃ cycles : List (List Bytes),
    cycles.map cycleLine = [warning (lit "a -> b -> c -> a"), warning (lit "d -> e -> d")] ∧
      (∀ c ∈ cycles, IsCycle tailAndCycles (["t", "a", "b", "c", "d", "e"].map lit) c) ∧ cycles.Pairwise List.Disjoint := by
  obtain ⟨cycles, hrun, hcycles, hapart, -⟩ :=
    warnStaticCycles_exact tailAndCycles (["t", "a", "b", "c", "d", "e"].map lit) (by decide +kernel) 7 (by decide)
  have hlines : warnStaticCycles tailAndCycles (["t", "a", "b", "c", "d", "e"].map lit) 7 =
      some [warning (lit "a -> b -> c -> a"), warning (lit "d -> e -> d")] := by decide +kernel
  exact ⟨cycles, Option.some.inj (hrun.symm.trans hlines), hcycles, hapart⟩

end AgentCpp.StaticCycles
