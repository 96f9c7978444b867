import AgentCpp.Graph.Drive

/-!
# Worker slots of nested fan-outs (`run_branches`)

The threads of a run form a tree: a fan-out that gets slots starts one thread for each. What a node
does inside a chain is left open, so the machine covers every graph; the branches are those of the
executor, in whatever order the threads run them.
-/

namespace AgentCpp.WorkerSlots

open Lib List Function

variable {β : Type}

/- What `run_branches` is called with: `fn(i)` runs the branch with the index `i`. -/
structure Call (β : Type) where
  which : List ℕ
  given : List β
  fn : ℕ → β → β

def Call.execute (call : Call β) (branches : List β) (i : ℕ) : List β := branches.modify i (call.fn i)

/- `for (size_t i : which) fn(i);` -/
def Call.inOrder (call : Call β) : List β := call.which.foldl call.execute call.given

/- `run_branches` with the threads that work on it; `members` are their `worker_arena_index`. -/
structure Fan (β : Type) where
  call : Call β
  branches : List β
  cursor : ℕ := 0
  slots : List ℕ
  members : List ℕ

/- What a thread is doing. -/
inductive Task (β : Type) where
  /-- between two nodes of its chain -/
  | idle
  /-- in a node that is not a Parallel node -/
  | node
  /-- in `run_branches` without slots, at the first index of `todo` -/
  | each (call : Call β) (todo : List ℕ) (branches : List β) (inner : Task β)
  /-- in `run_branches` with slots -/
  | fan (f : Fan β) (team : ℕ → Task β)
  /-- before the next `cursor++` -/
  | ready
  /-- in `fn(i)` -/
  | branch (i : ℕ) (inner : Task β)
  | gone

/- `log` has a pair for each `run_branches` that has returned: its arguments, and the branches it left. -/
structure Shared (β : Type) where
  used : ℕ → Bool := fun _ => false
  log : List (Call β × List β) := []

structure Config where
  slots : ℕ
  parallel : Bool

def acquireSlots (size : ℕ) (used : ℕ → Bool) (want : ℕ) : List ℕ := ((range size).filter (!used ·)).take want

def own (holds : Bool) (index : ℕ) : List ℕ := if holds then [index] else []

def slotsFor (cfg : Config) (holds : Bool) (index : ℕ) (which : List ℕ) (used : ℕ → Bool) : List ℕ :=
  if 1 < which.length ∧ 0 < cfg.slots ∧ cfg.parallel then
    acquireSlots cfg.slots used (which.length - (own holds index).length)
  else []

def Fan.start (holds : Bool) (index : ℕ) (call : Call β) (slots : List ℕ) : Fan β :=
  { call, branches := call.given, slots, members := own holds index ++ slots }

/- One step of one thread below (or of) a thread that `holds` a slot or not. -/
inductive Step (cfg : Config) : Bool → ℕ → Shared β → Task β → Shared β → Task β → Prop
  | start {holds index s} : Step cfg holds index s .idle s .node
  | finish {holds index s} : Step cfg holds index s .node s .idle
  | alone {holds index s} (call) (hnone : slotsFor cfg holds index call.which s.used = []) :
      Step cfg holds index s .idle s (.each call call.which call.given .idle)
  | inEach {holds index s s' call i todo branches t t'} (h : Step cfg holds index s t s' t') :
      Step cfg holds index s (.each call (i :: todo) branches t) s' (.each call (i :: todo) branches t')
  | next {holds index s call i todo branches} : Step cfg holds index s (.each call (i :: todo) branches .idle) s
      (.each call todo (call.execute branches i) .idle)
  | last {holds index s call branches} : Step cfg holds index s (.each call [] branches .idle)
      { s with log := s.log ++ [(call, branches)] } .idle
  | spread {holds index s slots} (call) (hslots : slotsFor cfg holds index call.which s.used = slots)
      (hsome : slots ≠ []) : Step cfg holds index s .idle
        { s with used := fun i => s.used i || slots.contains i }
        (.fan (Fan.start holds index call slots) fun _ => .ready)
  | take {holds index s f team k i} (hk : k < f.members.length) (ht : team k = .ready)
      (hi : f.call.which[f.cursor]? = some i) : Step cfg holds index s (.fan f team) s
        (.fan { f with cursor := f.cursor + 1 } (update team k (.branch i .idle)))
  | leave {holds index s f team k} (hk : k < f.members.length) (ht : team k = .ready)
      (hi : f.call.which.length ≤ f.cursor) : Step cfg holds index s (.fan f team) s
        (.fan { f with cursor := f.cursor + 1 } (update team k .gone))
  | inBranch {holds index s s' f team k j i t t'} (hk : f.members[k]? = some j) (ht : team k = .branch i t)
      (h : Step cfg true j s t s' t') :
      Step cfg holds index s (.fan f team) s' (.fan f (update team k (.branch i t')))
  | done {holds index s f team k i} (hk : k < f.members.length) (ht : team k = .branch i .idle) :
      Step cfg holds index s (.fan f team) s
        (.fan { f with branches := f.call.execute f.branches i } (update team k .ready))
  | join {holds index s f team} (hgone : ∀ k < f.members.length, team k = .gone) :
      Step cfg holds index s (.fan f team)
        ⟨fun i => s.used i && !f.slots.contains i, s.log ++ [(f.call, f.branches)]⟩ .idle

/- The slots of the worker threads there are, one for each. -/
def Task.held : Task β → List ℕ
  | .each _ _ _ t | .branch _ t => t.held
  | .fan f team => f.slots ++ (range f.members.length).flatMap fun k => (team k).held
  | _ => []

/- How many threads are inside a node that is not a Parallel node, with worker arena index `i`. -/
def Task.running (index i : ℕ) : Task β → ℕ
  | .node => if i = index then 1 else 0
  | .each _ _ _ t | .branch _ t => t.running index i
  | .fan f team => ((range f.members.length).map fun k => (team k).running (f.members.getD k 0) i).sum
  | _ => 0

def Task.busy : Task β → List ℕ
  | .branch i _ => [i]
  | _ => []

/- Each index taken off the cursor is being run or has been, and nobody leaves before the last one is taken. -/
structure Fan.Sound (f : Fan β) (holds : Bool) (index : ℕ) (team : ℕ → Task β) : Prop where
  members : f.members = own holds index ++ f.slots
  slots : f.slots ≠ []
  taken : ∃ ran, f.branches = ran.foldl f.call.execute f.call.given ∧
    (ran ++ (range f.members.length).flatMap fun k => (team k).busy).Perm (f.call.which.take f.cursor)
  emptied : ∀ k < f.members.length, team k = .gone → f.call.which.length ≤ f.cursor

def Task.Sound : Bool → ℕ → Task β → Prop
  | holds, index, .each call todo branches t =>
    (∃ ran, ran ++ todo = call.which ∧ branches = ran.foldl call.execute call.given) ∧ t.Sound holds index
  | holds, index, .branch _ t => t.Sound holds index
  | holds, index, .fan f team => f.Sound holds index team ∧ ∀ k j, f.members[k]? = some j → (team k).Sound true j
  | _, _, _ => True

/- The table of used slots and who holds them. -/
structure SlotTable (size : ℕ) (used : ℕ → Bool) (held : List ℕ) : Prop where
  nodup : held.Nodup
  used_iff : ∀ i, used i = true ↔ i ∈ held
  lt : ∀ i ∈ held, i < size

variable {cfg : Config} {holds : Bool} {index size : ℕ} {s s' : Shared β} {t t' : Task β} {f : Fan β}
  {team : ℕ → Task β} {k j : ℕ} {used used' : ℕ → Bool} {x y : List ℕ}

theorem SlotTable.perm (h : SlotTable size used x) (hp : x.Perm y) : SlotTable size used y :=
  ⟨hp.nodup_iff.1 h.nodup, fun i => (h.used_iff i).trans hp.mem_iff, fun i hi => h.lt i (hp.mem_iff.2 hi)⟩

theorem SlotTable.acquire (h : SlotTable size used x) (hy : y.Nodup) (hfree : ∀ i ∈ y, i < size ∧ used i = false) :
    SlotTable size (fun i => used i || y.contains i) (x ++ y) := by
  refine ⟨nodup_append.2 ⟨h.nodup, hy, ?_⟩, fun i => by simp [h.used_iff], ?_⟩
  · rintro i hi _ hmem rfl
    exact absurd ((h.used_iff i).2 hi) (by simp [hfree i hmem])
  · exact forall_mem_append.2 ⟨h.lt, fun i hi => (hfree i hi).1⟩

theorem SlotTable.release (h : SlotTable size used (x ++ y)) : SlotTable size (fun i => used i && !y.contains i) x := by
  obtain ⟨hx, -, hapart⟩ := nodup_append.1 h.nodup
  refine ⟨hx, fun i => ?_, fun i hi => h.lt i (mem_append_left _ hi)⟩
  have hi := hapart i
  simp only [Bool.and_eq_true, h.used_iff, mem_append, Bool.not_eq_true', contains_eq_mem, decide_eq_false_iff_not]
  grind

/- Whatever else is held, the table stays right when a thread goes from holding `x` to holding `y`. -/
def Keeps (size : ℕ) (used : ℕ → Bool) (x : List ℕ) (used' : ℕ → Bool) (y : List ℕ) : Prop :=
  ∀ others, SlotTable size used (others ++ x) → SlotTable size used' (others ++ y)

theorem Keeps.refl (x : List ℕ) : Keeps size used x used x := fun _ => id

theorem flatMap_update {n : ℕ} (hk : k < n) (g : Task β → List ℕ) (team : ℕ → Task β) (t : Task β) :
    ((range n).flatMap fun i => g (update team k t i)).Perm
      (g t ++ ((range n).erase k).flatMap fun i => g (team i)) := by
  refine ((perm_cons_erase (mem_range.2 hk)).flatMap_right _).trans ?_
  rw [flatMap_cons, update_self]
  refine (Perm.of_eq ?_).append_left _
  refine flatMap_congr fun i hi => ?_
  rw [update_of_ne (nodup_range.mem_erase_iff.1 hi).1]

theorem Fan.Sound.put (hf : f.Sound holds index team) (hteam : ∀ k j, f.members[k]? = some j → (team k).Sound true j)
    (hk : f.members[k]? = some j) (ht : t.Sound true j) {cursor : ℕ} {branches : List β} (hcursor : f.cursor ≤ cursor)
    (htaken : ∀ ran rest, f.branches = ran.foldl f.call.execute f.call.given →
      (ran ++ ((team k).busy ++ rest)).Perm (f.call.which.take f.cursor) →
      ∃ ran', branches = ran'.foldl f.call.execute f.call.given ∧
        (ran' ++ (t.busy ++ rest)).Perm (f.call.which.take cursor))
    (hgone : t = .gone → f.call.which.length ≤ cursor) (hkeeps : Keeps size used (team k).held used' t.held) :
    (Task.fan { f with cursor, branches } (update team k t)).Sound holds index ∧
      Keeps size used (Task.fan f team).held used' (Task.fan { f with cursor, branches } (update team k t)).held := by
  have hlt : k < f.members.length := (List.getElem?_eq_some_iff.1 hk).1
  have hsame : update team k (team k) = team := update_eq_self k team
  have hbusy := flatMap_update hlt Task.busy team (team k)
  have hheld := flatMap_update hlt Task.held team (team k)
  rw [hsame] at hbusy hheld
  obtain ⟨ran, hran, hperm⟩ := hf.taken
  obtain ⟨ran', hran', hperm'⟩ := htaken ran _ hran ((hbusy.symm.append_left ran).trans hperm)
  refine ⟨⟨⟨hf.members, hf.slots, ⟨ran', hran', ?_⟩, fun i hi => ?_⟩, fun i j' hi => ?_⟩, fun others h => ?_⟩
  · exact ((flatMap_update hlt Task.busy team t).append_left ran').trans hperm'
  · rw [update_apply]
    split
    · exact hgone
    · exact fun hi' => (hf.emptied i hi hi').trans hcursor
  · rw [update_apply]
    split
    · next heq =>
      subst heq
      cases hk.symm.trans hi
      exact ht
    · exact hteam i j' hi
  · -- to the thread itself, what the others of the fan-out hold is held elsewhere
    have hregroup : ∀ l : List ℕ,
        (others ++ (f.slots ++ (l ++ ((range f.members.length).erase k).flatMap fun i => (team i).held))).Perm
          (others ++ f.slots ++ (((range f.members.length).erase k).flatMap fun i => (team i).held) ++ l) := by
      intro l
      simp only [append_assoc]
      exact (perm_append_comm.append_left _).append_left _
    have hinner := hkeeps _ (h.perm (((hheld.append_left _).append_left _).trans (hregroup _)))
    exact hinner.perm ((((flatMap_update hlt Task.held team t).append_left _).append_left _).trans (hregroup _)).symm

/- The slots that a run can get at all. -/
def Config.capacity (cfg : Config) : ℕ := if cfg.parallel then cfg.slots else 0

theorem slotsFor_free (which : List ℕ) : (slotsFor cfg holds index which used).Nodup ∧
    ∀ i ∈ slotsFor cfg holds index which used, i < cfg.capacity ∧ used i = false := by
  unfold slotsFor acquireSlots Config.capacity
  split
  · next hparallel =>
    rw [if_pos hparallel.2.2]
    refine ⟨(nodup_range.filter _).sublist (take_sublist _ _), fun i hi => ?_⟩
    simpa using mem_of_mem_take hi
  · exact ⟨nodup_nil, nofun⟩

/- Each call that has returned has left the branches as if it had run them one after another. -/
def Complete (log : List (Call β × List β)) : Prop := ∀ r ∈ log, r.2 = r.1.inOrder

theorem Complete.append {log : List (Call β × List β)} (h : Complete log) {call : Call β} {branches : List β}
    (hx : branches = call.inOrder) : Complete (log ++ [(call, branches)]) :=
  forall_mem_append.2 ⟨h, forall_mem_singleton.2 hx⟩

theorem Call.execute_comm (call : Call β) (branches : List β) (i j : ℕ) :
    call.execute (call.execute branches i) j = call.execute (call.execute branches j) i := by
  unfold Call.execute
  by_cases hij : i = j
  · rw [hij]
  · refine List.ext_getElem? fun n => ?_
    simp only [getElem?_modify]
    grind

theorem Call.foldl_perm (call : Call β) {ran : List ℕ} (h : ran.Perm call.which) :
    ran.foldl call.execute call.given = call.inOrder :=
  h.foldl_eq' (fun i _ j _ branches => call.execute_comm branches i j) _

theorem Step.sound (h : Step cfg holds index s t s' t') (ht : t.Sound holds index) (hlog : Complete s.log) :
    t'.Sound holds index ∧ Keeps cfg.capacity s.used t.held s'.used t'.held ∧ Complete s'.log := by
  induction h with
  | start => exact ⟨trivial, .refl _, hlog⟩
  | finish => exact ⟨trivial, .refl _, hlog⟩
  | alone call hnone => exact ⟨⟨⟨[], rfl, rfl⟩, trivial⟩, .refl _, hlog⟩
  | inEach _ ih =>
    obtain ⟨hsound, hkeeps, hlog'⟩ := ih ht.2 hlog
    exact ⟨⟨ht.1, hsound⟩, hkeeps, hlog'⟩
  | @next _ _ _ call i todo branches =>
    obtain ⟨⟨ran, hran, rfl⟩, -⟩ := ht
    refine ⟨⟨⟨ran ++ [i], by rw [← hran, append_assoc]; rfl, ?_⟩, trivial⟩, .refl _, hlog⟩
    rw [foldl_append]
    rfl
  | @last _ _ _ call branches =>
    obtain ⟨⟨ran, hran, hbranches⟩, -⟩ := ht
    rw [append_nil] at hran
    exact ⟨trivial, .refl _, hlog.append (by rw [hbranches, hran]; rfl)⟩
  | @spread holds index s slots call hslots hsome =>
    obtain ⟨hnodup, hfree⟩ := @slotsFor_free cfg holds index s.used call.which
    rw [hslots] at hnodup hfree
    refine ⟨⟨⟨rfl, hsome, ⟨[], rfl, ?_⟩, nofun⟩, fun _ _ _ => trivial⟩, fun others h => ?_, hlog⟩
    · simp [Task.busy, Fan.start]
    · have hheld : (Task.fan (Fan.start holds index call slots) fun _ => .ready).held = slots := by
        simp [Task.held, Fan.start]
      rw [hheld]
      simp only [Task.held, append_nil] at h
      exact h.acquire hnodup hfree
  | @take _ _ _ f team k i hk hr hi =>
    have hmember : f.members[k]? = some f.members[k] := getElem?_eq_getElem hk
    refine (ht.1.put ht.2 hmember (t := .branch i .idle) trivial (Nat.le_succ _) (fun ran rest hran hrest => ?_) nofun
      (by rw [hr]; exact .refl _)).imp_right fun hkeeps => ⟨hkeeps, hlog⟩
    refine ⟨ran, hran, ?_⟩
    rw [hr] at hrest
    rw [take_add_one, hi]
    exact (perm_append_comm.append_left _).trans (by rw [← append_assoc]; exact hrest.append_right _)
  | @leave _ _ _ f team k hk hr hi =>
    have hmember : f.members[k]? = some f.members[k] := getElem?_eq_getElem hk
    refine (ht.1.put ht.2 hmember (t := .gone) trivial (Nat.le_succ _) (fun ran rest hran hrest => ⟨ran, hran, ?_⟩)
      (fun _ => Nat.le_succ_of_le hi) (by rw [hr]; exact .refl _)).imp_right fun hkeeps => ⟨hkeeps, hlog⟩
    rw [hr, take_of_length_le hi] at hrest
    rwa [take_of_length_le (Nat.le_succ_of_le hi)]
  | @inBranch _ _ s _ f _ k j _ t _ hk hr _ ih =>
    have hinner := ht.2 k j hk
    rw [hr] at hinner
    obtain ⟨hsound, hkeeps, hlog'⟩ := ih hinner hlog
    exact (ht.1.put ht.2 hk (t := .branch _ _) hsound le_rfl
      (fun ran rest hran hrest => ⟨ran, hran, by rwa [hr] at hrest⟩) nofun
      (by rw [hr]; exact hkeeps)).imp_right fun hkeeps => ⟨hkeeps, hlog'⟩
  | @done _ _ _ f team k i hk hr =>
    have hmember : f.members[k]? = some f.members[k] := getElem?_eq_getElem hk
    refine (ht.1.put ht.2 hmember (t := .ready) trivial le_rfl (fun ran rest hran hrest => ⟨ran ++ [i], ?_, ?_⟩) nofun
      (by rw [hr]; exact .refl _)).imp_right fun hkeeps => ⟨hkeeps, hlog⟩
    · rw [foldl_append, ← hran]
      rfl
    · rw [hr] at hrest
      rwa [append_assoc]
  | @join _ _ _ f team hgone =>
    have hnone : ∀ g : Task β → List ℕ, g .gone = [] → (range f.members.length).flatMap (fun k => g (team k)) = [] :=
      fun g hg => flatMap_eq_nil_iff.2 fun k hk => by rw [hgone k (mem_range.1 hk), hg]
    have hmember : 0 < f.members.length := by
      rw [ht.1.members, length_append]
      exact Nat.add_pos_right _ (length_pos_iff.2 ht.1.slots)
    obtain ⟨ran, hran, htaken⟩ := ht.1.taken
    rw [hnone Task.busy rfl, append_nil, take_of_length_le (ht.1.emptied 0 hmember (hgone 0 hmember))] at htaken
    refine ⟨trivial, fun others h => ?_, hlog.append (by rw [hran, f.call.foldl_perm htaken])⟩
    rw [Task.held, hnone Task.held rfl, append_nil] at h
    simpa [Task.held] using h.release

theorem sum_count (l : List ℕ) (g : ℕ → List ℕ) (i : ℕ) :
    ((range l.length).map fun k => (l.getD k 0 :: g k).count i).sum = (l ++ (range l.length).flatMap g).count i := by
  induction l generalizing g with
  | nil => rfl
  | cons j l ih =>
    have hrest := ih fun k => g (k + 1)
    rw [length_cons, range_succ_eq_map, map_cons, sum_cons, map_map, flatMap_cons, flatMap_map]
    simp only [comp_def, Nat.succ_eq_add_one, getD_cons_succ, getD_cons_zero, cons_append, count_append, count_cons]
      at hrest ⊢
    omega

/- A thread without a slot runs nodes itself only where no fan-out below it is open. -/
theorem running_le (ht : t.Sound holds index) (i : ℕ) :
    t.running index i ≤ (own holds index ++ t.held).count i ∨ holds = false ∧ t.running index i ≤ 1 := by
  induction t generalizing holds index with
  | node => cases holds <;> by_cases hi : i = index <;> simp [Task.running, own, hi]
  | each _ _ _ t ih => exact ih ht.2
  | branch _ t ih => exact ih ht
  | fan f team ih =>
    have hsum : ((range f.members.length).map fun k => (team k).running (f.members.getD k 0) i).sum ≤
        ((range f.members.length).map fun k => (f.members.getD k 0 :: (team k).held).count i).sum := by
      refine sum_le_sum fun k hk => ?_
      have hmember : f.members[k]? = some (f.members.getD k 0) := by
        rw [getD_eq_getElem _ _ (mem_range.1 hk), getElem?_eq_getElem]
      exact (ih k (ht.2 k _ hmember)).resolve_right nofun
    rw [sum_count f.members, ht.1.members] at hsum
    exact .inl (by simpa [Task.running, Task.held, ht.1.members] using hsum)
  | _ => simp [Task.running]

/-- The states of a run: the table is its own, the thread it is called on may hold a slot of another run. -/
inductive Reached (cfg : Config) (holds : Bool) (index : ℕ) : Shared β → Task β → Prop
  | start : Reached cfg holds index {} .idle
  | step {s s' : Shared β} {t t' : Task β} (h : Reached cfg holds index s t) (hstep : Step cfg holds index s t s' t') :
      Reached cfg holds index s' t'

theorem Reached.sound (h : Reached cfg holds index s t) :
    t.Sound holds index ∧ SlotTable cfg.capacity s.used t.held ∧ Complete s.log := by
  induction h with
  | start => exact ⟨trivial, ⟨nodup_nil, by simp [Task.held], nofun⟩, nofun⟩
  | step _ hstep ih =>
    obtain ⟨hsound, htable, hlog⟩ := ih
    obtain ⟨hsound', hkeeps, hlog'⟩ := hstep.sound hsound hlog
    exact ⟨hsound', hkeeps [] htable, hlog'⟩

theorem Reached.running_le_one (h : Reached cfg holds index s t) (hstart : holds = false ∨ cfg.capacity ≤ index)
    (i : ℕ) : t.running index i ≤ 1 := by
  obtain ⟨hsound, htable, -⟩ := h.sound
  refine (running_le hsound i).elim (fun hle => hle.trans (nodup_iff_count_le_one.1 ?_ i)) And.right
  cases holds with
  | false => exact htable.nodup
  | true =>
    refine nodup_cons.2 ⟨fun hmem => ?_, htable.nodup⟩
    have hlt := htable.lt index hmem
    have hge := hstart.resolve_left nofun
    omega

theorem two_le_running {i l : ℕ} (hkl : k ≠ l) (hk : k < f.members.length) (hl : l < f.members.length)
    (hrun : ∀ n, n = k ∨ n = l → (team n).running (f.members.getD n 0) i = 1) :
    2 ≤ (Task.fan f team).running index i := by
  have hrest : l ∈ (range f.members.length).erase k := nodup_range.mem_erase_iff.2 ⟨hkl.symm, mem_range.2 hl⟩
  have hfirst := sum_map_erase (fun n => (team n).running (f.members.getD n 0) i) (mem_range.2 hk)
  have hsecond := sum_map_erase (fun n => (team n).running (f.members.getD n 0) i) hrest
  rw [hrun k (Or.inl rfl)] at hfirst
  rw [hrun l (Or.inr rfl)] at hsecond
  rw [Task.running]
  omega

theorem Reached.inBranch (h : Reached cfg holds index s (.fan f team)) (hk : f.members[k]? = some j) {i : ℕ}
    (ht : team k = .branch i t) (hstep : Step cfg true j s t s' t') :
    Reached cfg holds index s' (.fan f (update team k (.branch i t'))) := h.step (.inBranch hk ht hstep)

/- A run that is called on a worker takes the worker's own slot once more, as its table is empty, and the
thread works beside the one it has started for it. -/
theorem exists_shared (hlt : index < cfg.capacity) :
    ∃ (s : Shared β) (t : Task β), Reached cfg true index s t ∧ 2 ≤ t.running index index := by
  let call : Call β := ⟨range (index + 2), [], fun _ b => b⟩
  have hcapacity : cfg.parallel = true ∧ index < cfg.slots := by
    unfold Config.capacity at hlt
    split at hlt
    · next hparallel => exact ⟨hparallel, hlt⟩
    · cases hlt
  have hslots : slotsFor cfg true index call.which (fun _ => false) = range (index + 1) := by
    have hmany : 1 < (range (index + 2)).length ∧ 0 < cfg.slots ∧ cfg.parallel := by
      rw [length_range]
      exact ⟨by omega, by omega, hcapacity.1⟩
    have hfree : (range cfg.slots).filter (fun _ => !false) = range cfg.slots := filter_eq_self.2 fun _ _ => rfl
    have hwant : min (index + 2 - 1) cfg.slots = index + 1 := by omega
    unfold slotsFor acquireSlots
    rw [if_pos hmany, hfree, take_range, length_range]
    exact congrArg range hwant
  have hmembers : (Fan.start true index call (range (index + 1))).members = index :: range (index + 1) := rfl
  have hlength : (Fan.start true index call (range (index + 1))).members.length = index + 2 := by
    rw [hmembers, length_cons, length_range]
  have hlast : (index :: range (index + 1))[index + 1]? = some index := by
    rw [getElem?_cons_succ, getElem?_range (Nat.lt_succ_self _)]
  have hne : index + 1 ≠ 0 := Nat.succ_ne_zero _
  have hfan : Reached cfg true index _ (.fan (Fan.start true index call (range (index + 1))) fun _ => .ready) :=
    .step .start (.spread call hslots (by rw [range_succ]; simp))
  have htaken := hfan.step (.take (k := 0) (i := 0) (by rw [hlength]; omega) rfl
    (getElem?_range (Nat.succ_pos _)))
  have htaken' := htaken.step (.take (k := index + 1) (i := 1) (by rw [hlength]; omega) (update_of_ne hne ..)
    (getElem?_range (Nat.succ_lt_succ (Nat.succ_pos _))))
  have hnode := htaken'.inBranch (k := 0) (j := index) rfl
    ((update_of_ne hne.symm ..).trans (update_self ..)) .start
  have hnode' := hnode.inBranch (k := index + 1) (j := index) hlast
    ((update_of_ne hne ..).trans (update_self ..)) .start
  refine ⟨_, _, hnode', two_le_running hne.symm (by rw [hlength]; omega) (by rw [hlength]; omega) ?_⟩
  rintro n (rfl | rfl)
  · rw [update_of_ne hne.symm, update_self]
    exact if_pos rfl
  · rw [update_self]
    exact if_pos (by rw [hmembers, getD_eq_getElem?_getD, hlast]; rfl)

/-- In every interleaving a run has at most as many workers as there are slots, every call of `run_branches` that has
returned has run each branch it was given once, and in the end all slots are free. No two threads run nodes with the
same worker arena index, for all graphs, exactly if the thread the run is called on holds no slot that the run can take
as well. -/
theorem worker_slots_exclusive (cfg : Config) (holds : Bool) (index : ℕ) :
    (∀ (s : Shared β) t, Reached cfg holds index s t →
      t.held.length ≤ cfg.slots ∧ (∀ r ∈ s.log, r.2 = r.1.inOrder) ∧ (t = .idle → ∀ i, s.used i = false)) ∧
    ((∀ (s : Shared β) t, Reached cfg holds index s t → ∀ i, t.running index i ≤ 1) ↔
      holds = false ∨ cfg.capacity ≤ index) := by
  refine ⟨fun s t h => ?_, fun hall => ?_, fun hstart s t h => h.running_le_one hstart⟩
  · obtain ⟨-, htable, hlog⟩ := h.sound
    refine ⟨?_, hlog, ?_⟩
    · have hle := (htable.nodup.subperm fun i hi => mem_range.2 (htable.lt i hi)).length_le
      rw [length_range] at hle
      refine hle.trans ?_
      unfold Config.capacity
      split <;> omega
    · rintro rfl i
      have hused := htable.used_iff i
      simpa [Task.held] using hused
  · by_contra hshared
    simp only [not_or, Bool.not_eq_false, Nat.not_le] at hshared
    obtain ⟨rfl, hlt⟩ := hshared
    obtain ⟨s, t, hreached, htwo⟩ := exists_shared (β := β) hlt
    have := hall s t hreached index
    omega

/- A worker with index 0 is inside of a node, from which it may call `run_graph`: in that run two threads
have the index 0. -/
theorem worker_slots_shared_by_nested_run :
    (∃ (s : Shared Unit) (f : Fan Unit) (team : ℕ → Task Unit) (i : ℕ), Reached ⟨2, true⟩ false 0 s (.fan f team) ∧
      f.members[0]? = some 0 ∧ team 0 = .branch i .node) ∧
    ∃ (s : Shared Unit) (t : Task Unit), Reached ⟨2, true⟩ true 0 s t ∧ 2 ≤ t.running 0 0 := by
  refine ⟨?_, exists_shared (by decide)⟩
  have hfan : Reached ⟨2, true⟩ false 0 _ (.fan (Fan.start false 0 ⟨[0, 1], [(), ()], fun _ => id⟩ [0, 1])
    fun _ => .ready) :=
    .step .start (.spread _ rfl (by decide))
  have htaken := hfan.step (.take (k := 0) (i := 0) (by decide) rfl rfl)
  exact ⟨_, _, _, 0, htaken.inBranch (j := 0) rfl (update_self ..) .start, rfl, update_self ..⟩

section Executor

variable {τ : Type} (env : Env τ) (graph : Graph) (runNode : NodeRunner τ) (pos : Pos) (node : GraphNode)

def toRun (branches : List (Branch τ)) : List ℕ :=
  (range branches.length).filter fun i => (branches[i]?.map (·.run)).getD false

/- The call that `run_parallel_node` makes. -/
def parallelCall (branches : List (Branch τ)) : Call (Branch τ) where
  which := toRun branches
  given := branches
  fn i b := runBranch env graph runNode (i :: pos) node.name graph.maxSteps.toNat b.resume b.next b

theorem getElem?_foldl_execute (call : Call β) {which : List ℕ} (hwhich : which.Nodup) (given : List β) (n : ℕ) :
    (which.foldl call.execute given)[n]? = if n ∈ which then given[n]?.map (call.fn n) else given[n]? := by
  induction which generalizing given with
  | nil => rfl
  | cons i which ih =>
    obtain ⟨hi, hrest⟩ := nodup_cons.1 hwhich
    rw [foldl_cons, ih hrest, Call.execute, getElem?_modify]
    by_cases hn : n = i
    · subst hn
      simp [hi]
    · have hother : ¬ i = n := fun h => hn h.symm
      simp [hn, hother]

theorem parallelCall_inOrder (branches : List (Branch τ)) : (parallelCall env graph runNode pos node branches).inOrder =
    branches.mapIdx fun i b => runOpened env graph runNode (i :: pos) node.name b := by
  refine List.ext_getElem? fun n => ?_
  have hnodup : (parallelCall env graph runNode pos node branches).which.Nodup := nodup_range.filter _
  rw [Call.inOrder, getElem?_foldl_execute _ hnodup, getElem?_mapIdx]
  cases hn : branches[n]? with
  | none => simp [parallelCall, hn]
  | some b =>
    have hlt := (List.getElem?_eq_some_iff.1 hn).1
    have hmem : n ∈ (parallelCall env graph runNode pos node branches).which ↔ b.run = true := by
      rw [show (parallelCall env graph runNode pos node branches).which = toRun branches from rfl, toRun, mem_filter,
        mem_range, hn]
      exact and_iff_right hlt
    simp only [hmem, Option.map_some, runOpened]
    split
    · simp [parallelCall, hn]
    · exact hn

/-- However the threads of a fan-out of the top-level chain are scheduled, it leaves the branches of the executor. -/
theorem trackedBranches_any_schedule {s : Shared (Branch τ)} {t : Task (Branch τ)} (h : Reached cfg holds index s t)
    (progress : ParallelProgress) (c : RunCtx τ) {branches : List (Branch τ)}
    (hlog : (parallelCall env graph runNode pos node (progress.branches.mapIdx fun i record =>
      openBranch env (i :: pos) c.run.state.values c.branchResume record), branches) ∈ s.log) :
    branches = trackedBranches env graph runNode pos node progress c := by
  have hinOrder : branches = _ := h.sound.2.2 _ hlog
  rw [hinOrder, parallelCall_inOrder, mapIdx_mapIdx]
  rfl

theorem nestedBranches_any_schedule {s : Shared (Branch τ)} {t : Task (Branch τ)} (h : Reached cfg holds index s t)
    (values : Table Bytes) {branches : List (Branch τ)}
    (hlog : (parallelCall env graph runNode pos node (node.branches.map (freshBranch values)), branches) ∈ s.log) :
    branches = nestedBranches env graph runNode pos node values := by
  have hinOrder : branches = _ := h.sound.2.2 _ hlog
  rw [hinOrder, parallelCall_inOrder, nestedBranches]
  refine List.ext_getElem? fun n => ?_
  rw [getElem?_mapIdx, getElem?_mapIdx, getElem?_map, Option.map_map]
  rfl

end Executor

end AgentCpp.WorkerSlots
