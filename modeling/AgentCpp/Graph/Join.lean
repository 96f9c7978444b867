import AgentCpp.Graph.Executor

/-!
# The join of a fan-out

`run_parallel_node` finds the owner of every written key and of every history in two passes
over the branches and then copies the owned entries.
-/

namespace AgentCpp
open Lib List Option Table

variable {τ : Type}

def WritesCollide (branches : List (Branch τ)) : Prop :=
  ∃ (i j : ℕ) (a b : Branch τ) (key : Bytes), i ≠ j ∧ branches[i]? = some a ∧ branches[j]? = some b ∧
    key ∈ a.chain.writes ∧ key ∈ b.chain.writes

def HistoriesCollide (branches : List (Branch τ)) : Prop :=
  ∃ (i j : ℕ) (a b : Branch τ) (name : Bytes), i ≠ j ∧ branches[i]? = some a ∧ branches[j]? = some b ∧
    name ∈ a.chain.state.histories ∧ name ∈ b.chain.state.histories

def claimsOf (keys : Branch τ → List Bytes) (branches : List (Branch τ)) : List (Bytes × ℕ) :=
  branches.zipIdx.flatMap fun (b, i) => (keys b).map fun key => (key, i)

theorem mem_claimsOf (keys : Branch τ → List Bytes) (branches : List (Branch τ)) (key : Bytes) (i : ℕ) :
    (key, i) ∈ claimsOf keys branches ↔ ∃ b, branches[i]? = some b ∧ key ∈ keys b := by
  unfold claimsOf
  rw [mem_flatMap]
  constructor
  · rintro ⟨⟨b, j⟩, hb, hclaim⟩
    obtain ⟨k, hk, he⟩ := mem_map.1 hclaim
    cases he
    exact ⟨b, mk_mem_zipIdx_iff_getElem?.1 hb, hk⟩
  · rintro ⟨b, hb, hk⟩
    exact ⟨(b, i), mk_mem_zipIdx_iff_getElem?.2 hb, mem_map.2 ⟨key, hk, rfl⟩⟩

theorem foldlM_claimsOf (keys : Branch τ → List Bytes) (claim : ℕ → Table ℕ → Bytes → Result (Table ℕ))
    (l : List (Branch τ × ℕ)) (owners : Table ℕ) :
    l.foldlM (fun owners (b, i) => (keys b).foldlM (claim i) owners) owners =
      (l.flatMap fun (b, i) => (keys b).map fun key => (key, i)).foldlM
        (fun owners p => claim p.2 owners p.1) owners := by
  induction l generalizing owners with
  | nil => rfl
  | cons p l ih =>
    rw [foldlM_cons, flatMap_cons, foldlM_append, foldlM_map]
    simp only [ih]

variable (node : GraphNode) (branches : List (Branch τ)) (owners : Table ℕ)

theorem keyOwners_eq : keyOwners node branches = (claimsOf (fun b => b.chain.writes) branches).foldlM
      (fun owners p => claimKey node p.2 owners p.1) ∅ :=
  foldlM_claimsOf (fun b => b.chain.writes) (claimKey node) branches.zipIdx ∅

theorem historyOwners_eq :
    historyOwners node branches = (claimsOf (fun b => b.chain.state.histories.keys) branches).foldlM
      (fun owners p => claimHistory node p.2 owners p.1) ∅ :=
  foldlM_claimsOf (fun b => b.chain.state.histories.keys) (claimHistory node) branches.zipIdx ∅

def Owns (owners : Table ℕ) (claims : List (Bytes × ℕ)) : Prop :=
  ∀ key i, owners[key]? = some i ↔ (key, i) ∈ claims

theorem owns_empty : Owns ∅ [] := by
  intro key i
  simp

theorem claimKey_owns (i : ℕ) (owners : Table ℕ) (key : Bytes) (claims : List (Bytes × ℕ)) (h : Owns owners claims) :
    (∀ owners', claimKey node i owners key = .ok owners' → Owns owners' (claims ++ [(key, i)])) ∧
      ((∀ j, (key, j) ∈ claims → j = i) → ∃ owners', claimKey node i owners key = .ok owners') := by
  unfold claimKey
  cases ho : owners[key]? with
  | none =>
    refine ⟨?_, fun _ => ⟨_, rfl⟩⟩
    intro owners' heq
    cases heq
    intro k j
    rw [get_insert, mem_append, ← h k j]
    by_cases hk : key = k
    · subst hk
      rw [ho]
      simp [eq_comm]
    · rw [if_neg hk]
      simp [Ne.symm hk]
  | some j =>
    have hmem := (h key j).1 ho
    simp only
    split
    · next hji =>
      subst hji
      refine ⟨?_, fun _ => ⟨_, rfl⟩⟩
      intro owners' heq
      cases heq
      intro k l
      rw [h k l, mem_append, mem_singleton]
      refine ⟨Or.inl, fun hor => hor.elim id ?_⟩
      intro heq
      rw [heq]
      exact hmem
    · next hji =>
      refine ⟨fun owners' heq => (by cases heq), fun hall => absurd (hall j hmem) hji⟩

theorem claimKeys_owns (l seen : List (Bytes × ℕ)) (owners owners' : Table ℕ) (h : Owns owners seen)
    (hl : l.foldlM (fun owners p => claimKey node p.2 owners p.1) owners = .ok owners') :
    Owns owners' (seen ++ l) := by
  induction l generalizing seen owners with
  | nil =>
    cases hl
    rw [append_nil]
    exact h
  | cons p l ih =>
    obtain ⟨next, hnext, hrest⟩ := bind_eq_ok.1 hl
    have hn := (claimKey_owns node p.2 owners p.1 seen h).1 next hnext
    have hr := ih _ _ hn hrest
    rw [append_assoc] at hr
    exact hr

theorem claimKeys_ok (l seen : List (Bytes × ℕ)) (owners : Table ℕ) (h : Owns owners seen)
    (hone : ∀ key i j, (key, i) ∈ seen ++ l → (key, j) ∈ seen ++ l → i = j) :
    ∃ owners', l.foldlM (fun owners p => claimKey node p.2 owners p.1) owners = .ok owners' := by
  induction l generalizing seen owners with
  | nil => exact ⟨owners, rfl⟩
  | cons p l ih =>
    obtain ⟨hown, hok⟩ := claimKey_owns node p.2 owners p.1 seen h
    obtain ⟨next, hnext⟩ := hok fun j hj => hone p.1 j p.2 (by simp [hj]) (by simp)
    have hassoc : seen ++ [p] ++ l = seen ++ p :: l := by simp
    obtain ⟨owners', howners⟩ := ih (seen ++ [p]) next (hown next hnext) (by rw [hassoc]; exact hone)
    refine ⟨owners', ?_⟩
    rw [foldlM_cons, hnext]
    exact howners

theorem keyOwners_spec (h : keyOwners node branches = .ok owners) (key : Bytes) (i : ℕ) :
    owners[key]? = some i ↔ ∃ b, branches[i]? = some b ∧ key ∈ b.chain.writes := by
  rw [keyOwners_eq] at h
  have hown := claimKeys_owns node _ [] ∅ owners owns_empty h
  rw [hown key i, nil_append, mem_claimsOf]

theorem keyOwners_ok : (∃ owners, keyOwners node branches = .ok owners) ↔ ¬WritesCollide branches := by
  constructor
  · rintro ⟨owners, h⟩ ⟨i, j, a, b, key, hij, ha, hb, hka, hkb⟩
    have hi := (keyOwners_spec node branches owners h key i).2 ⟨a, ha, hka⟩
    have hj := (keyOwners_spec node branches owners h key j).2 ⟨b, hb, hkb⟩
    exact hij (Option.some.inj (hi.symm.trans hj))
  · intro hcollide
    rw [keyOwners_eq]
    refine claimKeys_ok node _ [] ∅ owns_empty fun key i j hi hj => ?_
    rw [nil_append] at hi hj
    obtain ⟨a, ha, hka⟩ := (mem_claimsOf _ _ _ _).1 hi
    obtain ⟨b, hb, hkb⟩ := (mem_claimsOf _ _ _ _).1 hj
    by_contra hij
    exact hcollide ⟨i, j, a, b, key, hij, ha, hb, hka, hkb⟩

/- A history may be claimed once; within one branch the names differ anyway. -/
theorem claimHistories_ok (l : List (Bytes × ℕ)) (owners : Table ℕ) :
    (∃ owners', l.foldlM (fun owners p => claimHistory node p.2 owners p.1) owners = .ok owners') ↔
      (l.map Prod.fst).Nodup ∧ ∀ p ∈ l, owners[p.1]? = none := by
  induction l generalizing owners with
  | nil => exact iff_of_true ⟨owners, rfl⟩ ⟨List.nodup_nil, by simp⟩
  | cons p l ih =>
    have hstep : (∃ owners', (p :: l).foldlM (fun owners p => claimHistory node p.2 owners p.1) owners =
        .ok owners') ↔ ∃ next, claimHistory node p.2 owners p.1 = .ok next ∧
          ∃ owners', l.foldlM (fun owners p => claimHistory node p.2 owners p.1) next = .ok owners' := by
      constructor
      · rintro ⟨owners', h⟩
        obtain ⟨next, hnext, hrest⟩ := bind_eq_ok.1 h
        exact ⟨next, hnext, owners', hrest⟩
      · rintro ⟨next, hnext, owners', hrest⟩
        refine ⟨owners', ?_⟩
        rw [List.foldlM_cons, hnext]
        exact hrest
    rw [hstep]
    cases ho : owners[p.1]? with
    | none =>
      have hclaim : claimHistory node p.2 owners p.1 = .ok (owners.insert p.1 p.2) := by
        unfold claimHistory
        rw [ho]
      simp only [hclaim, Except.ok.injEq, exists_eq_left', ih, get_insert, List.map_cons,
        List.nodup_cons, List.forall_mem_cons, ho, true_and, List.mem_map, not_exists, not_and]
      constructor
      · rintro ⟨hnodup, hall⟩
        refine ⟨⟨fun q hq he => ?_, hnodup⟩, fun q hq => ?_⟩
        · have := hall q hq
          rw [if_pos he.symm] at this
          cases this
        · have := hall q hq
          split at this
          · cases this
          · exact this
      · rintro ⟨⟨hfresh, hnodup⟩, hall⟩
        refine ⟨hnodup, fun q hq => ?_⟩
        rw [if_neg (fun he => hfresh q hq he.symm)]
        exact hall q hq
    | some j =>
      refine iff_of_false ?_ ?_
      · rintro ⟨next, hnext, -⟩
        unfold claimHistory at hnext
        rw [ho] at hnext
        cases hnext
      · rintro ⟨-, hall⟩
        have := hall p (List.mem_cons_self ..)
        rw [ho] at this
        cases this

theorem claimsOf_fst (keys : Branch τ → List Bytes) (branches : List (Branch τ)) :
    (claimsOf keys branches).map Prod.fst = branches.flatMap keys := by
  unfold claimsOf
  rw [map_flatMap]
  have hfun : (fun p : Branch τ × ℕ => List.map Prod.fst (match p with
      | (b, i) => (keys b).map fun key => (key, i))) = fun p => keys p.1 := by
    funext p
    rw [List.map_map]
    exact map_id _
  rw [hfun, ← flatMap_map, zipIdx_map_fst]

theorem historyOwners_ok : (∃ owners, historyOwners node branches = .ok owners) ↔ ¬HistoriesCollide branches := by
  rw [historyOwners_eq, claimHistories_ok, claimsOf_fst, nodup_flatMap]
  have hempty : ∀ p ∈ claimsOf (fun b => b.chain.state.histories.keys) branches,
      (∅ : Table ℕ)[p.1]? = none := fun p _ => get_empty p.1
  have hnodup : ∀ b ∈ branches, b.chain.state.histories.keys.Nodup := fun b _ =>
    Std.ExtTreeMap.nodup_keys
  rw [and_iff_left hempty, and_iff_right hnodup, pairwise_iff_getElem]
  constructor
  · rintro hpair ⟨i, j, a, b, name, hij, ha, hb, hna, hnb⟩
    obtain ⟨hi, rfl⟩ := List.getElem?_eq_some_iff.1 ha
    obtain ⟨hj, rfl⟩ := List.getElem?_eq_some_iff.1 hb
    have hka := Std.ExtTreeMap.mem_keys.2 hna
    have hkb := Std.ExtTreeMap.mem_keys.2 hnb
    rcases Nat.lt_or_gt_of_ne hij with hlt | hlt
    · exact hpair i j hi hj hlt hka hkb
    · exact hpair j i hj hi hlt hkb hka
  · intro hcollide i j hi hj hlt name hka hkb
    refine hcollide ⟨i, j, branches[i], branches[j], name, by omega, ?_, ?_, ?_, ?_⟩
    · exact List.getElem?_eq_getElem hi
    · exact List.getElem?_eq_getElem hj
    · exact Std.ExtTreeMap.mem_keys.1 hka
    · exact Std.ExtTreeMap.mem_keys.1 hkb

theorem mem_mergedValues (branches : List (Branch τ)) (key value : Bytes) :
    (key, value) ∈ mergedValues owners branches ↔
      ∃ i b, owners[key]? = some i ∧ branches[i]? = some b ∧ b.chain.state.values[key]? = some value := by
  unfold mergedValues
  rw [mem_filterMap]
  constructor
  · rintro ⟨⟨k, i⟩, hmem, hsome⟩
    obtain ⟨v, hv, he⟩ := map_eq_some_iff.1 hsome
    obtain ⟨b, hb, hvalue⟩ := bind_eq_some_iff.1 hv
    cases he
    exact ⟨i, b, (mem_toList _ _ _).1 hmem, hb, hvalue⟩
  · rintro ⟨i, b, ho, hb, hvalue⟩
    refine ⟨(key, i), (mem_toList _ _ _).2 ho, ?_⟩
    simp only [hb, bind_some, hvalue, map_some]

theorem distinct_mergedValues (branches : List (Branch τ)) : Table.Distinct (mergedValues owners branches) := by
  refine List.Pairwise.filterMap _ ?_ (distinct_toList owners)
  rintro ⟨k, i⟩ ⟨l, j⟩ hne p hp q hq
  obtain ⟨v, -, rfl⟩ := map_eq_some_iff.1 hp
  obtain ⟨w, -, rfl⟩ := map_eq_some_iff.1 hq
  exact hne

structure Joined (branches : List (Branch τ)) (state state' : GraphState)
    (merged : List (Bytes × Bytes)) : Prop where
  kept : ∀ key : Bytes, (∀ b ∈ branches, key ∉ b.chain.writes) → state'.values[key]? = state.values[key]?
  taken : ∀ b ∈ branches, ∀ key ∈ b.chain.writes,
    state'.values[key]? = b.chain.state.values[key]?.or state.values[key]?
  histories_kept : ∀ name : Bytes, (∀ b ∈ branches, b.chain.state.histories[name]? = none) →
    state'.histories[name]? = state.histories[name]?
  histories_taken : ∀ b ∈ branches, ∀ (name : Bytes) memory, b.chain.state.histories[name]? = some memory →
    state'.histories[name]? = some memory
  rest : state'.written = state.written ∧ state'.interruptRequested = state.interruptRequested ∧
    state'.interruptReason = state.interruptReason
  merged : ∀ key value, (key, value) ∈ merged ↔
    ∃ b ∈ branches, key ∈ b.chain.writes ∧ b.chain.state.values[key]? = some value

theorem insertAll_mergedValues (values : Table Bytes) (h : keyOwners node branches = .ok owners) (key : Bytes) :
    ((∀ b ∈ branches, key ∉ b.chain.writes) →
      (Table.insertAll values (mergedValues owners branches))[key]? = values[key]?) ∧
    (∀ b ∈ branches, key ∈ b.chain.writes → (Table.insertAll values (mergedValues owners branches))[key]? =
        b.chain.state.values[key]?.or values[key]?) := by
  have hspec := keyOwners_spec node branches owners h
  have hdist := distinct_mergedValues owners branches
  constructor
  · intro hnone
    refine insertAll_of_not_mem _ _ _ ?_
    rintro ⟨k, v⟩ hmem rfl
    obtain ⟨i, b, ho, hb, -⟩ := (mem_mergedValues _ _ _ _).1 hmem
    obtain ⟨b', hb', hw⟩ := (hspec _ i).1 ho
    exact hnone b' (mem_of_getElem? hb') hw
  · intro b hb hw
    obtain ⟨i, hi⟩ := mem_iff_getElem?.1 hb
    have ho := (hspec key i).2 ⟨b, hi, hw⟩
    cases hv : b.chain.state.values[key]? with
    | some v =>
      rw [insertAll_of_mem _ _ key v hdist ((mem_mergedValues _ _ _ _).2 ⟨i, b, ho, hi, hv⟩)]
      rfl
    | none =>
      rw [insertAll_of_not_mem, none_or]
      rintro ⟨k, v⟩ hmem rfl
      obtain ⟨j, b', hj, hb', hv'⟩ := (mem_mergedValues _ _ _ _).1 hmem
      have hij : i = j := Option.some.inj (ho.symm.trans hj)
      subst hij
      rw [hi] at hb'
      cases hb'
      rw [hv] at hv'
      cases hv'

def assignHistories (histories : Table FlowMemory) (branches : List (Branch τ)) : Table FlowMemory :=
  branches.foldl (fun histories b => Table.assign histories b.chain.state.histories) histories

theorem assignHistories_kept (histories : Table FlowMemory) (name : Bytes)
    (h : ∀ b ∈ branches, b.chain.state.histories[name]? = none) :
    (assignHistories histories branches)[name]? = histories[name]? := by
  induction branches generalizing histories with
  | nil => rfl
  | cons b branches ih =>
    obtain ⟨hb, hrest⟩ := forall_mem_cons.1 h
    change (assignHistories (Table.assign histories _) branches)[name]? = _
    rw [ih _ hrest, get_assign, hb, none_or]

theorem assignHistories_taken (histories : Table FlowMemory) (name : Bytes) (memory : FlowMemory) (b : Branch τ)
    (hapart : branches.Pairwise fun a b => a.chain.state.histories[name]? = none ∨ b.chain.state.histories[name]? = none)
    (hb : b ∈ branches) (h : b.chain.state.histories[name]? = some memory) :
    (assignHistories histories branches)[name]? = some memory := by
  induction branches generalizing histories with
  | nil => cases hb
  | cons a branches ih =>
    obtain ⟨hfirst, hrest⟩ := pairwise_cons.1 hapart
    change (assignHistories (Table.assign histories _) branches)[name]? = _
    rcases mem_cons.1 hb with rfl | hb
    · rw [assignHistories_kept, get_assign, h, some_or]
      intro c hc
      exact (hfirst c hc).resolve_left (by rw [h]; simp)
    · exact ih _ hrest hb

theorem histories_apart (h : ¬HistoriesCollide branches) (name : Bytes) : branches.Pairwise fun a b =>
      a.chain.state.histories[name]? = none ∨ b.chain.state.histories[name]? = none := by
  rw [pairwise_iff_getElem]
  intro i j hi hj hlt
  by_contra hboth
  obtain ⟨ha, hb⟩ := not_or.1 hboth
  refine h ⟨i, j, branches[i], branches[j], name, by omega, getElem?_eq_getElem hi,
    getElem?_eq_getElem hj, ?_, ?_⟩
  · rw [Std.ExtTreeMap.mem_iff_isSome_getElem?]
    exact isSome_iff_ne_none.2 ha
  · rw [Std.ExtTreeMap.mem_iff_isSome_getElem?]
    exact isSome_iff_ne_none.2 hb

theorem joinBranches_ok (state : GraphState) : (∃ r, joinBranches node branches state = .ok r) ↔
      ¬WritesCollide branches ∧ ¬HistoriesCollide branches := by
  rw [← keyOwners_ok node, ← historyOwners_ok node]
  constructor
  · rintro ⟨r, h⟩
    obtain ⟨owners, howners, hrest⟩ := bind_eq_ok.1 h
    obtain ⟨histories, hhistories, -⟩ := bind_eq_ok.1 hrest
    exact ⟨⟨owners, howners⟩, ⟨histories, hhistories⟩⟩
  · rintro ⟨⟨owners, howners⟩, ⟨histories, hhistories⟩⟩
    exact ⟨_, bind_eq_ok.2 ⟨owners, howners, bind_eq_ok.2 ⟨histories, hhistories, rfl⟩⟩⟩

theorem joinBranches_joined (state state' : GraphState) (merged : List (Bytes × Bytes))
    (h : joinBranches node branches state = .ok (state', merged)) : Joined branches state state' merged := by
  have hapart := ((joinBranches_ok node branches state).1 ⟨_, h⟩).2
  obtain ⟨owners, howners, hrest⟩ := bind_eq_ok.1 h
  obtain ⟨histories, -, hrest⟩ := bind_eq_ok.1 hrest
  cases hrest
  have hvalues := insertAll_mergedValues node branches owners state.values howners
  refine ⟨fun key => (hvalues key).1, fun b hb key hk => (hvalues key).2 b hb hk, ?_, ?_, ⟨rfl, rfl, rfl⟩, ?_⟩
  · intro name hnone
    exact assignHistories_kept branches state.histories name hnone
  · intro b hb name memory hm
    exact assignHistories_taken branches state.histories name memory b (histories_apart branches hapart name) hb hm
  · intro key value
    rw [mem_mergedValues]
    constructor
    · rintro ⟨i, b, ho, hb, hv⟩
      obtain ⟨b', hb', hw⟩ := (keyOwners_spec node branches owners howners key i).1 ho
      rw [hb] at hb'
      cases hb'
      exact ⟨b, mem_of_getElem? hb, hw, hv⟩
    · rintro ⟨b, hb, hw, hv⟩
      obtain ⟨i, hi⟩ := mem_iff_getElem?.1 hb
      exact ⟨i, b, (keyOwners_spec node branches owners howners key i).2 ⟨b, hi, hw⟩, hi, hv⟩

def Branch.Joins (b : Branch τ) : Prop := b.result = none ∧ b.interrupted = false

structure FanOutOk (branches : List (Branch τ)) : Prop where
  joins : ∀ b ∈ branches, b.Joins
  writes : ¬WritesCollide branches
  histories : ¬HistoriesCollide branches

theorem firstFailure_none (h : ∀ b ∈ branches, b.result = none) : firstFailure node branches = none := by
  unfold firstFailure
  rw [findSome?_eq_none_iff]
  rintro ⟨entry, b⟩ hmem
  simp only [h b (of_mem_zip hmem).2, map_none]

theorem firstFailure_some (hlen : branches.length = node.branches.length) (b : Branch τ) (hb : b ∈ branches)
    (h : b.result ≠ none) : firstFailure node branches ≠ none := by
  intro hnone
  unfold firstFailure at hnone
  rw [findSome?_eq_none_iff] at hnone
  obtain ⟨i, hi, rfl⟩ := mem_iff_getElem.1 hb
  have hzip : (node.branches[i], branches[i]) ∈ node.branches.zip branches := by
    refine mem_iff_getElem.2 ⟨i, ?_, getElem_zip⟩
    rw [length_zip]
    omega
  have := hnone _ hzip
  simp only [map_eq_none_iff] at this
  exact h this

theorem foldl_paused (l : List (Bytes × Branch τ)) (r : NodeResult) : (l.foldl (fun paused (entry, b) =>
      if b.interrupted then
        { paused with
          interrupted := true
          reason := (if paused.interrupted then paused.reason ++ lit "; " else []) ++
            lit "branch '" ++ entry ++ lit "': " ++ b.interruptReason
          pending := paused.pending ++ b.pending
          interrupts := paused.interrupts ++ [⟨entry, b.interruptNode, b.interruptReason, b.pending⟩] }
      else paused) r).interrupted = true ↔ r.interrupted = true ∨ ∃ p ∈ l, p.2.interrupted = true := by
  induction l generalizing r with
  | nil => simp
  | cons p l ih =>
    obtain ⟨entry, b⟩ := p
    rw [foldl_cons, ih]
    cases hb : b.interrupted with
    | true => simp [hb]
    | false => simp [hb]

theorem pausedResult_interrupted (hlen : branches.length = node.branches.length) :
    (pausedResult node branches).interrupted = true ↔ ∃ b ∈ branches, b.interrupted = true := by
  unfold pausedResult
  rw [foldl_paused]
  constructor
  · rintro (h | ⟨⟨entry, b⟩, hmem, hb⟩)
    · cases h
    · exact ⟨b, (of_mem_zip hmem).2, hb⟩
  · rintro ⟨b, hb, hint⟩
    obtain ⟨i, hi, rfl⟩ := mem_iff_getElem.1 hb
    refine Or.inr ⟨(node.branches[i], branches[i]), ?_, hint⟩
    refine mem_iff_getElem.2 ⟨i, ?_, getElem_zip⟩
    rw [length_zip]
    omega

/- What a finished fan-out adds to its chain, merged or not. -/
def absorb (node : GraphNode) (branches : List (Branch τ)) (c : Chain τ) : Chain τ :=
  { c with
    events := c.events ++ branches.flatMap fun b => b.chain.events
    trace := c.trace ++ branches.flatMap fun b => b.chain.trace
    visits := c.visits ++ [.mk node.name (branches.map fun b => b.chain.visits)] }

theorem closeFanOut_ok (c : Chain τ) (hlen : branches.length = node.branches.length)
    (hret : ∀ b ∈ branches, b.returned) (hok : FanOutOk branches) : ∃ state' merged, closeFanOut node branches c =
        ({ absorb node branches c with state := state' }, some (.ok ({}, merged))) ∧
      Joined branches c.state state' merged := by
  have hany : ¬(branches.any fun b => !b.returned) = true := by simpa using hret
  have hfail := firstFailure_none node branches fun b hb => (hok.joins b hb).1
  have hpause : ¬(pausedResult node branches).interrupted = true := by
    rw [pausedResult_interrupted node branches hlen]
    rintro ⟨b, hb, hint⟩
    rw [(hok.joins b hb).2] at hint
    cases hint
  obtain ⟨⟨state', merged⟩, hjoin⟩ := (joinBranches_ok node branches c.state).2 ⟨hok.writes, hok.histories⟩
  refine ⟨state', merged, ?_, joinBranches_joined node branches c.state state' merged hjoin⟩
  unfold closeFanOut
  simp only [if_neg hany, hfail, if_neg hpause, hjoin]
  rfl

theorem closeFanOut_not_ok (c : Chain τ) (hlen : branches.length = node.branches.length)
    (hret : ∀ b ∈ branches, b.returned) (hbad : ¬FanOutOk branches) :
    ∃ res, closeFanOut node branches c = (absorb node branches c, some res) ∧
      ∀ result merged, res = .ok (result, merged) → result.interrupted = true := by
  have hany : ¬(branches.any fun b => !b.returned) = true := by simpa using hret
  unfold closeFanOut
  simp only [if_neg hany]
  cases hfail : firstFailure node branches with
  | some e => exact ⟨_, rfl, nofun⟩
  | none =>
    by_cases hpause : (pausedResult node branches).interrupted = true
    · rw [if_pos hpause]
      refine ⟨_, rfl, fun result merged h => ?_⟩
      cases h
      exact hpause
    · rw [if_neg hpause]
      cases hjoin : joinBranches node branches c.state with
      | error e => exact ⟨_, rfl, nofun⟩
      | ok r =>
        obtain ⟨hwrites, hhistories⟩ := (joinBranches_ok node branches c.state).1 ⟨r, hjoin⟩
        refine absurd ⟨fun b hb => ⟨?_, ?_⟩, hwrites, hhistories⟩ hbad
        · by_contra hresult
          exact firstFailure_some node branches hlen b hb hresult hfail
        · rw [pausedResult_interrupted node branches hlen] at hpause
          by_contra hint
          exact hpause ⟨b, hb, by simpa using hint⟩

theorem clash_perm {α : Type} {owns : α → Bytes → Prop} {l l' : List α} (hperm : l'.Perm l)
    (h : ∃ (i j : ℕ) (a b : α) (key : Bytes), i ≠ j ∧ l[i]? = some a ∧ l[j]? = some b ∧ owns a key ∧ owns b key) :
    ∃ (i j : ℕ) (a b : α) (key : Bytes), i ≠ j ∧ l'[i]? = some a ∧ l'[j]? = some b ∧ owns a key ∧ owns b key := by
  by_contra hnone
  have hapart : l'.Pairwise fun a b => ∀ key, owns a key → ¬owns b key :=
    pairwise_iff_getElem.2 fun i j hi hj hlt key ha hb =>
      hnone ⟨i, j, _, _, key, hlt.ne, getElem?_eq_getElem hi, getElem?_eq_getElem hj, ha, hb⟩
  have hbefore := pairwise_iff_getElem.1 (hperm.pairwise hapart fun h key hb ha => h key ha hb)
  obtain ⟨i, j, a, b, key, hne, ha, hb, hka, hkb⟩ := h
  obtain ⟨hi, rfl⟩ := List.getElem?_eq_some_iff.1 ha
  obtain ⟨hj, rfl⟩ := List.getElem?_eq_some_iff.1 hb
  obtain hlt | hlt := hne.lt_or_gt
  · exact hbefore i j hi hj hlt key hka hkb
  · exact hbefore j i hj hi hlt key hkb hka

theorem Joined.unique {branches branches' : List (Branch τ)} {state s s' : GraphState}
    {merged merged' : List (Bytes × Bytes)} (hmem : ∀ b, b ∈ branches ↔ b ∈ branches')
    (h : Joined branches state s merged) (h' : Joined branches' state s' merged') : s' = s := by
  have hvalues : s'.values = s.values := Table.ext fun key => by
    by_cases hkey : ∃ b ∈ branches, key ∈ b.chain.writes
    · obtain ⟨b, hb, hk⟩ := hkey
      rw [h.taken b hb key hk, h'.taken b ((hmem b).1 hb) key hk]
    · push Not at hkey
      rw [h.kept key hkey, h'.kept key fun b hb => hkey b ((hmem b).2 hb)]
  have hhistories : s'.histories = s.histories := Table.ext fun name => by
    by_cases hname : ∃ b ∈ branches, b.chain.state.histories[name]? ≠ none
    · obtain ⟨b, hb, hm⟩ := hname
      obtain ⟨memory, hm⟩ := ne_none_iff_exists'.1 hm
      rw [h.histories_taken b hb name memory hm, h'.histories_taken b ((hmem b).1 hb) name memory hm]
    · push Not at hname
      rw [h.histories_kept name hname, h'.histories_kept name fun b hb => hname b ((hmem b).2 hb)]
  cases s'
  cases s
  exact GraphState.mk.injEq .. ▸ ⟨hvalues, hhistories, h'.rest.1.trans h.rest.1.symm,
    h'.rest.2.1.trans h.rest.2.1.symm, h'.rest.2.2.trans h.rest.2.2.symm⟩

/-- A fan-out that lists its branches in another order joins to the same state. -/
theorem joinBranches_perm (node node' : GraphNode) (branches branches' : List (Branch τ)) (state state' : GraphState)
    (merged : List (Bytes × Bytes)) (hperm : branches.Perm branches')
    (h : joinBranches node branches state = .ok (state', merged)) :
    ∃ merged', joinBranches node' branches' state = .ok (state', merged') ∧ ∀ e, e ∈ merged' ↔ e ∈ merged := by
  obtain ⟨hwrites, hhistories⟩ := (joinBranches_ok node branches state).1 ⟨_, h⟩
  obtain ⟨⟨state'', merged'⟩, h'⟩ := (joinBranches_ok node' branches' state).2
    ⟨mt (clash_perm hperm) hwrites, mt (clash_perm hperm) hhistories⟩
  have hj := joinBranches_joined node branches state state' merged h
  have hj' := joinBranches_joined node' branches' state state'' merged' h'
  refine ⟨merged', hj.unique (fun b => hperm.mem_iff) hj' ▸ h', fun ⟨key, value⟩ => ?_⟩
  rw [hj.merged, hj'.merged]
  simp only [hperm.mem_iff]

def wroteOne (key : Bytes) : Branch Unit :=
  { chain := { writes := [key], state := { values := insertAll ∅ [(key, [49])] } }, next := [] }

theorem joinBranches_perm_swap : ∃ r merged, joinBranches { name := [80] } [wroteOne [97], wroteOne [98]] {} = .ok r ∧
    joinBranches { name := [80] } [wroteOne [98], wroteOne [97]] {} = .ok (r.1, merged) := by
  have h : ∃ r, joinBranches { name := [80] } [wroteOne [97], wroteOne [98]] {} = .ok r := ⟨_, rfl⟩
  obtain ⟨r, h⟩ := h
  obtain ⟨merged, h', -⟩ := joinBranches_perm _ { name := [80] } _ _ {} r.1 r.2 (.swap _ _ []) h
  exact ⟨r, merged, h, h'⟩

end AgentCpp
