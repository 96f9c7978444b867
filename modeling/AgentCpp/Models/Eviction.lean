import AgentCpp.Models.RegistryInvariant

/-!
# What `acquire_model` evicts

Of the models that may go, least recently used first, as few as make room for both RAM and
VRAM.
-/

namespace AgentCpp
open Lib List

/- The idle, unpinned, loaded models other than `name`, least recently used first. -/
structure LruOrder (st : RegistryState) (name : Bytes) (cs : List (Bytes × ModelEntry)) : Prop where
  nodup : cs.Nodup
  sorted : cs.Pairwise fun a b => a.2.useTick ≤ b.2.useTick
  mem : ∀ (n : Bytes) (x : ModelEntry), (n, x) ∈ cs ↔ st.entries[n]? = some x ∧ n ≠ name ∧
    x.status = .loaded ∧ x.leases = 0 ∧ x.spec.pinned = false

def ShortestPrefix (budget : ModelBudget) (used need : Usage) (cs doomed : List (Bytes × ModelEntry)) : Prop :=
  ∃ k, doomed = cs.take k ∧ FitsWithout budget used need doomed ∧
    ∀ j < k, ¬FitsWithout budget used need (cs.take j)

def ModelEntry.evicted (e : ModelEntry) : ModelEntry := { e with status := .unloaded, session := none, charge := {} }

structure Evicts (st : RegistryState) (name : Bytes) (doomed : List (Bytes × ModelEntry)) (st' : RegistryState) :
    Prop where
  gone : ∀ c ∈ doomed, st.entries[c.1]? = some c.2 ∧ st'.entries[c.1]? = some c.2.evicted
  others : ∀ n, n ≠ name → n ∉ doomed.map Prod.fst → st'.entries[n]? = st.entries[n]?

theorem lruOrder_evictable (st : RegistryState) (name : Bytes) : LruOrder st name (evictable st (some name)) := by
  refine ⟨List.Nodup.of_map _ (nodup_evictable st (some name)), ?_, fun n x => ?_⟩
  · exact pairwise_insertionSort _ _
  · rw [mem_evictable]
    unfold Evictable
    rw [ne_eq, Option.some.injEq]
    tauto

section Round

variable {st : RegistryState} {name : Bytes}

theorem takeOutAll_gone {doomed : List (Bytes × ModelEntry)} (hnodup : (doomed.map Prod.fst).Nodup)
    {c : Bytes × ModelEntry} (hc : c ∈ doomed) : (st.takeOutAll doomed).entries[c.1]? = some c.2.evicted := by
  induction doomed generalizing st with
  | nil => cases hc
  | cons d doomed ih =>
    rw [map_cons, nodup_cons] at hnodup
    rcases List.mem_cons.1 hc with rfl | hc
    · exact (takeOutAll_others hnodup.1).trans (Table.get_insert_self _ _ _)
    · exact ih hnodup.2 hc

theorem evicts_evictAndLoad {st' : RegistryState} (hentries : st'.entries = st.entries) (e : ModelEntry) (est : Usage)
    {doomed : List (Bytes × ModelEntry)} (hsub : doomed.Sublist (evictable st (some name))) :
    Evicts st name doomed (evictAndLoad st' name e est doomed).st := by
  obtain ⟨hst, -⟩ := destroy_reserved ((st'.takeOutAll doomed).reserve name e est)
    (doomed.map fun d => d.2.charge) (.load name) (Or.inr ⟨name, rfl⟩)
  have hget : ∀ n, n ≠ name →
      (evictAndLoad st' name e est doomed).st.entries[n]? = (st'.takeOutAll doomed).entries[n]? := by
    intro n hn
    unfold evictAndLoad
    rw [hst]
    exact Table.get_insert_ne _ _ _ _ (Ne.symm hn)
  refine ⟨fun c hc => ?_, fun n hn hout => ?_⟩
  · obtain ⟨⟨hentry, -⟩, hne, -⟩ := mem_evictable.1 (hsub.subset hc)
    refine ⟨hentry, ?_⟩
    rw [hget c.1 (fun heq => hne (by rw [heq]))]
    exact takeOutAll_gone ((nodup_evictable st (some name)).sublist (hsub.map _)) hc
  · rw [hget n hn, takeOutAll_others hout, hentries]

def Untouched (st st' : RegistryState) : Prop :=
  st'.entries = st.entries ∧ st'.used = st.used ∧ st'.releasing = st.releasing ∧ st'.budget = st.budget ∧
    st'.tick = st.tick

theorem acquireRound_cases (st : RegistryState) (name : Bytes) (e : ModelEntry) (estimate : Result Usage)
    (canWait : Bool) : (∃ est doomed, e.status = .unloaded ∧ estimate = .ok est ∧
      ((plan st (evictable st (some name)) est).ok = true ∧
          doomed = (evictable st (some name)).take (plan st (evictable st (some name)) est).count ∨
        (plan st (evictable st (some name)) est).ok ≠ true ∧ st.budget.allowOvercommit = true ∧
          doomed = evictable st (some name)) ∧
      acquireRound st name e estimate canWait = evictAndLoad
        { st with underflow := st.underflow || (plan st (evictable st (some name)) est).underflow }
        name e est doomed) ∨
    (e.status = .loaded ∧
      acquireRound st name e estimate canWait = makeLease st name { e with leases := e.leases + 1 }) ∨
    (Untouched st (acquireRound st name e estimate canWait).st ∧
      ((acquireRound st name e estimate canWait).thread = .acquiring name ∨
        ∃ err, (acquireRound st name e estimate canWait).thread = .returned (.error err))) := by
  unfold acquireRound
  cases hs : e.status with
  | loaded => exact .inr (.inl ⟨rfl, rfl⟩)
  | loading => exact .inr (.inr ⟨⟨rfl, rfl, rfl, rfl, rfl⟩, .inl rfl⟩)
  | unloaded =>
    cases estimate with
    | error err => exact .inr (.inr ⟨⟨rfl, rfl, rfl, rfl, rfl⟩, .inr ⟨err, rfl⟩⟩)
    | ok est =>
      dsimp only
      by_cases hok : (plan st (evictable st (some name)) est).ok = true
      · exact .inl ⟨est, _, rfl, rfl, .inl ⟨hok, rfl⟩, if_pos hok⟩
      · rw [if_neg hok]
        split
        · exact .inr (.inr ⟨⟨rfl, rfl, rfl, rfl, rfl⟩, .inl rfl⟩)
        · split
          · exact .inr (.inr ⟨⟨rfl, rfl, rfl, rfl, rfl⟩, .inl rfl⟩)
          · split
            · exact .inr (.inr ⟨⟨rfl, rfl, rfl, rfl, rfl⟩, .inr ⟨_, rfl⟩⟩)
            · next hover =>
              rw [Bool.not_eq_true', Bool.not_eq_false] at hover
              exact .inl ⟨est, _, rfl, rfl, .inr ⟨hok, hover, rfl⟩, rfl⟩

end Round

/- A call of `acquire_model` so far: the state before and after each of its locked sections, and
where its thread is. Between the sections other threads do as they like. -/
inductive AcquireCall (fine : LoadOutcome → Prop) (name : Bytes) :
    List (RegistryState × RegistryState) → RegistryThread → Prop where
  | first (st : RegistryState) (estimate : Result Usage) (canWait : Bool) :
    AcquireCall fine name [(st, (acquireModel st name estimate canWait).st)]
      (acquireModel st name estimate canWait).thread
  | retry {sections : List (RegistryState × RegistryState)} (h : AcquireCall fine name sections (.acquiring name))
    {st : RegistryState} {e : ModelEntry} (he : st.entries[name]? = some e) (estimate : Result Usage)
    (canWait : Bool) :
    AcquireCall fine name (sections ++ [(st, (acquireRound st name e estimate canWait).st)])
      (acquireRound st name e estimate canWait).thread
  | destroyed {sections : List (RegistryState × RegistryState)} {doomed : List Usage} {next : AfterDestroy}
    (h : AcquireCall fine name sections (.destroying doomed next)) (st : RegistryState) :
    AcquireCall fine name (sections ++ [(st, (afterDestroy (st.uncharge (Usage.sum doomed)) next).st)])
      (afterDestroy (st.uncharge (Usage.sum doomed)) next).thread
  | loaded {sections : List (RegistryState × RegistryState)} (h : AcquireCall fine name sections (.loading name))
    {st : RegistryState} {e : ModelEntry} (he : st.entries[name]? = some e) {outcome : LoadOutcome}
    (hfine : fine outcome) :
    AcquireCall fine name (sections ++ [(st, (finishLoad st name e outcome).st)])
      (finishLoad st name e outcome).thread

def LoadOutcome.NotMemory (outcome : LoadOutcome) : Prop :=
  ∀ name err, outcome.error name = some err → err.code ≠ .outOfMemory

def AcquireState (name : Bytes) (sections : List (RegistryState × RegistryState)) : RegistryThread → Prop
  | .acquiring _ => ∀ s ∈ sections, Untouched s.1 s.2
  | .returned (.error err) => err.code = .outOfMemory → ∀ s ∈ sections, Untouched s.1 s.2
  | .destroying _ next => next = .load name
  | _ => True

theorem acquireState_destroy (name : Bytes) (sections : List (RegistryState × RegistryState)) (st : RegistryState)
    (doomed : List Usage) : AcquireState name sections (destroy st doomed (.load name)).thread := by
  unfold destroy
  split
  · exact trivial
  · rfl

variable {sections : List (RegistryState × RegistryState)}

theorem acquireState_acquireRound (st : RegistryState) (name : Bytes) (e : ModelEntry) (estimate : Result Usage)
    (canWait : Bool) (h : ∀ s ∈ sections, Untouched s.1 s.2) :
    AcquireState name (sections ++ [(st, (acquireRound st name e estimate canWait).st)])
      (acquireRound st name e estimate canWait).thread := by
  rcases acquireRound_cases st name e estimate canWait with
    ⟨est, doomed, -, -, -, heq⟩ | ⟨-, heq⟩ | ⟨hsame, hthread⟩
  · rw [heq]
    exact acquireState_destroy name _ _ _
  · rw [heq]
    exact trivial
  · have hall : ∀ s ∈ sections ++ [(st, (acquireRound st name e estimate canWait).st)], Untouched s.1 s.2 := by
      intro s hs
      rcases List.mem_append.1 hs with hs | hs
      · exact h s hs
      · rw [List.mem_singleton.1 hs]
        exact hsame
    rcases hthread with hthread | ⟨err, hthread⟩
    · rw [hthread]
      exact hall
    · rw [hthread]
      exact fun _ => hall

theorem AcquireCall.acquireState
    {th : RegistryThread} (h : AcquireCall LoadOutcome.NotMemory name sections th) : AcquireState name sections th := by
  induction h with
  | first st estimate canWait =>
    have hnone : ∀ s ∈ ([] : List (RegistryState × RegistryState)), Untouched s.1 s.2 := nofun
    unfold acquireModel
    cases st.entries[name]? with
    | none => nofun
    | some e => exact acquireState_acquireRound st name e estimate canWait hnone
  | retry h he estimate canWait ih => exact acquireState_acquireRound _ name _ estimate canWait ih
  | destroyed h st ih =>
    rw [show _ = AfterDestroy.load name from ih]
    exact trivial
  | @loaded sections h st e he outcome hfine ih =>
    unfold finishLoad
    cases herr : outcome.error e.spec.name with
    | none => exact trivial
    | some err => exact fun hcode => absurd hcode (hfine _ err herr)

/-- A round of `acquire_model` that decides to load evicts the shortest prefix of the candidates, least
recently used first, that makes room, or with overcommit all of them when no prefix does. A call
that returns `OutOfMemory`, not from its load, has changed no entry and no counter. -/
theorem acquireModel_evicts_least :
    (∀ (st : RegistryState) (name : Bytes) (e x : ModelEntry) (estimate : Result Usage) (canWait : Bool),
      st.entries[name]? = some e → e.status = .unloaded → Charged st →
      (∀ est, estimate = .ok est → ∀ side, st.used.bytes side + est.bytes side < 2 ^ 64) →
      (acquireRound st name e estimate canWait).st.entries[name]? = some x → x.status = .loading →
      ∃ est candidates doomed, estimate = .ok est ∧ LruOrder st name candidates ∧
        Evicts st name doomed (acquireRound st name e estimate canWait).st ∧
        (ShortestPrefix st.budget st.used est candidates doomed ∨
          st.budget.allowOvercommit = true ∧ doomed = candidates ∧
            ∀ k, ¬FitsWithout st.budget st.used est (candidates.take k))) ∧
    ∀ (name : Bytes) (sections : List (RegistryState × RegistryState)) (err : Error),
      AcquireCall LoadOutcome.NotMemory name sections (.returned (.error err)) → err.code = .outOfMemory →
      ∀ s ∈ sections, Untouched s.1 s.2 := by
  refine ⟨fun st name e x estimate canWait he hs hcharged hsum hx hloading => ?_,
    fun name sections err hcall hcode => hcall.acquireState hcode⟩
  rcases acquireRound_cases st name e estimate canWait with
    ⟨est, doomed, -, rfl, hplan, heq⟩ | ⟨hloaded, -⟩ | ⟨hsame, -⟩
  · refine ⟨est, evictable st (some name), doomed, rfl, lruOrder_evictable st name, ?_, ?_⟩
    · have hsub : doomed.Sublist (evictable st (some name)) := by
        rcases hplan with ⟨-, rfl⟩ | ⟨-, -, rfl⟩
        · exact take_sublist _ _
        · exact List.Sublist.refl _
      rw [heq]
      refine evicts_evictAndLoad ?_ e est hsub
      rfl
    · obtain ⟨-, hroom, hleast⟩ := plan_exact hcharged (some name) est (hsum est rfl)
      rcases hplan with ⟨hok, rfl⟩ | ⟨hok, hover, rfl⟩
      · exact .inl ⟨_, rfl, hroom hok, fun j hj => hleast j fun _ => hj⟩
      · exact .inr ⟨hover, rfl, fun j => hleast j fun hplan => absurd hplan hok⟩
  · rw [hs] at hloaded
    cases hloaded
  · rw [hsame.1, he] at hx
    cases hx
    rw [hs] at hloading
    cases hloading

def twoIdle : RegistryState where
  budget := { limit := ⟨150, 0⟩ }
  entries := (((∅ : Table ModelEntry).insert (lit "a")
    { spec := { name := lit "a" }, status := .loaded, session := some 0, charge := ⟨60, 0⟩, useTick := 4 }).insert
    (lit "b")
    { spec := { name := lit "b" }, status := .loaded, session := some 1, charge := ⟨60, 0⟩, useTick := 3 }).insert
    (lit "c") { spec := { name := lit "c" } }
  used := ⟨120, 0⟩
  tick := 4
  sessions := 2

theorem acquireModel_evicts_least_twoIdle :
    ∃ candidates doomed, LruOrder twoIdle (lit "c") candidates ∧
      Evicts twoIdle (lit "c") doomed
        (acquireRound twoIdle (lit "c") { spec := { name := lit "c" } } (.ok ⟨60, 0⟩) false).st ∧
      ShortestPrefix twoIdle.budget twoIdle.used ⟨60, 0⟩ candidates doomed := by
  have hcharged : Charged twoIdle := by
    intro side
    cases side with
    | ram => rfl
    | vram => rfl
  obtain ⟨est, candidates, doomed, hest, hlru, hevicts, hwhy⟩ := acquireModel_evicts_least.1 twoIdle (lit "c")
    { spec := { name := lit "c" } } { spec := { name := lit "c" }, status := .loading, charge := ⟨60, 0⟩ }
    (.ok ⟨60, 0⟩) false rfl rfl hcharged
    (fun est hest side => by
      cases hest
      cases side with
      | ram => decide
      | vram => decide)
    rfl rfl
  cases hest
  refine ⟨candidates, doomed, hlru, hevicts, hwhy.resolve_right fun hover => ?_⟩
  exact Bool.false_ne_true hover.1

def loadAndRelease : List RegistryAct :=
  [.register 0 { name := lit "a" }, .register 0 { name := lit "b" }, .acquire 0 (lit "a") (.ok ⟨60, 0⟩) false,
    .loaded 0 .ok, .release (lit "a", 0)]

def failingLoad : List RegistryAct :=
  [.acquire 0 (lit "b") (.ok ⟨60, 0⟩) false, .destroyed 0,
    .loaded 0 (.onLoadFailed ⟨.outOfMemory, lit "cannot add the tools"⟩)]

theorem acquireModel_evicts_before_onLoad :
    ∃ r r' a err, run Registry.step (Registry.init 1 { limit := ⟨100, 0⟩ }) loadAndRelease = some r ∧
      run Registry.step r failingLoad = some r' ∧ r'.threads = [.returned (.error err)] ∧
      err.code = .outOfMemory ∧ r.st.entries[lit "a"]? = some a ∧ a.status = .loaded ∧
      r'.st.entries[lit "a"]? = some a.evicted :=
  ⟨_, _, _, _, rfl, rfl, rfl, rfl, rfl, rfl, rfl⟩

end AgentCpp
