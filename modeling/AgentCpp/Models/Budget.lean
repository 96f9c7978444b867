import AgentCpp.Lib.JsonReader
import AgentCpp.Models.Eviction
import AgentCpp.Models.RegistryRun

/-!
# The memory budget in exact numbers

Runs of the registry in which `acquire_model` estimates the model it loads, and the exact
sum of the estimates of the models that are loading or loaded.
-/

namespace AgentCpp
open Lib

def ModelMemoryEstimate.usage (est : ModelMemoryEstimate) : Usage := ⟨est.ramBytes, est.vramBytes⟩

def ExactEstimate.bytes (est : ExactEstimate) : Side → ℕ
  | .ram => est.ramBytes
  | .vram => est.vramBytes

section Runs

variable (files : ModelFiles)

def RegistryState.estimateOf (st : RegistryState) (name : Bytes) : Result Usage :=
  match st.entries[name]? with
  | none => fail .keyNotFound (noModelMessage name)
  | some e => (estimateModelMemory files e.spec).map ModelMemoryEstimate.usage

def RegistryAct.model (r : Registry) : RegistryAct → Option Bytes
  | .acquire _ name _ _ => some name
  | .retry t _ _ =>
    match r.threads[t]? with
    | some (.acquiring name) => some name
    | _ => none
  | _ => none

def RegistryAct.estimated (r : Registry) (act : RegistryAct) : RegistryAct :=
  match act with
  | .acquire t name _ canWait => .acquire t name (r.st.estimateOf files name) canWait
  | .retry t estimate canWait =>
    .retry t ((act.model r).elim estimate (r.st.estimateOf files)) canWait
  | act => act

def Registry.estimatedStep (r : Registry) (act : RegistryAct) : Option Registry := r.step (act.estimated files r)

def exactBytes (spec : ModelSpec) (side : Side) : ℕ :=
  match exactModelMemory files spec with
  | .ok est => est.bytes side
  | .error _ => 0

def RegistryState.exactLoad (st : RegistryState) (side : Side) : ℕ :=
  Table.total (fun e => if e.status = .unloaded then 0 else exactBytes files e.spec side) st.entries

/- Neither the estimate of the action's model nor its sum with the bytes in use reaches `2 ^ 64`. -/
structure NoWrap (r : Registry) (act : RegistryAct) : Prop where
  sums : SumsFit r (act.estimated files r)
  estimate : ∀ name e, act.model r = some name → r.st.entries[name]? = some e → Estimate.Fits files e.spec

def ModelEntry.ChargedExactly (e : ModelEntry) : Prop :=
  e.status ≠ .unloaded → ∀ side, e.charge.bytes side = exactBytes files e.spec side

def RegistryState.ChargedExactly (st : RegistryState) : Prop :=
  ∀ (name : Bytes) (e : ModelEntry), st.entries[name]? = some e → e.ChargedExactly files

end Runs

section Steps

variable {files : ModelFiles} {st : RegistryState} {name : Bytes} {e : ModelEntry}

theorem chargedExactly_insert {st' : RegistryState} (h : st.ChargedExactly files) {e' : ModelEntry}
    (hentries : st'.entries = st.entries.insert name e') (he' : e'.ChargedExactly files) :
    st'.ChargedExactly files := by
  intro n x hx
  rw [hentries, Table.get_insert] at hx
  split at hx
  · cases hx
    exact he'
  · exact h n x hx

theorem chargedExactly_takeOutAll (doomed : List (Bytes × ModelEntry)) (h : st.ChargedExactly files) :
    (st.takeOutAll doomed).ChargedExactly files := by
  induction doomed generalizing st with
  | nil => exact h
  | cons d doomed ih => exact ih (chargedExactly_insert h rfl fun hs => absurd rfl hs)

theorem chargedExactly_destroy_reserved {doomed : List Usage} {next : AfterDestroy} (h : st.ChargedExactly files)
    (hnext : next = .setBudget ∨ ∃ n, next = .load n) : (destroy st doomed next).st.ChargedExactly files := by
  rw [(destroy_reserved st doomed next hnext).1]
  exact h

theorem chargedExactly_finishRegister (h : st.ChargedExactly files) (name : Bytes) (spec : ModelSpec) :
    (finishRegister st name spec).st.ChargedExactly files := by
  unfold finishRegister
  cases he : st.entries[name]? with
  | none => exact h
  | some e =>
    dsimp only
    split
    · exact h
    · next hs => exact chargedExactly_insert h rfl fun hs' => absurd hs' hs

theorem chargedExactly_unloaded (h : st.ChargedExactly files) (name : Bytes) (caller : Unloader) :
    (unloaded st name caller).st.ChargedExactly files := by
  cases caller with
  | unloadModel => exact h
  | registerModel spec => exact chargedExactly_finishRegister h name spec

theorem chargedExactly_afterDestroy (h : st.ChargedExactly files) (next : AfterDestroy) :
    (afterDestroy st next).st.ChargedExactly files := by
  cases next with
  | setBudget => exact h
  | load name => exact h
  | unload name caller => exact chargedExactly_unloaded h name caller

theorem chargedExactly_unloadLocked (h : st.ChargedExactly files) (name : Bytes) (e : ModelEntry)
    (caller : Unloader) : (unloadLocked st name e caller).st.ChargedExactly files := by
  unfold unloadLocked
  cases e.status with
  | loading => exact h
  | unloaded => exact chargedExactly_unloaded h name caller
  | loaded =>
    dsimp only
    split
    · exact h
    · exact chargedExactly_insert h rfl fun hs => absurd rfl hs

theorem chargedExactly_setBudget (h : st.ChargedExactly files) (budget : ModelBudget) :
    (setBudget st budget).st.ChargedExactly files := by
  exact chargedExactly_destroy_reserved (chargedExactly_takeOutAll _ h) (.inl rfl)

/- The only place where bytes are charged: a round that reserves its model. -/
theorem chargedExactly_acquireRound (h : st.ChargedExactly files) (he : st.entries[name]? = some e)
    (estimate : Result Usage) (canWait : Bool)
    (hest : ∀ est, estimate = .ok est → ∀ side, est.bytes side = exactBytes files e.spec side) :
    (acquireRound st name e estimate canWait).st.ChargedExactly files := by
  rcases acquireRound_cases st name e estimate canWait with
    ⟨est, doomed, -, rfl, -, heq⟩ | ⟨hloaded, heq⟩ | ⟨hsame, -⟩
  · rw [heq]
    have hreserved : ({ e with status := .loading, charge := est } : ModelEntry).ChargedExactly files :=
      fun _ => hest est rfl
    refine chargedExactly_destroy_reserved ?_ (.inr ⟨name, rfl⟩)
    refine chargedExactly_insert (chargedExactly_takeOutAll doomed ?_) rfl hreserved
    exact h
  · rw [heq]
    exact chargedExactly_insert h rfl (h name e he)
  · intro n x hx
    rw [hsame.1] at hx
    exact h n x hx

theorem exactBytes_estimateOf (hfits : Estimate.Fits files e.spec) (he : st.entries[name]? = some e) {est : Usage}
    (hest : st.estimateOf files name = .ok est) (side : Side) : est.bytes side = exactBytes files e.spec side := by
  unfold RegistryState.estimateOf at hest
  rw [he] at hest
  dsimp only at hest
  cases hmemory : estimateModelMemory files e.spec with
  | error err =>
    rw [hmemory] at hest
    cases hest
  | ok memory =>
    rw [hmemory] at hest
    cases hest
    unfold exactBytes
    rw [estimateModelMemory_exact hfits hmemory]
    cases side with
    | ram => rfl
    | vram => rfl

variable {r r' : Registry} {act : RegistryAct}

theorem estimatedStep_model (hmodel : act.model r = some name)
    (he : r.st.entries[name]? = some e) (hstep : r.estimatedStep files act = some r') :
    (∀ est, r.st.estimateOf files name = .ok est → (act.estimated files r).estimate = some est) ∧
    ∃ t canWait, r' = r.settle t (acquireRound r.st name e (r.st.estimateOf files name) canWait) := by
  unfold Registry.estimatedStep at hstep
  cases act with
  | acquire t n estimate canWait =>
    cases hmodel
    obtain ⟨result, -, heq⟩ := Registry.call_some hstep
    refine ⟨fun est hest => ?_, t, canWait, ?_⟩
    · dsimp only [RegistryAct.estimated]
      rw [hest]
      rfl
    · rw [heq]
      unfold acquireModel
      rw [he]
  | retry t estimate canWait =>
    have hact : (RegistryAct.retry t estimate canWait).estimated files r =
        .retry t (r.st.estimateOf files name) canWait := by
      unfold RegistryAct.estimated
      rw [hmodel]
      rfl
    rw [hact] at hstep ⊢
    obtain ⟨n, x, ht, hx, heq⟩ := Registry.retry_some hstep
    have hn : n = name := by
      dsimp only [RegistryAct.model] at hmodel
      rw [ht] at hmodel
      exact Option.some.inj hmodel
    subst hn
    rw [he] at hx
    cases hx
    refine ⟨fun est hest => ?_, t, canWait, heq⟩
    rw [hest]
    rfl
  | _ => cases hmodel

theorem chargedExactly_model (h : r.st.ChargedExactly files)
    (hok : NoWrap files r act) (hmodel : act.model r = some name) (he : r.st.entries[name]? = some e)
    (hstep : r.estimatedStep files act = some r') : r'.st.ChargedExactly files := by
  obtain ⟨-, t, canWait, rfl⟩ := estimatedStep_model hmodel he hstep
  exact chargedExactly_acquireRound h he _ canWait fun est hest =>
    exactBytes_estimateOf (hok.estimate name e hmodel he) he hest

theorem chargedExactly_finishLoad (h : st.ChargedExactly files) (he : st.entries[name]? = some e)
    (hs : e.status = .loading) (outcome : LoadOutcome) : (finishLoad st name e outcome).st.ChargedExactly files := by
  have hcharged : ∀ side, e.charge.bytes side = exactBytes files e.spec side :=
    h name e he (by rw [hs]; decide)
  unfold finishLoad
  cases outcome.error e.spec.name with
  | some err => exact chargedExactly_insert h rfl fun hs' => absurd rfl hs'
  | none => exact chargedExactly_insert h rfl fun _ => hcharged

theorem chargedExactly_step (hacc : Accounted r)
    (h : r.st.ChargedExactly files) (hok : NoWrap files r act) (hstep : r.estimatedStep files act = some r') :
    r'.st.ChargedExactly files := by
  cases act with
  | acquire t name estimate canWait =>
    cases he : r.st.entries[name]? with
    | none =>
      obtain ⟨result, -, rfl⟩ := Registry.call_some hstep
      unfold acquireModel
      rw [he]
      exact h
    | some e => exact chargedExactly_model h hok rfl he hstep
  | retry t estimate canWait =>
    obtain ⟨name, e, ht, he, -⟩ := Registry.retry_some hstep
    refine chargedExactly_model h hok ?_ he hstep
    dsimp only [RegistryAct.model]
    rw [ht]
  | destroyed t =>
    obtain ⟨doomed, next, -, rfl⟩ := Registry.destroyed_some hstep
    refine chargedExactly_afterDestroy ?_ next
    exact h
  | loaded t outcome =>
    obtain ⟨name, e, ht, he, rfl⟩ := Registry.loaded_some hstep
    exact chargedExactly_finishLoad h he (hacc.status_loading ht he) outcome
  | release lease =>
    obtain ⟨-, e, he, rfl⟩ := Registry.release_some hstep
    exact chargedExactly_insert h rfl (h lease.1 e he)
  | unload t name =>
    obtain ⟨result, -, rfl⟩ := Registry.call_some hstep
    unfold unloadModel
    cases r.st.entries[name]? with
    | none => exact h
    | some e => exact chargedExactly_unloadLocked h name e .unloadModel
  | register t spec =>
    obtain ⟨result, -, rfl⟩ := Registry.call_some hstep
    unfold registerModel
    split
    · exact h
    · cases r.st.entries[spec.name]? with
      | none => exact chargedExactly_insert h rfl fun hs => absurd rfl hs
      | some e => exact chargedExactly_unloadLocked h spec.name e (.registerModel spec)
  | resumeUnload t =>
    obtain ⟨name, caller, e, -, -, rfl⟩ := Registry.resumeUnload_some hstep
    exact chargedExactly_unloadLocked h name e caller
  | setBudget t budget =>
    obtain ⟨result, -, rfl⟩ := Registry.call_some hstep
    exact chargedExactly_setBudget h budget

end Steps

section Budget

variable {files : ModelFiles}

structure Exact (files : ModelFiles) (r : Registry) : Prop where
  accounted : Accounted r
  charged : r.st.ChargedExactly files

theorem exact_init (threads : ℕ) (budget : ModelBudget) : Exact files (Registry.init threads budget) := by
  refine ⟨accounted_init threads budget, fun name e he => ?_⟩
  cases he

theorem exact_step (r : Registry) (act : RegistryAct) (r' : Registry) (h : Exact files r) (hok : NoWrap files r act)
    (hstep : r.estimatedStep files act = some r') : Exact files r' :=
  ⟨(stepped_step h.accounted hok.sums hstep).accounted, chargedExactly_step h.accounted h.charged hok hstep⟩

theorem Exact.exactLoad_eq {r : Registry} (h : Exact files r) (side : Side) :
    r.st.exactLoad files side = r.st.charges side := by
  refine Table.total_congr fun name e he => ?_
  by_cases hs : e.status = .unloaded
  · rw [if_pos hs, (h.accounted.locked.fine name e he).uncharged hs, Usage.bytes_zero]
  · rw [if_neg hs, h.charged name e he hs side]

theorem within_of_load {held : List (Bytes × ℕ)} (h : Locked st held)
    {x : ModelEntry} {estimate : Result Usage} {canWait : Bool} (he : st.entries[name]? = some e)
    (hidle : e.status = .unloaded) (hx : (acquireRound st name e estimate canWait).st.entries[name]? = some x)
    (hloading : x.status = .loading) (hoff : st.budget.allowOvercommit = false)
    (hsums : ∀ est, estimate = .ok est → ∀ side, st.used.bytes side + est.bytes side < 2 ^ 64) :
    (acquireRound st name e estimate canWait).st.budget = st.budget ∧
      Within (acquireRound st name e estimate canWait).st := by
  refine ⟨(handover_acquireRound h (quiet_returned (.ok ())) he estimate canWait hsums).budget, ?_⟩
  rcases acquireRound_cases st name e estimate canWait with
    ⟨est, doomed, -, rfl, hplan, heq⟩ | ⟨hloaded, -⟩ | ⟨hsame, -⟩
  · obtain ⟨hunder, hroom, -⟩ := plan_exact h.charged (some name) est (hsums est rfl)
    rw [hunder, Bool.or_false] at heq
    rcases hplan with ⟨hok, rfl⟩ | ⟨-, hover, -⟩
    · rw [heq]
      exact within_evictAndLoad h e (hsums est rfl) (List.take_sublist _ _) (hroom hok)
    · rw [hoff] at hover
      cases hover
  · rw [hidle] at hloaded
    cases hloaded
  · rw [hsame.1, he] at hx
    cases hx
    rw [hidle] at hloading
    cases hloading

/-- For every interleaving in which no estimate and no sum with an estimate wraps: when `acquire_model`
starts to load with overcommit off, the exact estimates of all models that are loading or loaded
add up to at most each limit that is not zero. -/
theorem load_within_exact_budget (files : ModelFiles) (threads : ℕ) (budget : ModelBudget) (acts : List RegistryAct)
    (r : Registry) (hrun : run (Registry.estimatedStep files) (Registry.init threads budget) acts = some r)
    (hok : Meets (Registry.estimatedStep files) (NoWrap files) (Registry.init threads budget) acts)
    (act : RegistryAct) (r' : Registry) (hact : NoWrap files r act) (hstep : r.estimatedStep files act = some r')
    (name : Bytes) (e x : ModelEntry) (hmodel : act.model r = some name)
    (he : r.st.entries[name]? = some e) (hidle : e.status = .unloaded)
    (hx : r'.st.entries[name]? = some x) (hloading : x.status = .loading)
    (hoff : r.st.budget.allowOvercommit = false) : ∀ side, r.st.budget.limit.bytes side ≠ 0 →
      r'.st.exactLoad files side ≤ r.st.budget.limit.bytes side := by
  intro side hlimit
  have hexact : Exact files r := run_invariant_of_meets exact_step hrun hok (exact_init threads budget)
  have hexact' : Exact files r' := exact_step r act r' hexact hact hstep
  obtain ⟨hestimate, t, canWait, heq⟩ := estimatedStep_model hmodel he hstep
  have hsums : ∀ est, r.st.estimateOf files name = .ok est → ∀ side,
      r.st.used.bytes side + est.bytes side < 2 ^ 64 := fun est hest => hact.sums est (hestimate est hest)
  have hst : r'.st = (acquireRound r.st name e (r.st.estimateOf files name) canWait).st := by
    rw [heq]
    rfl
  rw [hst] at hx
  obtain ⟨hbudget, hwithin⟩ := within_of_load hexact.accounted.locked he hidle hx hloading hoff hsums
  rw [← hst] at hbudget hwithin
  have hle := hwithin side (by rwa [hbudget])
  rw [hbudget] at hle
  have hcharged := hexact'.accounted.locked.charged side
  rw [hexact'.exactLoad_eq side]
  omega

end Budget

def noFiles : ModelFiles where
  parser := JsonReader.parser
  layers := fun _ => -1
  regular := fun _ => none
  directory := fun _ => none

def sizedModel (name : Bytes) (bytes : UInt64) : ModelSpec := { name, estimatedBytes := bytes }

theorem load_within_exact_budget_sized :
    ∃ r r', run (Registry.estimatedStep noFiles) (Registry.init 1 { limit := ⟨100, 0⟩ })
        [.register 0 (sizedModel (lit "a") 60)] = some r ∧
      r.estimatedStep noFiles (.acquire 0 (lit "a") (.ok {}) false) = some r' ∧
      r'.st.exactLoad noFiles .ram = 60 ∧ r'.st.exactLoad noFiles .ram ≤ r.st.budget.limit.bytes .ram := by
  obtain ⟨r, r', x, hrun, hstep, he, hx, hloading, hload, hoff, hused, hlimit⟩ : ∃ r r' x,
      run (Registry.estimatedStep noFiles) (Registry.init 1 { limit := ⟨100, 0⟩ })
        [.register 0 (sizedModel (lit "a") 60)] = some r ∧
      r.estimatedStep noFiles (.acquire 0 (lit "a") (.ok {}) false) = some r' ∧
      r.st.entries[lit "a"]? = some { spec := sizedModel (lit "a") 60 } ∧ r'.st.entries[lit "a"]? = some x ∧
      x.status = .loading ∧ r'.st.exactLoad noFiles .ram = 60 ∧ r.st.budget.allowOvercommit = false ∧
      r.st.used = {} ∧ r.st.budget.limit = ⟨100, 0⟩ := ⟨_, _, _, rfl, rfl, rfl, rfl, rfl, rfl, rfl, rfl, rfl⟩
  have hfits : Estimate.Fits noFiles (sizedModel (lit "a") 60) := by
    intro gpuLayers sizes _
    rw [Estimate.exactTotal, if_pos (by decide)]
    decide
  have hact : NoWrap noFiles r (.acquire 0 (lit "a") (.ok {}) false) := by
    refine ⟨fun est hest side => ?_, fun name e hname hentry => ?_⟩
    · have hgiven : r.st.estimateOf noFiles (lit "a") = .ok ⟨60, 0⟩ := by
        unfold RegistryState.estimateOf
        rw [he]
        rfl
      dsimp only [RegistryAct.estimated] at hest
      rw [hgiven] at hest
      cases hest
      rw [hused]
      cases side with
      | ram => decide
      | vram => decide
    · cases hname
      rw [he] at hentry
      cases hentry
      exact hfits
  have hok : Meets (Registry.estimatedStep noFiles) (NoWrap noFiles) (Registry.init 1 { limit := ⟨100, 0⟩ })
      [.register 0 (sizedModel (lit "a") 60)] := .cons ⟨nofun, nofun⟩ rfl trivial
  refine ⟨r, r', hrun, hstep, hload, load_within_exact_budget noFiles 1 { limit := ⟨100, 0⟩ } _ r hrun hok _ r' hact
    hstep (lit "a") _ x rfl he rfl hx hloading hoff .ram ?_⟩
  rw [hlimit]
  decide

def twoHuge : List RegistryAct :=
  [.register 0 (sizedModel (lit "a") 0x8000000000000000), .register 0 (sizedModel (lit "b") 0x8000000000000000),
    .acquire 0 (lit "a") (.ok {}) false, .loaded 0 .ok]

theorem budget_passed_by_wrap :
    ∃ r r' e x, run (Registry.estimatedStep noFiles) (Registry.init 1 { limit := ⟨0x8000000000000000, 0⟩ })
        twoHuge = some r ∧
      r.estimatedStep noFiles (.acquire 0 (lit "b") (.ok {}) false) = some r' ∧
      r.st.entries[lit "b"]? = some e ∧ e.status = .unloaded ∧
      r'.st.entries[lit "b"]? = some x ∧ x.status = .loading ∧ r.st.budget.allowOvercommit = false ∧
      r.st.budget.limit.bytes .ram = 2 ^ 63 ∧ r'.st.exactLoad noFiles .ram = 2 ^ 64 :=
  ⟨_, _, _, _, rfl, rfl, rfl, rfl, rfl, rfl, rfl, by decide, by decide +kernel⟩

end AgentCpp
