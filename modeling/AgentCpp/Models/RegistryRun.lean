import AgentCpp.Models.RegistryInvariant

/-!
# Runs of the model registry

Every action of every thread keeps the accounting, and from it come the guarantees for
whole interleavings.
-/

namespace AgentCpp
open Lib Registry Usage Option

def RegistryAct.estimate : RegistryAct → Option Usage
  | .acquire _ _ (.ok est) _ => some est
  | .retry _ (.ok est) _ => some est
  | _ => none

def SumsFit (r : Registry) (act : RegistryAct) : Prop :=
  ∀ est, act.estimate = some est → ∀ side, r.st.used.bytes side + est.bytes side < 2 ^ 64

def RegistryAct.unloads : RegistryAct → Bool
  | .unload _ _ | .register _ _ | .resumeUnload _ => true
  | _ => false

/- `set_budget` keeps overcommit off and lowers no limit; no limit is the highest. -/
def NeverLowered (r : Registry) : RegistryAct → Prop
  | .setBudget _ budget => budget.allowOvercommit = false ∧ ∀ side,
      budget.limit.bytes side = 0 ∨
        (r.st.budget.limit.bytes side ≠ 0 ∧ r.st.budget.limit.bytes side ≤ budget.limit.bytes side)
  | _ => True

structure Stepped (r : Registry) (act : RegistryAct) (r' : Registry) : Prop where
  accounted : Accounted r'
  keeps : Keeps act.unloads r.st r'.st
  within : NeverLowered r act → r.st.budget.allowOvercommit = false → Within r.st →
    r'.st.budget.allowOvercommit = false ∧ Within r'.st

variable {r r' : Registry} {t : ℕ} {m : RegistryMove}

theorem Stepped.of_handover {act : RegistryAct} (h : Accounted r) {th : RegistryThread} (ht : r.threads[t]? = some th)
    (hm : Handover act.unloads r.st r.held th m) : Stepped r act (r.settle t m) := by
  refine ⟨h.settle ht hm rfl rfl, hm.keeps, fun _ hover hw => ⟨?_, hm.within hover hw⟩⟩
  change m.st.budget.allowOvercommit = false
  rw [hm.budget]
  exact hover

theorem Registry.call_some (h : r.call t m = some r') :
    ∃ result, r.threads[t]? = some (.returned result) ∧ r' = r.settle t m := by
  unfold Registry.call at h
  split at h
  · next result ht =>
    cases h
    exact ⟨result, ht, rfl⟩
  · cases h

theorem Registry.retry_some {estimate : Result Usage} {canWait : Bool}
    (h : r.retry t estimate canWait = some r') : ∃ name e, r.threads[t]? = some (.acquiring name) ∧
      r.st.entries[name]? = some e ∧ r' = r.settle t (acquireRound r.st name e estimate canWait) := by
  unfold Registry.retry at h
  split at h
  · next name ht =>
    obtain ⟨e, he, heq⟩ := map_eq_some_iff.1 h
    exact ⟨name, e, ht, he, heq.symm⟩
  · cases h

theorem Registry.destroyed_some (h : r.destroyed t = some r') :
    ∃ doomed next, r.threads[t]? = some (.destroying doomed next) ∧
      r' = r.settle t (afterDestroy (r.st.uncharge (Usage.sum doomed)) next) := by
  unfold Registry.destroyed at h
  split at h
  · next doomed next ht =>
    cases h
    exact ⟨doomed, next, ht, rfl⟩
  · cases h

theorem Registry.loaded_some {outcome : LoadOutcome}
    (h : r.loaded t outcome = some r') : ∃ name e, r.threads[t]? = some (.loading name) ∧
      r.st.entries[name]? = some e ∧ r' = r.settle t (finishLoad r.st name e outcome) := by
  unfold Registry.loaded at h
  split at h
  · next name ht =>
    obtain ⟨e, he, heq⟩ := map_eq_some_iff.1 h
    exact ⟨name, e, ht, he, heq.symm⟩
  · cases h

theorem Registry.release_some {lease : Bytes × ℕ} (h : r.release lease = some r') :
    lease ∈ r.held ∧ ∃ e, r.st.entries[lease.1]? = some e ∧
      r' = { r with st := dropLease r.st lease.1 e, held := r.held.erase lease } := by
  unfold Registry.release at h
  split at h
  · next hmem =>
    obtain ⟨e, he, heq⟩ := map_eq_some_iff.1 h
    exact ⟨hmem, e, he, heq.symm⟩
  · cases h

theorem Registry.resumeUnload_some (h : r.resumeUnload t = some r') :
    ∃ name caller e, r.threads[t]? = some (.unloading name caller) ∧
      r.st.entries[name]? = some e ∧ r' = r.settle t (unloadLocked r.st name e caller) := by
  unfold Registry.resumeUnload at h
  split at h
  · next name caller ht =>
    obtain ⟨e, he, heq⟩ := map_eq_some_iff.1 h
    exact ⟨name, caller, e, ht, he, heq.symm⟩
  · cases h

section Steps

variable {r r' : Registry}

variable {t : ℕ}

theorem stepped_destroyed (h : Accounted r) (hstep : r.destroyed t = some r') : Stepped r (.destroyed t) r' := by
  obtain ⟨doomed, next, ht, rfl⟩ := destroyed_some hstep
  have hreleasing : ∀ side, (doomed.map (·.bytes side)).sum ≤ r.st.releasing.bytes side := by
    intro side
    rw [h.releasing side]
    exact le_sum_threads ht (RegistryThread.doomed side)
  have hsum : ∀ side, (Usage.sum doomed).bytes side = (doomed.map (·.bytes side)).sum := by
    intro side
    have hle := hreleasing side
    have hlt := r.st.releasing.bytes_lt side
    exact bytes_sum (by omega)
  have hused : ∀ side, (Usage.sum doomed).bytes side ≤ r.st.used.bytes side := by
    intro side
    have hle := hreleasing side
    have hcharged := h.locked.charged side
    rw [hsum]
    omega
  have hless : ∀ side, (Usage.sum doomed).bytes side ≤ r.st.releasing.bytes side := by
    intro side
    rw [hsum]
    exact hreleasing side
  have hu : ∀ side, (r.st.uncharge (Usage.sum doomed)).used.bytes side =
      r.st.used.bytes side - (Usage.sum doomed).bytes side := fun side => bytes_sub (hused side)
  have hr : ∀ side, (r.st.uncharge (Usage.sum doomed)).releasing.bytes side =
      r.st.releasing.bytes side - (Usage.sum doomed).bytes side := fun side => bytes_sub (hless side)
  have hlocked : Locked (r.st.uncharge (Usage.sum doomed)) r.held := by
    refine { h.locked with charged := fun side => ?_, exact := ?_ }
    · have hcharged := h.locked.charged side
      have hle := hless side
      rw [hu, hr]
      change _ = r.st.charges side + _
      omega
    · change (r.st.underflow || r.st.used.underflows _ || r.st.releasing.underflows _) = false
      rw [h.locked.exact, underflows_eq_false hused, underflows_eq_false hless]
      rfl
  have hm := handover_afterDestroy hlocked next
  refine Stepped.of_handover h ht { hm with releasing := fun side => ?_, within := fun hover hw => ?_ }
  · have hbal := hm.releasing side
    have hle := hless side
    have hdoomed : RegistryThread.doomed side (.destroying doomed next) = (Usage.sum doomed).bytes side :=
      (hsum side).symm
    have hnil : RegistryThread.doomed side (.destroying [] next) = 0 := rfl
    rw [hr] at hbal
    omega
  · refine hm.within hover (hw.mono rfl fun side => ?_)
    have hle' := hused side
    rw [hu, hr]
    omega

theorem Accounted.status_loading (h : Accounted r) {name : Bytes} {e : ModelEntry}
    (ht : r.threads[t]? = some (.loading name)) (he : r.st.entries[name]? = some e) : e.status = .loading := by
  have hone : RegistryThread.loads name (.loading name) = 1 := if_pos rfl
  have hpos := le_sum_threads ht (RegistryThread.loads name)
  rw [← h.loading name, hone] at hpos
  unfold RegistryState.loads at hpos
  rw [he] at hpos
  by_contra hne
  simp [ModelEntry.loads, hne] at hpos

theorem stepped_loaded (h : Accounted r) {outcome : LoadOutcome}
    (hstep : r.loaded t outcome = some r') : Stepped r (.loaded t outcome) r' := by
  obtain ⟨name, e, ht, he, rfl⟩ := loaded_some hstep
  have hstatus := h.status_loading ht he
  have hloads : e.loads = 1 := if_pos hstatus
  have hidle : e.leases = 0 := (h.locked.fine name e he).idle (by rw [hstatus]; decide)
  have hless : ∀ side, e.charge.bytes side ≤ r.st.used.bytes side := by
    intro side
    have := h.locked.charge_le he side
    omega
  refine Stepped.of_handover h ht ?_
  unfold finishLoad
  cases outcome.error e.spec.name with
  | some err =>
    refine ⟨?_, fun side => rfl, fun n => ?_, Keeps.insert rfl he fun hl _ => ?_, rfl, fun _ hw => ?_⟩
    · refine h.locked.update rfl he hidle hidle (fun side => ?_) ⟨fun _ => rfl, fun _ => hidle, nofun⟩ ?_
      · change (r.st.used.sub e.charge).bytes side + _ + _ =
          r.st.used.bytes side + Usage.bytes {} side + r.st.releasing.bytes side
        have hle := hless side
        rw [bytes_sub hle, bytes_zero]
        omega
      · rw [h.locked.exact, underflows_eq_false hless]
        rfl
    · refine loads_insert_end rfl he hloads ?_ n
      rfl
    · rw [hstatus] at hl
      cases hl
    · refine hw.mono rfl fun side => ?_
      change (r.st.used.sub e.charge).bytes side + _ ≤ r.st.used.bytes side + r.st.releasing.bytes side
      rw [bytes_sub (hless side)]
      omega
  | none =>
    have hlocked : Locked { r.st with sessions := r.st.sessions + 1 } r.held :=
      { h.locked with }
    refine ⟨?_, fun side => rfl, fun n => ?_, Keeps.insert rfl he fun hl _ => ?_, rfl, fun _ hw => hw⟩
    · refine locked_makeLease hlocked he rfl rfl rfl ?_ fun hl => ?_
      · rw [hidle]
      · rw [hstatus] at hl
        cases hl
    · refine loads_insert_end rfl he hloads ?_ n
      rfl
    · rw [hstatus] at hl
      cases hl

variable {lease : Bytes × ℕ}

theorem leasesOf_erase (held : List (Bytes × ℕ)) (h : lease ∈ held) (name : Bytes) :
    leasesOf (held.erase lease) name = leasesOf held name - if lease.1 = name then 1 else 0 := by
  unfold leasesOf
  rw [List.countP_erase]
  simp [h]

theorem stepped_release (h : Accounted r) (hstep : r.release lease = some r') : Stepped r (.release lease) r' := by
  obtain ⟨hmem, e, he, rfl⟩ := release_some hstep
  obtain ⟨x, hx, hloaded, hsession⟩ := h.locked.pointed lease hmem
  rw [he] at hx
  cases hx
  have hfine : ({ e with leases := e.leases - 1, useTick := r.st.tick + 1 } : ModelEntry).Fine := by
    refine ⟨fun hs => ?_, fun hs => absurd hloaded hs, fun _ => ⟨lease.2, hsession⟩⟩
    rw [hloaded] at hs
    cases hs
  refine ⟨⟨?_, h.releasing, fun n => ?_⟩, Keeps.insert rfl he fun _ _ => ⟨hloaded, rfl⟩,
    fun _ hover hw => ⟨hover, hw⟩⟩
  · refine h.locked.put rfl (h.locked.charged.put rfl he fun side => rfl) hfine ?_ ?_ ?_ h.locked.exact
    · rw [leasesOf_erase _ hmem, if_pos rfl, h.locked.leases _ e he]
    · intro n hn
      rw [leasesOf_erase _ hmem, if_neg (Ne.symm hn), Nat.sub_zero]
    · intro l hl
      split
      · next hn =>
        obtain ⟨y, hy, hy'⟩ := h.locked.pointed l (List.mem_of_mem_erase hl)
        rw [hn, he] at hy
        cases hy
        exact hy'
      · exact List.mem_of_mem_erase hl
  · rw [← h.loading n]
    refine loads_insert_same rfl he ?_ n
    rfl

theorem stepped_setBudget (h : Accounted r) {budget : ModelBudget}
    (hstep : r.call t (setBudget r.st budget) = some r') : Stepped r (.setBudget t budget) r' := by
  obtain ⟨result, ht, rfl⟩ := call_some hstep
  have hm := handover_setBudget h.locked (quiet_returned result) budget
  refine ⟨h.settle ht hm rfl rfl, hm.keeps, fun hnever hover hw => ?_⟩
  obtain ⟨hoff, hlimit⟩ := hnever
  refine ⟨?_, hm.within hoff fun side hne => ?_⟩
  · change (setBudget r.st budget).st.budget.allowOvercommit = false
    rw [hm.budget]
    exact hoff
  · rcases hlimit side with hzero | ⟨hold, hle⟩
    · exact absurd hzero hne
    · have := hw side hold
      change r.st.used.bytes side ≤ budget.limit.bytes side + r.st.releasing.bytes side
      omega

theorem stepped_step (h : Accounted r) {act : RegistryAct} (hfit : SumsFit r act)
    (hstep : r.step act = some r') : Stepped r act r' := by
  cases act with
  | acquire t name estimate canWait =>
    obtain ⟨result, ht, rfl⟩ := call_some hstep
    refine Stepped.of_handover h ht
      (handover_acquireModel h.locked (quiet_returned result) name estimate canWait fun est hest => ?_)
    rw [hest] at hfit
    exact hfit est rfl
  | retry t estimate canWait =>
    obtain ⟨name, e, ht, he, rfl⟩ := retry_some hstep
    refine Stepped.of_handover h ht
      (handover_acquireRound h.locked (quiet_acquiring name) he estimate canWait fun est hest => ?_)
    rw [hest] at hfit
    exact hfit est rfl
  | destroyed t => exact stepped_destroyed h hstep
  | loaded t outcome => exact stepped_loaded h hstep
  | release lease => exact stepped_release h hstep
  | unload t name =>
    obtain ⟨result, ht, rfl⟩ := call_some hstep
    exact Stepped.of_handover h ht (handover_unloadModel h.locked (quiet_returned result) name)
  | register t spec =>
    obtain ⟨result, ht, rfl⟩ := call_some hstep
    exact Stepped.of_handover h ht (handover_registerModel h.locked (quiet_returned result) spec)
  | resumeUnload t =>
    obtain ⟨name, caller, e, ht, he, rfl⟩ := resumeUnload_some hstep
    exact Stepped.of_handover h ht (handover_unloadLocked h.locked (quiet_unloading name caller) he caller)
  | setBudget t budget => exact stepped_setBudget h hstep

end Steps

theorem accounted_init (threads : ℕ) (budget : ModelBudget) : Accounted (Registry.init threads budget) := by
  refine ⟨⟨fun side => ?_, fun name e he => ?_, fun name e he => ?_, nofun, rfl⟩, fun side => ?_, fun name => ?_⟩
  · change Usage.bytes {} side = Table.total _ ∅ + Usage.bytes {} side
    rw [bytes_zero]
    rfl
  · cases he
  · cases he
  · change Usage.bytes {} side = ((List.replicate threads _).map _).sum
    rw [bytes_zero]
    simp [RegistryThread.doomed]
  · unfold RegistryState.loads
    simp [Registry.init, RegistryThread.loads]

structure Bounded (r : Registry) : Prop where
  accounted : Accounted r
  off : r.st.budget.allowOvercommit = false
  within : Within r.st

theorem bounded_init (threads : ℕ) {budget : ModelBudget} (h : budget.allowOvercommit = false) :
    Bounded (Registry.init threads budget) := by
  refine ⟨accounted_init threads budget, h, fun side _ => ?_⟩
  change Usage.bytes {} side ≤ _
  rw [bytes_zero]
  exact Nat.zero_le _

theorem bounded_step (r : Registry) (act : RegistryAct) (r' : Registry) (h : Bounded r)
    (hok : SumsFit r act ∧ NeverLowered r act) (hstep : r.step act = some r') : Bounded r' := by
  have hs := stepped_step h.accounted hok.1 hstep
  obtain ⟨hoff, hw⟩ := hs.within hok.2 h.off h.within
  exact ⟨hs.accounted, hoff, hw⟩

/-- For every interleaving of calls of any number of threads: the bytes in use are the charges of the
entries and the bytes still being released; no subtraction wraps; a model in use is loaded with the
session its leases point to; no step takes it away, nor a pinned one unless a call asks to; and with
overcommit off and no limit lowered, what is not being released stays within the budget. -/
theorem registry_accounting (threads : ℕ) (budget : ModelBudget) (acts : List RegistryAct) (r : Registry)
    (hrun : run Registry.step (Registry.init threads budget) acts = some r)
    (hfit : Meets Registry.step SumsFit (Registry.init threads budget) acts) :
    (∀ side, r.st.used.bytes side = r.st.charges side + r.st.releasing.bytes side) ∧ r.st.underflow = false ∧
    (∀ (name : Bytes) (e : ModelEntry), r.st.entries[name]? = some e →
      (e.status = .unloaded → e.charge = {}) ∧
      (0 < e.leases → e.status = .loaded ∧ ∃ s, e.session = some s)) ∧
    (∀ lease ∈ r.held, ∃ e, r.st.entries[lease.1]? = some e ∧ 0 < e.leases ∧ e.session = some lease.2) ∧
    (∀ act r', SumsFit r act → r.step act = some r' → Keeps act.unloads r.st r'.st) ∧
    (budget.allowOvercommit = false → Meets Registry.step NeverLowered (Registry.init threads budget) acts →
      ∀ side, r.st.budget.limit.bytes side ≠ 0 →
        r.st.used.bytes side - r.st.releasing.bytes side ≤ r.st.budget.limit.bytes side) := by
  have hacc : Accounted r := run_invariant_of_meets (fun _ _ _ h hok hstep => (stepped_step h hok hstep).accounted)
    hrun hfit (accounted_init threads budget)
  refine ⟨hacc.locked.charged, hacc.locked.exact, fun name e he => ?_, fun lease hl => ?_,
    fun act r' hok hstep => (stepped_step hacc hok hstep).keeps, fun hoff hnever side hlimit => ?_⟩
  · exact ⟨(hacc.locked.fine name e he).uncharged, hacc.locked.leased he⟩
  · obtain ⟨e, he, -, hsession⟩ := hacc.locked.pointed lease hl
    refine ⟨e, he, ?_, hsession⟩
    rw [hacc.locked.leases lease.1 e he]
    exact List.countP_pos_iff.2 ⟨lease, hl, by simp⟩
  · have hbounded := run_invariant_of_meets bounded_step hrun (hfit.and hnever) (bounded_init threads hoff)
    have := hbounded.within side hlimit
    omega

def registerAndLoad : List RegistryAct :=
  [.register 0 { name := lit "m" }, .acquire 0 (lit "m") (.ok ⟨60, 0⟩) false, .loaded 0 .ok]

theorem registry_accounting_registerAndLoad :
    ∃ r, run Registry.step (Registry.init 1 { limit := ⟨100, 0⟩ }) registerAndLoad = some r ∧
      r.held = [(lit "m", 0)] ∧ r.st.used.bytes .ram = 60 ∧
      (∀ side, r.st.used.bytes side = r.st.charges side + r.st.releasing.bytes side) ∧
      r.st.used.bytes .ram - r.st.releasing.bytes .ram ≤ r.st.budget.limit.bytes .ram := by
  obtain ⟨r, hrun, hheld, hused, hlimit⟩ : ∃ r,
      run Registry.step (Registry.init 1 { limit := ⟨100, 0⟩ }) registerAndLoad = some r ∧
        r.held = [(lit "m", 0)] ∧ r.st.used = ⟨60, 0⟩ ∧ r.st.budget.limit = ⟨100, 0⟩ :=
    ⟨_, rfl, rfl, rfl, rfl⟩
  have hsmall : ∀ side, (Usage.mk 0 0).bytes side + (Usage.mk 60 0).bytes side < 2 ^ 64 := by
    intro side
    cases side <;> decide
  have hfit : Meets Registry.step SumsFit (Registry.init 1 { limit := ⟨100, 0⟩ }) registerAndLoad := by
    refine .cons nofun rfl (.cons ?_ rfl (.cons nofun rfl trivial))
    intro est hest
    cases hest
    exact hsmall
  have hnever : Meets Registry.step NeverLowered (Registry.init 1 { limit := ⟨100, 0⟩ }) registerAndLoad :=
    .cons trivial rfl (.cons trivial rfl (.cons trivial rfl trivial))
  obtain ⟨hcharged, -, -, -, -, hbudget⟩ := registry_accounting 1 { limit := ⟨100, 0⟩ } registerAndLoad r hrun hfit
  refine ⟨r, hrun, hheld, ?_, hcharged, hbudget rfl hnever .ram ?_⟩
  · rw [hused]
    rfl
  · rw [hlimit]
    decide

end AgentCpp
