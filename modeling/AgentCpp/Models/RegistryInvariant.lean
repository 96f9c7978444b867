import AgentCpp.Models.Registry

/-!
# Accounting and leases of the model registry

`Locked` is about the shared state alone, and `Accounted` ties the bytes being released and
the models being loaded to the threads that do it.
-/

namespace AgentCpp
open Lib Table Usage List

namespace Usage

def bytes (u : Usage) (side : Side) : ℕ := (u.get side).toNat

theorem bytes_zero (side : Side) : ({} : Usage).bytes side = 0 := by cases side <;> rfl

theorem bytes_lt (u : Usage) (side : Side) : u.bytes side < 2 ^ 64 := (u.get side).toNat_lt

theorem get_add (a b : Usage) (side : Side) : (a.add b).get side = a.get side + b.get side := by
  cases side <;> rfl

theorem get_sub (a b : Usage) (side : Side) : (a.sub b).get side = a.get side - b.get side := by
  cases side <;> rfl

variable {a b : Usage} {side : Side}

theorem bytes_add (h : a.bytes side + b.bytes side < 2 ^ 64) :
    (a.add b).bytes side = a.bytes side + b.bytes side := by
  unfold bytes
  rw [get_add]
  exact Nat.mod_eq_of_lt h

theorem bytes_sub (h : b.bytes side ≤ a.bytes side) : (a.sub b).bytes side = a.bytes side - b.bytes side := by
  unfold bytes
  rw [get_sub]
  exact UInt64.toNat_sub_of_le _ _ (UInt64.le_iff_toNat_le.2 h)

theorem underflows_eq_false (h : ∀ side, b.bytes side ≤ a.bytes side) : a.underflows b = false := by
  have hram : ¬ a.ram < b.ram := by
    rw [UInt64.not_lt]
    exact UInt64.le_iff_toNat_le.2 (h .ram)
  have hvram : ¬ a.vram < b.vram := by
    rw [UInt64.not_lt]
    exact UInt64.le_iff_toNat_le.2 (h .vram)
  simp [underflows, hram, hvram]

theorem bytes_foldl_add (us : List Usage) (u : Usage) (side : Side)
    (h : u.bytes side + (us.map (·.bytes side)).sum < 2 ^ 64) :
    (us.foldl add u).bytes side = u.bytes side + (us.map (·.bytes side)).sum := by
  induction us generalizing u with
  | nil => rfl
  | cons v us ih =>
    rw [map_cons, sum_cons] at h
    have hadd : (u.add v).bytes side = u.bytes side + v.bytes side := bytes_add (by omega)
    rw [foldl_cons, ih (u.add v) (by omega), map_cons, sum_cons]
    omega

theorem bytes_sum {us : List Usage} (h : (us.map (·.bytes side)).sum < 2 ^ 64) :
    (sum us).bytes side = (us.map (·.bytes side)).sum := by
  have := bytes_foldl_add us {} side
  rw [bytes_zero, Nat.zero_add] at this
  exact this h

end Usage

namespace RegistryState

def charges (st : RegistryState) (side : Side) : ℕ :=
  Table.total (fun e => e.charge.bytes side) st.entries

end RegistryState

def ModelEntry.loads (e : ModelEntry) : ℕ := if e.status = .loading then 1 else 0

def RegistryState.loads (st : RegistryState) (name : Bytes) : ℕ :=
  match st.entries[name]? with
  | none => 0
  | some e => e.loads

/- Bytes are charged and leases are out only where the status allows them. -/
structure ModelEntry.Fine (e : ModelEntry) : Prop where
  uncharged : e.status = .unloaded → e.charge = {}
  idle : e.status ≠ .loaded → e.leases = 0
  owns : e.status = .loaded → ∃ s, e.session = some s

def leasesOf (held : List (Bytes × ℕ)) (name : Bytes) : ℕ := held.countP fun l => l.1 == name

def Charged (st : RegistryState) : Prop :=
  ∀ side, st.used.bytes side = st.charges side + st.releasing.bytes side

structure Locked (st : RegistryState) (held : List (Bytes × ℕ)) : Prop where
  charged : Charged st
  fine : ∀ (name : Bytes) (e : ModelEntry), st.entries[name]? = some e → e.Fine
  leases : ∀ name e, st.entries[name]? = some e → e.leases = leasesOf held name
  pointed : ∀ l ∈ held, ∃ e, st.entries[l.1]? = some e ∧ e.status = .loaded ∧ e.session = some l.2
  exact : st.underflow = false

section Put

variable {st st' : RegistryState} {held : List (Bytes × ℕ)} {name : Bytes} {e e' : ModelEntry}

theorem Locked.charge_le (h : Locked st held) (he : st.entries[name]? = some e) (side : Side) :
    e.charge.bytes side + st.releasing.bytes side ≤ st.used.bytes side := by
  have hle := le_total (fun e => e.charge.bytes side) st.entries name e he
  have hcharged := h.charged side
  unfold RegistryState.charges at hcharged
  omega

theorem Locked.leased (h : Locked st held) (he : st.entries[name]? = some e) (hl : 0 < e.leases) :
    e.status = .loaded ∧ ∃ s, e.session = some s := by
  have hloaded : e.status = .loaded := by
    by_contra hne
    have := (h.fine name e he).idle hne
    omega
  exact ⟨hloaded, (h.fine name e he).owns hloaded⟩

variable (hentries : st'.entries = st.entries.insert name e')
include hentries

theorem Locked.put {held' : List (Bytes × ℕ)} (h : Locked st held) (hcharged : Charged st') (hfine : e'.Fine)
    (hleases : e'.leases = leasesOf held' name) (hothers : ∀ n, n ≠ name → leasesOf held' n = leasesOf held n)
    (hpointed : ∀ l ∈ held', if l.1 = name then e'.status = .loaded ∧ e'.session = some l.2 else l ∈ held)
    (hexact : st'.underflow = false) : Locked st' held' := by
  have hget : ∀ n, st'.entries[n]? = if name = n then some e' else st.entries[n]? := by
    intro n
    rw [hentries, get_insert]
  refine ⟨hcharged, fun n x hx => ?_, fun n x hx => ?_, fun l hl => ?_, hexact⟩
  · rw [hget] at hx
    split at hx
    · cases hx
      exact hfine
    · exact h.fine n x hx
  · rw [hget] at hx
    split at hx
    · next hn =>
      cases hx
      rw [← hn]
      exact hleases
    · next hn =>
      rw [hothers n (Ne.symm hn)]
      exact h.leases n x hx
  · have hp := hpointed l hl
    rw [hget]
    by_cases hn : l.1 = name
    · rw [if_pos hn] at hp
      rw [if_pos hn.symm]
      exact ⟨e', rfl, hp⟩
    · rw [if_neg hn] at hp
      rw [if_neg (Ne.symm hn)]
      exact h.pointed l hp

theorem Locked.put_idle (h : Locked st held) (hcharged : Charged st') (hfine : e'.Fine)
    (hfree : leasesOf held name = 0) (hidle : e'.leases = 0) (hexact : st'.underflow = false) : Locked st' held := by
  refine h.put hentries hcharged hfine (hidle.trans hfree.symm) (fun _ _ => rfl) (fun l hl => ?_) hexact
  rw [if_neg]
  · exact hl
  · intro hn
    exact countP_eq_zero.1 hfree l hl (beq_iff_eq.2 hn)

variable (he : st.entries[name]? = some e)
include he

theorem Charged.put (h : Charged st)
    (hbal : ∀ side, st'.used.bytes side + e.charge.bytes side + st.releasing.bytes side =
      st.used.bytes side + e'.charge.bytes side + st'.releasing.bytes side) : Charged st' := by
  intro side
  have htotal := total_insert (fun e => e.charge.bytes side) st.entries name e e' he
  have hold := h side
  have hnew := hbal side
  unfold RegistryState.charges at hold ⊢
  rw [hentries]
  omega

theorem Locked.update (h : Locked st held) (hidle : e.leases = 0) (hidle' : e'.leases = 0)
    (hbal : ∀ side, st'.used.bytes side + e.charge.bytes side + st.releasing.bytes side =
      st.used.bytes side + e'.charge.bytes side + st'.releasing.bytes side)
    (hfine : e'.Fine) (hexact : st'.underflow = false) : Locked st' held :=
  h.put_idle hentries (h.charged.put hentries he hbal) hfine ((h.leases name e he).symm.trans hidle) hidle' hexact

theorem loads_insert (n : Bytes) :
    st'.loads n + (if name = n then e.loads else 0) = st.loads n + (if name = n then e'.loads else 0) := by
  unfold RegistryState.loads
  rw [hentries, get_insert]
  by_cases hn : name = n
  · subst hn
    rw [if_pos rfl, if_pos rfl, if_pos rfl, he]
    exact Nat.add_comm _ _
  · rw [if_neg hn, if_neg hn, if_neg hn]

theorem loads_insert_same (hsame : e'.loads = e.loads) (n : Bytes) : st'.loads n = st.loads n := by
  have hbal := loads_insert hentries he n
  rw [hsame] at hbal
  omega

theorem loads_insert_begin (hold : e.loads = 0) (hnew : e'.loads = 1) (n : Bytes) :
    st'.loads n = st.loads n + if name = n then 1 else 0 := by
  have hbal := loads_insert hentries he n
  rw [hold, hnew] at hbal
  simpa using hbal

theorem loads_insert_end (hold : e.loads = 1) (hnew : e'.loads = 0) (n : Bytes) :
    st'.loads n + (if name = n then 1 else 0) = st.loads n := by
  have hbal := loads_insert hentries he n
  rw [hold, hnew] at hbal
  simpa using hbal

end Put

def AfterDestroy.loads (name : Bytes) : AfterDestroy → ℕ
  | .load n => if n = name then 1 else 0
  | _ => 0

namespace RegistryThread

def doomed (side : Side) : RegistryThread → ℕ
  | .destroying doomed _ => (doomed.map (·.bytes side)).sum
  | _ => 0

def loads (name : Bytes) : RegistryThread → ℕ
  | .destroying _ next => next.loads name
  | .loading n => if n = name then 1 else 0
  | _ => 0

end RegistryThread

structure Accounted (r : Registry) : Prop where
  locked : Locked r.st r.held
  releasing : ∀ side, r.st.releasing.bytes side = (r.threads.map (RegistryThread.doomed side)).sum
  loading : ∀ name, r.st.loads name = (r.threads.map (RegistryThread.loads name)).sum

/- What stays loaded: the models in use and, unless the call unloads the model it names, the pinned
ones. -/
def Keeps (unloads : Bool) (st st' : RegistryState) : Prop :=
  ∀ (name : Bytes) (e : ModelEntry), st.entries[name]? = some e → e.status = .loaded →
    0 < e.leases ∨ (unloads = false ∧ e.spec.pinned = true) →
    ∃ e' : ModelEntry, st'.entries[name]? = some e' ∧ e'.status = .loaded ∧ e'.session = e.session

variable {unloads : Bool} {st st' : RegistryState}

theorem Keeps.of_entries (h : st'.entries = st.entries) : Keeps unloads st st' := by
  intro name e he hloaded _
  rw [h]
  exact ⟨e, he, hloaded, rfl⟩

theorem Keeps.insert {name : Bytes} {e e' : ModelEntry} (h : st'.entries = st.entries.insert name e')
    (he : st.entries[name]? = some e)
    (hsame : e.status = .loaded → 0 < e.leases ∨ (unloads = false ∧ e.spec.pinned = true) →
      e'.status = .loaded ∧ e'.session = e.session) : Keeps unloads st st' := by
  intro n x hx hloaded hwhy
  rw [h, get_insert]
  split
  · next hn =>
    rw [← hn, he] at hx
    cases hx
    exact ⟨e', rfl, hsame hloaded hwhy⟩
  · exact ⟨x, hx, hloaded, rfl⟩

/- What is not being released stays below each limit. -/
def Within (st : RegistryState) : Prop :=
  ∀ side, st.budget.limit.bytes side ≠ 0 →
    st.used.bytes side ≤ st.budget.limit.bytes side + st.releasing.bytes side

theorem Within.mono (h : Within st) (hbudget : st'.budget = st.budget)
    (hless : ∀ side, st'.used.bytes side + st.releasing.bytes side ≤
      st.used.bytes side + st'.releasing.bytes side) : Within st' := by
  intro side hlimit
  rw [hbudget] at hlimit ⊢
  have hold := h side hlimit
  have hnew := hless side
  omega

/- What a locked section of a thread that was `th` has to hand over. -/
structure Handover (unloads : Bool) (st : RegistryState) (held : List (Bytes × ℕ)) (th : RegistryThread)
    (m : RegistryMove) : Prop where
  locked : Locked m.st (m.lease.toList ++ held)
  releasing : ∀ side, m.st.releasing.bytes side + th.doomed side =
    st.releasing.bytes side + m.thread.doomed side
  loading : ∀ name, m.st.loads name + th.loads name = st.loads name + m.thread.loads name
  keeps : Keeps unloads st m.st
  budget : m.st.budget = st.budget
  within : st.budget.allowOvercommit = false → Within st → Within m.st

variable {t : ℕ} {th : RegistryThread}

theorem Accounted.settle {r : Registry} (h : Accounted r) (ht : r.threads[t]? = some th) {m : RegistryMove}
    (hm : Handover unloads st r.held th m) (hreleasing : st.releasing = r.st.releasing)
    (hentries : st.entries = r.st.entries) : Accounted (r.settle t m) := by
  refine ⟨hm.locked, fun side => ?_, fun name => ?_⟩
  · have hsum := sum_map_set (RegistryThread.doomed side) r.threads t th m.thread ht
    have hold := h.releasing side
    have hnew := hm.releasing side
    rw [hreleasing] at hnew
    change m.st.releasing.bytes side = ((r.threads.set t m.thread).map (RegistryThread.doomed side)).sum
    omega
  · have hsum := sum_map_set (RegistryThread.loads name) r.threads t th m.thread ht
    have hold := h.loading name
    have hnew := hm.loading name
    unfold RegistryState.loads at hold hnew
    rw [hentries] at hnew
    change m.st.loads name = ((r.threads.set t m.thread).map (RegistryThread.loads name)).sum
    unfold RegistryState.loads
    omega

theorem le_sum_threads {threads : List RegistryThread}
    (ht : threads[t]? = some th) (f : RegistryThread → ℕ) : f th ≤ (threads.map f).sum :=
  single_le_sum (by simp) (f th) (mem_map_of_mem (mem_of_getElem? ht))

def Quiet (th : RegistryThread) : Prop := (∀ side, th.doomed side = 0) ∧ ∀ name, th.loads name = 0

theorem quiet_returned (result : Result Unit) : Quiet (.returned result) := ⟨fun _ => rfl, fun _ => rfl⟩

theorem quiet_acquiring (name : Bytes) : Quiet (.acquiring name) := ⟨fun _ => rfl, fun _ => rfl⟩

theorem quiet_unloading (name : Bytes) (caller : Unloader) : Quiet (.unloading name caller) :=
  ⟨fun _ => rfl, fun _ => rfl⟩

section Sections

variable {st : RegistryState} {held : List (Bytes × ℕ)} {th : RegistryThread} {name : Bytes} {e : ModelEntry}

def Evictable (st : RegistryState) (c : Bytes × ModelEntry) : Prop :=
  st.entries[c.1]? = some c.2 ∧ c.2.status = .loaded ∧ c.2.leases = 0

variable {c : Bytes × ModelEntry} {except : Option Bytes} {doomed : List (Bytes × ModelEntry)}

theorem Locked.takeOut (h : Locked st held) (hc : Evictable st c) : Locked (st.takeOut c.1 c.2) held ∧
    (∀ side, (st.takeOut c.1 c.2).releasing.bytes side = st.releasing.bytes side + c.2.charge.bytes side) ∧
    ∀ n, (st.takeOut c.1 c.2).loads n = st.loads n := by
  obtain ⟨he, hloaded, hidle⟩ := hc
  have hreleasing : ∀ side, (st.takeOut c.1 c.2).releasing.bytes side =
      st.releasing.bytes side + c.2.charge.bytes side := by
    intro side
    have hle := h.charge_le he side
    have hlt := st.used.bytes_lt side
    exact bytes_add (by omega)
  refine ⟨?_, hreleasing, fun n => ?_⟩
  · refine h.update rfl he hidle hidle (fun side => ?_) ⟨fun _ => rfl, fun _ => hidle, nofun⟩ h.exact
    rw [hreleasing]
    change st.used.bytes side + _ + _ = st.used.bytes side + Usage.bytes {} side + _
    rw [bytes_zero]
    omega
  · refine loads_insert_same rfl he ?_ n
    unfold ModelEntry.loads
    rw [hloaded]
    rfl

theorem takeOutAll_others {n : Bytes} (hn : n ∉ doomed.map Prod.fst) :
    (st.takeOutAll doomed).entries[n]? = st.entries[n]? := by
  induction doomed generalizing st with
  | nil => rfl
  | cons d doomed ih =>
    rw [map_cons, mem_cons, not_or] at hn
    exact (ih hn.2).trans (get_insert_ne _ _ _ _ (Ne.symm hn.1))

structure TakenOut (st : RegistryState) (held : List (Bytes × ℕ)) (cs : List (Bytes × ModelEntry))
    (st' : RegistryState) : Prop where
  locked : Locked st' held
  releasing : ∀ side, st'.releasing.bytes side =
    st.releasing.bytes side + (cs.map fun c => c.2.charge.bytes side).sum
  loads : ∀ n, st'.loads n = st.loads n
  used : st'.used = st.used
  budget : st'.budget = st.budget

theorem takeOutAll_takenOut (h : Locked st held) (cs : List (Bytes × ModelEntry))
    (hnodup : (cs.map Prod.fst).Nodup) (hcs : ∀ c ∈ cs, Evictable st c) : TakenOut st held cs (st.takeOutAll cs) := by
  induction cs generalizing st with
  | nil => exact ⟨h, fun _ => rfl, fun _ => rfl, rfl, rfl⟩
  | cons c cs ih =>
    rw [map_cons, nodup_cons] at hnodup
    obtain ⟨hlocked, hreleasing, hloads⟩ := h.takeOut (hcs c (by simp))
    have hrest : ∀ d ∈ cs, Evictable (st.takeOut c.1 c.2) d := by
      intro d hd
      obtain ⟨hentry, hd'⟩ := hcs d (by simp [hd])
      refine ⟨(get_insert_ne _ _ _ _ fun heq => hnodup.1 ?_).trans hentry, hd'⟩
      rw [heq]
      exact mem_map_of_mem hd
    have htail := ih hlocked hnodup.2 hrest
    refine ⟨htail.locked, fun side => ?_, fun n => (htail.loads n).trans (hloads n), htail.used, htail.budget⟩
    have := htail.releasing side
    rw [hreleasing] at this
    rw [map_cons, sum_cons]
    change (RegistryState.takeOutAll (st.takeOut c.1 c.2) cs).releasing.bytes side = _
    omega

theorem mem_evictable :
    c ∈ evictable st except ↔ Evictable st c ∧ some c.1 ≠ except ∧ c.2.spec.pinned = false := by
  unfold evictable Evictable
  rw [mem_insertionSort, mem_filter, mem_toList]
  simp only [Bool.and_eq_true, bne_iff_ne, beq_iff_eq, Bool.not_eq_true']
  tauto

theorem nodup_evictable (st : RegistryState) (except : Option Bytes) :
    ((evictable st except).map Prod.fst).Nodup := by
  have hkeys : (st.entries.toList.map Prod.fst).Nodup :=
    pairwise_map.2 (distinct_toList st.entries)
  exact ((perm_insertionSort _ _).map Prod.fst).nodup_iff.2 (hkeys.sublist (filter_sublist.map Prod.fst))

theorem sum_evictable_le (st : RegistryState) (except : Option Bytes) (side : Side) :
    ((evictable st except).map fun c => c.2.charge.bytes side).sum ≤ st.charges side := by
  unfold evictable RegistryState.charges Table.total
  rw [((perm_insertionSort _ _).map _).sum_eq]
  exact (filter_sublist.map _).sum_le_sum (by simp)

theorem takenOut_of_sublist (h : Locked st held) (hsub : doomed.Sublist (evictable st except)) :
    TakenOut st held doomed (st.takeOutAll doomed) :=
  takeOutAll_takenOut h doomed ((nodup_evictable st except).sublist (hsub.map _))
    fun _ hc => (mem_evictable.1 (hsub.subset hc)).1

theorem keeps_takeOutAll (hsub : doomed.Sublist (evictable st except)) : Keeps false st (st.takeOutAll doomed) := by
  intro n x hx hloaded hwhy
  have hout : n ∉ doomed.map Prod.fst := by
    intro hn
    obtain ⟨c, hc, rfl⟩ := mem_map.1 hn
    obtain ⟨⟨hentry, -, hidle⟩, -, hpinned⟩ := mem_evictable.1 (hsub.subset hc)
    rw [hx] at hentry
    cases hentry
    rcases hwhy with hlease | ⟨-, hpin⟩
    · omega
    · rw [hpinned] at hpin
      cases hpin
  rw [takeOutAll_others hout]
  exact ⟨x, hx, hloaded, rfl⟩

theorem fits_iff {limit used need : UInt64} (hsum : used.toNat + need.toNat < 2 ^ 64) :
    fits limit used need = true ↔ (limit.toNat ≠ 0 → used.toNat + need.toNat ≤ limit.toNat) := by
  unfold fits
  rw [Bool.or_eq_true, beq_iff_eq, decide_eq_true_eq, UInt64.le_iff_toNat_le, UInt64.toNat_add,
    Nat.mod_eq_of_lt hsum, ← UInt64.toNat_inj]
  exact Decidable.or_iff_not_imp_left

def FitsWithout (budget : ModelBudget) (used need : Usage) (gone : List (Bytes × ModelEntry)) : Prop :=
  ∀ side, budget.limit.bytes side ≠ 0 →
    used.bytes side + need.bytes side ≤ budget.limit.bytes side + (gone.map fun c => c.2.charge.bytes side).sum

section Plan

variable {budget : ModelBudget} {used need : Usage}

theorem fitsWithout_nil (hsum : ∀ side, used.bytes side + need.bytes side < 2 ^ 64) :
    FitsWithout budget used need [] ↔ fitsBudget budget used need = true := by
  have hram : used.ram.toNat + need.ram.toNat < 2 ^ 64 := hsum .ram
  have hvram : used.vram.toNat + need.vram.toNat < 2 ^ 64 := hsum .vram
  unfold fitsBudget
  rw [Bool.and_eq_true, fits_iff hram, fits_iff hvram]
  constructor
  · intro h
    exact ⟨h .ram, h .vram⟩
  · intro ⟨hram, hvram⟩ side
    cases side with
    | ram => exact hram
    | vram => exact hvram

theorem fitsWithout_cons {gone : List (Bytes × ModelEntry)}
    (hle : ∀ side, c.2.charge.bytes side ≤ used.bytes side) :
    FitsWithout budget used need (c :: gone) ↔ FitsWithout budget (used.sub c.2.charge) need gone := by
  refine forall_congr' fun side => forall_congr' fun _ => ?_
  have hc := hle side
  rw [bytes_sub hc, map_cons, sum_cons]
  omega

/- The loop of `plan`: no subtraction wraps, a plan that succeeds makes room, and fewer candidates do not. -/
theorem planFrom_exact (cs : List (Bytes × ModelEntry))
    (hcs : ∀ side, (cs.map fun c => c.2.charge.bytes side).sum ≤ used.bytes side)
    (hsum : ∀ side, used.bytes side + need.bytes side < 2 ^ 64) : (planFrom budget need used cs).underflow = false ∧
    ((planFrom budget need used cs).ok = true →
      FitsWithout budget used need (cs.take (planFrom budget need used cs).count)) ∧
    ∀ j, ((planFrom budget need used cs).ok = true → j < (planFrom budget need used cs).count) →
      ¬FitsWithout budget used need (cs.take j) := by
  induction cs generalizing used with
  | nil =>
    refine ⟨rfl, (fitsWithout_nil hsum).2, fun j hj hfits => ?_⟩
    rw [take_nil, fitsWithout_nil hsum] at hfits
    exact Nat.not_lt_zero j (hj hfits)
  | cons c cs ih =>
    unfold planFrom
    by_cases hfits : fitsBudget budget used need = true
    · rw [if_pos hfits]
      exact ⟨rfl, fun _ => (fitsWithout_nil hsum).2 hfits, fun j hj => absurd (hj rfl) (Nat.not_lt_zero j)⟩
    · rw [if_neg hfits]
      simp only [map_cons, sum_cons] at hcs
      have hle : ∀ side, c.2.charge.bytes side ≤ used.bytes side := fun side => by
        have := hcs side
        omega
      obtain ⟨hunder, hroom, hleast⟩ := @ih (used.sub c.2.charge) (fun side => by
          have := hcs side
          rw [bytes_sub (hle side)]
          omega)
        (fun side => by
          have := hsum side
          rw [bytes_sub (hle side)]
          omega)
      refine ⟨?_, fun hok => ?_, fun j hj => ?_⟩
      · simp only [hunder, underflows_eq_false hle, Bool.or_false]
      · rw [take_succ_cons, fitsWithout_cons hle]
        exact hroom hok
      · cases j with
        | zero => rwa [take_zero, fitsWithout_nil hsum]
        | succ j =>
          rw [take_succ_cons, fitsWithout_cons hle]
          exact hleast j fun hok => Nat.lt_of_succ_lt_succ (hj hok)

theorem plan_exact (h : Charged st) (except : Option Bytes) (need : Usage)
    (hsum : ∀ side, st.used.bytes side + need.bytes side < 2 ^ 64) :
    (plan st (evictable st except) need).underflow = false ∧
    ((plan st (evictable st except) need).ok = true → FitsWithout st.budget st.used need
      ((evictable st except).take (plan st (evictable st except) need).count)) ∧
    ∀ j, ((plan st (evictable st except) need).ok = true → j < (plan st (evictable st except) need).count) →
      ¬FitsWithout st.budget st.used need ((evictable st except).take j) := by
  refine planFrom_exact _ (fun side => ?_) hsum
  have hle := sum_evictable_le st except side
  have hcharged := h side
  omega

end Plan

theorem handover_stay (unloads : Bool) (h : Locked st held) (hth : Quiet th) {th' : RegistryThread}
    (hth' : Quiet th') : Handover unloads st held th { st := st, thread := th' } := by
  refine ⟨h, fun side => ?_, fun n => ?_, Keeps.of_entries rfl, rfl, fun _ hw => hw⟩
  · rw [hth.1, hth'.1]
  · rw [hth.2, hth'.2]

theorem locked_makeLease (h : Locked st held) (he : st.entries[name]? = some e) {e' : ModelEntry} {s : ℕ}
    (hloaded : e'.status = .loaded) (hsession : e'.session = some s) (hcharge : e'.charge = e.charge)
    (hleases : e'.leases = e.leases + 1) (hsame : e.status = .loaded → e'.session = e.session) :
    Locked (makeLease st name e').st ((makeLease st name e').lease.toList ++ held) := by
  have hlease : (makeLease st name e').lease = some (name, s) := by
    change e'.session.map _ = _
    rw [hsession]
    rfl
  have hfine : ({ e' with useTick := st.tick + 1 } : ModelEntry).Fine := by
    refine ⟨fun hs => ?_, fun hs => absurd hloaded hs, fun _ => ⟨s, hsession⟩⟩
    rw [hloaded] at hs
    cases hs
  rw [hlease]
  refine h.put rfl (h.charged.put rfl he fun side => ?_) hfine ?_ ?_ ?_ h.exact
  · rw [hcharge]
    rfl
  · change e'.leases = leasesOf ((name, s) :: held) name
    rw [hleases, h.leases name e he]
    unfold leasesOf
    rw [countP_cons_of_pos (by simp)]
  · intro n hn
    exact countP_cons_of_neg (by simp [Ne.symm hn])
  · intro l hl
    rcases mem_cons.1 hl with rfl | hl
    · rw [if_pos rfl]
      exact ⟨hloaded, hsession⟩
    · split
      · next hn =>
        obtain ⟨x, hx, hstatus, hx'⟩ := h.pointed l hl
        rw [hn, he] at hx
        cases hx
        exact ⟨hloaded, (hsame hstatus).trans hx'⟩
      · exact hl

theorem handover_lease (h : Locked st held) (hth : Quiet th) (he : st.entries[name]? = some e)
    (hloaded : e.status = .loaded) :
    Handover false st held th (makeLease st name { e with leases := e.leases + 1 }) := by
  obtain ⟨s, hs⟩ := (h.fine name e he).owns hloaded
  refine ⟨locked_makeLease h he hloaded hs rfl rfl (fun _ => rfl), fun side => ?_, fun n => ?_,
    Keeps.insert rfl he (fun _ _ => ⟨hloaded, rfl⟩), rfl, fun _ hw => hw⟩
  · rw [hth.1]
    rfl
  · rw [hth.2]
    refine loads_insert_same rfl he ?_ n
    rfl

theorem destroy_reserved (st : RegistryState) (doomed : List Usage) (next : AfterDestroy)
    (hnext : next = .setBudget ∨ ∃ n, next = .load n) :
    (destroy st doomed next).st = st ∧ (destroy st doomed next).lease = none ∧
    (∀ side, (destroy st doomed next).thread.doomed side = (doomed.map (·.bytes side)).sum) ∧
    ∀ n, (destroy st doomed next).thread.loads n = next.loads n := by
  unfold destroy
  split
  · next hnil =>
    subst hnil
    rcases hnext with rfl | ⟨n, rfl⟩
    · exact ⟨rfl, rfl, fun _ => rfl, fun _ => rfl⟩
    · exact ⟨rfl, rfl, fun _ => rfl, fun _ => rfl⟩
  · exact ⟨rfl, rfl, fun _ => rfl, fun _ => rfl⟩

variable {est : Usage}

theorem within_evictAndLoad (h : Locked st held) (e : ModelEntry)
    (hest : ∀ side, st.used.bytes side + est.bytes side < 2 ^ 64) (hsub : doomed.Sublist (evictable st (some name)))
    (hroom : FitsWithout st.budget st.used est doomed) : Within (evictAndLoad st name e est doomed).st := by
  have hout := takenOut_of_sublist h hsub
  obtain ⟨hst, -⟩ := destroy_reserved ((st.takeOutAll doomed).reserve name e est)
    (doomed.map fun d => d.2.charge) (.load name) (Or.inr ⟨name, rfl⟩)
  unfold evictAndLoad
  rw [hst]
  intro side hlimit
  change (st.takeOutAll doomed).budget.limit.bytes side ≠ 0 at hlimit
  change ((st.takeOutAll doomed).used.add est).bytes side ≤
    (st.takeOutAll doomed).budget.limit.bytes side + (st.takeOutAll doomed).releasing.bytes side
  rw [hout.budget] at hlimit ⊢
  rw [hout.used, bytes_add (hest side), hout.releasing]
  have := hroom side hlimit
  omega

theorem handover_evictAndLoad (h : Locked st held) (hth : Quiet th) (he : st.entries[name]? = some e)
    (hs : e.status = .unloaded) (hest : ∀ side, st.used.bytes side + est.bytes side < 2 ^ 64)
    (hsub : doomed.Sublist (evictable st (some name)))
    (hroom : st.budget.allowOvercommit = false → FitsWithout st.budget st.used est doomed) :
    Handover false st held th (evictAndLoad st name e est doomed) := by
  have hout := takenOut_of_sublist h hsub
  have hfine := h.fine name e he
  have hname : name ∉ doomed.map Prod.fst := by
    intro hn
    obtain ⟨c, hc, hcn⟩ := mem_map.1 hn
    exact (mem_evictable.1 (hsub.subset hc)).2.1 (by rw [hcn])
  have he' : (st.takeOutAll doomed).entries[name]? = some e := (takeOutAll_others hname).trans he
  have hidle : e.leases = 0 := hfine.idle (by rw [hs]; decide)
  have hused : ∀ side, ((st.takeOutAll doomed).used.add est).bytes side = st.used.bytes side + est.bytes side := by
    intro side
    rw [hout.used]
    exact bytes_add (hest side)
  obtain ⟨hst, hlease, hdoomed, hloads⟩ := destroy_reserved
    ((st.takeOutAll doomed).reserve name e est) (doomed.map fun d => d.2.charge) (.load name) (Or.inr ⟨name, rfl⟩)
  have hsum : ∀ side, ((doomed.map fun d => d.2.charge).map (·.bytes side)).sum =
      (doomed.map fun c => c.2.charge.bytes side).sum := by
    intro side
    rw [map_map]
    rfl
  unfold evictAndLoad
  refine ⟨?_, fun side => ?_, fun n => ?_, ?_, ?_, fun hover _ => within_evictAndLoad h e hest hsub (hroom hover)⟩
  · rw [hst, hlease]
    refine hout.locked.update rfl he' hidle hidle (fun side => ?_) ⟨nofun, fun _ => hidle, nofun⟩ hout.locked.exact
    change ((st.takeOutAll doomed).used.add est).bytes side + _ + _ =
      (st.takeOutAll doomed).used.bytes side + est.bytes side + _
    rw [hused, hout.used, hfine.uncharged hs, bytes_zero]
    rfl
  · rw [hst, hdoomed, hsum, hth.1]
    exact hout.releasing side
  · rw [hst, hloads, hth.2]
    have hzero : e.loads = 0 := by
      unfold ModelEntry.loads
      rw [hs]
      rfl
    rw [← hout.loads n]
    refine loads_insert_begin rfl he' hzero ?_ n
    rfl
  · rw [hst]
    intro n x hx hloaded hwhy
    obtain ⟨x', hx', hkept⟩ := keeps_takeOutAll hsub n x hx hloaded hwhy
    refine ⟨x', ?_, hkept⟩
    have hne : name ≠ n := by
      rintro rfl
      rw [he] at hx
      cases hx
      rw [hs] at hloaded
      cases hloaded
    exact (get_insert_ne _ _ _ _ hne).trans hx'
  · rw [hst]
    exact hout.budget

theorem handover_acquireRound (h : Locked st held) (hth : Quiet th) (he : st.entries[name]? = some e)
    (estimate : Result Usage) (canWait : Bool)
    (hest : ∀ est, estimate = .ok est → ∀ side, st.used.bytes side + est.bytes side < 2 ^ 64) :
    Handover false st held th (acquireRound st name e estimate canWait) := by
  unfold acquireRound
  split
  · next hs => exact handover_lease h hth he hs
  · exact handover_stay false h hth (quiet_acquiring name)
  · next hs =>
    cases estimate with
    | error err => exact handover_stay false h hth (quiet_returned _)
    | ok est =>
      obtain ⟨hunder, hroom, -⟩ := plan_exact h.charged (some name) est (hest est rfl)
      simp only [hunder, Bool.or_false]
      split
      · next hok =>
        exact handover_evictAndLoad h hth he hs (hest est rfl) (take_sublist _ _) fun _ => hroom hok
      · split
        · exact handover_stay false h hth (quiet_acquiring name)
        · split
          · exact handover_stay false h hth (quiet_acquiring name)
          · split
            · exact handover_stay false h hth (quiet_returned _)
            · next hover =>
              refine handover_evictAndLoad h hth he hs (hest est rfl) (List.Sublist.refl _) fun hno => ?_
              rw [hno] at hover
              exact absurd rfl hover

theorem handover_acquireModel (h : Locked st held) (hth : Quiet th) (name : Bytes)
    (estimate : Result Usage) (canWait : Bool)
    (hest : ∀ est, estimate = .ok est → ∀ side, st.used.bytes side + est.bytes side < 2 ^ 64) :
    Handover false st held th (acquireModel st name estimate canWait) := by
  unfold acquireModel
  cases he : st.entries[name]? with
  | none => exact handover_stay false h hth (quiet_returned _)
  | some e => exact handover_acquireRound h hth he estimate canWait hest

theorem handover_setBudget (h : Locked st held) (hth : Quiet th) (budget : ModelBudget) :
    Handover false { st with budget := budget } held th (setBudget st budget) := by
  have h' : Locked { st with budget := budget } held := { h with }
  obtain ⟨hunder, -⟩ := plan_exact h'.charged none {} (fun side => by
    rw [bytes_zero]
    exact bytes_lt _ side)
  unfold setBudget
  simp only [hunder, Bool.or_false]
  generalize hdoomed : (if (plan { st with budget := budget } (evictable { st with budget := budget } none) {}).ok
    then (evictable { st with budget := budget } none).take
      (plan { st with budget := budget } (evictable { st with budget := budget } none) {}).count
    else evictable { st with budget := budget } none) = doomed
  have hsub : doomed.Sublist (evictable { st with budget := budget } none) := by
    rw [← hdoomed]
    split
    · exact take_sublist _ _
    · exact List.Sublist.refl _
  have hout := takenOut_of_sublist h' hsub
  obtain ⟨hst, hlease, hbytes, hloads⟩ := destroy_reserved
    ({ st with budget := budget }.takeOutAll doomed) (doomed.map fun d => d.2.charge) .setBudget (Or.inl rfl)
  refine ⟨?_, fun side => ?_, fun n => ?_, ?_, ?_, fun _ hw => ?_⟩
  · rw [hst, hlease]
    exact hout.locked
  · rw [hst, hbytes, map_map, hth.1]
    exact hout.releasing side
  · rw [hst, hloads, hth.2]
    exact hout.loads n
  · rw [hst]
    exact keeps_takeOutAll hsub
  · rw [hst]
    exact hout.budget
  · rw [hst]
    refine hw.mono hout.budget fun side => ?_
    rw [hout.used, hout.releasing]
    omega

theorem handover_finishRegister (unloads : Bool) (h : Locked st held) (hth : Quiet th) (name : Bytes)
    (spec : ModelSpec) : Handover unloads st held th (finishRegister st name spec) := by
  unfold finishRegister
  cases he : st.entries[name]? with
  | none => exact handover_stay unloads h hth (quiet_returned _)
  | some e =>
    simp only
    split
    · exact handover_stay unloads h hth (quiet_returned _)
    · next hs =>
      rw [not_not] at hs
      have hfine := h.fine name e he
      refine ⟨?_, fun side => ?_, fun n => ?_, ?_, rfl, fun _ hw => hw⟩
      · have hidle : e.leases = 0 := hfine.idle (by rw [hs]; decide)
        exact h.update rfl he hidle hidle (fun side => rfl) { hfine with } h.exact
      · rw [hth.1]
        rfl
      · rw [hth.2]
        refine loads_insert_same rfl he ?_ n
        rfl
      · exact Keeps.insert rfl he fun hloaded _ => ⟨hloaded, rfl⟩

theorem handover_unloaded (unloads : Bool) (h : Locked st held) (hth : Quiet th) (name : Bytes) (caller : Unloader) :
    Handover unloads st held th (unloaded st name caller) := by
  cases caller with
  | unloadModel => exact handover_stay unloads h hth (quiet_returned _)
  | registerModel spec => exact handover_finishRegister unloads h hth name spec

theorem handover_unloadLocked (h : Locked st held) (hth : Quiet th) (he : st.entries[name]? = some e)
    (caller : Unloader) : Handover true st held th (unloadLocked st name e caller) := by
  unfold unloadLocked
  split
  · exact handover_stay true h hth (quiet_unloading name caller)
  · exact handover_unloaded true h hth name caller
  · next hs =>
    split
    · exact handover_stay true h hth (quiet_returned _)
    · next hidle =>
      obtain ⟨hlocked, hreleasing, hloads⟩ := h.takeOut (c := (name, e)) ⟨he, hs, by simpa using hidle⟩
      refine ⟨hlocked, fun side => ?_, fun n => ?_, ?_, rfl, fun _ hw => ?_⟩
      · rw [hth.1]
        exact hreleasing side
      · rw [hth.2]
        exact hloads n
      · refine Keeps.insert rfl he fun _ hwhy => ?_
        rcases hwhy with hlease | ⟨hno, -⟩
        · exact absurd hlease hidle
        · cases hno
      · refine hw.mono rfl fun side => ?_
        change st.used.bytes side + _ ≤ st.used.bytes side + (st.takeOut name e).releasing.bytes side
        rw [hreleasing side]
        omega

theorem handover_unloadModel (h : Locked st held) (hth : Quiet th) (name : Bytes) :
    Handover true st held th (unloadModel st name) := by
  unfold unloadModel
  cases he : st.entries[name]? with
  | none => exact handover_stay true h hth (quiet_returned _)
  | some e => exact handover_unloadLocked h hth he .unloadModel

theorem Locked.register (h : Locked st held) (spec : ModelSpec) (hnone : st.entries[spec.name]? = none) :
    Locked { st with entries := st.entries.insert spec.name { spec := spec } } held := by
  have hfree : leasesOf held spec.name = 0 := by
    refine countP_eq_zero.2 fun l hl hname => ?_
    obtain ⟨e, he, -⟩ := h.pointed l hl
    rw [beq_iff_eq] at hname
    rw [hname, hnone] at he
    cases he
  refine h.put_idle rfl (fun side => ?_) ⟨fun _ => rfl, fun _ => rfl, nofun⟩ hfree rfl h.exact
  have hnew := total_insert_new (fun e => e.charge.bytes side) st.entries spec.name { spec := spec } hnone
  have hcharged := h.charged side
  unfold RegistryState.charges at hcharged ⊢
  change st.used.bytes side = _ + st.releasing.bytes side
  rw [hnew, bytes_zero]
  omega

theorem handover_registerModel (h : Locked st held) (hth : Quiet th) (spec : ModelSpec) :
    Handover true st held th (registerModel st spec) := by
  unfold registerModel
  split
  · exact handover_stay true h hth (quiet_returned _)
  · cases he : st.entries[spec.name]? with
    | some e => exact handover_unloadLocked h hth he (.registerModel spec)
    | none =>
      have hget : ∀ n, (st.entries.insert spec.name { spec := spec })[n]? =
          if spec.name = n then some { spec := spec } else st.entries[n]? := fun n => get_insert _ _ n _
      refine ⟨h.register spec he, fun side => ?_, fun n => ?_, fun n x hx hloaded _ => ?_, rfl, fun _ hw => hw⟩
      · rw [hth.1]
        rfl
      · rw [hth.2]
        change RegistryState.loads _ n + 0 = st.loads n + 0
        unfold RegistryState.loads
        rw [hget]
        by_cases hn : spec.name = n
        · rw [if_pos hn, ← hn, he]
          rfl
        · rw [if_neg hn]
      · refine ⟨x, ?_, hloaded, rfl⟩
        refine (hget n).trans ?_
        rw [if_neg, hx]
        rintro rfl
        rw [he] at hx
        cases hx

theorem handover_afterDestroy (h : Locked st held) (next : AfterDestroy) :
    Handover false st held (.destroying [] next) (afterDestroy st next) := by
  cases next with
  | setBudget => exact handover_stay false h ⟨fun _ => rfl, fun _ => rfl⟩ (quiet_returned _)
  | unload name caller => exact handover_unloaded false h ⟨fun _ => rfl, fun _ => rfl⟩ name caller
  | load name => exact ⟨h, fun _ => rfl, fun _ => rfl, Keeps.of_entries rfl, rfl, fun _ hw => hw⟩

end Sections

end AgentCpp
