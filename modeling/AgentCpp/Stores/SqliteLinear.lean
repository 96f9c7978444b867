import AgentCpp.Stores.SqliteSteps

/-!
# Several clients

A call that changes the map takes effect as it is made. A `get` that goes to the database reads the
map as it was at some moment since then, as long as every step is calm.
-/

namespace AgentCpp.Sqlite
open Lib List Function

def made (calls : List (Call StoreOp Answer)) : List (StoreOp × ℕ) := calls.map fun c => (c.op, c.inv)

theorem made_append (as bs : List (Call StoreOp Answer)) : made (as ++ bs) = made as ++ made bs := map_append

@[simp] theorem length_made (calls : List (Call StoreOp Answer)) : (made calls).length = calls.length :=
  length_map ..

theorem made_returned (calls : List (Call StoreOp Answer)) (call time : ℕ) (result : Answer) :
    made (returned calls call time result) = made calls := by
  induction calls generalizing call with
  | nil => cases call <;> rfl
  | cons d calls ih =>
    cases call with
    | zero => rfl
    | succ call => exact congrArg ((d.op, d.inv) :: ·) (ih call)

def mapAt (db : Table Bytes) (calls : List (StoreOp × ℕ)) (j : ℕ) : Table Bytes :=
  (calls.take j).foldl (fun m c => (mapApply m c.1).1) db

theorem mapAt_made (db : Table Bytes) (calls : List (Call StoreOp Answer)) (j : ℕ) :
    mapAt db (made calls) j = replay mapApply db (calls.take j) := by
  unfold mapAt made replay
  rw [← map_take, foldl_map]

theorem mapAt_length (db : Table Bytes) (calls : List (Call StoreOp Answer)) :
    mapAt db (made calls) calls.length = replay mapApply db calls := by
  rw [mapAt_made, take_length]

/- Since call `n` was made, the map has held this under the key. -/
def Saw (db : Table Bytes) (calls : List (StoreOp × ℕ)) (n : ℕ) (key : Bytes) (value : Option Bytes) : Prop :=
  ∃ j, n ≤ j ∧ j ≤ calls.length ∧ (mapAt db calls j)[key]? = value

/- Call `n` returned `result` at `time`, rightly. -/
def Answered (db : Table Bytes) (calls : List (StoreOp × ℕ)) (n time : ℕ) (result : Answer) : StoreOp → Prop
  | .put _ _ | .clear => result = .ok
  | .get key => ∃ j, n ≤ j ∧ j ≤ calls.length ∧ (∀ c ∈ calls.take j, c.2 ≤ time) ∧
      (mapApply (mapAt db calls j) (.get key)).2 = result

section Grows

variable {db : Table Bytes} {calls more : List (StoreOp × ℕ)} {n : ℕ}

variable {key : Bytes} {value : Option Bytes}

theorem Saw.grow (h : Saw db calls n key value) : Saw db (calls ++ more) n key value := by
  obtain ⟨j, hn, hj, hv⟩ := h
  refine ⟨j, hn, by rw [length_append]; omega, ?_⟩
  unfold mapAt at hv ⊢
  rw [take_append_of_le_length hj]
  exact hv

variable {time : ℕ} {result : Answer}

theorem Answered.grow {op : StoreOp} (h : Answered db calls n time result op) :
    Answered db (calls ++ more) n time result op := by
  cases op with
  | put | clear => exact h
  | get key =>
    obtain ⟨j, hn, hj, htimes, hv⟩ := h
    refine ⟨j, hn, by rw [length_append]; omega, ?_, ?_⟩
    · rw [take_append_of_le_length hj]
      exact htimes
    · unfold mapAt at hv ⊢
      rw [take_append_of_le_length hj]
      exact hv

theorem Saw.answered (h : Saw db calls n key value)
    (htimes : ∀ c ∈ calls, c.2 ≤ time) (hresult : ∀ m : Table Bytes, m[key]? = value →
      (mapApply m (.get key)).2 = result) : Answered db calls n time result (.get key) := by
  obtain ⟨j, hn, hj, hv⟩ := h
  exact ⟨j, hn, hj, fun c hc => htimes c (mem_of_mem_take hc), hresult _ hv⟩

end Grows

def Open (calls : List (Call StoreOp Answer)) (n : ℕ) (op : StoreOp) : Prop := ∃ time, calls[n]? = some ⟨op, time, none⟩

def ClientAt.call? : ClientAt → Option ℕ
  | .idle => none
  | .waking n | .reading n _ | .inserting n _ _ | .clearing n | .awaiting n => some n

def Underway (db : Table Bytes) (s : Store) : ClientAt → Prop
  | .idle => True
  | .waking n => ∃ key value, Open s.calls n (.put key value)
  | .reading n key => Open s.calls n (.get key) ∧ Saw db (made s.calls) n key s.db[key]? ∧
      ∀ row ∈ s.writer.batch, row.1 = key → Saw db (made s.calls) n key (some row.2)
  | .inserting n key value => Open s.calls n (.get key) ∧ Saw db (made s.calls) n key (some value)
  | .clearing n | .awaiting n => Open s.calls n .clear

/- The calls are listed in the order they were made in, and all of them were made before now. -/
structure Ordered (calls : List (StoreOp × ℕ)) (clock : ℕ) : Prop where
  order : calls.Pairwise fun a b => a.2 < b.2
  past : ∀ c ∈ calls, c.2 < clock

variable {clock m : ℕ}

theorem Ordered.tick (h : Ordered calls clock) : Ordered calls (clock + 1) :=
  ⟨h.order, fun c hc => Nat.lt_succ_of_lt (h.past c hc)⟩

theorem Ordered.push (h : Ordered calls clock) (op : StoreOp) : Ordered (calls ++ [(op, clock)]) (clock + 1) := by
  refine ⟨pairwise_append.2 ⟨h.order, pairwise_singleton _ _, ?_⟩, ?_⟩
  · intro a ha b hb
    rw [mem_singleton.1 hb]
    exact h.past a ha
  · intro c hc
    obtain hc | hc := mem_append.1 hc
    · exact Nat.lt_succ_of_lt (h.past c hc)
    · rw [mem_singleton.1 hc]
      exact Nat.lt_succ_self clock

structure Linear (db : Table Bytes) (s : Store) : Prop where
  ordered : Ordered (made s.calls) s.clock
  distinct : ∀ i j n, (s.clients i).call? = some n → (s.clients j).call? = some n → i = j
  underway : ∀ i, Underway db s (s.clients i)
  answered : ∀ n c x, s.calls[n]? = some c → c.ret = some x →
    c.inv ≤ x.1 ∧ Answered db (made s.calls) n x.1 x.2 c.op

variable {lim : Limits} {s t : Store} {a : Act} {db : Table Bytes}

variable {op : StoreOp} {place : ClientAt} {clients : ℕ → ClientAt} {i : ℕ} {key : Bytes}

theorem Open.lt {calls : List (Call StoreOp Answer)} (h : Open calls n op) : n < calls.length := by
  obtain ⟨time, h⟩ := h
  exact (List.getElem?_eq_some_iff.1 h).1

theorem Open.push {calls : List (Call StoreOp Answer)} (h : Open calls n op) (c : Call StoreOp Answer) :
    Open (calls ++ [c]) n op := by
  have hlt := h.lt
  obtain ⟨time, h⟩ := h
  exact ⟨time, by rw [getElem?_append_left hlt, h]⟩

theorem open_push (calls : List (Call StoreOp Answer)) (op : StoreOp) (time : ℕ) :
    Open (calls ++ [⟨op, time, none⟩]) calls.length op := ⟨time, getElem?_concat_length⟩

theorem get_returned (calls : List (Call StoreOp Answer)) (n m time : ℕ) (result : Answer) :
    (returned calls n time result)[m]? =
      if n = m then calls[m]?.map fun c => { c with ret := some (time, result) } else calls[m]? := by
  unfold returned
  rw [getElem?_modify]
  split <;> simp

theorem Open.returned {calls : List (Call StoreOp Answer)} (h : Open calls m op) (hne : n ≠ m)
    (time : ℕ) (result : Answer) : Open (returned calls n time result) m op := by
  obtain ⟨t, h⟩ := h
  exact ⟨t, by rw [get_returned, if_neg hne, h]⟩

theorem Underway.call_open (h : Underway db s place) (hn : place.call? = some n) : ∃ op, Open s.calls n op := by
  cases place with
  | idle => cases hn
  | waking =>
    cases hn
    obtain ⟨key, value, h⟩ := h
    exact ⟨_, h⟩
  | reading | inserting =>
    cases hn
    exact ⟨_, h.1⟩
  | clearing | awaiting =>
    cases hn
    exact ⟨_, h⟩

theorem Underway.frame (h : Underway db s place)
    (hopen : ∀ n op, place.call? = some n → Open s.calls n op → Open t.calls n op)
    (hmade : made t.calls = made s.calls ++ more) (hdb : t.db = s.db)
    (hbatch : t.writer.batch = s.writer.batch) : Underway db t place := by
  cases place with
  | idle => trivial
  | waking n =>
    obtain ⟨key, value, h⟩ := h
    exact ⟨key, value, hopen n _ rfl h⟩
  | reading n key =>
    refine ⟨hopen n _ rfl h.1, ?_, ?_⟩
    · rw [hmade, hdb]
      exact h.2.1.grow
    · rw [hmade, hbatch]
      exact fun row hrow heq => (h.2.2 row hrow heq).grow
  | inserting n key value =>
    refine ⟨hopen n _ rfl h.1, ?_⟩
    rw [hmade]
    exact h.2.grow
  | clearing n | awaiting n => exact hopen n _ rfl h

theorem update_cases {P : ℕ → ClientAt → Prop} (hi : P i place) (hother : ∀ j ≠ i, P j (clients j)) (j : ℕ) :
    P j (update clients i place j) := by
  by_cases hj : j = i
  · subst hj
    rw [update_self]
    exact hi
  · rw [update_of_ne hj]
    exact hother j hj

theorem distinct_update (h : ∀ i j n, (clients i).call? = some n → (clients j).call? = some n → i = j)
    (hplace : ∀ n, place.call? = some n → ∀ j ≠ i, (clients j).call? ≠ some n) (j k n : ℕ)
    (hj : (update clients i place j).call? = some n)
    (hk : (update clients i place k).call? = some n) : j = k := by
  by_cases hji : j = i
  · subst hji
    rw [update_self] at hj
    by_contra hne
    rw [update_of_ne (Ne.symm hne)] at hk
    exact hplace n hj k (Ne.symm hne) hk
  · rw [update_of_ne hji] at hj
    by_cases hki : k = i
    · subst hki
      rw [update_self] at hk
      exact absurd hj (hplace n hk j hji)
    · rw [update_of_ne hki] at hk
      exact h j k n hj hk

variable {c : Call StoreOp Answer}

theorem Linear.push (h : Linear db s) (hinv : c.inv = s.clock)
    (hcalls : t.calls = s.calls ++ [c]) (hclock : t.clock = s.clock + 1)
    (hclients : t.clients = update s.clients i place) (hdb : t.db = s.db)
    (hbatch : t.writer.batch = s.writer.batch) (hplace : ∀ n, place.call? = some n → n = s.calls.length)
    (hunderway : Underway db t place)
    (hret : ∀ x, c.ret = some x → s.clock ≤ x.1 ∧ Answered db (made t.calls) s.calls.length x.1 x.2 c.op) :
    Linear db t := by
  have hmade : made t.calls = made s.calls ++ [(c.op, s.clock)] := by
    rw [hcalls, made_append, ← hinv]
    rfl
  refine ⟨?_, ?_, ?_, ?_⟩
  · rw [hmade, hclock]
    exact h.ordered.push c.op
  · rw [hclients]
    refine distinct_update h.distinct fun n hn j hj hjn => ?_
    obtain ⟨op, hopen⟩ := (h.underway j).call_open hjn
    have hlt := hopen.lt
    rw [hplace n hn] at hlt
    exact Nat.lt_irrefl _ hlt
  · rw [hclients]
    refine update_cases hunderway fun j _ => ?_
    refine (h.underway j).frame (fun n op _ hopen => ?_) hmade hdb hbatch
    rw [hcalls]
    exact hopen.push c
  · intro n d x hd hx
    rw [hcalls, List.getElem?_append] at hd
    split at hd
    · obtain ⟨hle, ha⟩ := h.answered n d x hd hx
      rw [hmade]
      exact ⟨hle, ha.grow⟩
    · obtain ⟨hlt, heq⟩ := List.getElem?_eq_some_iff.1 hd
      rw [length_singleton] at hlt
      have hn : n = s.calls.length := by omega
      rw [getElem_singleton] at heq
      subst heq
      rw [hn, hinv]
      exact hret x hx

theorem Linear.return (h : Linear db s) {result : Answer} (hcall : (s.clients i).call? = some n)
    (hopen : Open s.calls n op) (hcalls : t.calls = returned s.calls n s.clock result)
    (hclock : t.clock = s.clock + 1) (hclients : t.clients = update s.clients i .idle)
    (hdb : t.db = s.db) (hbatch : t.writer.batch = s.writer.batch)
    (hanswered : Answered db (made s.calls) n s.clock result op) : Linear db t := by
  have hmade : made t.calls = made s.calls ++ [] := by rw [hcalls, made_returned, append_nil]
  refine ⟨?_, ?_, ?_, ?_⟩
  · rw [hmade, append_nil, hclock]
    exact h.ordered.tick
  · rw [hclients]
    exact distinct_update h.distinct nofun
  · rw [hclients]
    refine update_cases trivial fun j hj => ?_
    refine (h.underway j).frame (fun m op' hm hopen' => ?_) hmade hdb hbatch
    rw [hcalls]
    refine hopen'.returned (fun heq => hj ?_) _ _
    exact h.distinct j i n (heq ▸ hm) hcall
  · intro m d x hd hx
    rw [hcalls, get_returned] at hd
    rw [hmade, append_nil]
    split at hd
    · next heq =>
      subst heq
      obtain ⟨time, htime⟩ := hopen
      rw [htime] at hd
      cases hd
      cases hx
      have hmem : (op, time) ∈ made s.calls := mem_map.2 ⟨_, mem_of_getElem? htime, rfl⟩
      exact ⟨Nat.le_of_lt (h.ordered.past _ hmem), hanswered⟩
    · exact h.answered m d x hd hx

theorem Linear.keep (h : Linear db s) (hcalls : t.calls = s.calls) (hclock : t.clock = s.clock + 1)
    (hcall : ∀ i, (t.clients i).call? = (s.clients i).call?) (hunderway : ∀ i, Underway db t (t.clients i)) :
    Linear db t := by
  refine ⟨?_, ?_, hunderway, ?_⟩
  · rw [hcalls, hclock]
    exact h.ordered.tick
  · intro i j n hi hj
    exact h.distinct i j n (hcall i ▸ hi) (hcall j ▸ hj)
  · rw [hcalls]
    exact h.answered

theorem Underway.writer (h : Underway db s place) (hcalls : t.calls = s.calls)
    (hread : ∀ n key, place = .reading n key → Saw db (made s.calls) n key t.db[key]? ∧
      ∀ row ∈ t.writer.batch, row.1 = key → Saw db (made s.calls) n key (some row.2)) :
    Underway db t place := by
  have hmade : made t.calls = made s.calls := by rw [hcalls]
  cases place with
  | reading n key =>
    obtain ⟨hsaw, hbatch⟩ := hread n key rfl
    refine ⟨by rw [hcalls]; exact h.1, ?_, ?_⟩
    · rw [hmade]
      exact hsaw
    · rw [hmade]
      exact hbatch
  | idle => trivial
  | waking n =>
    change ∃ key value, Open t.calls n _
    rw [hcalls]
    exact h
  | inserting n key value =>
    change Open t.calls n _ ∧ _
    rw [hcalls]
    exact h
  | clearing n | awaiting n =>
    change Open t.calls n _
    rw [hcalls]
    exact h

theorem Linear.writer (h : Linear db s) (hcalls : t.calls = s.calls) (hclock : t.clock = s.clock + 1)
    (hclients : t.clients = s.clients) (hread : ∀ i n key, s.clients i = .reading n key →
      Saw db (made s.calls) n key t.db[key]? ∧
        ∀ row ∈ t.writer.batch, row.1 = key → Saw db (made s.calls) n key (some row.2)) : Linear db t := by
  refine h.keep hcalls hclock (fun i => by rw [hclients]) fun i => ?_
  rw [hclients]
  exact (h.underway i).writer hcalls (hread i)

/- A client in the middle of a `put` or a `get` means that nobody clears. -/
theorem Consistent.settled (hc : Consistent db s) (hat : s.clients i = place) (hidle : place ≠ .idle)
    (hclears : place.clears = false) : Settled (s.map db) s := by
  obtain hs | ⟨j, he⟩ := hc.phase
  · exact hs
  · have hj := he.clears
    rw [← he.only hat hidle, hat, hclears] at hj
    cases hj

theorem Consistent.settled_of_nobody (hc : Consistent db s) (h : ∀ j, (s.clients j).clears = false) :
    Settled (s.map db) s := by
  obtain hs | ⟨j, he⟩ := hc.phase
  · exact hs
  · have hj := he.clears
    rw [h j] at hj
    cases hj

variable {value : Option Bytes}

theorem saw_now (hn : n ≤ s.calls.length) (h : (s.map db)[key]? = value) : Saw db (made s.calls) n key value := by
  refine ⟨s.calls.length, hn, by rw [length_made], ?_⟩
  rw [mapAt_length]
  exact h

theorem saw_made (h : (s.map db)[key]? = value) (c : Call StoreOp Answer) :
    Saw db (made (s.calls ++ [c])) s.calls.length key value := by
  rw [made_append]
  exact (saw_now (Nat.le_refl _) h).grow

theorem Settled.get_cached {m : Table Bytes} (h : Settled m s) {entry : CacheEntry}
    (he : s.cache.entries[key]? = some entry) : m[key]? = some entry.value := by
  rw [h.map, he]
  rfl

theorem Settled.get_absent {m : Table Bytes} (h : Settled m s) (he : s.cache.entries[key]? = none) :
    m[key]? = s.db[key]? := by
  rw [h.map, he]
  rfl

theorem Linear.reading (h : Linear db s) (hat : s.clients i = .reading n key) :
    Open s.calls n (.get key) ∧ Saw db (made s.calls) n key s.db[key]? ∧
      ∀ row ∈ s.writer.batch, row.1 = key → Saw db (made s.calls) n key (some row.2) := by
  have hu := h.underway i
  rw [hat] at hu
  exact hu

theorem Linear.snapshot (h : Linear db s) (hc : Consistent db s) (hat : s.clients i = .reading n key)
    (row : Bytes × Bytes) (hrow : row ∈ s.cache.batch) (heq : row.1 = key) :
    Saw db (made s.calls) n key (some row.2) := by
  have he := (Cache.mem_batch s.cache row.1 row.2).1 hrow
  have hmap := (hc.settled hat nofun rfl).get_cached he
  exact saw_now (Nat.le_of_lt (h.reading hat).1.lt) (heq ▸ hmap)

theorem Linear.commit (h : Linear db s) (hc : Consistent db s) {doStop : Bool} {batch : List (Bytes × Bytes)}
    (hwriter : s.writer = .committing doStop batch) (hat : s.clients i = .reading n key) :
    Saw db (made s.calls) n key (commitBatch s.db batch)[key]? ∧
      ∀ row ∈ batch, row.1 = key → Saw db (made s.calls) n key (some row.2) := by
  obtain ⟨-, hdb, hbatch⟩ := h.reading hat
  have hsmall := hc.fits.batch
  have hdistinct := hc.distinct
  rw [hwriter] at hbatch hsmall hdistinct
  have hcommit := commitBatch_eq s.db batch hsmall
  refine ⟨?_, hbatch⟩
  rw [hcommit]
  by_cases hrow : ∃ row ∈ batch, row.1 = key
  · obtain ⟨row, hmem, heq⟩ := hrow
    have hget : (Table.insertAll s.db batch)[key]? = some row.2 :=
      Table.insertAll_of_mem _ _ _ _ hdistinct (heq ▸ hmem)
    rw [hget]
    exact hbatch row hmem heq
  · have hget : (Table.insertAll s.db batch)[key]? = s.db[key]? :=
      Table.insertAll_of_not_mem _ _ _ fun row hmem heq => hrow ⟨row, hmem, heq⟩
    rw [hget]
    exact hdb

theorem call_update {place' : ClientAt} (hat : clients i = place) (hcall : place'.call? = place.call?) (j : ℕ) :
    (update clients i place' j).call? = (clients j).call? := by
  by_cases hj : j = i
  · subst hj
    rw [update_self, hat, hcall]
  · rw [update_of_ne hj]

theorem Store.step_linear (hstep : s.step lim a = some t) (hcalm : Calm s a) (hc : Consistent db s) (h : Linear db s) :
    Linear db t := by
  have hstay : ∀ {i : ℕ}, s.clients i = .idle → s.clients = update s.clients i .idle := fun {i} hidle => by
    rw [← hidle, update_eq_self]
  have htimes : ∀ c ∈ made s.calls, c.2 ≤ s.clock := fun c hmem => Nat.le_of_lt (h.ordered.past c hmem)
  have hnumber : ∀ n, some s.calls.length = some n → n = s.calls.length := fun n hn => (Option.some.inj hn).symm
  obtain ⟨u, hm, rfl⟩ := step_moves hstep
  cases hm with
  | @putWake i key value => exact h.push rfl rfl rfl rfl rfl rfl hnumber ⟨key, value, open_push ..⟩ nofun
  | put hidle =>
    refine h.push rfl rfl rfl (hstay hidle) rfl rfl nofun trivial fun x hx => ?_
    cases hx
    exact ⟨Nat.le_refl _, rfl⟩
  | @wake i n hat =>
    have hu := h.underway i
    rw [hat] at hu
    obtain ⟨key, value, hopen⟩ := hu
    exact h.return (hat ▸ rfl) hopen rfl rfl rfl rfl rfl rfl
  | hit hidle _ hentry =>
    have hmap := (hc.settled_of_nobody hcalm.2).get_cached hentry
    refine h.push rfl rfl rfl (hstay hidle) rfl rfl nofun trivial fun x hx => ?_
    cases hx
    refine ⟨Nat.le_refl _, (saw_made hmap _).answered ?_ fun m hm => mapApply_get hm⟩
    rw [made_append]
    intro c hmem
    obtain hmem | hmem := mem_append.1 hmem
    · exact htimes c hmem
    · rw [mem_singleton.1 hmem]
  | miss hidle _ hentry =>
    have hs := hc.settled_of_nobody hcalm.2
    refine h.push rfl rfl rfl rfl rfl rfl hnumber ⟨open_push .., saw_made (hs.get_absent hentry) _, ?_⟩ nofun
    intro row hrow heq
    obtain ⟨v, hv⟩ := hs.pinned row hrow
    rw [heq, hentry] at hv
    cases hv
  | @found i n key value hat hrow =>
    obtain ⟨hopen, hsaw, -⟩ := h.reading hat
    rw [bindText_of_small (hc.fits.reading i _ _ hat), Option.bind_some] at hrow
    rw [hrow] at hsaw
    refine h.keep rfl rfl (call_update hat rfl) (update_cases ⟨hopen, hsaw⟩ fun j _ => ?_)
    exact (h.underway j).writer rfl fun m key' hat' => (hat' ▸ h.underway j : Underway db s (.reading m key')).2
  | @notFound i n key hat hrow =>
    obtain ⟨hopen, hsaw, -⟩ := h.reading hat
    rw [bindText_of_small (hc.fits.reading i _ _ hat), Option.bind_some] at hrow
    rw [hrow] at hsaw
    exact h.return (hat ▸ rfl) hopen rfl rfl rfl rfl rfl (hsaw.answered htimes fun m hm => mapApply_get_none hm)
  | @insert i n key value hat =>
    have hu := h.underway i
    rw [hat] at hu
    exact h.return (hat ▸ rfl) hu.1 rfl rfl rfl rfl rfl (hu.2.answered htimes fun m hm => mapApply_get hm)
  | clear => exact h.push rfl rfl rfl rfl rfl rfl hnumber (open_push ..) nofun
  | @request i n hat =>
    have hu := h.underway i
    rw [hat] at hu
    refine h.keep rfl rfl (call_update hat rfl) (update_cases hu fun j _ => ?_)
    exact (h.underway j).writer rfl fun m key' hat' => (hat' ▸ h.underway j : Underway db s (.reading m key')).2
  | @cleared i n hat =>
    have hu := h.underway i
    rw [hat] at hu
    exact h.return (hat ▸ rfl) hu rfl rfl rfl rfl rfl rfl
  | waitClear | waitFlush | deleted => exact h.writer rfl rfl rfl fun i n key hat => ⟨(h.reading hat).2.1, nofun⟩
  | snapshotNone | rollback | mark =>
    refine h.writer rfl rfl rfl fun i n key hat => ⟨(h.reading hat).2.1, ?_⟩
    rw [batch_next]
    exact nofun
  | delete hat =>
    refine h.writer rfl rfl rfl fun i n key hread => ?_
    have hquiet := (hc.settled hread nofun rfl).quiet.2
    rw [hat] at hquiet
    cases hquiet
  | snapshot => exact h.writer rfl rfl rfl fun i n key hat => ⟨(h.reading hat).2.1, h.snapshot hc hat⟩
  | commit hat => exact h.writer rfl rfl rfl fun i n key hread => h.commit hc hat hread
  | stop => exact h.writer rfl rfl rfl fun i n key hat => (h.reading hat).2

theorem linear_init (db : Table Bytes) : Linear db { db := db } :=
  ⟨⟨.nil, nofun⟩, nofun, fun _ => trivial, nofun⟩

theorem linear_run {acts : List Act} (h : run (Store.step lim) { db := db } acts = some s)
    (hcalm : Meets (Store.step lim) Calm { db := db } acts) : Linear db s := by
  have hstep : ∀ s a t, Consistent db s ∧ Linear db s → Calm s a → Store.step lim s a = some t →
      Consistent db t ∧ Linear db t :=
    fun s a t hs hok ht => ⟨Store.step_consistent ht hok hs.1, Store.step_linear ht hok hs.1 hs.2⟩
  exact (run_invariant_of_meets hstep h hcalm ⟨consistent_init db, linear_init db⟩).2

def StoreOp.isGet : StoreOp → Bool
  | .get _ => true
  | _ => false

theorem isGet_eq (h : op.isGet = true) : ∃ key, op = .get key := by
  cases op with
  | get key => exact ⟨key, rfl⟩
  | _ => cases h

theorem Linear.order (h : Linear db s) : s.calls.Pairwise fun a b => a.inv < b.inv := by
  have horder := h.ordered.order
  unfold made at horder
  rw [pairwise_map] at horder
  exact horder

theorem Linear.inv_le (h : Linear db s) {d : Call StoreOp Answer} (hn : s.calls[n]? = some c)
    (hm : s.calls[m]? = some d) (hle : n ≤ m) : c.inv ≤ d.inv := by
  obtain hlt | heq := Nat.lt_or_eq_of_le hle
  · obtain ⟨hnlt, hc⟩ := List.getElem?_eq_some_iff.1 hn
    obtain ⟨hmlt, hd⟩ := List.getElem?_eq_some_iff.1 hm
    have hinv := List.pairwise_iff_getElem.1 h.order n m hnlt hmlt hlt
    rw [hc, hd] at hinv
    exact Nat.le_of_lt hinv
  · rw [heq, hm] at hn
    cases hn
    exact Nat.le_refl _

theorem Linear.linearizable (h : Linear db s) : Linearizable mapApply db s.calls := by
  refine linearizable_of_reads StoreOp.isGet db s.calls ?_ h.order ?_ ?_ ?_
  · intro op hop m
    obtain ⟨key, rfl⟩ := isGet_eq hop
    rfl
  · intro c hmem x hx
    obtain ⟨n, hn⟩ := getElem?_of_mem hmem
    exact (h.answered n c x hn hx).1
  · intro as c bs hcalls hop x hx
    have hn : s.calls[as.length]? = some c := by
      rw [hcalls, getElem?_append_right (Nat.le_refl _), Nat.sub_self, getElem?_cons_zero]
    have ha := (h.answered _ c x hn hx).2
    cases hc : c.op with
    | get key =>
      rw [hc] at hop
      cases hop
    | put key value =>
      rw [hc] at ha
      exact ha.symm
    | clear =>
      rw [hc] at ha
      exact ha.symm
  · intro c hmem hop x hx
    obtain ⟨n, hn⟩ := getElem?_of_mem hmem
    obtain ⟨key, hkey⟩ := isGet_eq hop
    have ha := (h.answered n c x hn hx).2
    rw [hkey] at ha
    obtain ⟨j, hnj, hj, htimes, hres⟩ := ha
    rw [length_made] at hj
    refine ⟨j, hj, ?_, ?_, ?_⟩
    · intro d hd
      refine htimes (d.op, d.inv) ?_
      unfold made
      rw [← map_take]
      exact mem_map.2 ⟨d, hd, rfl⟩
    · intro d hd
      obtain ⟨k, hk⟩ := getElem?_of_mem hd
      rw [getElem?_drop] at hk
      exact h.inv_le hn hk (by omega)
    · rw [hkey, ← mapAt_made]
      exact hres

/-- Any number of clients: as long as texts have at most 10^9 bytes, no call overlaps a `clear` and a `get` never puts
into the cache a value the database has since replaced, the calls are linearizable. -/
theorem store_linearizable (lim : Limits) (db : Table Bytes) (acts : List Act) (s : Store)
    (hcalm : Meets (Store.step lim) Calm { db := db } acts) (h : run (Store.step lim) { db := db } acts = some s) :
    Linearizable mapApply db s.calls := (linear_run h hcalm).linearizable

def overlapped : List Act := [.get 1 [97], .put 0 [97] [49], .read 1, .get 1 [97]]

theorem store_linearizable_overlapped : ∃ s, run (Store.step ⟨100, 100⟩) { db := ∅ } overlapped = some s ∧
    s.calls.map Call.ret = [some (2, keyNotFound [97]), some (1, .ok), some (3, .value [49])] ∧
    Linearizable mapApply ∅ s.calls := by
  have hcalm : Meets (Store.step ⟨100, 100⟩) Calm { db := ∅ } overlapped := by
    have hnobody : ∀ i, (update (fun _ => ClientAt.idle) 1 (.reading 0 [97]) i).clears = false :=
      nobody_update (fun _ => rfl) 1 rfl
    refine .cons ⟨by decide, fun _ => rfl⟩ rfl (.cons ⟨by decide, by decide, hnobody⟩ rfl (.cons trivial rfl
      (.cons ⟨by decide, nobody_update hnobody 1 rfl⟩ rfl trivial)))
  have hends : (run (Store.step ⟨100, 100⟩) { db := ∅ } overlapped).any (fun s => decide (s.calls.map Call.ret =
      [some (2, keyNotFound [97]), some (1, .ok), some (3, .value [49])])) = true := by decide +kernel
  obtain ⟨s, hrun, hs⟩ := (Option.any_eq_true _ _).1 hends
  exact ⟨s, hrun, of_decide_eq_true hs, store_linearizable ⟨100, 100⟩ ∅ overlapped s hcalm hrun⟩

/- The reader has the old value in hand while the new one is written and evicted, and then puts the old one back. -/
def staleInsert : List Act :=
  [.get 1 [97], .read 1, .put 0 [97] [50], .put 0 [98] [120], .wait, .snapshot, .commit true, .mark, .insert 1, .get 0 [97]]

theorem stale_insert_not_linearizable : ∃ s, run (Store.step ⟨2, 100⟩)
    { db := (∅ : Table Bytes).insert [97] [49] } staleInsert =
    some s ∧ ¬ Linearizable mapApply ((∅ : Table Bytes).insert [97] [49]) s.calls := by
  have hends : (run (Store.step ⟨2, 100⟩) { db := (∅ : Table Bytes).insert [97] [49] } staleInsert).any
    (fun s => decide (s.calls =
      [⟨.get [97], 0, some (8, .value [49])⟩, ⟨.put [97] [50], 2, some (2, .ok)⟩, ⟨.put [98] [120], 3, some (3, .ok)⟩,
        ⟨.get [97], 9, some (9, .value [49])⟩])) = true := by decide +kernel
  obtain ⟨s, hrun, hs⟩ := (Option.any_eq_true _ _).1 hends
  refine ⟨s, hrun, ?_⟩
  rw [of_decide_eq_true hs]
  exact not_linearizable (by decide) (by decide +kernel)

end AgentCpp.Sqlite
