import AgentCpp.Stores.SqliteSteps

/-!
# One client

With a single client the store answers every call as the plain map does, whatever the
writer does in between, and a shutdown leaves the map in the database.
-/

namespace AgentCpp.Sqlite
open Lib Cache List

theorem legal_snoc {σ : Type} {apply : σ → StoreOp → σ × Answer} (s : σ) (as : List (Call StoreOp Answer))
    (c : Call StoreOp Answer) : Legal apply s (as ++ [c]) ↔
      Legal apply s as ∧ ∀ x ∈ c.ret, (apply (replay apply s as) c.op).2 = x.2 := by
  rw [legal_append]
  exact ⟨fun h => ⟨h.1, h.2.1⟩, fun h => ⟨h.1, h.2, trivial⟩⟩

def Pending (calls : List (Call StoreOp Answer)) (call : ℕ) (op : StoreOp) : Prop :=
  ∃ pre time, calls = pre ++ [⟨op, time, none⟩] ∧ call = pre.length

/- Neither the cache nor a batch on its way to the database has the key. -/
def Absent (s : Store) (key : Bytes) : Prop := s.cache.entries[key]? = none ∧ ∀ row ∈ s.writer.batch, row.1 ≠ key

def Holds (s : Store) : ClientAt → Prop
  | .idle => True
  | .waking call => ∃ key value, Pending s.calls call (.put key value)
  | .reading call key => Pending s.calls call (.get key) ∧ Absent s key
  | .inserting call key value => Pending s.calls call (.get key) ∧ Absent s key ∧ s.db[key]? = some value
  | .clearing call | .awaiting call => Pending s.calls call .clear

structure Solo (db : Table Bytes) (s : Store) : Prop where
  others : ∀ j ≠ 0, s.clients j = .idle
  holds : Holds s (s.clients 0)
  legal : Legal mapApply db s.calls

def Act.Solo : Act → Prop
  | .put i _ _ | .wake i | .get i _ | .read i | .insert i | .clear i | .request i | .cleared i => i = 0
  | _ => True

def Act.Short : Act → Prop
  | .put _ key value => Small key ∧ Small value
  | .get _ key => Small key
  | _ => True

instance decidableSolo : (a : Act) → Decidable a.Solo
  | .put i _ _ | .wake i | .get i _ | .read i | .insert i | .clear i | .request i | .cleared i =>
    inferInstanceAs (Decidable (i = 0))
  | .wait | .delete | .deleted | .snapshot | .commit _ | .mark | .stop => .isTrue trivial

instance decidableShort : (a : Act) → Decidable a.Short
  | .put _ key value => inferInstanceAs (Decidable (Small key ∧ Small value))
  | .get _ key => inferInstanceAs (Decidable (Small key))
  | .wake _ | .read _ | .insert _ | .clear _ | .request _ | .cleared _ | .wait | .delete | .deleted | .snapshot | .commit _
  | .mark | .stop => .isTrue trivial

variable {lim : Limits} {s t : Store} {a : Act} {db : Table Bytes}

theorem Solo.settled (h : Solo db s) (hc : Consistent db s) (hclears : (s.clients 0).clears = false) :
    Settled (s.map db) s := by
  obtain hs | ⟨i, he⟩ := hc.phase
  · exact hs
  · have hi := he.clears
    by_cases hi0 : i = 0
    · rw [hi0, hclears] at hi
      cases hi
    · rw [h.others i hi0] at hi
      cases hi

theorem Solo.idle (h : Solo db s) (hidle : s.clients 0 = .idle) (j : ℕ) : s.clients j = .idle := by
  by_cases hj : j = 0
  · rw [hj, hidle]
  · exact h.others j hj

theorem Solo.calm (h : Solo db s) (hm : Moves lim s a t) (hsolo : a.Solo) (hshort : a.Short) : Calm s a := by
  cases hm with
  | putWake hidle | put hidle =>
    cases hsolo
    refine ⟨hshort.1, hshort.2, fun j => ?_⟩
    rw [h.idle hidle j]
    rfl
  | hit hidle | miss hidle =>
    cases hsolo
    refine ⟨hshort, fun j => ?_⟩
    rw [h.idle hidle j]
    rfl
  | insert hat =>
    cases hsolo
    intro call key value hat' _
    have hholds := h.holds
    rw [hat'] at hholds
    exact hholds.2.2
  | clear hidle =>
    cases hsolo
    exact h.idle hidle
  | _ => trivial

theorem others_update {clients : ℕ → ClientAt} (h : ∀ j ≠ 0, clients j = .idle) (place : ClientAt) :
    ∀ j ≠ 0, Function.update clients 0 place j = .idle := fun j hj => by
  rw [Function.update_of_ne hj]
  exact h j hj

theorem Holds.writer {place : ClientAt} (h : Holds s place) (hcalls : t.calls = s.calls)
    (hkeys : place.clears = false → ∀ key, Absent s key → Absent t key ∧ t.db[key]? = s.db[key]?) : Holds t place := by
  cases place with
  | idle => trivial
  | waking call =>
    change ∃ key value, Pending t.calls _ _
    rw [hcalls]
    exact h
  | reading call key =>
    change Pending t.calls _ _ ∧ _
    rw [hcalls]
    exact ⟨h.1, (hkeys rfl key h.2).1⟩
  | inserting call key value =>
    obtain ⟨habsent, hdb⟩ := hkeys rfl key h.2.1
    change Pending t.calls _ _ ∧ _ ∧ t.db[key]? = _
    rw [hcalls, hdb]
    exact ⟨h.1, habsent, h.2.2⟩
  | clearing call | awaiting call =>
    change Pending t.calls _ _
    rw [hcalls]
    exact h

theorem Solo.writer (h : Solo db s) (hclients : t.clients = s.clients) (hcalls : t.calls = s.calls)
    (hkeys : (s.clients 0).clears = false → ∀ key, Absent s key → Absent t key ∧ t.db[key]? = s.db[key]?) : Solo db t :=
  ⟨hclients ▸ h.others, hclients ▸ h.holds.writer hcalls hkeys, hcalls ▸ h.legal⟩

theorem Pending.answer {calls : List (Call StoreOp Answer)} {call : ℕ} {op : StoreOp} (hp : Pending calls call op)
    (hlegal : Legal mapApply db calls) (time : ℕ) {result : Answer}
    (hresult : ∀ m, replay mapApply db calls = (mapApply m op).1 → (mapApply m op).2 = result) :
    Legal mapApply db (returned calls call time result) := by
  obtain ⟨pre, t, rfl, rfl⟩ := hp
  rw [returned_snoc, legal_snoc]
  refine ⟨((legal_snoc ..).1 hlegal).1, fun x hx => ?_⟩
  cases hx
  exact hresult _ (replay_snoc ..)

theorem Solo.goto (h : Solo db s) {place : ClientAt} (hclients : t.clients = Function.update s.clients 0 place)
    (hholds : Holds t place) (hlegal : Legal mapApply db t.calls) : Solo db t := by
  refine ⟨hclients ▸ others_update h.others place, ?_, hlegal⟩
  rw [hclients, Function.update_self]
  exact hholds

theorem Moves.solo (hm : Moves lim s a t) (hsolo : a.Solo) (hc : Consistent db s) (h : Solo db s) : Solo db t := by
  have hsettled : ∀ {place : ClientAt}, s.clients 0 = place → place.clears = false → Settled (s.map db) s :=
    fun hat hp => h.settled hc (hat ▸ hp)
  have hholds := h.holds
  cases hm with
  | putWake =>
    cases hsolo
    exact h.goto rfl ⟨_, _, _, _, rfl, rfl⟩ ((legal_snoc ..).2 ⟨h.legal, nofun⟩)
  | put hidle =>
    cases hsolo
    refine ⟨h.others, by change Holds _ (s.clients 0); rw [hidle]; trivial, (legal_snoc ..).2 ⟨h.legal, fun x hx => ?_⟩⟩
    cases hx
    rfl
  | wake hat =>
    cases hsolo
    rw [hat] at hholds
    obtain ⟨key, value, hp⟩ := hholds
    exact h.goto rfl trivial (hp.answer h.legal _ fun _ _ => rfl)
  | hit hidle _ hentry =>
    cases hsolo
    refine ⟨h.others, by change Holds _ (s.clients 0); rw [hidle]; trivial, (legal_snoc ..).2 ⟨h.legal, fun x hx => ?_⟩⟩
    cases hx
    have hmap := (hsettled hidle rfl).map
    refine mapApply_get ((hmap _).trans ?_)
    rw [hentry]
    rfl
  | miss hidle _ hentry =>
    cases hsolo
    refine h.goto rfl ⟨⟨_, _, rfl, rfl⟩, hentry, fun row hrow heq => ?_⟩ ((legal_snoc ..).2 ⟨h.legal, nofun⟩)
    obtain ⟨v, hv⟩ := (hsettled hidle rfl).pinned row hrow
    rw [heq, hentry] at hv
    cases hv
  | found hat hrow =>
    cases hsolo
    rw [hat] at hholds
    rw [bindText_of_small (hc.fits.reading 0 _ _ hat), Option.bind_some] at hrow
    exact h.goto rfl ⟨hholds.1, hholds.2, hrow⟩ h.legal
  | notFound hat hrow =>
    cases hsolo
    rw [hat] at hholds
    rw [bindText_of_small (hc.fits.reading 0 _ _ hat), Option.bind_some] at hrow
    have hmap := (hsettled hat rfl).map
    refine h.goto rfl trivial (hholds.1.answer h.legal _ fun m hm => mapApply_get_none ?_)
    change s.map db = m at hm
    rw [← hm, hmap, hholds.2.1, hrow]
    rfl
  | insert hat =>
    cases hsolo
    rw [hat] at hholds
    have hmap := (hsettled hat rfl).map
    refine h.goto rfl trivial (hholds.1.answer h.legal _ fun m hm => mapApply_get ?_)
    change s.map db = m at hm
    rw [← hm, hmap, hholds.2.1.1, hholds.2.2]
    rfl
  | clear =>
    cases hsolo
    exact h.goto rfl ⟨_, _, rfl, rfl⟩ ((legal_snoc ..).2 ⟨h.legal, nofun⟩)
  | request hat =>
    cases hsolo
    rw [hat] at hholds
    exact h.goto rfl hholds h.legal
  | cleared hat =>
    cases hsolo
    rw [hat] at hholds
    exact h.goto rfl trivial (hholds.answer h.legal _ fun _ _ => rfl)
  | waitClear hat | waitFlush hat => exact h.writer rfl rfl fun _ key hk => ⟨⟨hk.1, nofun⟩, rfl⟩
  | delete hat | deleted hat =>
    refine h.writer rfl rfl fun hclears => ?_
    have hquiet := (h.settled hc hclears).quiet.2
    rw [hat] at hquiet
    cases hquiet
  | snapshotNone | rollback =>
    exact h.writer rfl rfl fun _ key hk => ⟨⟨hk.1, by rw [batch_next]; exact nofun⟩, rfl⟩
  | snapshot =>
    refine h.writer rfl rfl fun _ key hk => ⟨⟨hk.1, fun row hrow heq => ?_⟩, rfl⟩
    have he := (mem_batch s.cache row.1 row.2).1 hrow
    rw [heq, hk.1] at he
    cases he
  | @commit _ batch hat =>
    refine h.writer rfl rfl fun _ key hk => ?_
    have hbatch := hk.2
    have hsmall := hc.fits.batch
    rw [hat] at hbatch hsmall
    refine ⟨⟨hk.1, hbatch⟩, ?_⟩
    have hcommit := commitBatch_eq s.db batch hsmall
    change (commitBatch s.db batch)[key]? = _
    rw [hcommit]
    exact Table.insertAll_of_not_mem _ _ _ hbatch
  | mark =>
    exact h.writer rfl rfl fun _ key hk =>
      ⟨⟨markFlushed_none hk.1 _ _, by rw [batch_next]; exact nofun⟩, rfl⟩
  | stop => exact h.writer rfl rfl fun _ key hk => ⟨hk, rfl⟩

theorem Store.step_solo (h : s.step lim a = some t) (hsolo : a.Solo) (hshort : a.Short)
    (hs : Consistent db s ∧ Solo db s) : Consistent db t ∧ Solo db t := by
  obtain ⟨hc, hs⟩ := hs
  obtain ⟨u, hm, ht⟩ := step_moves h
  refine ⟨step_consistent h (hs.calm hm hsolo hshort) hc, ?_⟩
  have hu := hm.solo hsolo hc hs
  rw [ht]
  exact hu.writer rfl rfl fun _ key hk => ⟨hk, rfl⟩

theorem Store.step_sound (h : s.step lim a = some t) (hs : s.cache.Sound) : t.cache.Sound := by
  obtain ⟨u, hm, rfl⟩ := step_moves h
  exact hm.sound hs

theorem solo_init (db : Table Bytes) : Solo db { db := db } := ⟨fun _ _ => rfl, trivial, trivial⟩

def WriterAt.stops : WriterAt → Bool
  | .waiting => false
  | .deleting d | .deleted d | .flushing d | .committing d _ | .marking d _ => d
  | .stopped _ => true

def Cache.Dirty (c : Cache) (key value : Bytes) : Prop := c.entries[key]? = some ⟨value, true⟩

/- In its last round the writer takes all that is dirty, and nothing becomes dirty any more. -/
structure Closing (s : Store) : Prop where
  asked : s.writer.stops = true → s.stopRequested = true
  committing : ∀ b, s.writer = .committing true b → ∀ key value, s.cache.Dirty key value → (key, value) ∈ b
  marking : ∀ b, s.writer = .marking true b → ∀ key value, s.cache.Dirty key value → (key, value) ∈ b
  stopped : s.writer = .stopped true → ∀ key value, ¬ s.cache.Dirty key value

theorem Closing.client (h : Closing s) (hwriter : t.writer = s.writer)
    (hstop : s.stopRequested = true → t.stopRequested = true)
    (hdirty : s.stopRequested = true → ∀ key value, t.cache.Dirty key value → s.cache.Dirty key value) : Closing t := by
  have hasked : ∀ {w : WriterAt}, s.writer = w → w.stops = true → s.stopRequested = true :=
    fun hw hstops => h.asked (hw ▸ hstops)
  refine ⟨?_, ?_, ?_, ?_⟩
  · rw [hwriter]
    exact fun hstops => hstop (h.asked hstops)
  · rw [hwriter]
    exact fun b hb key value hd => h.committing b hb key value (hdirty (hasked hb rfl) key value hd)
  · rw [hwriter]
    exact fun b hb key value hd => h.marking b hb key value (hdirty (hasked hb rfl) key value hd)
  · rw [hwriter]
    exact fun hb key value hd => h.stopped hb key value (hdirty (hasked hb rfl) key value hd)

theorem closing_next (doStop flushed : Bool) (hwriter : t.writer = .next doStop flushed)
    (hasked : doStop = true → t.stopRequested = true)
    (hclean : doStop = true → flushed = true → ∀ key value, ¬ t.cache.Dirty key value) : Closing t := by
  cases doStop with
  | false => exact ⟨fun h => (by rw [hwriter] at h; cases h), by rw [hwriter]; exact nofun, by rw [hwriter]; exact nofun,
      by rw [hwriter]; exact nofun⟩
  | true =>
    refine ⟨fun _ => hasked rfl, by rw [hwriter]; exact nofun, by rw [hwriter]; exact nofun, ?_⟩
    rw [hwriter]
    intro h
    cases h
    exact hclean rfl rfl

theorem Moves.closing (hm : Moves lim s a t) (h : Closing s) : Closing t := by
  have hopen : s.stopRequested = false → s.stopRequested = true → False := fun hf ht => by
    rw [hf] at ht
    cases ht
  cases hm with
  | putWake _ ho | put _ ho => exact h.client rfl id fun hs => (hopen ho hs).elim
  | wake | hit | miss | found | notFound | request | cleared => exact h.client rfl id fun _ _ _ hd => hd
  | insert =>
    refine h.client rfl id fun _ key value hd => ?_
    obtain hsame | ⟨hnone, -⟩ | ⟨-, -, hnew⟩ := get_insertRead lim.maxCacheBytes s.cache _ _ key
    · exact hsame.symm.trans hd
    · exact nomatch hnone.symm.trans hd
    · exact nomatch hnew.symm.trans hd
  | clear => exact h.client rfl id fun _ key value hd => nomatch (Table.get_empty key).symm.trans hd
  | waitClear | waitFlush => exact ⟨id, nofun, nofun, nofun⟩
  | delete hat | deleted hat =>
    have hasked := h.asked
    rw [hat] at hasked
    exact ⟨hasked, nofun, nofun, nofun⟩
  | snapshotNone hat hbatch =>
    have hasked := h.asked
    rw [hat] at hasked
    refine closing_next _ _ rfl hasked fun _ _ key value hd => ?_
    have hmem := (mem_batch s.cache key value).2 hd
    rw [hbatch] at hmem
    cases hmem
  | snapshot hat =>
    have hasked := h.asked
    rw [hat] at hasked
    refine ⟨hasked, fun b hb key value hd => ?_, nofun, nofun⟩
    cases hb
    exact (mem_batch ..).2 hd
  | commit hat =>
    have hasked := h.asked
    have hcommitting := h.committing
    rw [hat] at hasked hcommitting
    refine ⟨hasked, nofun, fun b hb => ?_, nofun⟩
    cases hb
    exact hcommitting _ rfl
  | rollback hat =>
    have hasked := h.asked
    rw [hat] at hasked
    exact closing_next _ _ rfl hasked nofun
  | mark hat =>
    have hasked := h.asked
    have hmarking := h.marking
    rw [hat] at hasked hmarking
    refine closing_next _ _ rfl hasked fun hstop _ key value hd => ?_
    cases hstop
    obtain hsame | ⟨v, -, -, hnew | hnone⟩ | ⟨hnone, -⟩ := get_markFlushed lim.maxCacheBytes s.cache _ key
    · exact markFlushed_clean _ _ _ _ (hmarking _ rfl key value (hsame.symm.trans hd)) hd
    · exact nomatch hnew.symm.trans hd
    · exact nomatch hnone.symm.trans hd
    · exact nomatch hnone.symm.trans hd
  | stop => exact h.client rfl (fun _ => rfl) fun _ _ _ hd => hd

theorem Store.step_closing (h : s.step lim a = some t) (hs : Closing s) : Closing t := by
  obtain ⟨u, hm, rfl⟩ := step_moves h
  exact (hm.closing hs).client rfl id fun _ _ _ hd => hd

structure SoloRun (db : Table Bytes) (s : Store) : Prop where
  sound : s.cache.Sound
  closing : Closing s
  consistent : Consistent db s
  solo : Solo db s

theorem soloRun (db : Table Bytes) {acts : List Act} (hsolo : ∀ a ∈ acts, a.Solo) (hshort : ∀ a ∈ acts, a.Short)
    (h : run (Store.step lim) { db := db } acts = some s) : SoloRun db s := by
  refine run_invariant_of_meets (fun s a t hs hok ht => ?_) h
    (meets_of_forall fun a ha s => (⟨hsolo a ha, hshort a ha⟩ : a.Solo ∧ a.Short))
    ⟨sound_empty, ⟨nofun, nofun, nofun, nofun⟩, consistent_init db, solo_init db⟩
  obtain ⟨hc, hs'⟩ := Store.step_solo ht hok.1 hok.2 ⟨hs.consistent, hs.solo⟩
  exact ⟨Store.step_sound ht hs.sound, Store.step_closing ht hs.closing, hc, hs'⟩

theorem SoloRun.dirty_cached (h : SoloRun db s) (hstep : s.step lim a = some t) {key value : Bytes}
    (hdirty : s.cache.Dirty key value) (hgone : t.cache.entries[key]? = none) :
    (∃ i, a = .clear i) ∨ s.db[key]? = some value := by
  obtain ⟨u, hm, rfl⟩ := Store.step_moves hstep
  obtain hclear | ⟨d, b, hat, hmem⟩ := hm.dirty_cached hdirty hgone
  · exact .inl hclear
  · obtain hs | ⟨i, he⟩ := h.consistent.phase
    · exact .inr (hs.committed d b hat _ hmem)
    · exact nomatch (he.empty key).symm.trans hdirty

theorem SoloRun.shutdown (h : SoloRun db s) (hidle : s.clients 0 = .idle) (hstopped : s.writer = .stopped true) :
    s.db = s.map db := by
  have hs := h.solo.settled h.consistent (hidle ▸ rfl)
  apply Table.ext
  intro key
  rw [hs.map key]
  cases he : s.cache.entries[key]? with
  | none => rfl
  | some entry =>
    obtain ⟨value, dirty⟩ := entry
    cases dirty with
    | false => exact hs.clean key value he
    | true => exact absurd he (h.closing.stopped hstopped key value)

/-- One client, any limits, any interleaving with the writer, any flush failing: the calls return what the plain map
answers, the counts and the LRU list agree with the entries, a dirty entry leaves the cache only with `clear` or once
committed, and after a shutdown whose last flush succeeded the database is the map. -/
theorem store_refines_map (lim : Limits) (db : Table Bytes) (acts : List Act) (s : Store)
    (hsolo : ∀ a ∈ acts, a.Solo) (hshort : ∀ a ∈ acts, a.Short) (h : run (Store.step lim) { db := db } acts = some s) :
    Legal mapApply db s.calls ∧ s.cache.Sound ∧
      (∀ a t key value, s.step lim a = some t → s.cache.Dirty key value → t.cache.entries[key]? = none →
        (∃ i, a = .clear i) ∨ s.db[key]? = some value) ∧
      (s.clients 0 = .idle → s.writer = .stopped true → s.db = s.map db) := by
  have hrun := soloRun db hsolo hshort h
  exact ⟨hrun.solo.legal, hrun.sound, fun a t key value hstep hd hgone => hrun.dirty_cached hstep hd hgone, hrun.shutdown⟩

def overwriteAndStop : List Act :=
  [.put 0 [97] [49], .wait, .snapshot, .put 0 [97] [50], .commit true, .mark, .get 0 [97], .stop, .wait, .snapshot,
    .commit true, .mark]

theorem store_refines_map_overwrite : ∃ s, run (Store.step ⟨2, 100⟩) { db := ∅ } overwriteAndStop = some s ∧
    Legal mapApply ∅ s.calls ∧ s.db = s.map ∅ ∧ s.db[([97] : Bytes)]? = some [50] := by
  have hends : (run (Store.step ⟨2, 100⟩) { db := ∅ } overwriteAndStop).any (fun s => decide (s.clients 0 = .idle) &&
      decide (s.writer = .stopped true) && decide (s.db[([97] : Bytes)]? = some [50])) = true := by decide +kernel
  obtain ⟨s, hrun, hs⟩ := (Option.any_eq_true _ _).1 hends
  rw [Bool.and_eq_true, Bool.and_eq_true, decide_eq_true_eq, decide_eq_true_eq, decide_eq_true_eq] at hs
  obtain ⟨hlegal, -, -, hstop⟩ := store_refines_map ⟨2, 100⟩ ∅ overwriteAndStop s (by decide) (by decide) hrun
  exact ⟨s, hrun, hlegal, hstop hs.1.1 hs.1.2, hs.2⟩

def putAndStop (value : Bytes) : List Act :=
  [.put 0 [] value, .wake 0, .stop, .wait, .snapshot, .commit true, .mark]

theorem putAndStop_run (value : Bytes) : (run (Store.step ⟨0, 0⟩) { db := ∅ } (putAndStop value)).map
      (fun s => (s.db, s.writer, s.clients 0, s.calls.map Call.op)) =
      some (commitBatch ∅ [([], value)], .stopped true, .idle, [.put [] value]) := rfl

/- 2^31 bytes make the `int` negative, and the text ends at its first zero. -/
theorem bindText_cut (n : ℕ) (hn : n + 2 = 2 ^ 31) : bindText (97 :: 0 :: List.replicate n 98) = some [97] := by
  have hlen : (97 :: 0 :: List.replicate n (98 : UInt8)).length = 2 ^ 31 := by
    rw [length_cons, length_cons, length_replicate, ← hn]
  unfold bindText
  rw [hlen]
  rfl

theorem shutdown_cuts_long_value : ∃ lim acts s, (∀ a ∈ acts, a.Solo) ∧
    run (Store.step lim) { db := ∅ } acts = some s ∧ s.clients 0 = .idle ∧ s.writer = .stopped true ∧ s.db ≠ s.map ∅ := by
  obtain ⟨n, hn⟩ : ∃ n, n + 2 = 2 ^ 31 := ⟨2 ^ 31 - 2, by decide⟩
  have hrun := putAndStop_run (97 :: 0 :: List.replicate n 98)
  obtain ⟨s, hs, heq⟩ := Option.map_eq_some_iff.1 hrun
  obtain ⟨hdb, hwriter, hclient, hops⟩ : s.db = _ ∧ s.writer = _ ∧ s.clients 0 = _ ∧ s.calls.map Call.op = _ := by
    simpa only [Prod.mk.injEq] using heq
  refine ⟨_, _, s, ?_, hs, hclient, hwriter, fun hsame => ?_⟩
  · intro a ha
    simp only [putAndStop, mem_cons, not_mem_nil, or_false] at ha
    obtain rfl | rfl | rfl | rfl | rfl | rfl | rfl := ha <;> trivial
  · have hmap : s.map ∅ = replay mapApply ∅ [⟨.put [] (97 :: 0 :: List.replicate n 98), 0, none⟩] := replay_congr hops ∅
    have hinsert : replay mapApply ∅ [⟨.put [] (97 :: 0 :: List.replicate n 98), 0, none⟩] =
      (∅ : Table Bytes).insert [] (97 :: 0 :: List.replicate n 98) := rfl
    have hcommit : commitBatch ∅ [([], 97 :: 0 :: List.replicate n 98)] = (∅ : Table Bytes).insert [] [97] := by
      have hnil : bindText [] = some [] := bindText_of_small (by decide)
      change insertRow ∅ ([], 97 :: 0 :: List.replicate n 98) = _
      simp only [insertRow, hnil, bindText_cut n hn]
      rfl
    have hget : (some [97] : Option Bytes) = some (97 :: 0 :: List.replicate n 98) := by
      rw [← Table.get_insert_self ∅ [] [97], ← hcommit, ← hdb, hsame, hmap, hinsert, Table.get_insert_self]
    cases hget

end AgentCpp.Sqlite
