import AgentCpp.Hub.Pull

/-!
# The catalogue over whole histories

Entries are keyed by name, files by repository and path: several names may stand for one file.
-/

namespace AgentCpp.Hub
open Lib Lib.Json Lib.Path List Option

section Promise

variable (sha256 : Bytes → Bytes)

structure EntryHolds (d : Disk) (e : CatalogEntry) : Prop where
  present : ∃ c, d.read e.path = some c
  first : ∀ shard, parseShard e.path = some shard → shard.index = 1
  size : e.size = ((shardFiles e.path).map d.size).sum
  digest : e.sha256 ≠ [] → ∀ c, d.read e.path = some c → sha256 c = e.sha256
  files : ∀ p ∈ shardFiles e.path, ∃ c, d.read p = some c

structure Catalogued (s : HubState) : Prop where
  names : (s.catalog.map (·.name)).Nodup
  entries : ∀ e ∈ s.catalog, EntryHolds sha256 s.disk e

end Promise

inductive HubCall where
  | pull (text : Bytes) (opts : PullOptions) (info : Answer) (server : Server)
  | remove (name : Bytes) (deleteFile : Bool)

section Calls

variable (sha256 : Bytes → Bytes) (folders : Folders) (parser : JsonParser) (catalogPath : Bytes)

def hubStep (s : HubState) : HubCall → Option HubState
  | .pull text opts info server =>
    match pullModel sha256 folders parser text opts info server s with
    | some (s', .ok _) => some s'
    | _ => none
  | .remove name deleteFile =>
    match removeModel name catalogPath deleteFile s with
    | (s', .ok ()) => some s'
    | _ => none

def otherFiles (s : HubState) (name : Bytes) : List Bytes :=
  (s.catalog.filter (·.name ≠ name)).flatMap fun e => shardFiles e.path

/- The files a pull downloads: those of its set that are not there already. -/
def pulledFiles (s : HubState) (opts : PullOptions) (plan : PullPlan) : List Bytes :=
  let known := (s.catalog.find? (·.name = entryName opts plan)).map (·.sha256)
  (plan.shards.filter fun shard => !haveFile sha256 folders plan known shard s.disk).map fun shard =>
    localPath folders plan.spec.repo shard.path

def removedFiles (s : HubState) (name : Bytes) (deleteFile : Bool) : List Bytes :=
  match s.catalog.find? (·.name = name) with
  | none => []
  | some entry => if deleteFile ∧ entry.path ≠ [] then shardFiles entry.path else []

/- None of the files, nor its `.part` file, belongs to an entry under another name. -/
def apartFromOthers (s : HubState) (name : Bytes) (files : List Bytes) : Bool :=
  files.all fun p => !(otherFiles s name).contains p && !(otherFiles s name).contains (partPath p)

/- What is asked of a call, in the state before it. -/
def careful (s : HubState) : HubCall → Bool
  | .pull text opts info _ =>
    match planPull parser text opts info with
    | .error _ => true
    | .ok plan => plan.shards.head? == some plan.file &&
        apartFromOthers s (entryName opts plan) (pulledFiles sha256 folders s opts plan)
  | .remove name deleteFile => apartFromOthers s name (removedFiles s name deleteFile)

end Calls

section Fetched

variable {sha256 : Bytes → Bytes} {folders : Folders} {server : Server} {endpoint : Bytes} {plan : PullPlan}
  {known : Option Bytes}

def Fetched (sha256 : Bytes → Bytes) (path : Bytes) (shard : RemoteFile) (d : Disk) : Prop :=
  ∃ c, d.read path = some c ∧ (shard.size ≠ 0 → c.length = shard.size) ∧
    (shard.sha256 ≠ [] → sha256 c = shard.sha256)

/- The digest of the entry that is pulled again is that of its file. -/
def KnownGood (sha256 : Bytes → Bytes) (known : Option Bytes) (path : Bytes) (d : Disk) : Prop :=
  ∀ digest, known = some digest → digest ≠ [] → ∀ c, d.read path = some c → sha256 c = digest

variable {shard : RemoteFile} {d d' : Disk}

theorem haveFile_fetched
    (hknown : shard.path = plan.file.path → KnownGood sha256 known (localPath folders plan.spec.repo shard.path) d)
    (h : haveFile sha256 folders plan known shard d = true) :
    Fetched sha256 (localPath folders plan.spec.repo shard.path) shard d := by
  unfold haveFile at h
  split at h
  · cases h
  next c hread =>
  simp only [Bool.and_eq_true, Bool.or_eq_true, decide_eq_true_eq, List.isEmpty_iff, beq_iff_eq] at h
  obtain ⟨hsize, hdigest⟩ := h
  refine ⟨c, hread, fun hne => hsize.resolve_left hne, fun hne => ?_⟩
  obtain (hempty | hgood) | hsame := hdigest
  · exact absurd hempty hne
  · exact hknown hgood.1 _ hgood.2 hne c hread
  · exact hsame

theorem fetchShard_fetched
    (hknown : shard.path = plan.file.path → KnownGood sha256 known (localPath folders plan.spec.repo shard.path) d)
    (h : fetchShard sha256 folders server endpoint plan known shard d = some (d', .ok ())) :
    Fetched sha256 (localPath folders plan.spec.repo shard.path) shard d' := by
  unfold fetchShard at h
  split at h
  · next hhave =>
    cases h
    exact haveFile_fetched hknown hhave
  · obtain ⟨c, hread, hpasses⟩ := (downloadFile_left h).installed rfl
    exact ⟨c, hread, hpasses.size, hpasses.digest⟩

theorem Fetched.size_eq {path : Bytes} (h : Fetched sha256 path shard d) :
    (if shard.size ≠ 0 then shard.size else d.size path) = d.size path := by
  obtain ⟨c, hread, hsize, -⟩ := h
  split
  · next hne => rw [Disk.size_of_read hread, hsize hne]
  · rfl

/- Two files that no download of one of them mixes up. -/
def Separate (p q : Bytes) : Prop := p ≠ q ∧ p ≠ partPath q ∧ q ≠ partPath p

variable {shards : List RemoteFile} {total : ℕ} {p : Bytes}

theorem fetchShards_frame {result : Result ℕ}
    (hp : ∀ shard ∈ shards, Separate p (localPath folders plan.spec.repo shard.path))
    (h : fetchShards sha256 folders server endpoint plan known shards total d = some (d', result)) :
    d'.read p = d.read p := by
  refine (fetchShards_did h).frame fun op hop hmem => ?_
  obtain ⟨q, hq, hpaths⟩ := hop
  obtain ⟨shard, hshard, rfl⟩ := mem_map.1 hq
  obtain ⟨hne, hpart, -⟩ := hp shard hshard
  cases hpaths p hmem with
  | inl h => exact hpart h
  | inr h => exact hne h

theorem fetchShard_frame {result : Result Unit} (hp : Separate p (localPath folders plan.spec.repo shard.path))
    (h : fetchShard sha256 folders server endpoint plan known shard d = some (d', result)) :
    d'.read p = d.read p := by
  refine (fetchShard_did h).frame fun op hop hmem => ?_
  obtain ⟨q, hq, hpaths⟩ := hop
  rw [mem_singleton.1 hq] at hpaths
  cases hpaths p hmem with
  | inl h => exact hp.2.1 h
  | inr h => exact hp.1 h

theorem haveFile_congr (h : d'.read (localPath folders plan.spec.repo shard.path) =
      d.read (localPath folders plan.spec.repo shard.path)) :
    haveFile sha256 folders plan known shard d' = haveFile sha256 folders plan known shard d := by
  unfold haveFile
  rw [h]

/- Only what was missing at the start is fetched. -/
theorem fetchShards_missing {result : Result ℕ}
    (hapart : shards.Pairwise fun a b =>
      Separate (localPath folders plan.spec.repo a.path) (localPath folders plan.spec.repo b.path))
    (h : fetchShards sha256 folders server endpoint plan known shards total d = some (d', result)) :
    Did (FetchOp folders plan.spec.repo
      ((shards.filter fun shard => !haveFile sha256 folders plan known shard d).map (·.path))) d d' := by
  induction shards generalizing total d with
  | nil =>
    cases h
    exact .refl _
  | cons shard shards ih =>
    obtain ⟨hfirst, hlater⟩ := pairwise_cons.1 hapart
    cases hhave : haveFile sha256 folders plan known shard d with
    | true =>
      rw [filter_cons_of_neg (by rw [hhave]; exact Bool.false_ne_true)]
      unfold fetchShards fetchShard at h
      rw [if_pos hhave] at h
      exact ih hlater h
    | false =>
      have hgrow {files : List Bytes} {op : FileOp} (hsub : files ⊆ shard.path :: (shards.filter fun shard =>
          !haveFile sha256 folders plan known shard d).map (·.path)) (hop : FetchOp folders plan.spec.repo files op) :
          FetchOp folders plan.spec.repo (shard.path :: (shards.filter fun shard =>
            !haveFile sha256 folders plan known shard d).map (·.path)) op := by
        obtain ⟨q, hq, hop⟩ := hop
        exact ⟨q, hsub hq, hop⟩
      have hone : [shard.path] ⊆ shard.path :: (shards.filter fun shard =>
          !haveFile sha256 folders plan known shard d).map (·.path) := by simp
      rw [filter_cons_of_pos (by rw [hhave]; rfl), map_cons]
      unfold fetchShards at h
      split at h
      · cases h
      · next hshard =>
        cases h
        exact (fetchShard_did hshard).mono fun op hop => hgrow hone hop
      · next d₁ hshard =>
        have hsame : (shards.filter fun shard => !haveFile sha256 folders plan known shard d₁) =
            shards.filter fun shard => !haveFile sha256 folders plan known shard d := by
          refine filter_congr fun b hb => ?_
          obtain ⟨hab, hap, hbp⟩ := hfirst b hb
          rw [haveFile_congr (fetchShard_frame ⟨hab.symm, hbp, hap⟩ hshard)]
        have hrest := ih hlater h
        rw [hsame] at hrest
        exact ((fetchShard_did hshard).mono fun op hop => hgrow hone hop).trans
          (hrest.mono fun op hop => hgrow (subset_cons_self _ _) hop)

theorem fetchShards_fetched {total' : ℕ}
    (hapart : shards.Pairwise fun a b =>
      Separate (localPath folders plan.spec.repo a.path) (localPath folders plan.spec.repo b.path))
    (hknown : ∀ shard ∈ shards, shard.path = plan.file.path →
      KnownGood sha256 known (localPath folders plan.spec.repo shard.path) d)
    (h : fetchShards sha256 folders server endpoint plan known shards total d = some (d', .ok total')) :
    (∀ shard ∈ shards, Fetched sha256 (localPath folders plan.spec.repo shard.path) shard d') ∧
      total' = total + (shards.map fun shard => d'.size (localPath folders plan.spec.repo shard.path)).sum := by
  induction shards generalizing total d with
  | nil =>
    cases h
    exact ⟨fun _ hmem => absurd hmem not_mem_nil, rfl⟩
  | cons shard shards ih =>
    obtain ⟨hfirst, hlater⟩ := pairwise_cons.1 hapart
    unfold fetchShards at h
    split at h
    · cases h
    · cases h
    next d₁ hshard =>
    have hfetched := fetchShard_fetched (hknown shard mem_cons_self) hshard
    have hknown₁ : ∀ b ∈ shards, b.path = plan.file.path →
        KnownGood sha256 known (localPath folders plan.spec.repo b.path) d₁ := by
      intro b hb hpath digest hdigest hne c hread
      obtain ⟨hab, hap, hbp⟩ := hfirst b hb
      rw [fetchShard_frame ⟨hab.symm, hbp, hap⟩ hshard] at hread
      exact hknown b (mem_cons_of_mem _ hb) hpath digest hdigest hne c hread
    have hkept : d'.read (localPath folders plan.spec.repo shard.path) =
        d₁.read (localPath folders plan.spec.repo shard.path) := fetchShards_frame hfirst h
    obtain ⟨hrest, htotal⟩ := ih hlater hknown₁ h
    refine ⟨fun b hb => ?_, ?_⟩
    · cases mem_cons.1 hb with
      | inl hb =>
        obtain ⟨c, hread, hc⟩ := hfetched
        exact hb ▸ ⟨c, hkept.trans hread, hc⟩
      | inr hb => exact hrest b hb
    · have hsize : d'.size (localPath folders plan.spec.repo shard.path) =
          d₁.size (localPath folders plan.spec.repo shard.path) := by
        unfold Disk.size
        rw [hkept]
      rw [htotal, hfetched.size_eq, map_cons, sum_cons, hsize, Nat.add_assoc]

end Fetched

theorem separate_of_length {p q : Bytes} (hne : p ≠ q) (hlength : p.length = q.length) : Separate p q := by
  have hpart : (lit ".part").length = 5 := by decide
  refine ⟨hne, fun h => ?_, fun h => ?_⟩
  · have := congrArg List.length h
    unfold partPath at this
    rw [length_append] at this
    omega
  · have := congrArg List.length h
    unfold partPath at this
    rw [length_append] at this
    omega

theorem shardFiles_separate (path : Bytes) : (shardFiles path).Pairwise Separate := by
  unfold shardFiles
  split
  · exact pairwise_singleton _ _
  next shard hshard =>
  obtain ⟨-, -, -, -, -, -, htotal⟩ := parseShard_some hshard
  unfold shardPaths
  rw [pairwise_map]
  refine pairwise_lt_range.imp_of_mem fun {i j} hi hj hlt => ?_
  have hi := mem_range.1 hi
  have hj := mem_range.1 hj
  refine separate_of_length (fun h => ?_) ?_
  · have hparse := congrArg parseShard h
    rw [parseShard_append_shardSuffix _ (by omega) hi htotal, parseShard_append_shardSuffix _ (by omega) hj htotal] at hparse
    have := congrArg Shard.index (Option.some.inj hparse)
    simp only at this
    omega
  · rw [length_append, length_append, shardSuffix_length (Nat.lt_of_le_of_lt hi htotal) htotal,
      shardSuffix_length (Nat.lt_of_le_of_lt hj htotal) htotal]

theorem index_of_head {path : Bytes} (h : (shardFiles path).head? = some path) :
    ∀ shard, parseShard path = some shard → shard.index = 1 := by
  intro shard hshard
  obtain ⟨-, -, -, -, hone, hle, htotal⟩ := parseShard_some hshard
  unfold shardFiles at h
  rw [hshard] at h
  simp only [shardPaths, head?_map] at h
  rw [head?_range, if_neg (by omega), map_some] at h
  have hparse := parseShard_append_shardSuffix shard.stem (Nat.le_refl 1) (Nat.le_trans hone hle) htotal
  rw [Option.some.inj h, hshard] at hparse
  exact congrArg Shard.index (Option.some.inj hparse)

section Entries

variable {sha256 : Bytes → Bytes} {folders : Folders}

/- What is kept about each entry: where its file is, besides what the catalogue promises. -/
structure EntryKept (sha256 : Bytes → Bytes) (folders : Folders) (d : Disk) (e : CatalogEntry) : Prop
    extends EntryHolds sha256 d e where
  head : (shardFiles e.path).head? = some e.path
  place : e.path = localPath folders e.repo e.file

theorem EntryKept.frame {e : CatalogEntry} (h : EntryKept sha256 folders d e)
    (hframe : ∀ p ∈ shardFiles e.path, d'.read p = d.read p) : EntryKept sha256 folders d' e := by
  have hpath := hframe e.path (mem_of_mem_head? h.head)
  refine ⟨⟨?_, h.first, ?_, ?_, ?_⟩, h.head, h.place⟩
  · rw [hpath]
    exact h.present
  · rw [h.size]
    refine congrArg List.sum (map_congr_left fun p hp => ?_)
    unfold Disk.size
    rw [hframe p hp]
  · rw [hpath]
    exact h.digest
  · intro p hp
    rw [hframe p hp]
    exact h.files p hp

theorem entrySize_eq {path : Bytes} {shards : List Bytes}
    (hlength : shards.length = plan.shards.length) (hhead : shards.head? = some path)
    (hfile : plan.file.size ≠ 0 → d.size path = plan.file.size) :
    entrySize plan path (0 + (shards.map d.size).sum) d = (shards.map d.size).sum := by
  unfold entrySize
  cases shards with
  | nil => cases hhead
  | cons p shards =>
    cases hhead
    cases shards with
    | nil =>
      rw [length_singleton] at hlength
      simp only [← hlength, Nat.lt_irrefl, if_false]
      split
      · rfl
      · next hne => exact (hfile hne).symm
    | cons q shards =>
      have hlt : 1 < plan.shards.length := by
        rw [← hlength]
        simp
      simp only [hlt, if_true, Nat.zero_add, map_cons, sum_cons]
      split
      · omega
      · rfl

/- The local files are the set of the entry's path. -/
theorem localPath_shards (folders : Folders) {plan : PullPlan} (hnamed : Named plan.file.path)
    (hshards : plan.shards.map (·.path) = shardFiles plan.file.path) :
    plan.shards.map (fun shard => localPath folders plan.spec.repo shard.path) =
      shardFiles (localPath folders plan.spec.repo plan.file.path) := by
  rw [← shardFiles_localPath folders plan.spec.repo hnamed, ← hshards, List.map_map]
  rfl

theorem shards_separate {plan : PullPlan}
    (hlocal : plan.shards.map (fun shard => localPath folders plan.spec.repo shard.path) =
      shardFiles (localPath folders plan.spec.repo plan.file.path)) :
    plan.shards.Pairwise fun a b =>
      Separate (localPath folders plan.spec.repo a.path) (localPath folders plan.spec.repo b.path) := by
  have hfiles := shardFiles_separate (localPath folders plan.spec.repo plan.file.path)
  rwa [← hlocal, pairwise_map] at hfiles

theorem newEntry_kept {opts : PullOptions} {total : ℕ}
    (hlocal : plan.shards.map (fun shard => localPath folders plan.spec.repo shard.path) =
      shardFiles (localPath folders plan.spec.repo plan.file.path))
    (hhead : plan.shards.head? = some plan.file)
    (hknown : KnownGood sha256 known (localPath folders plan.spec.repo plan.file.path) d)
    (h : fetchShards sha256 folders server opts.endpoint plan known plan.shards 0 d = some (d', .ok total)) :
    EntryKept sha256 folders d' (newEntry folders opts plan total d') := by
  obtain ⟨hfetched, htotal⟩ := fetchShards_fetched (shards_separate hlocal) (fun shard _ hpath => hpath ▸ hknown) h
  obtain ⟨c, hread, hsize, hdigest⟩ := hfetched plan.file (mem_of_mem_head? hhead)
  have hfirst : (shardFiles (localPath folders plan.spec.repo plan.file.path)).head? =
      some (localPath folders plan.spec.repo plan.file.path) := by
    rw [← hlocal, head?_map, hhead]
    rfl
  refine ⟨⟨⟨c, hread⟩, index_of_head hfirst, ?_, fun hne c' hread' => ?_, fun p hp => ?_⟩, hfirst, rfl⟩
  · have hsum : plan.shards.map (fun shard => d'.size (localPath folders plan.spec.repo shard.path)) =
        (shardFiles (localPath folders plan.spec.repo plan.file.path)).map d'.size := by
      rw [← hlocal, List.map_map]
      rfl
    rw [hsum] at htotal
    rw [htotal]
    refine entrySize_eq ?_ hfirst fun hne => ?_
    · rw [← hlocal, length_map]
    · rw [Disk.size_of_read hread, hsize hne]
  · change d'.read (localPath folders plan.spec.repo plan.file.path) = some c' at hread'
    rw [hread] at hread'
    cases hread'
    exact hdigest hne
  · change p ∈ shardFiles (localPath folders plan.spec.repo plan.file.path) at hp
    rw [← hlocal] at hp
    obtain ⟨shard, hshard, rfl⟩ := mem_map.1 hp
    obtain ⟨c', hread', -⟩ := hfetched shard hshard
    exact ⟨c', hread'⟩

end Entries

theorem names_record (catalog : List CatalogEntry) (entry : CatalogEntry) :
    (record catalog entry).map (·.name) = catalog.map (·.name) ∨
      entry.name ∉ catalog.map (·.name) ∧ (record catalog entry).map (·.name) = catalog.map (·.name) ++ [entry.name] := by
  induction catalog with
  | nil => exact .inr ⟨not_mem_nil, rfl⟩
  | cons e catalog ih =>
    unfold record
    split
    · next hname => exact .inl (by rw [map_cons, map_cons, hname])
    · next hname =>
      cases ih with
      | inl h => exact .inl (by rw [map_cons, map_cons, h])
      | inr h =>
        refine .inr ⟨fun hmem => ?_, by rw [map_cons, h.2]; rfl⟩
        cases mem_cons.1 hmem with
        | inl heq => exact hname heq.symm
        | inr hmem => exact h.1 hmem

variable {catalog : List CatalogEntry}

theorem nodup_record (entry : CatalogEntry) (h : (catalog.map (·.name)).Nodup) :
    ((record catalog entry).map (·.name)).Nodup := by
  cases names_record catalog entry with
  | inl hsame => rwa [hsame]
  | inr hnew =>
    rw [hnew.2, ← concat_eq_append]
    exact h.concat hnew.1

variable {e : CatalogEntry}

theorem mem_record {entry : CatalogEntry} (h : (catalog.map (·.name)).Nodup)
    (he : e ∈ record catalog entry) : e = entry ∨ e ∈ catalog ∧ e.name ≠ entry.name := by
  induction catalog with
  | nil => exact .inl (mem_singleton.1 he)
  | cons x catalog ih =>
    rw [map_cons, nodup_cons] at h
    unfold record at he
    split at he
    · next hname =>
      cases mem_cons.1 he with
      | inl heq => exact .inl heq
      | inr hmem =>
        refine .inr ⟨mem_cons_of_mem _ hmem, fun heq => h.1 ?_⟩
        rw [hname, ← heq]
        exact mem_map_of_mem hmem
    · next hname =>
      cases mem_cons.1 he with
      | inl heq => exact .inr ⟨heq ▸ mem_cons_self, heq ▸ hname⟩
      | inr hmem =>
        cases ih h.2 hmem with
        | inl heq => exact .inl heq
        | inr hold => exact .inr ⟨mem_cons_of_mem _ hold.1, hold.2⟩

theorem mem_eraseName {name : Bytes}
    (h : (catalog.map (·.name)).Nodup) (he : e ∈ catalog.eraseP (·.name = name)) : e ∈ catalog ∧ e.name ≠ name := by
  refine ⟨mem_of_mem_eraseP he, ?_⟩
  induction catalog with
  | nil => exact absurd he not_mem_nil
  | cons x catalog ih =>
    rw [map_cons, nodup_cons] at h
    by_cases hname : x.name = name
    · simp only [eraseP_cons, hname] at he
      intro heq
      rw [hname, ← heq] at h
      exact h.1 (mem_map_of_mem he)
    · simp only [eraseP_cons, hname] at he
      cases mem_cons.1 he with
      | inl heq => exact heq ▸ hname
      | inr hmem => exact ih h.2 hmem

section Histories

variable {sha256 : Bytes → Bytes} {folders : Folders} {parser : JsonParser} {catalogPath : Bytes}

structure Kept (sha256 : Bytes → Bytes) (folders : Folders) (s : HubState) : Prop where
  names : (s.catalog.map (·.name)).Nodup
  entries : ∀ e ∈ s.catalog, EntryKept sha256 folders s.disk e

variable {s s' : HubState}

theorem Kept.catalogued (h : Kept sha256 folders s) : Catalogued sha256 s :=
  ⟨h.names, fun e he => (h.entries e he).toEntryHolds⟩

variable {name : Bytes}

theorem mem_otherFiles {e : CatalogEntry} {p : Bytes} (he : e ∈ s.catalog) (hname : e.name ≠ name)
    (hp : p ∈ shardFiles e.path) : p ∈ otherFiles s name :=
  mem_flatMap.2 ⟨e, mem_filter.2 ⟨he, decide_eq_true hname⟩, hp⟩

/- Operations on files that are apart from the others leave the other entries as they are. -/
theorem Kept.others {files : List Bytes} {d : Disk} (h : Kept sha256 folders s)
    (hapart : apartFromOthers s name files = true)
    (hdid : Did (fun op => ∀ p ∈ op.paths, ∃ q ∈ files, p = partPath q ∨ p = q) s.disk d)
    {e : CatalogEntry} (he : e ∈ s.catalog) (hname : e.name ≠ name) : EntryKept sha256 folders d e := by
  refine (h.entries e he).frame fun p hp => hdid.frame fun op hop hmem => ?_
  obtain ⟨q, hq, hpq⟩ := hop p hmem
  have hother := mem_otherFiles he hname hp
  have hclear := all_eq_true.1 hapart q hq
  rw [Bool.and_eq_true, Bool.not_eq_true', Bool.not_eq_true', ← Bool.not_eq_true, ← Bool.not_eq_true, contains_iff_mem,
    contains_iff_mem] at hclear
  cases hpq with
  | inl heq => exact hclear.2 (heq ▸ hother)
  | inr heq => exact hclear.1 (heq ▸ hother)

theorem pullPlanned_kept {opts : PullOptions}
    {entry : CatalogEntry} (hkept : Kept sha256 folders s) (hnamed : Named plan.file.path)
    (hshards : plan.shards.map (·.path) = shardFiles plan.file.path) (hhead : plan.shards.head? = some plan.file)
    (hapart : apartFromOthers s (entryName opts plan) (pulledFiles sha256 folders s opts plan) = true)
    (h : pullPlanned sha256 folders server opts plan s = some (s', .ok entry)) : Kept sha256 folders s' := by
  unfold pullPlanned at h
  simp only at h
  split at h
  · cases h
  next hconflict =>
  split at h
  · cases h
  · cases h
  next d total hfetch =>
  cases h
  -- an entry of this name is one of this file, so its digest is known to be right
  have hknown : KnownGood sha256 ((s.catalog.find? (·.name = entryName opts plan)).map (·.sha256))
      (localPath folders plan.spec.repo plan.file.path) s.disk := by
    intro digest hdigest hne c hread
    obtain ⟨e, hfind, rfl⟩ := Option.map_eq_some_iff.1 hdigest
    have hkeptEntry := hkept.entries e (mem_of_find?_eq_some hfind)
    rw [hfind, any_some, decide_eq_true_eq, not_or, not_not, not_not] at hconflict
    refine hkeptEntry.digest hne c ?_
    rw [hkeptEntry.place, hconflict.1, hconflict.2]
    exact hread
  have hlocal := localPath_shards folders hnamed hshards
  have hnew := newEntry_kept hlocal hhead hknown hfetch
  have hdid := fetchShards_missing (shards_separate hlocal) hfetch
  refine ⟨nodup_record _ hkept.names, fun e he => ?_⟩
  cases mem_record hkept.names he with
  | inl heq =>
    rw [heq]
    exact hnew
  | inr hold =>
    refine hkept.others hapart (hdid.mono fun op hop p hp => ?_) hold.1 hold.2
    obtain ⟨q, hq, hpaths⟩ := hop
    obtain ⟨shard, hshard, rfl⟩ := mem_map.1 hq
    exact ⟨_, mem_map_of_mem hshard, hpaths p hp⟩

theorem deleteFiles_did (paths : List Bytes) (d : Disk) :
    Did (fun op => ∀ p ∈ op.paths, ∃ q ∈ paths, p = partPath q ∨ p = q) d (deleteFiles paths d) := by
  induction paths generalizing d with
  | nil => exact .refl d
  | cons q paths ih =>
    have hremove (d : Disk) {p : Bytes} (hp : p = partPath q ∨ p = q) :
        Did (fun op => ∀ p ∈ op.paths, ∃ r ∈ q :: paths, p = partPath r ∨ p = r) d (d.remove p) :=
      .perform d fun p' hp' => ⟨q, mem_cons_self, mem_singleton.1 hp' ▸ hp⟩
    refine ((hremove d (.inr rfl)).trans (hremove _ (.inl rfl))).trans ((ih _).mono fun op hop p hp => ?_)
    obtain ⟨r, hr, hpr⟩ := hop p hp
    exact ⟨r, mem_cons_of_mem _ hr, hpr⟩

theorem removeModel_kept {deleteFile : Bool} (hkept : Kept sha256 folders s)
    (hapart : apartFromOthers s name (removedFiles s name deleteFile) = true)
    (h : removeModel name catalogPath deleteFile s = (s', .ok ())) :
    Kept sha256 folders s' := by
  unfold removeModel at h
  unfold removedFiles at hapart
  split at h
  · cases h
  · next entry hfind =>
    cases h
    rw [hfind] at hapart
    refine ⟨hkept.names.sublist (eraseP_sublist.map _), fun e he => ?_⟩
    obtain ⟨hold, hne⟩ := mem_eraseName hkept.names he
    refine hkept.others hapart ?_ hold hne
    simp only
    split
    · exact deleteFiles_did _ _
    · exact .refl _

theorem hubStep_kept {call : HubCall} (hkept : Kept sha256 folders s)
    (hcareful : careful sha256 folders parser s call = true)
    (h : hubStep sha256 folders parser catalogPath s call = some s') : Kept sha256 folders s' := by
  cases call with
  | pull text opts info server =>
    unfold hubStep at h
    simp only at h
    split at h
    · next s₁ entry hpull =>
      cases h
      unfold pullModel at hpull
      split at hpull
      · cases hpull
      next plan hplan =>
      obtain ⟨hspec, i, hfile, hshards⟩ := planPull_ok hplan
      simp only [careful, hplan, Bool.and_eq_true, beq_iff_eq] at hcareful
      have hnamed := selectFile_named (parseSpec_valid hspec).2 hfile
      exact pullPlanned_kept hkept hnamed (splitSet_paths hshards) hcareful.1 hcareful.2 hpull
    · cases h
  | remove name deleteFile =>
    unfold hubStep at h
    simp only at h
    split at h
    · next s₁ hremove =>
      cases h
      exact removeModel_kept hkept hcareful hremove
    · cases h

end Histories

def splitInfo : Answer :=
  .response {
    status := 200
    body := [{ data := lit "\x7b\"siblings\":[\x7b\"rfilename\":\"m-00001-of-00002.gguf\"\x7d,\x7b\"rfilename\":\"m-00002-of-00002.gguf\"\x7d]\x7d" }] }

def splitHistory : List HubCall :=
  [.pull (lit "a/b:m") {} splitInfo byteServer,
   .pull (lit "c/d") {} (infoOf "m.gguf") byteServer,
   .remove (lit "m") true]

/- One file under two names: removing one takes the file away from the other. -/
def sharedHistory : List HubCall :=
  [.pull (lit "a/b") {} (infoOf "m.gguf") byteServer,
   .pull (lit "a/b") { name := lit "n" } (infoOf "m.gguf") byteServer,
   .remove (lit "m") true]

end AgentCpp.Hub
