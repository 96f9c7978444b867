import AgentCpp.Hub.Download
import AgentCpp.Hub.Shards
import AgentCpp.Lib.JsonReader

/-!
# Pulling and removing models (`hub_http.cpp`, `hub.cpp`)

`pull_model` resolves a spec against the server's file list, downloads the file, or every shard
of its set, and records it in the catalogue.
-/

namespace AgentCpp.Hub
open Lib Lib.Json Lib.Path List

structure CatalogEntry where
  name : Bytes
  repo : Bytes
  file : Bytes
  path : Bytes
  size : ℕ
  sha256 : Bytes
  license : Bytes
  deriving DecidableEq

structure HubState where
  disk : Disk := {}
  catalog : List CatalogEntry := []

/- Where models go; the current directory is an absolute path. -/
structure Folders where
  cwd : Bytes
  modelsDir : Bytes
  cwd_absolute : isAbsolute cwd = true

structure PullOptions where
  name : Bytes := []
  allowRestrictedLicense : Bool := false
  endpoint : Bytes := lit "https://huggingface.co"

def kMaxApiBody : ℕ := 64 * 2 ^ 20

def fetchRepoInfo (parser : JsonParser) (repo : Bytes) (answer : Answer) : Result RepoInfo :=
  match answer with
  | .unreachable e => .error e
  | .response r =>
    let success := decide (200 ≤ r.status ∧ r.status < 300)
    if success ∧ kMaxApiBody < r.data.length then
      fail .httpError (lit "hub: model info for " ++ repo ++ lit " is too large")
    else do
      let reply ← r.reply (if success then [] else r.data.take kMaxErrorBody)
      if reply.status ≠ 200 then fail .httpError (statusMessage reply (lit "model info for " ++ repo))
      else do
        let info ← parseRepoInfo parser r.data
        .ok (if info.repo.isEmpty then { info with repo } else info)

def restricted (text : Bytes) : Bool :=
  let s := toLower text
  (lit "cc-by-nc").isPrefixOf s ||
    [lit "noncommercial", lit "non-commercial", lit "non commercial", lit "research", lit "academic", lit "-nc-"].any
      (fun word => (find word s).isSome) ||
    [lit "deepfloyd-if-license", lit "apple-amlr", lit "fair-nc"].contains s

def isRestrictedLicense (license licenseName : Bytes) : Bool := restricted license || restricted licenseName

def licenseText (info : RepoInfo) : Bytes :=
  (if info.license.isEmpty then lit "unknown" else info.license) ++
    if info.license = lit "other" ∧ info.licenseName ≠ [] then lit " (" ++ info.licenseName ++ lit ")" else []

structure PullPlan where
  spec : ModelSpec
  file : RemoteFile
  shards : List RemoteFile
  license : Bytes

def planPull (parser : JsonParser) (text : Bytes) (opts : PullOptions) (answer : Answer) : Result PullPlan := do
  let spec ← parseSpec text
  let info ← fetchRepoInfo parser spec.repo answer
  let file ← selectFile info spec
  let shards ← splitSet info file
  if isRestrictedLicense info.license info.licenseName ∧ !opts.allowRestrictedLicense then
    fail .permissionDenied (lit "hub: " ++ spec.repo ++ lit " is under a restricted licence (" ++ licenseText info ++
      lit "); pass allow_restricted_license (--allow-restricted) if you are entitled to use it")
  else .ok { spec, file, shards, license := licenseText info }

def repoDir (folders : Folders) (repo : Bytes) : Bytes := append folders.modelsDir repo

def localPath (folders : Folders) (repo file : Bytes) : Bytes :=
  lexicallyNormal (absolute folders.cwd (append (repoDir folders repo) file))

/- `std::filesystem::path::stem`. -/
def stemOf (path : Bytes) : Bytes :=
  let name := basenameOf path
  let upToDot := name.rdropWhile (· != 0x2E)
  if name = lit "." ∨ name = lit ".." ∨ upToDot.length ≤ 1 then name else upToDot.dropLast

def hexDigit (n : UInt8) : UInt8 := if n < 10 then 48 + n else 55 + n

def encodePath (path : Bytes) : Bytes :=
  path.flatMap fun c =>
    if isRepoChar c || c == 0x7E || c == slash then [c] else [0x25, hexDigit (c / 16), hexDigit (c % 16)]

def resolveUrl (endpoint : Bytes) (spec : ModelSpec) (file : Bytes) : Bytes :=
  endpoint ++ lit "/" ++ encodePath spec.repo ++ lit "/resolve/" ++ encodePath spec.revision ++ lit "/" ++ encodePath file

section Calls

variable (sha256 : Bytes → Bytes) (folders : Folders)

abbrev Server := Bytes → Answer × Answer

/- A file that need not be fetched. `known` is the digest an entry of this name already has. -/
def haveFile (plan : PullPlan) (known : Option Bytes) (shard : RemoteFile) (d : Disk) : Bool :=
  match d.read (localPath folders plan.spec.repo shard.path) with
  | none => false
  | some content =>
    (shard.size = 0 || content.length = shard.size) &&
      (shard.sha256.isEmpty || (shard.path = plan.file.path && known == some shard.sha256) ||
        sha256 content = shard.sha256)

def fetchShard (server : Server) (endpoint : Bytes) (plan : PullPlan) (known : Option Bytes) (shard : RemoteFile)
    (d : Disk) : Option (Disk × Result Unit) :=
  if haveFile sha256 folders plan known shard d then some (d, .ok ())
  else
    let url := resolveUrl endpoint plan.spec shard.path
    downloadFile sha256 url (localPath folders plan.spec.repo shard.path)
      { expectedSize := shard.size, expectedSha256 := shard.sha256 } (server url) d

/- The loop over the shards, with the total of their sizes. -/
def fetchShards (server : Server) (endpoint : Bytes) (plan : PullPlan) (known : Option Bytes) :
    List RemoteFile → ℕ → Disk → Option (Disk × Result ℕ)
  | [], total, d => some (d, .ok total)
  | shard :: shards, total, d =>
    match fetchShard sha256 folders server endpoint plan known shard d with
    | none => none
    | some (d, .error e) => some (d, .error e)
    | some (d, .ok ()) =>
      let size := if shard.size ≠ 0 then shard.size else d.size (localPath folders plan.spec.repo shard.path)
      fetchShards server endpoint plan known shards (total + size) d

def record : List CatalogEntry → CatalogEntry → List CatalogEntry
  | [], entry => [entry]
  | e :: catalog, entry => if e.name = entry.name then entry :: catalog else e :: record catalog entry

def entryName (opts : PullOptions) (plan : PullPlan) : Bytes :=
  if opts.name.isEmpty then stemOf plan.file.path else opts.name

def entrySize (plan : PullPlan) (path : Bytes) (total : ℕ) (d : Disk) : ℕ :=
  let size := if 1 < plan.shards.length then total else plan.file.size
  if size = 0 then d.size path else size

def newEntry (opts : PullOptions) (plan : PullPlan) (total : ℕ) (d : Disk) : CatalogEntry where
  name := entryName opts plan
  repo := plan.spec.repo
  file := plan.file.path
  path := localPath folders plan.spec.repo plan.file.path
  size := entrySize plan (localPath folders plan.spec.repo plan.file.path) total d
  sha256 := plan.file.sha256
  license := plan.license

def pullPlanned (server : Server) (opts : PullOptions) (plan : PullPlan) (s : HubState) :
    Option (HubState × Result CatalogEntry) :=
  let existing := s.catalog.find? (·.name = entryName opts plan)
  if existing.any fun e => e.repo ≠ plan.spec.repo ∨ e.file ≠ plan.file.path then
    some (s, fail .invalidConfig (lit "hub: name '" ++ entryName opts plan ++ lit "' is already used by " ++
      ((existing.map fun e => e.repo ++ lit ":" ++ e.file).getD []) ++
      lit "; choose another name or remove it first"))
  else
    match fetchShards sha256 folders server opts.endpoint plan (existing.map (·.sha256)) plan.shards 0 s.disk with
    | none => none
    | some (d, .error e) => some ({ s with disk := d }, .error e)
    | some (d, .ok total) =>
      let entry := newEntry folders opts plan total d
      some ({ disk := d, catalog := record s.catalog entry }, .ok entry)

def pullModel (parser : JsonParser) (text : Bytes) (opts : PullOptions) (info : Answer) (server : Server)
    (s : HubState) : Option (HubState × Result CatalogEntry) :=
  match planPull parser text opts info with
  | .error e => some (s, .error e)
  | .ok plan => pullPlanned sha256 folders server opts plan s

end Calls

def shardFiles (path : Bytes) : List Bytes :=
  match parseShard path with
  | none => [path]
  | some shard => shardPaths shard

def deleteFiles (paths : List Bytes) (d : Disk) : Disk := paths.foldl (fun d p => (d.remove p).remove (partPath p)) d

def removeModel (name catalogPath : Bytes) (deleteFile : Bool) (s : HubState) : HubState × Result Unit :=
  match s.catalog.find? (·.name = name) with
  | none => (s, fail .keyNotFound (lit "hub: no model named '" ++ name ++ lit "' in " ++ catalogPath))
  | some entry =>
    let disk := if deleteFile ∧ entry.path ≠ [] then deleteFiles (shardFiles entry.path) s.disk else s.disk
    ({ disk, catalog := s.catalog.eraseP (·.name = name) }, .ok ())

variable {info : RepoInfo} {file : RemoteFile}

theorem findShard_path {path : Bytes} (h : findShard info path = .ok file) : file.path = path := by
  unfold findShard at h
  split at h
  · next hfind =>
    cases h
    have hpath := find?_some hfind
    exact of_decide_eq_true hpath
  · cases h

theorem mapM_findShard {paths : List Bytes} {files : List RemoteFile}
    (h : paths.mapM (findShard info) = .ok files) : files.map (·.path) = paths := by
  induction paths generalizing files with
  | nil =>
    cases h
    rfl
  | cons path paths ih =>
    rw [mapM_cons, bind_eq_ok] at h
    obtain ⟨file, hfile, h⟩ := h
    obtain ⟨rest, hrest, h⟩ := bind_eq_ok.1 h
    cases h
    rw [map_cons, findShard_path hfile, ih hrest]

theorem splitSet_paths {shards : List RemoteFile}
    (h : splitSet info file = .ok shards) : shards.map (·.path) = shardFiles file.path := by
  unfold splitSet at h
  unfold shardFiles
  cases hshard : parseShard file.path with
  | none =>
    rw [hshard] at h
    cases h
    rfl
  | some shard =>
    rw [hshard] at h
    exact mapM_findShard h

/-- Whichever shard of a split model is asked for, the set is the same and complete. -/
theorem splitSet_of_member (info : RepoInfo) (file member : RemoteFile) (shards : List RemoteFile)
    (h : splitSet info file = .ok shards) (hmember : member ∈ shards) :
    splitSet info member = .ok shards ∧ shards.map (·.path) = shardFiles member.path := by
  suffices hset : splitSet info member = .ok shards from ⟨hset, splitSet_paths hset⟩
  have hpath := mem_map_of_mem (f := (·.path)) hmember
  rw [splitSet_paths h, shardFiles] at hpath
  unfold splitSet at h
  cases hshard : parseShard file.path with
  | none =>
    rw [hshard] at h
    cases h
    rw [mem_singleton.1 hmember, splitSet, hshard]
  | some shard =>
    rw [hshard] at h hpath
    obtain ⟨-, -, -, -, -, -, htotal⟩ := parseShard_some hshard
    obtain ⟨i, hi, hpath⟩ := mem_map.1 hpath
    rw [splitSet, ← hpath, parseShard_append_shardSuffix shard.stem (Nat.le_add_left 1 i) (mem_range.1 hi) htotal]
    exact h

def twoShards : RepoInfo := { files := [⟨lit "m-00001-of-00002.gguf", 3, []⟩, ⟨lit "m-00002-of-00002.gguf", 2, []⟩] }

theorem splitSet_of_member_first : splitSet twoShards ⟨lit "m-00001-of-00002.gguf", 3, []⟩ = .ok twoShards.files :=
  (splitSet_of_member twoShards ⟨lit "m-00002-of-00002.gguf", 2, []⟩ _ twoShards.files rfl (by decide)).1

theorem planPull_ok {parser : JsonParser} {text : Bytes} {opts : PullOptions} {answer : Answer} {plan : PullPlan}
    (h : planPull parser text opts answer = .ok plan) : parseSpec text = .ok plan.spec ∧
      ∃ info, selectFile info plan.spec = .ok plan.file ∧ splitSet info plan.file = .ok plan.shards := by
  unfold planPull at h
  obtain ⟨spec, hspec, h⟩ := bind_eq_ok.1 h
  obtain ⟨info, -, h⟩ := bind_eq_ok.1 h
  obtain ⟨file, hfile, h⟩ := bind_eq_ok.1 h
  obtain ⟨shards, hshards, h⟩ := bind_eq_ok.1 h
  split at h
  · cases h
  · cases h
    exact ⟨hspec, info, hfile, hshards⟩

section LocalPaths

variable (folders : Folders) (repo : Bytes)

variable {pre s file : Bytes}

theorem localPath_concat (hpre : SlashEnded pre) :
    ∃ folder, SlashEnded folder ∧ ∀ s, IsName s → localPath folders repo (pre ++ s) = folder ++ s := by
  obtain ⟨q, hq, happend⟩ := append_concat (repoDir folders repo) hpre
  obtain ⟨q', hq', habsolute⟩ := absolute_concat folders.cwd hq
  refine ⟨_, slashEnded_folder (normalNames q'), fun s hs => ?_⟩
  unfold localPath
  rw [happend s hs.noSlash, habsolute s hs.noSlash, lexicallyNormal_concat hq' hs]

theorem shardFiles_folder (hpre : SlashEnded pre) (s : Bytes) :
    shardFiles (pre ++ s) = (shardFiles s).map (pre ++ ·) := by
  unfold shardFiles
  rw [parseShard_folder hpre s]
  cases parseShard s with
  | none => rfl
  | some shard =>
    simp only [Option.map_some, shardPaths, map_map]
    refine map_congr_left fun i _ => ?_
    exact append_assoc _ _ _

theorem shardFiles_ne_nil (path : Bytes) : shardFiles path ≠ [] := by
  unfold shardFiles
  split
  · exact cons_ne_nil _ _
  · next shard hshard =>
    obtain ⟨-, -, -, -, hone, hle, -⟩ := parseShard_some hshard
    rw [shardPaths, Ne, map_eq_nil_iff, range_eq_nil]
    omega

theorem isName_shardFiles (hs : IsName s) : ∀ t ∈ shardFiles s, IsName t := by
  intro t ht
  unfold shardFiles at ht
  split at ht
  · rw [mem_singleton.1 ht]
    exact hs
  · next shard hshard =>
    obtain ⟨tail, heq, -, -, -, -, htotal⟩ := parseShard_some hshard
    obtain ⟨i, hi, rfl⟩ := mem_map.1 ht
    have hlt := mem_range.1 hi
    have hlength : (shardSuffix (i + 1) shard.total).length = 20 :=
      shardSuffix_length (Nat.lt_of_le_of_lt hlt htotal) htotal
    refine .of_length ?_ ?_
    · intro hmem
      cases mem_append.1 hmem with
      | inl hmem => exact hs.noSlash (heq ▸ mem_append_left _ hmem)
      | inr hmem => exact slash_not_mem_shardSuffix _ _ hmem
    · rw [length_append]
      omega

theorem isName_part (hs : IsName s) : IsName (s ++ lit ".part") := by
  refine .of_length ?_ ?_
  · intro hmem
    cases mem_append.1 hmem with
    | inl hmem => exact hs.noSlash hmem
    | inr hmem => exact absurd hmem (by decide)
  · rw [length_append]
    exact Nat.lt_of_lt_of_le (by decide) (Nat.le_add_left (lit ".part").length _)

def Named (file : Bytes) : Prop := ∃ pre s, file = pre ++ s ∧ SlashEnded pre ∧ IsName s

theorem shardFiles_localPath (h : Named file) :
    (shardFiles file).map (localPath folders repo) = shardFiles (localPath folders repo file) := by
  obtain ⟨pre, s, rfl, hpre, hs⟩ := h
  obtain ⟨folder, hfolder, hlocal⟩ := localPath_concat folders repo hpre
  rw [hlocal s hs, shardFiles_folder hfolder, shardFiles_folder hpre, map_map]
  exact map_congr_left fun t ht => hlocal t (isName_shardFiles hs t ht)

theorem partPath_localPath (h : Named file) :
    partPath (localPath folders repo file) = localPath folders repo (file ++ lit ".part") := by
  obtain ⟨pre, s, rfl, hpre, hs⟩ := h
  obtain ⟨folder, -, hlocal⟩ := localPath_concat folders repo hpre
  rw [append_assoc, hlocal s hs, hlocal _ (isName_part hs)]
  exact append_assoc _ _ _

end LocalPaths

theorem validRepo_chars {repo : Bytes} (h : validRepo repo = true) :
    repo ≠ [] ∧ isAbsolute repo = false ∧ repo.getLast? ≠ some slash := by
  unfold validRepo at h
  split at h
  · next owner name hsegments =>
    obtain ⟨howner, hname⟩ := Bool.and_eq_true_iff.1 h
    obtain ⟨hownerNe, hownerChars⟩ := validRepoPart_chars howner
    obtain ⟨hnameNe, hnameChars⟩ := validRepoPart_chars hname
    have hslash : isRepoChar slash = false := by decide
    have hback : [slash].intercalate (segments repo) = repo := intercalate_splitOn slash
    have hrepo : repo = owner ++ slash :: name := by
      rw [hsegments] at hback
      rw [← hback]
      simp [List.intercalate]
    refine ⟨by rw [hrepo]; simp, ?_, fun hlast => ?_⟩
    · rw [hrepo]
      cases owner with
      | nil => exact absurd rfl hownerNe
      | cons c owner =>
        refine beq_eq_false_iff_ne.2 fun he => ?_
        have hc := hownerChars c mem_cons_self
        rw [Option.some.inj he, hslash] at hc
        cases hc
    · rw [hrepo, getLast?_append_of_ne_nil _ (cons_ne_nil _ _), getLast?_cons_of_ne_nil hnameNe] at hlast
      have hc := hnameChars slash (mem_of_getLast? hlast)
      rw [hslash] at hc
      cases hc
  · cases h

variable {file : Bytes}

theorem repoDir_ends (folders : Folders) {repo : Bytes} (hrepo : validRepo repo = true) :
    repoDir folders repo ≠ [] ∧ (repoDir folders repo).getLast? ≠ some slash := by
  obtain ⟨hne, habs, hlast⟩ := validRepo_chars hrepo
  unfold repoDir append
  rw [habs, if_neg Bool.false_ne_true]
  split
  · exact ⟨append_ne_nil_of_right_ne_nil _ hne, by rwa [getLast?_append_of_ne_nil _ hne]⟩
  · refine ⟨append_ne_nil_of_right_ne_nil _ (cons_ne_nil _ _), ?_⟩
    rwa [getLast?_append_of_ne_nil _ (cons_ne_nil _ _), getLast?_cons_of_ne_nil hne]

/- Read name by name from the folder, `..` one up, the path ends strictly below the folder. An absolute path is read
from the root. -/
def Stays (dir file : Bytes) : Prop :=
  ∃ names, names ≠ [] ∧
    (segments file).foldl pushName (if isAbsolute file then [] else normalNames dir) = normalNames dir ++ names

theorem under_localPath_iff (folders : Folders) {repo : Bytes} (hrepo : validRepo repo = true) :
    Under (absolute folders.cwd (repoDir folders repo)) (localPath folders repo file) ↔
      Stays (absolute folders.cwd (repoDir folders repo)) file := by
  obtain ⟨hne, hlast⟩ := repoDir_ends folders hrepo
  unfold Under Stays localPath
  rw [normalNames_lexicallyNormal]
  cases habs : isAbsolute file with
  | true =>
    have hpath : absolute folders.cwd (append (repoDir folders repo) file) = file := by
      unfold append absolute
      rw [if_pos habs, if_pos habs]
    rw [hpath, if_pos rfl]
    rfl
  | false =>
    rw [append_of_relative habs hne hlast, absolute_append_slash hne, normalNames_append, if_neg Bool.false_ne_true]

/- All files of a set, and their `.part` files, are in the folder of the one selected. -/
theorem shardFiles_under (folders : Folders) (repo dir : Bytes) {q : Bytes} (hnamed : Named file)
    (hq : q ∈ shardFiles file) :
    (Under dir (localPath folders repo q) ↔ Under dir (localPath folders repo file)) ∧
      (Under dir (partPath (localPath folders repo q)) ↔ Under dir (localPath folders repo file)) := by
  obtain ⟨pre, s, rfl, hpre, hs⟩ := hnamed
  rw [shardFiles_folder hpre] at hq
  obtain ⟨t, ht, rfl⟩ := mem_map.1 hq
  have htName := isName_shardFiles hs t ht
  obtain ⟨folder, hfolder, hlocal⟩ := localPath_concat folders repo hpre
  rw [partPath_localPath folders repo ⟨pre, t, rfl, hpre, htName⟩, append_assoc, hlocal t htName, hlocal s hs,
    hlocal _ (isName_part htName), under_concat hfolder htName, under_concat hfolder hs,
    under_concat hfolder (isName_part htName)]
  exact ⟨.rfl, .rfl⟩

theorem basenameOf_concat {pre s : Bytes} (hpre : SlashEnded pre) (hs : slash ∉ s) : basenameOf (pre ++ s) = s := by
  obtain ⟨before, hsegments, -⟩ := segments_concat hpre
  unfold basenameOf
  rw [hsegments s hs, getLastD_concat]

theorem named_of_validRepoFile {file : Bytes} (h : validRepoFile file = true) : Named file := by
  obtain ⟨pre, s, rfl, hpre, hs⟩ := exists_concat file
  obtain ⟨before, hsegments, -⟩ := segments_concat hpre
  refine ⟨pre, s, rfl, hpre, isName_of_validRepoFile h s ?_⟩
  rw [hsegments s hs]
  exact mem_append_right _ (mem_singleton_self s)

variable {path : Bytes}

theorem named_of_basename {file : Bytes} (h : validRepoFile file = true) (hbase : basenameOf path = file) :
    Named path := by
  obtain ⟨pre, s, rfl, hpre, hs⟩ := exists_concat path
  rw [basenameOf_concat hpre hs] at hbase
  subst hbase
  refine ⟨pre, s, rfl, hpre, isName_of_validRepoFile h s ?_⟩
  rw [segments_of_not_mem hs]
  exact mem_singleton_self s

theorem named_of_isGguf (h : isGguf path = true) : Named path := by
  have hslash := slash_not_mem_of_endsWithCi h
  have hlength : 5 ≤ path.length := of_decide_eq_true (Bool.and_eq_true_iff.1 h).1
  obtain ⟨pre, s, rfl, hpre, hs⟩ := exists_concat path
  refine ⟨pre, s, rfl, hpre, .of_length hs (Nat.not_le.1 fun hshort => ?_)⟩
  cases hpre with
  | inl hnil =>
    rw [hnil, nil_append] at hlength
    omega
  | inr hend =>
    -- the slash before a short name is among the last five bytes
    obtain ⟨q, rfl⟩ := hend
    have hname : slash :: s <:+ q ++ [slash] ++ s := ⟨q, by rw [append_assoc]; rfl⟩
    refine hslash ((suffix_of_suffix_length_le hname (drop_suffix _ _) ?_).subset mem_cons_self)
    rw [length_drop, length_cons]
    omega

variable {spec : ModelSpec} {file : RemoteFile}

theorem selectFrom_mem {pool : List RemoteFile} (h : selectFrom spec pool = .ok file) : file ∈ pool := by
  unfold selectFrom at h
  split at h
  · next hfilter =>
    cases h
    exact mem_of_mem_filter (hfilter ▸ mem_singleton_self _)
  · split at h
    · next hfilter =>
      cases h
      exact mem_of_mem_filter (hfilter ▸ mem_singleton_self _)
    · cases h
    · cases h
  · cases h

theorem selectByQuant_mem {ggufs : List RemoteFile} (h : selectByQuant spec ggufs = .ok file) : file ∈ ggufs := by
  unfold selectByQuant at h
  simp only at h
  split at h
  · cases h
  · have hpool := selectFrom_mem h
    split at hpool
    · exact mem_of_mem_filter hpool
    · exact mem_of_mem_filter (mem_of_mem_filter hpool)

theorem selectFile_named {info : RepoInfo} (hvalid : spec.file ≠ [] → validRepoFile spec.file = true)
    (h : selectFile info spec = .ok file) : Named file.path := by
  have hgguf (hmem : file ∈ info.files.filter fun f => isGguf f.path && !isMmproj f.path) : Named file.path :=
    named_of_isGguf (Bool.and_eq_true_iff.1 (mem_filter.1 hmem).2).1
  unfold selectFile at h
  split at h
  · next hfile =>
    unfold selectByFile at h
    split at h
    · next hfind =>
      cases h
      have hpath := find?_some hfind
      rw [of_decide_eq_true hpath]
      exact named_of_validRepoFile (hvalid hfile)
    · split at h
      · next hfilter =>
        cases h
        have hmem := mem_filter.1 (hfilter ▸ mem_singleton_self _)
        exact named_of_basename (hvalid hfile) (of_decide_eq_true hmem.2)
      · cases h
      · cases h
  · simp only at h
    split at h
    · unfold selectOnly at h
      split at h
      · next hggufs =>
        cases h
        exact hgguf (hggufs ▸ mem_singleton_self _)
      · cases h
      · cases h
    · exact hgguf (selectByQuant_mem h)

section Fetching

variable {sha256 : Bytes → Bytes} {folders : Folders} {server : Server} {endpoint : Bytes} {plan : PullPlan}
  {known : Option Bytes}

def FetchOp (folders : Folders) (repo : Bytes) (files : List Bytes) (op : FileOp) : Prop :=
  ∃ q ∈ files, ∀ p ∈ op.paths, p = partPath (localPath folders repo q) ∨ p = localPath folders repo q

variable {d d' : Disk}

theorem fetchShard_did {shard : RemoteFile} {result : Result Unit}
    (h : fetchShard sha256 folders server endpoint plan known shard d = some (d', result)) :
    Did (FetchOp folders plan.spec.repo [shard.path]) d d' := by
  unfold fetchShard at h
  split at h
  · cases h
    exact .refl d
  · exact (downloadFile_left h).did.mono fun op hop => ⟨shard.path, mem_singleton_self _, hop.paths_eq⟩

theorem fetchShards_did {shards : List RemoteFile} {total : ℕ} {result : Result ℕ}
    (h : fetchShards sha256 folders server endpoint plan known shards total d = some (d', result)) :
    Did (FetchOp folders plan.spec.repo (shards.map (·.path))) d d' := by
  induction shards generalizing total d with
  | nil =>
    cases h
    exact .refl _
  | cons shard shards ih =>
    have hfirst : ∀ op, FetchOp folders plan.spec.repo [shard.path] op →
        FetchOp folders plan.spec.repo ((shard :: shards).map (·.path)) op := by
      rintro op ⟨q, hq, hop⟩
      exact ⟨q, mem_singleton.1 hq ▸ mem_cons_self, hop⟩
    have hlater : ∀ op, FetchOp folders plan.spec.repo (shards.map (·.path)) op →
        FetchOp folders plan.spec.repo ((shard :: shards).map (·.path)) op := by
      rintro op ⟨q, hq, hop⟩
      exact ⟨q, mem_cons_of_mem _ hq, hop⟩
    unfold fetchShards at h
    split at h
    · cases h
    · next hshard =>
      cases h
      exact (fetchShard_did hshard).mono hfirst
    · next hshard => exact ((fetchShard_did hshard).mono hfirst).trans ((ih h).mono hlater)

theorem pullPlanned_did {opts : PullOptions} {s s' : HubState} {result : Result CatalogEntry}
    (h : pullPlanned sha256 folders server opts plan s = some (s', result)) :
    Did (FetchOp folders plan.spec.repo (plan.shards.map (·.path))) s.disk s'.disk := by
  unfold pullPlanned at h
  simp only at h
  split at h
  · cases h
    exact .refl _
  · split at h
    · cases h
    · next hfetch =>
      cases h
      exact fetchShards_did hfetch
    · next hfetch =>
      cases h
      exact fetchShards_did hfetch

end Fetching

/- The server closes the connection after its headers. -/
def brokenServer : Server := fun _ =>
  (.response { status := 200, ending := some ⟨.networkError, lit "hub: connection closed"⟩ },
    .unreachable ⟨.networkError, []⟩)

theorem pullPlanned_broken (sha256 : Bytes → Bytes) (folders : Folders) (opts : PullOptions) {plan : PullPlan}
    {shard : RemoteFile} {shards : List RemoteFile} (h : plan.shards = shard :: shards) :
    ∃ e, pullPlanned sha256 folders brokenServer opts plan {} =
      some ({ disk := ({} : Disk).put (partPath (localPath folders plan.spec.repo shard.path)) [] }, .error e) := by
  unfold pullPlanned
  rw [h]
  by_cases hsize : shard.size = 0
  · simp [fetchShards, fetchShard, haveFile, downloadFile, attempts, attempt, transfer, httpGet, downloadOnResponse,
      downloadOnData, brokenServer, Response.reply, Disk.read, Disk.size, hsize, fail]
  · simp [fetchShards, fetchShard, haveFile, downloadFile, attempts, attempt, transfer, httpGet, downloadOnResponse,
      downloadOnData, brokenServer, Response.reply, Disk.read, Disk.size, hsize, Ne.symm hsize, fail]

/-- Every file that a pull writes, renames or removes lies strictly below `<models_dir>/<owner>/<repo>`, whatever the
server sends and whatever is on the disk, exactly when the path of the file that is selected stays there. -/
theorem pullModel_contained_iff (sha256 : Bytes → Bytes) (parser : JsonParser) (folders : Folders) (text : Bytes)
    (spec : ModelSpec) (opts : PullOptions) (info : Answer) (hspec : parseSpec text = .ok spec) :
    (∀ server s s' result, pullModel sha256 folders parser text opts info server s = some (s', result) →
      Did (fun op => ∀ p ∈ op.paths, Under (absolute folders.cwd (repoDir folders spec.repo)) p) s.disk s'.disk) ↔
    ∀ plan, planPull parser text opts info = .ok plan →
      Stays (absolute folders.cwd (repoDir folders spec.repo)) plan.file.path := by
  have hrepo := (parseSpec_valid hspec).1
  have hplanned : ∀ plan, planPull parser text opts info = .ok plan →
      plan.spec = spec ∧ Named plan.file.path ∧ plan.shards.map (·.path) = shardFiles plan.file.path := by
    intro plan hplan
    obtain ⟨hspec', i, hfile, hshards⟩ := planPull_ok hplan
    rw [hspec] at hspec'
    cases hspec'
    exact ⟨rfl, selectFile_named (parseSpec_valid hspec).2 hfile, splitSet_paths hshards⟩
  constructor
  · intro hcontained plan hplan
    obtain ⟨rfl, hnamed, hshards⟩ := hplanned plan hplan
    obtain ⟨shard, shards, hcons⟩ : ∃ shard shards, plan.shards = shard :: shards :=
      exists_cons_of_ne_nil fun hnil => shardFiles_ne_nil plan.file.path (by rw [← hshards, hnil]; rfl)
    obtain ⟨e, hbroken⟩ := pullPlanned_broken sha256 folders opts hcons
    have hcall : pullModel sha256 folders parser text opts info brokenServer {} =
        pullPlanned sha256 folders brokenServer opts plan {} := by
      unfold pullModel
      rw [hplan]
    obtain ⟨ops, hlog, -, hops⟩ := (hcontained _ _ _ _ (hcall.trans hbroken)).done
    have hlogged : .put (partPath (localPath folders plan.spec.repo shard.path)) [] ∈ ops := by
      have hlog' : [_] = ops := hlog
      exact hlog' ▸ mem_singleton_self _
    have hput := hops _ hlogged _ (mem_singleton_self _)
    have hmem : shard.path ∈ shardFiles plan.file.path := by
      rw [← hshards, hcons]
      exact mem_cons_self
    exact (under_localPath_iff folders hrepo).1 ((shardFiles_under folders _ _ hnamed hmem).2.1 hput)
  · intro hstays server s s' result hcall
    unfold pullModel at hcall
    split at hcall
    · cases hcall
      exact .refl _
    · next plan hplan =>
      obtain ⟨rfl, hnamed, hshards⟩ := hplanned plan hplan
      have hunder := (under_localPath_iff folders hrepo).2 (hstays plan hplan)
      refine (pullPlanned_did hcall).mono fun op hop p hp => ?_
      obtain ⟨q, hq, hpaths⟩ := hop
      rw [hshards] at hq
      obtain ⟨hlocal, hpart⟩ := shardFiles_under folders plan.spec.repo
        (absolute folders.cwd (repoDir folders plan.spec.repo)) hnamed hq
      cases hpaths p hp with
      | inl h => exact h ▸ hpart.2 hunder
      | inr h => exact h ▸ hlocal.2 hunder

def someFolders : Folders where
  cwd := lit "/"
  modelsDir := lit "/m"
  cwd_absolute := by decide

def infoOf (file : String) : Answer :=
  .response {
    status := 200
    body := [{ data := lit "\x7b\"siblings\":[\x7b\"rfilename\":\"" ++ lit file ++ lit "\"\x7d]\x7d" }] }

def byteServer : Server := fun _ =>
  (.response { status := 200, body := [{ data := [7] }] }, .unreachable ⟨.networkError, []⟩)

/- `valid_repo_file` would refuse this path, but it stays. -/
theorem pullModel_contained_dotted :
    ∃ s' : HubState, s'.disk.read (lit "/m/a/b/x/m.gguf") = some [7] ∧
      Did (fun op => ∀ p ∈ op.paths, Under (absolute someFolders.cwd (repoDir someFolders (lit "a/b"))) p) {} s'.disk := by
  have hpath : (planPull JsonReader.parser (lit "a/b") {} (infoOf "./x//m.gguf")).toOption.all
      (fun plan => plan.file.path == lit "./x//m.gguf") = true := by decide +kernel
  have hends : (pullModel id someFolders JsonReader.parser (lit "a/b") {} (infoOf "./x//m.gguf") byteServer {}).any
      (fun out => out.1.disk.read (lit "/m/a/b/x/m.gguf") == some [7]) = true := by
    decide +kernel
  obtain ⟨⟨s', result⟩, hcall, hout⟩ := (Option.any_eq_true _ _).1 hends
  refine ⟨s', eq_of_beq hout, ?_⟩
  refine (pullModel_contained_iff id JsonReader.parser someFolders (lit "a/b") { repo := lit "a/b" } {}
    (infoOf "./x//m.gguf") (by decide +kernel)).2 (fun plan hplan => ?_) byteServer {} s' result hcall
  rw [hplan] at hpath
  rw [eq_of_beq hpath]
  exact ⟨[lit "x", lit "m.gguf"], by decide, by decide +kernel⟩

/- The only file of a repository, named with dots: it is put beside the folder of its owner. -/
theorem pullModel_escapes :
    ∃ s' entry, pullModel id someFolders JsonReader.parser (lit "a/b") {} (infoOf "../../x.gguf") byteServer {} =
        some (s', .ok entry) ∧
      s'.disk.ops = [.put (lit "/m/x.gguf.part") [], .put (lit "/m/x.gguf.part") [7],
        .rename (lit "/m/x.gguf.part") (lit "/m/x.gguf") [7]] ∧
      ¬Under (absolute someFolders.cwd (repoDir someFolders (lit "a/b"))) (lit "/m/x.gguf.part") ∧
      ¬Under (absolute someFolders.cwd (repoDir someFolders (lit "a/b"))) (lit "/m/x.gguf") := by
  have hends : (pullModel id someFolders JsonReader.parser (lit "a/b") {} (infoOf "../../x.gguf") byteServer {}).any
      (fun out => out.2.isOk && decide (out.1.disk.ops = [.put (lit "/m/x.gguf.part") [],
        .put (lit "/m/x.gguf.part") [7], .rename (lit "/m/x.gguf.part") (lit "/m/x.gguf") [7]])) = true := by
    decide +kernel
  obtain ⟨⟨s', result⟩, hcall, hout⟩ := (Option.any_eq_true _ _).1 hends
  obtain ⟨hok, hops⟩ := Bool.and_eq_true_iff.1 hout
  have hnot (p : Bytes) (h : ¬normalNames (absolute someFolders.cwd (repoDir someFolders (lit "a/b"))) <+: normalNames p) :
      ¬Under (absolute someFolders.cwd (repoDir someFolders (lit "a/b"))) p := by
    rintro ⟨names, -, hnames⟩
    exact h ⟨names, hnames.symm⟩
  cases result with
  | error e => cases hok
  | ok entry => exact ⟨s', entry, hcall, of_decide_eq_true hops, hnot _ (by decide +kernel), hnot _ (by decide +kernel)⟩

end AgentCpp.Hub
