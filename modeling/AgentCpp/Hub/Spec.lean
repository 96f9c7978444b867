import AgentCpp.Core.Types
import AgentCpp.Lib.Json
import AgentCpp.Lib.Path

/-!
# Model specs and file selection (`hub.cpp`)

`parse_spec` reads `owner/repo[@revision][:file-or-quant]`, `select_file` picks the file a spec
refers to and `split_set` the shards of a split model.
-/

namespace AgentCpp.Hub
open Lib Lib.Json Lib.Path List

def lower (c : UInt8) : UInt8 := if 65 ≤ c ∧ c ≤ 90 then c + 32 else c

def toLower (s : Bytes) : Bytes := s.map lower

def isAlnum (c : UInt8) : Bool := isDigit c || (97 ≤ lower c && lower c ≤ 122)

def isSpace (c : UInt8) : Bool := c == 32 || (9 ≤ c && c ≤ 13)

def trim (s : Bytes) : Bytes := (s.dropWhile isSpace).rdropWhile isSpace

def matchesAt (hay needle : Bytes) (i : ℕ) : Bool :=
  i + needle.length ≤ hay.length && toLower ((hay.drop i).take needle.length) == toLower needle

def ifind (hay needle : Bytes) : Option ℕ :=
  if needle.isEmpty then none else (List.range (hay.length + 1)).find? (matchesAt hay needle)

def endsWithCi (s suffix : Bytes) : Bool :=
  suffix.length ≤ s.length && ifind (s.drop (s.length - suffix.length)) suffix == some 0

def basenameOf (path : Bytes) : Bytes := (segments path).getLastD []

def isRepoChar (c : UInt8) : Bool := isAlnum c || c == 0x2D || c == 0x5F || c == 0x2E

def validRepoPart (part : Bytes) : Bool :=
  !(part.isEmpty || part == lit "." || part == lit "..") && part.all isRepoChar

/- A path inside a repository that cannot leave the directory it is put in. -/
def validRepoFile (file : Bytes) : Bool :=
  !(file.isEmpty || file.head? == some slash || file.contains 0x5C || file.contains 0x3A) &&
    (segments file).all fun segment => !(segment.isEmpty || segment == lit "." || segment == lit "..")

theorem isName_of_validRepoFile {file : Bytes} (h : validRepoFile file = true) : ∀ s ∈ segments file, IsName s := by
  intro s hs
  have hsegment := List.all_eq_true.1 (Bool.and_eq_true _ _ ▸ h).2 s hs
  simp only [Bool.not_eq_true', Bool.or_eq_false_iff, isEmpty_eq_false_iff, beq_eq_false_iff_ne] at hsegment
  exact ⟨hsegment.1.1, hsegment.1.2, hsegment.2, not_mem_splitOn slash file s hs⟩

theorem validRepoPart_chars {part : Bytes} (h : validRepoPart part = true) :
    part ≠ [] ∧ ∀ c ∈ part, isRepoChar c = true := by
  obtain ⟨hname, hchars⟩ := Bool.and_eq_true _ _ ▸ h
  simp only [Bool.not_eq_true', Bool.or_eq_false_iff, isEmpty_eq_false_iff] at hname
  exact ⟨hname.1.1, List.all_eq_true.1 hchars⟩

structure ModelSpec where
  repo : Bytes
  revision : Bytes := lit "main"
  file : Bytes := []
  quant : Bytes := []
  deriving DecidableEq

def stripPrefix (spec given : Bytes) : Bytes := if given.isPrefixOf spec then spec.drop given.length else spec

def specPrefixes : List Bytes :=
  [lit "https://huggingface.co/", lit "http://huggingface.co/", lit "huggingface.co/", lit "hf.co/", lit "hf://"]

def cutAt (c : UInt8) (s : Bytes) : Bytes × Option Bytes :=
  match s.dropWhile (· != c) with
  | [] => (s, none)
  | _ :: after => (s.takeWhile (· != c), some after)

theorem cutAt_append {c : UInt8} {s : Bytes} (t : Bytes) (h : c ∉ s) : cutAt c (s ++ c :: t) = (s, some t) := by
  have hne : ∀ b ∈ s, (b != c) = true := fun b hb => bne_iff_ne.2 fun he => h (he ▸ hb)
  unfold cutAt
  rw [dropWhile_append_of_pos hne, takeWhile_append_of_pos hne]
  simp only [dropWhile_cons, takeWhile_cons, bne_self_eq_false, Bool.false_eq_true, if_false, append_nil]

def parseRevision (text : Option Bytes) : Result Bytes :=
  match text with
  | none => .ok (lit "main")
  | some revision =>
    if revision.isEmpty || !revision.all isRepoChar then
      fail .invalidConfig (lit "invalid revision in model spec")
    else .ok revision

/- `owner/repo`, with one slash. -/
def validRepo (repo : Bytes) : Bool :=
  match segments repo with
  | [owner, name] => validRepoPart owner && validRepoPart name
  | _ => false

def parseSelector (repo revision : Bytes) (selector : Option Bytes) : Result ModelSpec :=
  match selector with
  | none => .ok { repo, revision }
  | some selector =>
    if selector.contains 0x2E || selector.contains slash then
      if validRepoFile selector then .ok { repo, revision, file := selector }
      else fail .invalidConfig (lit "invalid file path in model spec")
    else .ok { repo, revision, quant := selector }

def parseSpec (text : Bytes) : Result ModelSpec :=
  let spec := specPrefixes.foldl stripPrefix (trim text)
  if spec.isEmpty then fail .invalidConfig (lit "empty model spec")
  else
    let (repoText, after) := cutAt 0x3A spec
    let selector := after.map trim
    if selector = some [] then fail .invalidConfig (lit "model spec has an empty selector after ':'")
    else
      let (repoText, revisionText) := cutAt 0x40 repoText
      match parseRevision revisionText with
      | .error e => .error e
      | .ok revision =>
        let repo := repoText.rdropWhile (· == slash)
        if validRepo repo then parseSelector repo revision selector
        else fail .invalidConfig (lit "model spec must look like owner/repo[:file-or-quant], got '" ++ spec ++ lit "'")

theorem parseSelector_valid {repo revision : Bytes} {selector : Option Bytes} {spec : ModelSpec}
    (hrepo : validRepo repo = true) (h : parseSelector repo revision selector = .ok spec) :
    validRepo spec.repo = true ∧ (spec.file ≠ [] → validRepoFile spec.file = true) := by
  unfold parseSelector at h
  split at h
  · cases h
    exact ⟨hrepo, fun hne => absurd rfl hne⟩
  · split at h
    · split at h
      · next hfile =>
        cases h
        exact ⟨hrepo, fun _ => hfile⟩
      · cases h
    · cases h
      exact ⟨hrepo, fun hne => absurd rfl hne⟩

theorem parseSpec_valid {text : Bytes} {spec : ModelSpec} (h : parseSpec text = .ok spec) :
    validRepo spec.repo = true ∧ (spec.file ≠ [] → validRepoFile spec.file = true) := by
  unfold parseSpec at h
  simp only at h
  split at h
  · cases h
  split at h
  · cases h
  split at h
  · cases h
  split at h
  · next hrepo => exact parseSelector_valid hrepo h
  · cases h

structure RemoteFile where
  path : Bytes
  size : ℕ := 0
  sha256 : Bytes := []
  deriving DecidableEq

structure RepoInfo where
  repo : Bytes := []
  license : Bytes := []
  licenseName : Bytes := []
  gated : Bool := false
  files : List RemoteFile := []

def member (v : Json) (key : Bytes) : Option Json := (getObject v).bind (field · key)

def stringMember (v : Json) (key : Bytes) : Bytes := ((member v key).bind getString).getD []

def uintMember (v : Json) (key : Bytes) : ℕ := (((member v key).bind getUint64).map UInt64.toNat).getD 0

def parseGated (doc : Json) : Bool :=
  match (member doc (lit "gated")).bind getBool with
  | some b => b
  | none =>
    match (member doc (lit "gated")).bind getString with
    | some s => s ≠ [] ∧ s ≠ lit "false"
    | none => false

def cardLicense (card : Json) : Bytes :=
  match (member card (lit "license")).bind getString with
  | some license => license
  | none => ((((member card (lit "license")).bind getArray).getD []).findSome? getString).getD []

/- The first tag `license:...`. -/
def tagLicense (doc : Json) : Bytes :=
  ((((member doc (lit "tags")).bind getArray).getD []).findSome? fun tag =>
    (getString tag).bind fun text =>
      if (lit "license:").isPrefixOf text then some (text.drop 8) else none).getD []

def parseSibling (v : Json) : Option RemoteFile :=
  let path := stringMember v (lit "rfilename")
  if path.isEmpty then none
  else
    let size := uintMember v (lit "size")
    match (member v (lit "lfs")).bind fun lfs => (getObject lfs).map fun _ => lfs with
    | none => some { path, size }
    | some lfs =>
      let digest := toLower (stringMember lfs (lit "sha256"))
      some {
        path
        size := if size = 0 then uintMember lfs (lit "size") else size
        sha256 := if digest.isEmpty then toLower (stringMember lfs (lit "oid")) else digest }

def parseRepoInfo (parser : JsonParser) (json : Bytes) : Result RepoInfo :=
  match (parser.parse json).bind fun doc => (getObject doc).map fun _ => doc with
  | none => fail .parseError (lit "hub: model info is not a JSON object")
  | some doc =>
    let card := (member doc (lit "cardData")).bind fun card => (getObject card).map fun _ => card
    let license := (card.map cardLicense).getD []
    .ok {
      repo := stringMember doc (lit "id")
      license := if license.isEmpty then tagLicense doc else license
      licenseName := (card.map (stringMember · (lit "license_name"))).getD []
      gated := parseGated doc
      files := (((member doc (lit "siblings")).bind getArray).getD []).filterMap parseSibling }

structure Shard where
  stem : Bytes
  index : ℕ
  total : ℕ
  deriving DecidableEq

def parseShard (path : Bytes) : Option Shard :=
  if path.length < 20 || !endsWithCi path (lit ".gguf") then none
  else
    let stem := path.take (path.length - 5)
    let tail := stem.drop (stem.length - 15)
    let index := (tail.drop 1).take 5
    let total := tail.drop 10
    if tail.head? = some 0x2D && (tail.drop 6).take 4 == lit "-of-" && index.all isDigit && total.all isDigit &&
        decide (1 ≤ digitsVal index ∧ 1 ≤ digitsVal total ∧ digitsVal index ≤ digitsVal total) then
      some { stem := stem.take (stem.length - 15), index := digitsVal index, total := digitsVal total }
    else none

/- The conversion `%05d`. -/
def pad5 (n : ℕ) : Bytes := List.replicate (5 - (decimal n).length) 0x30 ++ decimal n

def shardSuffix (i total : ℕ) : Bytes := lit "-" ++ pad5 i ++ lit "-of-" ++ pad5 total ++ lit ".gguf"

def isGguf (path : Bytes) : Bool := endsWithCi path (lit ".gguf")

def isMmproj (path : Bytes) : Bool := (ifind (basenameOf path) (lit "mmproj")).isSome

def isSplitShard (path : Bytes) : Bool := (ifind (basenameOf path) (lit "-of-0")).isSome

def quantMatches (filename quant : Bytes) : Bool := !quant.isEmpty && (ifind (basenameOf filename) quant).isSome

/- A match that is not part of a longer tag. -/
def quantMatchesExact (filename quant : Bytes) : Bool :=
  let name := basenameOf filename
  !quant.isEmpty && (List.range (name.length + 1)).any fun pos =>
    matchesAt name quant pos &&
      (pos == 0 || !((name[pos - 1]?).map isAlnum).getD false) &&
      (pos + quant.length == name.length || name[pos + quant.length]? == some 0x2E ||
        name[pos + quant.length]? == some 0x2D)

def joinPaths (files : List RemoteFile) : Bytes :=
  files.foldl (fun out f => (if out.isEmpty then out else out ++ lit ", ") ++ f.path) []

def selectByFile (info : RepoInfo) (spec : ModelSpec) : Result RemoteFile :=
  match info.files.find? (·.path = spec.file) with
  | some file => .ok file
  | none =>
    match info.files.filter (basenameOf ·.path = spec.file) with
    | [file] => .ok file
    | [] => fail .keyNotFound (lit "hub: file '" ++ spec.file ++ lit "' not found in " ++ spec.repo)
    | several => fail .invalidConfig (lit "hub: '" ++ spec.file ++ lit "' is ambiguous in " ++ spec.repo ++
        lit ": " ++ joinPaths several)

def selectOnly (spec : ModelSpec) (ggufs : List RemoteFile) : Result RemoteFile :=
  match ggufs with
  | [file] => .ok file
  | [] => fail .keyNotFound (lit "hub: no .gguf file in " ++ spec.repo)
  | several => fail .invalidConfig (lit "hub: " ++ spec.repo ++
      lit " has several .gguf files; add ':<file>' or ':<QUANT>' (" ++ joinPaths several ++ lit ")")

def selectFrom (spec : ModelSpec) (pool : List RemoteFile) : Result RemoteFile :=
  let ambiguous (files : List RemoteFile) : Result RemoteFile :=
    fail .invalidConfig (lit "hub: '" ++ spec.quant ++ lit "' is ambiguous in " ++ spec.repo ++ lit ": " ++
      joinPaths files)
  match pool.filter (!isSplitShard ·.path) with
  | [file] => .ok file
  | [] =>
    match pool.filter fun f => isSplitShard f.path && ((parseShard f.path).map (·.index)) == some 1 with
    | [file] => .ok file
    | [] => fail .invalidConfig (lit "hub: '" ++ spec.quant ++ lit "' in " ++ spec.repo ++
        lit " has shards but no first shard (-00001-of-N): " ++ joinPaths pool)
    | several => ambiguous several
  | several => ambiguous several

def selectByQuant (spec : ModelSpec) (ggufs : List RemoteFile) : Result RemoteFile :=
  let loose := ggufs.filter (quantMatches ·.path spec.quant)
  let exact := loose.filter (quantMatchesExact ·.path spec.quant)
  match if exact.isEmpty then loose else exact with
  | [] => fail .keyNotFound (lit "hub: no .gguf matching '" ++ spec.quant ++ lit "' in " ++ spec.repo ++
      if ggufs.isEmpty then [] else lit " (available: " ++ joinPaths ggufs ++ lit ")")
  | pool => selectFrom spec pool

def selectFile (info : RepoInfo) (spec : ModelSpec) : Result RemoteFile :=
  if spec.file ≠ [] then selectByFile info spec
  else
    let ggufs := info.files.filter fun f => isGguf f.path && !isMmproj f.path
    if spec.quant.isEmpty then selectOnly spec ggufs else selectByQuant spec ggufs

def findShard (info : RepoInfo) (path : Bytes) : Result RemoteFile :=
  match info.files.find? (·.path = path) with
  | some file => .ok file
  | none => fail .keyNotFound (lit "hub: split GGUF is missing shard " ++ path)

def shardPaths (shard : Shard) : List Bytes :=
  (List.range shard.total).map fun i => shard.stem ++ shardSuffix (i + 1) shard.total

def splitSet (info : RepoInfo) (file : RemoteFile) : Result (List RemoteFile) :=
  match parseShard file.path with
  | none => .ok [file]
  | some shard => (shardPaths shard).mapM (findShard info)

end AgentCpp.Hub
