import AgentCpp.Core.Types
import AgentCpp.Lib.Json
import AgentCpp.Lib.Path

/-!
# Memory estimate of a model (`model_registry.cpp`)

The same formulas over 64-bit words and over `ℕ`, which agree when the exact total is below
`2 ^ 64`. File system, JSON parser and the conversion of a JSON float are given by a `ModelFiles`.
-/

namespace AgentCpp
open Lib Lib.Json Lib.Path

inductive AiProvider where
  | mock
  | engine
  deriving DecidableEq, Repr

/- What the estimate reads of a `Config`. -/
structure ModelConfig where
  provider : AiProvider := .mock
  engine : Bytes := []
  engineOptions : Bytes := []
  model : Bytes := []
  contextWindow : Int32 := 2048
  maxParallelSubagents : Int32 := 4
  deriving DecidableEq, Repr

structure ModelSpec where
  name : Bytes
  config : ModelConfig := {}
  estimatedBytes : UInt64 := 0
  pinned : Bool := false
  deriving DecidableEq, Repr

structure ModelMemoryEstimate where
  fileBytes : UInt64
  ramBytes : UInt64
  vramBytes : UInt64
  deriving DecidableEq, Repr

/- `directory` lists the sizes of the regular files below a directory; `layers` is a JSON float
clamped to `[-1, 2 ^ 20]` and truncated. -/
structure ModelFiles where
  parser : JsonParser
  layers : Bytes → ℤ
  regular : Bytes → Option UInt64
  directory : Bytes → Option (List UInt64)

namespace Estimate

structure EngineFactor where
  kind : Bytes
  num : UInt64
  den : UInt64
  overhead : UInt64
  deriving DecidableEq, Repr

def kMiB : UInt64 := 1024 * 1024

/- The entry of an engine that no other entry names is the last one. -/
def unknownEngine : EngineFactor := ⟨[], 5, 4, 64 * kMiB⟩

def kFactors : List EngineFactor :=
  [⟨lit "mock", 1, 1, 0⟩,
   ⟨lit "llama", 1, 1, 64 * kMiB⟩,
   ⟨lit "onnx", 3, 2, 32 * kMiB⟩,
   ⟨lit "sdcpp", 6, 5, 256 * kMiB⟩,
   ⟨lit "trellis", 6, 5, 512 * kMiB⟩,
   ⟨lit "sherpa", 3, 2, 32 * kMiB⟩,
   unknownEngine]

def lower (s : Bytes) : Bytes := s.map fun c => if 65 ≤ c ∧ c ≤ 90 then c + 32 else c

def factorFor (config : ModelConfig) : EngineFactor :=
  if config.provider = .mock then ⟨lit "mock", 1, 1, 0⟩
  else
    let name := lower (filename config.engine)
    (kFactors.find? fun f => f.kind ≠ [] ∧ (find f.kind name).isSome).getD unknownEngine

section Files

variable (files : ModelFiles)

def fileSizeOrZero (path : Bytes) : UInt64 := (files.regular path).getD 0

/- The last place where `needle` stands in `s`. -/
def rfind (needle s : Bytes) : Option ℕ :=
  (List.range (s.length + 1)).reverse.find? fun i => needle.isPrefixOf (s.drop i)

def shardTotal (total : ℕ) : Bytes → Option ℕ
  | [] => some total
  | c :: cnt => if !isDigit c || 100000 < total then none else shardTotal (total * 10 + digitVal c) cnt

def shardName (name : Bytes) (dash width stop i : ℕ) : Bytes :=
  name.take (dash + 1) ++ List.replicate (width - (decimal i).length) 0x30 ++ decimal i ++ name.drop stop

/- "<stem>-00001-of-00003.gguf": the sizes of the other shards. -/
def otherShards (first : Bytes) : List UInt64 :=
  let name := filename first
  match rfind (lit "-of-") name with
  | none => []
  | some stop =>
    if stop < 6 then []
    else
      match rfind (lit "-") (name.take stop) with
      | none => []
      | some dash =>
        let idx := (name.drop (dash + 1)).take (stop - dash - 1)
        let cnt := (name.drop (stop + 4)).takeWhile (· ≠ 0x2E)
        if idx.length ≠ cnt.length ∨ idx ≠ List.replicate (idx.length - 1) 0x30 ++ [0x31] then []
        else
          ((shardTotal 0 cnt).elim [] fun total => List.range' 2 (total - 1)).map fun i =>
            fileSizeOrZero files (append (parentPath first) (shardName name dash idx.length stop i))

mutual

/- Every string of the options that names a regular file. -/
def scanOptions (model : Bytes) : Json → List Bytes
  | .obj fields => scanFields model fields
  | .arr items => scanItems model items
  | .str s =>
    if s = [] ∨ 4096 < s.length ∨ s = model then []
    else if (files.regular s).isSome then [s] else []
  | _ => []

def scanItems (model : Bytes) : List Json → List Bytes
  | [] => []
  | v :: items => scanOptions model v ++ scanItems model items

def scanFields (model : Bytes) : List (Bytes × Json) → List Bytes
  | [] => []
  | (_, v) :: fields => scanOptions model v ++ scanFields model fields

end

def gpuLayersOption (root : Json) : ℤ :=
  match (getObject root).bind (field · (lit "gpu_layers")) with
  | some (.int i) => max (-1) (min i (2 ^ 20))
  | some (.float text) => files.layers text
  | _ => -1

/- `gpu_layers` and the files that the options name. -/
def readOptions (spec : ModelSpec) : Result (ℤ × List Bytes) :=
  if spec.config.engineOptions = [] then .ok (-1, [])
  else
    match files.parser.parse spec.config.engineOptions with
    | none => fail .invalidConfig (lit "model '" ++ spec.name ++ lit "': engine_options is not valid JSON")
    | some root =>
      .ok (gpuLayersOption files root,
        if spec.estimatedBytes = 0 then (scanOptions files spec.config.model root).dedup else [])

/- The sizes of the files of the model itself. -/
def modelSizes (spec : ModelSpec) : Result (List UInt64) :=
  let model := spec.config.model
  if model = [] then .ok []
  else
    match files.directory model, files.regular model with
    | some sizes, _ => .ok sizes
    | none, some size => .ok (size :: otherShards files model)
    | none, none =>
      if spec.config.provider = .engine then
        fail .filesystemError (lit "model '" ++ spec.name ++ lit "': no such file: " ++ model ++
          lit " (set ModelSpec::estimated_bytes to skip the estimate)")
      else .ok []

/- All that the estimate reads: `gpu_layers` and the sizes that are added up, modulo `2 ^ 64`. -/
def readModel (spec : ModelSpec) : Result (ℤ × List UInt64) := do
  let (gpuLayers, extraFiles) ← readOptions files spec
  if spec.estimatedBytes ≠ 0 then return (gpuLayers, [])
  let sizes ← modelSizes files spec
  return (gpuLayers, sizes ++ extraFiles.map (fileSizeOrZero files))

end Files

def atLeastOne (n : Int32) : UInt64 := UInt64.ofNat (max 1 n.toInt).toNat

/- The KV cache of the llama engine. -/
def kvBytes (config : ModelConfig) (fileBytes : UInt64) : UInt64 :=
  let perToken := max (fileBytes / 32768) 64
  atLeastOne config.contextWindow * atLeastOne config.maxParallelSubagents * perToken

def fileTotal (f : EngineFactor) (config : ModelConfig) (fileBytes : UInt64) : UInt64 :=
  let total := fileBytes / f.den * f.num + (fileBytes % f.den) * f.num / f.den
  let total := if f.kind = lit "llama" then total + kvBytes config fileBytes else total
  total + f.overhead

def fileSum (sizes : List UInt64) : UInt64 := sizes.foldl (· + ·) 0

def modelTotal (spec : ModelSpec) (sizes : List UInt64) : UInt64 :=
  if spec.estimatedBytes ≠ 0 then spec.estimatedBytes
  else fileTotal (factorFor spec.config) spec.config (fileSum sizes)

end Estimate

open Estimate

def estimateModelMemory (files : ModelFiles) (spec : ModelSpec) : Result ModelMemoryEstimate := do
  let (gpuLayers, sizes) ← readModel files spec
  let total := modelTotal spec sizes
  if 0 < gpuLayers then
    return ⟨fileSum sizes, min total (factorFor spec.config).overhead, total⟩
  return ⟨fileSum sizes, total, 0⟩

structure ExactEstimate where
  ramBytes : ℕ
  vramBytes : ℕ
  deriving DecidableEq, Repr

namespace Estimate

def exactOne (n : Int32) : ℕ := (max 1 n.toInt).toNat

def exactKv (config : ModelConfig) (fileBytes : ℕ) : ℕ :=
  exactOne config.contextWindow * exactOne config.maxParallelSubagents * max (fileBytes / 32768) 64

def exactFileTotal (f : EngineFactor) (config : ModelConfig) (fileBytes : ℕ) : ℕ :=
  fileBytes / f.den.toNat * f.num.toNat + fileBytes % f.den.toNat * f.num.toNat / f.den.toNat +
    (if f.kind = lit "llama" then exactKv config fileBytes else 0) + f.overhead.toNat

def exactSum (sizes : List UInt64) : ℕ := (sizes.map UInt64.toNat).sum

def exactTotal (spec : ModelSpec) (sizes : List UInt64) : ℕ :=
  if spec.estimatedBytes ≠ 0 then spec.estimatedBytes.toNat
  else exactFileTotal (factorFor spec.config) spec.config (exactSum sizes)

/- The total of the model's exact estimate stays below `2 ^ 64`. -/
def Fits (files : ModelFiles) (spec : ModelSpec) : Prop :=
  ∀ gpuLayers sizes, readModel files spec = .ok (gpuLayers, sizes) → exactTotal spec sizes < 2 ^ 64

end Estimate

def exactModelMemory (files : ModelFiles) (spec : ModelSpec) : Result ExactEstimate := do
  let (gpuLayers, sizes) ← readModel files spec
  let total := exactTotal spec sizes
  if 0 < gpuLayers then
    return ⟨min total (factorFor spec.config).overhead.toNat, total⟩
  return ⟨total, 0⟩

namespace Estimate

/- The factors only ever enlarge, and scaling a remainder stays small. -/
structure EngineFactor.Sound (f : EngineFactor) : Prop where
  pos : 0 < f.den.toNat
  enlarges : f.den.toNat ≤ f.num.toNat
  small : f.den.toNat * f.num.toNat < 2 ^ 64

theorem factorFor_mem (config : ModelConfig) : factorFor config ∈ kFactors := by
  unfold factorFor
  split
  · exact List.mem_cons_self
  · dsimp only
    cases hfind : kFactors.find? fun f => f.kind ≠ [] ∧ (find f.kind (lower (filename config.engine))).isSome with
    | none =>
      decide
    | some f =>
      exact List.mem_of_find?_eq_some hfind

theorem factorFor_sound (config : ModelConfig) : (factorFor config).Sound := by
  have hall : ∀ f ∈ kFactors, 0 < f.den.toNat ∧ f.den.toNat ≤ f.num.toNat ∧
      f.den.toNat * f.num.toNat < 2 ^ 64 := by decide
  obtain ⟨hpos, hle, hsmall⟩ := hall _ (factorFor_mem config)
  exact ⟨hpos, hle, hsmall⟩

theorem toNat_atLeastOne (n : Int32) : (atLeastOne n).toNat = exactOne n := by
  have hlt := n.toInt_lt
  exact Nat.mod_eq_of_lt (by omega)

theorem fileSum_exact_from (sizes : List UInt64) (n : UInt64) (h : n.toNat + exactSum sizes < 2 ^ 64) :
    (sizes.foldl (· + ·) n).toNat = n.toNat + exactSum sizes := by
  induction sizes generalizing n with
  | nil => rfl
  | cons size sizes ih =>
    have hsum : exactSum (size :: sizes) = size.toNat + exactSum sizes := rfl
    have hadd : (n + size).toNat = n.toNat + size.toNat := by
      rw [UInt64.toNat_add]
      exact Nat.mod_eq_of_lt (by omega)
    rw [List.foldl_cons, ih _ (by omega)]
    omega

theorem fileSum_exact {sizes : List UInt64} (h : exactSum sizes < 2 ^ 64) : (fileSum sizes).toNat = exactSum sizes := by
  have hfrom := fileSum_exact_from sizes 0 (by rw [UInt64.toNat_zero]; omega)
  rw [UInt64.toNat_zero, Nat.zero_add] at hfrom
  exact hfrom

theorem kvBytes_exact {config : ModelConfig} {fileBytes : UInt64} (h : exactKv config fileBytes.toNat < 2 ^ 64) :
    (kvBytes config fileBytes).toNat = exactKv config fileBytes.toNat := by
  unfold kvBytes exactKv at *
  have hmax : (max (fileBytes / 32768) 64).toNat = max (fileBytes.toNat / 32768) 64 := by
    rw [UInt64.toNat_max]
    rfl
  have hslots : exactOne config.contextWindow * exactOne config.maxParallelSubagents < 2 ^ 64 :=
    lt_of_le_of_lt (Nat.le_mul_of_pos_right _ (by omega)) h
  rw [UInt64.toNat_mul, UInt64.toNat_mul, toNat_atLeastOne, toNat_atLeastOne, Nat.mod_eq_of_lt hslots, hmax,
    Nat.mod_eq_of_lt h]

theorem fileTotal_exact {f : EngineFactor} (hf : f.Sound) {config : ModelConfig} {fileBytes : UInt64}
    (h : exactFileTotal f config fileBytes.toNat < 2 ^ 64) :
    (fileTotal f config fileBytes).toNat = exactFileTotal f config fileBytes.toNat := by
  unfold exactFileTotal at *
  have hnonneg := Nat.zero_le (fileBytes.toNat % f.den.toNat * f.num.toNat / f.den.toNat)
  have hscaled : (fileBytes / f.den * f.num).toNat = fileBytes.toNat / f.den.toNat * f.num.toNat := by
    rw [UInt64.toNat_mul, UInt64.toNat_div]
    exact Nat.mod_eq_of_lt (by omega)
  have hrest : ((fileBytes % f.den) * f.num / f.den).toNat =
      fileBytes.toNat % f.den.toNat * f.num.toNat / f.den.toNat := by
    have hmod : fileBytes.toNat % f.den.toNat * f.num.toNat < 2 ^ 64 :=
      lt_of_le_of_lt (Nat.mul_le_mul_right _ (Nat.mod_lt _ hf.pos).le) hf.small
    rw [UInt64.toNat_div, UInt64.toNat_mul, UInt64.toNat_mod, Nat.mod_eq_of_lt hmod]
  have hfirst : (fileBytes / f.den * f.num + (fileBytes % f.den) * f.num / f.den).toNat =
      fileBytes.toNat / f.den.toNat * f.num.toNat + fileBytes.toNat % f.den.toNat * f.num.toNat / f.den.toNat := by
    rw [UInt64.toNat_add, hscaled, hrest]
    exact Nat.mod_eq_of_lt (by omega)
  unfold fileTotal
  by_cases hllama : f.kind = lit "llama"
  · simp only [if_pos hllama] at h ⊢
    have hkv : (kvBytes config fileBytes).toNat = exactKv config fileBytes.toNat := kvBytes_exact (by omega)
    rw [UInt64.toNat_add, UInt64.toNat_add, hfirst, hkv, Nat.mod_eq_of_lt (a := _ + exactKv _ _) (by omega),
      Nat.mod_eq_of_lt h]
  · simp only [if_neg hllama, Nat.add_zero] at h ⊢
    rw [UInt64.toNat_add, hfirst, Nat.mod_eq_of_lt h]

theorem le_exactFileTotal {f : EngineFactor} (hf : f.Sound) (config : ModelConfig) (fileBytes : ℕ) :
    fileBytes ≤ exactFileTotal f config fileBytes := by
  have hdiv : fileBytes / f.den.toNat * f.den.toNat ≤ fileBytes / f.den.toNat * f.num.toNat :=
    Nat.mul_le_mul_left _ hf.enlarges
  have hmod : fileBytes % f.den.toNat ≤ fileBytes % f.den.toNat * f.num.toNat / f.den.toNat := by
    rw [Nat.le_div_iff_mul_le hf.pos]
    exact Nat.mul_le_mul_left _ hf.enlarges
  have hsplit := Nat.div_add_mod' fileBytes f.den.toNat
  unfold exactFileTotal
  omega

theorem modelTotal_exact {spec : ModelSpec} {sizes : List UInt64} (h : exactTotal spec sizes < 2 ^ 64) :
    (modelTotal spec sizes).toNat = exactTotal spec sizes := by
  unfold modelTotal exactTotal at *
  split
  · rfl
  · next hzero =>
    rw [if_neg hzero] at h
    have hsound := factorFor_sound spec.config
    have hsum : (fileSum sizes).toNat = exactSum sizes :=
      fileSum_exact (lt_of_le_of_lt (le_exactFileTotal hsound spec.config _) h)
    rw [← hsum] at h ⊢
    exact fileTotal_exact hsound h

end Estimate

theorem estimateModelMemory_exact {files : ModelFiles} {spec : ModelSpec} (h : Fits files spec)
    {est : ModelMemoryEstimate} (hest : estimateModelMemory files spec = .ok est) :
    exactModelMemory files spec = .ok ⟨est.ramBytes.toNat, est.vramBytes.toNat⟩ := by
  unfold exactModelMemory
  obtain ⟨⟨gpuLayers, sizes⟩, hread, hest⟩ := bind_eq_ok.1 hest
  rw [hread]
  have htotal := modelTotal_exact (h gpuLayers sizes hread)
  change (if 0 < gpuLayers then _ else _) = _ at hest
  change (if 0 < gpuLayers then _ else _) = _
  split at hest
  · next hgpu =>
    cases hest
    rw [if_pos hgpu, UInt64.toNat_min, htotal]
    rfl
  · next hgpu =>
    cases hest
    rw [if_neg hgpu, htotal]
    rfl

end AgentCpp
