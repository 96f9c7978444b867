import AgentCpp.Core.Types
import AgentCpp.Lib.Path

/-!
# Paths under the workspace (`hal/path.cpp`)

A path given by the model or the user is joined to the workspace, resolved, and refused in sandbox
mode unless the components of the workspace are a prefix of its own.
-/

namespace AgentCpp.Hal
open Lib Lib.Path

/- The elements a `std::filesystem::path` is iterated in: the root, the names, and an empty element for a
slash at the end. -/
def components (p : Bytes) : List Bytes :=
  let names := (segments p).filter (· ≠ [])
  (if isAbsolute p then [[slash]] else []) ++ names ++ if names ≠ [] ∧ p.getLast? = some slash then [[]] else []

/- The file system: `weakly_canonical` fails with a message or gives a normalised absolute path. -/
structure PathEnv where
  weaklyCanonical : Bytes → Except Bytes Bytes
  currentPath : Except Bytes Bytes
  normalised : ∀ p q, weaklyCanonical p = .ok q →
    isAbsolute q ∧ ∀ c ∈ components q, c ≠ lit "." ∧ c ≠ lit ".."

def PathEnv.absolute (env : PathEnv) (p : Bytes) : Except Bytes Bytes :=
  if isAbsolute p then .ok p else env.currentPath.map fun cwd => append cwd p

/- `weakly_canonical`, or else `absolute`. -/
def PathEnv.resolve (env : PathEnv) (p : Bytes) : Except Bytes Bytes :=
  match env.weaklyCanonical p with
  | .ok q => .ok q
  | .error _ => env.absolute p

def isPrefixPath : List Bytes → List Bytes → Bool
  | [], _ => true
  | _ :: _, [] => false
  | r :: root, c :: candidate => if r ≠ c then false else isPrefixPath root candidate

def joinedPath (ws raw : Bytes) : Bytes :=
  if raw = [] ∨ raw = lit "." then ws
  else if isAbsolute raw then raw
  else append ws raw

def resolveUnderWorkspace (env : PathEnv) (workspaceDir userPath : Bytes) (sandbox : Bool) : Result Bytes :=
  if workspaceDir = [] then fail .invalidConfig (lit "workspace_dir is empty.")
  else
    match env.resolve workspaceDir with
    | .error msg => fail .filesystemError (lit "Cannot resolve workspace: " ++ msg)
    | .ok canonicalWs =>
      match env.resolve (joinedPath workspaceDir userPath) with
      | .error msg => fail .filesystemError (lit "Cannot resolve path: " ++ msg)
      | .ok canonical =>
        if sandbox && !isPrefixPath (components canonicalWs) (components canonical) then
          fail .sandboxViolation
            (lit "Path is outside workspace_dir (sandbox mode is enabled): " ++ canonical)
        else .ok canonical

theorem isPrefixPath_iff (root candidate : List Bytes) : isPrefixPath root candidate = true ↔ root <+: candidate := by
  induction root generalizing candidate with
  | nil => simp [isPrefixPath]
  | cons r root ih =>
    cases candidate with
    | nil => simp [isPrefixPath]
    | cons c candidate =>
      by_cases h : r = c <;> simp [isPrefixPath, ih]

section Sandbox

variable (env : PathEnv) (workspaceDir userPath : Bytes)

theorem resolveUnderWorkspace_ok (path : Bytes) : resolveUnderWorkspace env workspaceDir userPath true = .ok path ↔
      workspaceDir ≠ [] ∧ ∃ ws, env.resolve workspaceDir = .ok ws ∧
        env.resolve (joinedPath workspaceDir userPath) = .ok path ∧ components ws <+: components path := by
  unfold resolveUnderWorkspace
  by_cases hdir : workspaceDir = []
  · simp [hdir, fail]
  cases hws : env.resolve workspaceDir with
  | error msg => simp [hdir, fail]
  | ok ws =>
    cases hpath : env.resolve (joinedPath workspaceDir userPath) with
    | error msg => simp [hdir, fail]
    | ok q =>
      by_cases hin : components ws <+: components q
      · have hpre := (isPrefixPath_iff _ _).2 hin
        simp only [hdir, hpre, ↓reduceIte, Bool.not_true, Bool.and_false, Bool.false_eq_true, ne_eq, not_false_eq_true,
          Except.ok.injEq, exists_eq_left', true_and, iff_self_and]
        rintro rfl
        exact hin
      · have hpre := Bool.eq_false_iff.2 fun h => hin ((isPrefixPath_iff _ _).1 h)
        simp only [hdir, hpre, fail, ↓reduceIte, Bool.not_false, Bool.and_self, reduceCtorEq, ne_eq, not_false_eq_true,
          Except.ok.injEq, exists_eq_left', true_and, false_iff, not_and]
        rintro rfl
        exact hin

/-- The paths accepted in sandbox mode lie under the workspace and climb nowhere, if and only if `weakly_canonical`
resolves the path, or the absolute path taken instead does not both begin with the workspace and hold a `..`. -/
theorem resolveUnderWorkspace_confined : (∀ path, resolveUnderWorkspace env workspaceDir userPath true = .ok path →
        lit ".." ∉ components path ∧ ∃ ws, env.resolve workspaceDir = .ok ws ∧ components ws <+: components path) ↔
      (∃ q, env.weaklyCanonical (joinedPath workspaceDir userPath) = .ok q) ∨
        ∀ ws q, workspaceDir ≠ [] → env.resolve workspaceDir = .ok ws →
          env.absolute (joinedPath workspaceDir userPath) = .ok q → components ws <+: components q →
            lit ".." ∉ components q := by
  simp only [resolveUnderWorkspace_ok]
  cases hcanonical : env.weaklyCanonical (joinedPath workspaceDir userPath) with
  | ok q =>
    refine iff_of_true ?_ (.inl ⟨q, rfl⟩)
    rintro path ⟨-, ws, hws, hpath, hin⟩
    simp only [PathEnv.resolve, hcanonical, Except.ok.injEq] at hpath
    subst hpath
    exact ⟨fun hdots => ((env.normalised _ _ hcanonical).2 _ hdots).2 rfl, ws, hws, hin⟩
  | error msg =>
    have habsolute : env.resolve (joinedPath workspaceDir userPath) = env.absolute (joinedPath workspaceDir userPath) := by
      simp [PathEnv.resolve, hcanonical]
    simp only [habsolute, reduceCtorEq, exists_false, false_or]
    constructor
    · intro h ws q hdir hws hq hin
      exact (h q ⟨hdir, ws, hws, hq, hin⟩).1
    · rintro h path ⟨hdir, ws, hws, hpath, hin⟩
      exact ⟨h ws path hdir hws hpath hin, ws, hws, hin⟩

end Sandbox

def lockedEnv : PathEnv where
  weaklyCanonical p := if p = lit "/w" then .ok (lit "/w") else .error (lit "Permission denied")
  currentPath := .ok (lit "/")
  normalised p q h := by
    split at h
    · cases h
      decide
    · cases h

/- `weakly_canonical` fails on the path, and the `..` of `absolute` pass the prefix test. -/
theorem resolveUnderWorkspace_climbs :
    resolveUnderWorkspace lockedEnv (lit "/w") (lit "locked/../../etc/passwd") true =
        .ok (lit "/w/locked/../../etc/passwd") ∧
      lit ".." ∈ components (lit "/w/locked/../../etc/passwd") := by
  decide +kernel

end AgentCpp.Hal
