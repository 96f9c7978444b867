import AgentCpp.Lib.Bpf

/-!
# The network filter of the sandbox (`hal/sandbox.cpp`)

A seccomp program for x86_64: `socket` of another family than AF_UNIX is refused, io_uring and
foreign ABIs are reported as missing, all other calls pass.
-/

namespace AgentCpp.Hal
open Lib.Bpf

structure SeccompData where
  nr : UInt32
  arch : UInt32
  instructionPointer : UInt64
  args : Vector UInt64 6

def lowHalf (x : UInt64) : UInt32 := x.toUInt32
def highHalf (x : UInt64) : UInt32 := (x >>> 32).toUInt32

/- The word at a byte offset of the record on a little-endian machine. -/
def SeccompData.word (d : SeccompData) (off : ℕ) : Option UInt32 :=
  if off % 4 ≠ 0 then none
  else match off / 4 with
    | 0 => some d.nr
    | 1 => some d.arch
    | 2 => some (lowHalf d.instructionPointer)
    | 3 => some (highHalf d.instructionPointer)
    | n + 4 => d.args[n / 2]?.map fun x => if n % 2 = 0 then lowHalf x else highHalf x

def nrOffset : UInt32 := 0
def archOffset : UInt32 := 4
def argsOffset : UInt32 := 16
def kNativeArch : UInt32 := 0xC000003E
def kX32 : UInt32 := 0x40000000
def nrSocket : UInt32 := 41
def nrIoUring : List UInt32 := [425, 426, 427]
def afUnix : UInt32 := 1
def eacces : UInt32 := 13
def enosys : UInt32 := 38
def retAllow : UInt32 := 0x7FFF0000
def retErrno (e : UInt32) : UInt32 := 0x00050000 ||| (e &&& 0x0000FFFF)

def stmt (p : List Insn) (code : UInt16) (k : UInt32) : List Insn := p ++ [⟨code, 0, 0, k⟩]
def jump (p : List Insn) (op : UInt16) (k : UInt32) : List Insn := stmt p (jmpK op) k

/- A jump to a label: its instruction, and whether it is the `jf` branch. -/
abbrev Fixup := ℕ × Bool

def patch (p : List Insn) (list : List Fixup) (label : ℕ) : List Insn :=
  list.foldl (fun p f =>
    let off := UInt8.ofNat (label - f.1 - 1)
    p.modify f.1 fun i => if f.2 then { i with jf := off } else { i with jt := off }) p

def jumpAll (op : UInt16) : List Insn × List Fixup → List UInt32 → List Insn × List Fixup :=
  List.foldl fun acc k => (jump acc.1 op k, acc.2 ++ [(acc.1.length, false)])

def networkDenyFilter : List Insn :=
  let p := stmt [] ldWordAbs archOffset
  let toEnosys : List Fixup := [(p.length, true)]
  let p := stmt (jump p jeq kNativeArch) ldWordAbs nrOffset
  let toEnosys := toEnosys ++ [(p.length, false)]
  let p := jump p jge kX32
  let toSocket : List Fixup := [(p.length, false)]
  let p := jump p jeq nrSocket
  let (p, toEnosys) := jumpAll jeq (p, toEnosys) nrIoUring
  let p := stmt p retK retAllow
  let socketLabel := p.length
  let p := stmt p ldWordAbs argsOffset ++ [⟨jmpK jeq, 1, 0, afUnix⟩]
  let p := stmt (stmt p retK (retErrno eacces)) retK retAllow
  let enosysLabel := p.length
  let p := stmt p retK (retErrno enosys)
  patch (patch p toEnosys enosysLabel) toSocket socketLabel

def verdict (d : SeccompData) : UInt32 :=
  if d.arch ≠ kNativeArch ∨ kX32 ≤ d.nr then retErrno enosys
  else if d.nr = nrSocket then if lowHalf d.args[0] = afUnix then retAllow else retErrno eacces
  else if d.nr ∈ nrIoUring then retErrno enosys
  else retAllow

theorem networkDenyFilter_eq : networkDenyFilter =
    [⟨ldWordAbs, 0, 0, archOffset⟩, ⟨jmpK jeq, 0, 11, kNativeArch⟩, ⟨ldWordAbs, 0, 0, nrOffset⟩,
      ⟨jmpK jge, 9, 0, kX32⟩, ⟨jmpK jeq, 4, 0, nrSocket⟩, ⟨jmpK jeq, 7, 0, 425⟩, ⟨jmpK jeq, 6, 0, 426⟩,
      ⟨jmpK jeq, 5, 0, 427⟩, ⟨retK, 0, 0, retAllow⟩, ⟨ldWordAbs, 0, 0, argsOffset⟩, ⟨jmpK jeq, 1, 0, afUnix⟩,
      ⟨retK, 0, 0, retErrno eacces⟩, ⟨retK, 0, 0, retAllow⟩, ⟨retK, 0, 0, retErrno enosys⟩] := by
  decide +kernel

section Filter

variable (d : SeccompData) {fuel : ℕ} {a : UInt32}

theorem exec_enosys : exec d.word networkDenyFilter (fuel + 1) ⟨13, a⟩ = some (retErrno enosys) :=
  exec_ret (by rw [networkDenyFilter_eq]; rfl)

theorem exec_socket : exec d.word networkDenyFilter (fuel + 3) ⟨9, a⟩ =
    some (if lowHalf d.args[0] = afUnix then retAllow else retErrno eacces) := by
  rw [exec_load (by rw [networkDenyFilter_eq]; rfl) (w := lowHalf d.args[0]) rfl,
    exec_jeq (by rw [networkDenyFilter_eq]; rfl)]
  split
  · exact exec_ret (by rw [networkDenyFilter_eq]; rfl)
  · exact exec_ret (by rw [networkDenyFilter_eq]; rfl)

theorem exec_number (harch : d.arch = kNativeArch) :
    exec d.word networkDenyFilter (fuel + 10) ⟨2, a⟩ = some (verdict d) := by
  unfold verdict
  rw [exec_load (by rw [networkDenyFilter_eq]; rfl) (w := d.nr) rfl, exec_jge (by rw [networkDenyFilter_eq]; rfl)]
  by_cases hx32 : kX32 ≤ d.nr
  · rw [if_pos hx32, if_pos (.inr hx32)]
    exact exec_enosys d
  rw [if_neg hx32, if_neg (not_or.2 ⟨not_not.2 harch, hx32⟩), exec_jeq (by rw [networkDenyFilter_eq]; rfl)]
  by_cases hsocket : d.nr = nrSocket
  · rw [if_pos hsocket, if_pos hsocket]
    exact exec_socket d
  rw [if_neg hsocket, if_neg hsocket, exec_jeq (by rw [networkDenyFilter_eq]; rfl)]
  simp only [nrIoUring, List.mem_cons, List.not_mem_nil, or_false]
  by_cases hsetup : d.nr = 425
  · rw [if_pos hsetup, if_pos (.inl hsetup)]
    exact exec_enosys d
  rw [if_neg hsetup, exec_jeq (by rw [networkDenyFilter_eq]; rfl)]
  by_cases henter : d.nr = 426
  · rw [if_pos henter, if_pos (.inr (.inl henter))]
    exact exec_enosys d
  rw [if_neg henter, exec_jeq (by rw [networkDenyFilter_eq]; rfl)]
  by_cases hregister : d.nr = 427
  · rw [if_pos hregister, if_pos (.inr (.inr hregister))]
    exact exec_enosys d
  rw [if_neg hregister, if_neg (by simp [hsetup, henter, hregister])]
  exact exec_ret (by rw [networkDenyFilter_eq]; rfl)

theorem exec_networkDenyFilter : exec d.word networkDenyFilter networkDenyFilter.length {} = some (verdict d) := by
  have hlength : networkDenyFilter.length = 14 := by rw [networkDenyFilter_eq]; rfl
  rw [hlength, exec_load (by rw [networkDenyFilter_eq]; rfl) (w := d.arch) rfl,
    exec_jeq (by rw [networkDenyFilter_eq]; rfl)]
  by_cases harch : d.arch = kNativeArch
  · rw [if_pos harch]
    exact exec_number d harch
  · rw [if_neg harch, verdict, if_pos (.inl harch)]
    exact exec_enosys d

/-- Within as many steps as it has instructions the filter returns EACCES for a socket that is not AF_UNIX, ENOSYS for a
foreign ABI and for io_uring, and ALLOW otherwise. -/
theorem networkDenyFilter_correct (d : SeccompData) :
    ∃ v, exec d.word networkDenyFilter networkDenyFilter.length {} = some v ∧
      (v = retErrno eacces ↔ d.arch = kNativeArch ∧ d.nr = nrSocket ∧ lowHalf d.args[0] ≠ afUnix) ∧
      (v = retErrno enosys ↔ d.arch ≠ kNativeArch ∨ kX32 ≤ d.nr ∨ d.nr ∈ nrIoUring) ∧
      (v = retAllow ↔ ¬(d.arch = kNativeArch ∧ d.nr = nrSocket ∧ lowHalf d.args[0] ≠ afUnix) ∧
        ¬(d.arch ≠ kNativeArch ∨ kX32 ≤ d.nr ∨ d.nr ∈ nrIoUring)) := by
  refine ⟨verdict d, exec_networkDenyFilter d, ?_⟩
  have hcodes : retErrno eacces ≠ retErrno enosys ∧ retErrno eacces ≠ retAllow ∧ retErrno enosys ≠ retAllow := by decide
  have hsocket : nrSocket ∉ nrIoUring ∧ ¬kX32 ≤ nrSocket := by decide
  unfold verdict
  grind

end Filter

end AgentCpp.Hal
