import Mathlib.Data.List.Basic

/-!
# Classic BPF

Filters over a read-only record: loads of a word at a fixed offset, conditional jumps on a constant,
forward only, and returns of a constant.
-/

namespace AgentCpp.Lib.Bpf

structure Insn where
  code : UInt16
  jt : UInt8
  jf : UInt8
  k : UInt32
  deriving DecidableEq

def ldWordAbs : UInt16 := 0x00 ||| 0x00 ||| 0x20
def jmpK (op : UInt16) : UInt16 := 0x05 ||| op ||| 0x00
def jeq : UInt16 := 0x10
def jge : UInt16 := 0x30
def retK : UInt16 := 0x06 ||| 0x00

structure State where
  pc : ℕ := 0
  a : UInt32 := 0

inductive Outcome where
  | next (s : State)
  | returned (v : UInt32)
  | fault

def branch (i : Insn) (s : State) (taken : Bool) : Outcome :=
  .next { s with pc := s.pc + 1 + if taken then i.jt.toNat else i.jf.toNat }

/- Leaving the program, a load outside of the data and an unknown instruction are faults. -/
def step (word : ℕ → Option UInt32) (prog : List Insn) (s : State) : Outcome :=
  match prog[s.pc]? with
  | none => .fault
  | some i =>
    if i.code = ldWordAbs then
      match word i.k.toNat with
      | some w => .next ⟨s.pc + 1, w⟩
      | none => .fault
    else if i.code = jmpK jeq then branch i s (s.a = i.k)
    else if i.code = jmpK jge then branch i s (i.k ≤ s.a)
    else if i.code = retK then .returned i.k
    else .fault

def exec (word : ℕ → Option UInt32) (prog : List Insn) : ℕ → State → Option UInt32
  | 0, _ => none
  | fuel + 1, s =>
    match step word prog s with
    | .next s => exec word prog fuel s
    | .returned v => some v
    | .fault => none

section Exec

variable {word : ℕ → Option UInt32} {prog : List Insn} {fuel pc : ℕ} {a w k : UInt32} {jt jf : UInt8}

theorem exec_load (h : prog[pc]? = some ⟨ldWordAbs, jt, jf, k⟩) (hw : word k.toNat = some w) :
    exec word prog (fuel + 1) ⟨pc, a⟩ = exec word prog fuel ⟨pc + 1, w⟩ := by
  simp [exec, step, h, hw]

theorem exec_jeq (h : prog[pc]? = some ⟨jmpK jeq, jt, jf, k⟩) : exec word prog (fuel + 1) ⟨pc, a⟩ =
      exec word prog fuel ⟨pc + 1 + if a = k then jt.toNat else jf.toNat, a⟩ := by
  simp [exec, step, h, branch, show jmpK jeq ≠ ldWordAbs by decide]

theorem exec_jge (h : prog[pc]? = some ⟨jmpK jge, jt, jf, k⟩) : exec word prog (fuel + 1) ⟨pc, a⟩ =
      exec word prog fuel ⟨pc + 1 + if k ≤ a then jt.toNat else jf.toNat, a⟩ := by
  simp [exec, step, h, branch, show jmpK jge ≠ ldWordAbs by decide, show jmpK jge ≠ jmpK jeq by decide]

theorem exec_ret (h : prog[pc]? = some ⟨retK, jt, jf, k⟩) : exec word prog (fuel + 1) ⟨pc, a⟩ = some k := by
  simp [exec, step, h, show retK ≠ ldWordAbs by decide, show retK ≠ jmpK jeq by decide,
    show retK ≠ jmpK jge by decide]

end Exec

end AgentCpp.Lib.Bpf
