import AgentCpp.Lib.Words
import AgentCpp.Lib.Bytes
import AgentCpp.Lib.Machine

/-!
# The arena (`arena.cpp`)

The bump allocator of a turn, in `size_t` arithmetic. Addresses are words and 0 is the null pointer.
-/

namespace AgentCpp
open Lib List UInt64

/- The memory of an arena lies in the address space. -/
structure Arena where
  capacity : UInt64
  ptr : UInt64
  offset : UInt64 := 0
  block : ptr ≠ 0 → ptr.toNat + capacity.toNat ≤ 2 ^ 64
  filled : offset ≤ capacity

namespace Arena

def alignedPtr (a : Arena) (alignment : UInt64) : UInt64 :=
  let mask := alignment - 1
  (a.ptr + a.offset + mask) &&& ~~~mask

def alignedOffset (a : Arena) (alignment : UInt64) : UInt64 := a.alignedPtr alignment - a.ptr

def allocate (a : Arena) (size alignment : UInt64) : Arena × UInt64 :=
  if a.ptr = 0 ∨ size = 0 then (a, 0)
  else if h : a.capacity < a.alignedOffset alignment + size then (a, 0)
  else
    ({ a with offset := a.alignedOffset alignment + size, filled := UInt64.not_lt.1 h }, a.alignedPtr alignment)

/- `alignof(std::max_align_t)` -/
def maxAlign : UInt64 := 16

def allocateString (a : Arena) (src : Bytes) : Arena × UInt64 :=
  if src = [] then (a, 0) else a.allocate (UInt64.ofNat src.length) maxAlign

def allocateSpan (a : Arena) (size alignment count : UInt64) : Arena × UInt64 :=
  if count = 0 then (a, 0) else a.allocate (size * count) alignment

def reset (a : Arena) : Arena := { a with offset := 0, filled := UInt64.zero_le }

end Arena

/- An allocation of `size` bytes that succeeded: it starts behind what is in use and ends where
the arena is now filled up to. -/
structure Granted (a : Arena) (size align : ℕ) (a' : Arena) (addr : UInt64) : Prop where
  valid : addr ≠ 0
  ptr : a'.ptr = a.ptr
  capacity : a'.capacity = a.capacity
  low : a.ptr.toNat + a.offset.toNat ≤ addr.toNat
  high : addr.toNat + size = a'.ptr.toNat + a'.offset.toNat
  aligned : align ∣ addr.toNat

section Allocate

variable {a : Arena} {size alignment : UInt64} {k : ℕ}

/- Rounding up past the end of the address space gives the null pointer. -/
theorem Arena.alignedPtr_cases (hptr : a.ptr ≠ 0) (hk : k < 64) (halign : alignment.toNat = 2 ^ k) :
    a.alignedPtr alignment = 0 ∨
      (a.ptr.toNat + a.offset.toNat ≤ (a.alignedPtr alignment).toNat ∧ 2 ^ k ∣ (a.alignedPtr alignment).toNat) := by
  have hpos := Nat.two_pow_pos k
  have hone : (1 : UInt64) ≤ alignment := by
    rw [UInt64.le_iff_toNat_le, halign]
    exact hpos
  have hmask : (alignment - 1).toNat = 2 ^ k - 1 := by
    rw [UInt64.toNat_sub_of_le _ _ hone, halign]
    rfl
  have hvalue : (a.alignedPtr alignment).toNat = (a.ptr + a.offset + (alignment - 1)).toNat / 2 ^ k * 2 ^ k :=
    toNat_and_not_mask _ _ (Nat.le_of_lt hk) hmask
  rw [UInt64.toNat_add, UInt64.toNat_add, hmask, Nat.mod_add_mod] at hvalue
  have hblock := a.block hptr
  have hfilled := UInt64.le_iff_toNat_le.1 a.filled
  by_cases hfits : a.ptr.toNat + a.offset.toNat + (2 ^ k - 1) < 2 ^ 64
  · right
    rw [Nat.mod_eq_of_lt hfits] at hvalue
    rw [hvalue]
    refine ⟨?_, Nat.dvd_mul_left _ _⟩
    have hdiv := Nat.div_add_mod (a.ptr.toNat + a.offset.toNat + (2 ^ k - 1)) (2 ^ k)
    rw [Nat.mul_comm] at hdiv
    omega
  · left
    have hsmall : (a.ptr.toNat + a.offset.toNat + (2 ^ k - 1)) % 2 ^ 64 < 2 ^ k := by
      rw [Nat.mod_eq_sub_mod (Nat.le_of_not_lt hfits)]
      exact Nat.lt_of_le_of_lt (Nat.mod_le _ _) (by omega)
    rw [Nat.div_eq_of_lt hsmall, Nat.zero_mul] at hvalue
    exact UInt64.toNat_inj.1 hvalue

theorem Arena.alignedPtr_ne_zero (hptr : a.ptr ≠ 0) {n : ℕ} (hn : 0 < n)
    (hroom : (a.alignedOffset alignment).toNat + n ≤ a.capacity.toNat) : a.alignedPtr alignment ≠ 0 := by
  intro hzero
  have hblock := a.block hptr
  have hbase : 0 < a.ptr.toNat := Nat.pos_of_ne_zero fun h => hptr (UInt64.toNat_inj.1 h)
  unfold Arena.alignedOffset at hroom
  rw [hzero, UInt64.toNat_sub, UInt64.toNat_zero] at hroom
  omega

theorem Arena.allocate_spec (hk : k < 64) (halign : alignment.toNat = 2 ^ k)
    (hwrap : (a.alignedOffset alignment).toNat + size.toNat < 2 ^ 64) : a.allocate size alignment = (a, 0) ∨
      Granted a size.toNat (2 ^ k) (a.allocate size alignment).1 (a.allocate size alignment).2 := by
  unfold Arena.allocate
  split
  · exact Or.inl rfl
  · next hnone =>
    obtain ⟨hptr, hsize⟩ := not_or.1 hnone
    split
    · exact Or.inl rfl
    · next hfits =>
      right
      have hsum : (a.alignedOffset alignment + size).toNat = (a.alignedOffset alignment).toNat + size.toNat := by
        rw [UInt64.toNat_add, Nat.mod_eq_of_lt hwrap]
      have hle := UInt64.le_iff_toNat_le.1 (UInt64.not_lt.1 hfits)
      have hpos : 0 < size.toNat := Nat.pos_of_ne_zero fun hzero => hsize (UInt64.toNat_inj.1 hzero)
      rw [hsum] at hle
      have hvalid := Arena.alignedPtr_ne_zero hptr hpos hle
      rcases Arena.alignedPtr_cases hptr hk halign with hzero | ⟨hlow, hdvd⟩
      · exact absurd hzero hvalid
      · have hoff : (a.alignedOffset alignment).toNat = (a.alignedPtr alignment).toNat - a.ptr.toNat := by
          exact UInt64.toNat_sub_of_le _ _ (UInt64.le_iff_toNat_le.2 (by omega))
        refine ⟨hvalid, rfl, rfl, hlow, ?_, hdvd⟩
        change (a.alignedPtr alignment).toNat + size.toNat = a.ptr.toNat + (a.alignedOffset alignment + size).toNat
        omega

theorem Arena.allocate_ne_zero (hptr : a.ptr ≠ 0) (hsize : size ≠ 0)
    (hroom : (a.alignedOffset alignment).toNat + size.toNat ≤ a.capacity.toNat) :
    (a.allocate size alignment).2 ≠ 0 := by
  have hpos : 0 < size.toNat := Nat.pos_of_ne_zero fun hzero => hsize (UInt64.toNat_inj.1 hzero)
  have hcapacity := a.capacity.toNat_lt
  have hfits : ¬ a.capacity < a.alignedOffset alignment + size := by
    rw [UInt64.not_lt, UInt64.le_iff_toNat_le, UInt64.toNat_add, Nat.mod_eq_of_lt (by omega)]
    exact hroom
  unfold Arena.allocate
  rw [if_neg (not_or.2 ⟨hptr, hsize⟩), dif_neg hfits]
  exact Arena.alignedPtr_ne_zero hptr hpos hroom

end Allocate

/- Alignments are powers of two, given by their exponent. `span` has the size and the alignment
of its elements. -/
inductive ArenaCall where
  | allocate (size : UInt64) (alignment : Fin 64)
  | span (size : UInt64) (alignment : Fin 64) (count : UInt64)
  | string (src : Bytes)
  | reset

namespace ArenaCall

def size : ArenaCall → ℕ
  | .allocate size _ => size.toNat
  | .span size _ count => size.toNat * count.toNat
  | .string src => src.length
  | .reset => 0

def logAlign : ArenaCall → ℕ
  | .allocate _ k => k.val
  | .span _ k _ => k.val
  | .string _ => 4
  | .reset => 0

def alignment (call : ArenaCall) : UInt64 := UInt64.ofNat (2 ^ call.logAlign)

def perform (a : Arena) : ArenaCall → Arena × UInt64
  | .allocate size k => a.allocate size (UInt64.ofNat (2 ^ k.val))
  | .span size k count => a.allocateSpan size (UInt64.ofNat (2 ^ k.val)) count
  | .string src => a.allocateString src
  | .reset => (a.reset, 0)

end ArenaCall

structure Block where
  addr : ℕ
  size : ℕ
  align : ℕ
  deriving DecidableEq

/- An arena and what it has handed out since it was last reset. -/
structure Period where
  arena : Arena
  blocks : List Block := []

def Period.step (p : Period) (call : ArenaCall) : Option Period :=
  let r := call.perform p.arena
  match call with
  | .reset => some { arena := r.1 }
  | _ => some {
      arena := r.1
      blocks := if r.2 = 0 then p.blocks else p.blocks ++ [⟨r.2.toNat, call.size, 2 ^ call.logAlign⟩] }

/- The exact sum of the offset and the size is a word. -/
def Period.NoWrap (p : Period) (call : ArenaCall) : Prop :=
  (p.arena.alignedOffset call.alignment).toNat + call.size < 2 ^ 64

instance (p : Period) (call : ArenaCall) : Decidable (p.NoWrap call) :=
  inferInstanceAs (Decidable (_ < _))

structure Period.Ordered (a : Arena) (p : Period) : Prop where
  ptr : p.arena.ptr = a.ptr
  capacity : p.arena.capacity = a.capacity
  aligned : ∀ b ∈ p.blocks, b.align ∣ b.addr
  low : ∀ b ∈ p.blocks, a.ptr.toNat ≤ b.addr
  high : ∀ b ∈ p.blocks, b.addr + b.size ≤ p.arena.ptr.toNat + p.arena.offset.toNat
  apart : p.blocks.Pairwise fun b c => b.addr + b.size ≤ c.addr

theorem logAlign_lt (call : ArenaCall) : call.logAlign < 64 := by
  cases call with
  | allocate size k => exact k.isLt
  | span size k count => exact k.isLt
  | string src => exact (by decide : 4 < 64)
  | reset => exact (by decide : 0 < 64)

theorem toNat_alignment (call : ArenaCall) : call.alignment.toNat = 2 ^ call.logAlign := by
  unfold ArenaCall.alignment
  rw [toNat_ofNat_of_lt']
  exact Nat.pow_lt_pow_right (by decide) (logAlign_lt call)

variable {call : ArenaCall}

theorem perform_eq_allocate (hcall : call ≠ .reset) (hword : call.size < 2 ^ 64) :
    ∃ size : UInt64, size.toNat = call.size ∧ call.perform a = a.allocate size call.alignment := by
  have hnone : ∀ alignment, a.allocate 0 alignment = (a, 0) := fun _ => if_pos (Or.inr rfl)
  cases call with
  | allocate size k => exact ⟨size, rfl, rfl⟩
  | span size k count =>
    have hproduct : (size * count).toNat = size.toNat * count.toNat := by
      exact Nat.mod_eq_of_lt hword
    refine ⟨size * count, hproduct, ?_⟩
    change (if count = 0 then _ else _) = _
    split
    · next hzero => rw [hzero, mul_zero, hnone]
    · rfl
  | string src =>
    refine ⟨UInt64.ofNat src.length, toNat_ofNat_of_lt' hword, ?_⟩
    change (if src = [] then _ else _) = _
    split
    · next hempty =>
      rw [hempty]
      exact (hnone _).symm
    · rfl
  | reset => exact absurd rfl hcall

theorem perform_spec (hcall : call ≠ .reset)
    (hwrap : (a.alignedOffset call.alignment).toNat + call.size < 2 ^ 64) : call.perform a = (a, 0) ∨
      Granted a call.size (2 ^ call.logAlign) (call.perform a).1 (call.perform a).2 := by
  obtain ⟨size, hsize, hperform⟩ := perform_eq_allocate hcall (by omega) (a := a)
  rw [← hsize] at hwrap ⊢
  rw [hperform]
  exact Arena.allocate_spec (logAlign_lt call) (toNat_alignment call) hwrap

theorem perform_ne_zero (hcall : call ≠ .reset) (hsize : call.size ≠ 0)
    (hptr : a.ptr ≠ 0) (hroom : (a.alignedOffset call.alignment).toNat + call.size ≤ a.capacity.toNat) :
    (call.perform a).2 ≠ 0 := by
  have hcapacity := a.capacity.toNat_lt
  obtain ⟨size, hexact, hperform⟩ := perform_eq_allocate hcall (by omega) (a := a)
  rw [← hexact] at hsize hroom
  rw [hperform]
  exact Arena.allocate_ne_zero hptr (fun hzero => hsize (congrArg UInt64.toNat hzero)) hroom

variable {p : Period}

theorem Period.Ordered.grant (h : p.Ordered a) {size align : ℕ} {a' : Arena}
    {addr : UInt64} (hgrant : Granted p.arena size align a' addr) :
    Period.Ordered a { arena := a', blocks := p.blocks ++ [⟨addr.toNat, size, align⟩] } := by
  have hlow := hgrant.low
  have hhigh := hgrant.high
  have hbase := congrArg UInt64.toNat h.ptr
  refine ⟨hgrant.ptr.trans h.ptr, hgrant.capacity.trans h.capacity, ?_, ?_, ?_, ?_⟩
  · intro b hb
    rcases mem_append.1 hb with hb | hb
    · exact h.aligned b hb
    · obtain rfl := mem_singleton.1 hb
      exact hgrant.aligned
  · intro b hb
    rcases mem_append.1 hb with hb | hb
    · exact h.low b hb
    · obtain rfl := mem_singleton.1 hb
      change a.ptr.toNat ≤ addr.toNat
      omega
  · intro b hb
    change b.addr + b.size ≤ a'.ptr.toNat + a'.offset.toNat
    rcases mem_append.1 hb with hb | hb
    · have hbefore := h.high b hb
      omega
    · obtain rfl := mem_singleton.1 hb
      exact Nat.le_of_eq hhigh
  · refine pairwise_append.2 ⟨h.apart, pairwise_singleton _ _, ?_⟩
    intro b hb c hc
    obtain rfl := mem_singleton.1 hc
    exact Nat.le_trans (h.high b hb) hlow

theorem Period.step_ordered (p : Period) (call : ArenaCall) (q : Period) (h : p.Ordered a)
    (hwrap : p.NoWrap call) (hstep : p.step call = some q) : q.Ordered a := by
  by_cases hcall : call = .reset
  · subst hcall
    cases hstep
    exact ⟨h.ptr, h.capacity, fun b hb => absurd hb not_mem_nil, fun b hb => absurd hb not_mem_nil,
      fun b hb => absurd hb not_mem_nil, List.Pairwise.nil⟩
  · have hq : q = {
        arena := (call.perform p.arena).1
        blocks := if (call.perform p.arena).2 = 0 then p.blocks
          else p.blocks ++ [⟨(call.perform p.arena).2.toNat, call.size, 2 ^ call.logAlign⟩] } := by
      cases call with
      | reset => exact absurd rfl hcall
      | allocate size k => exact (Option.some.inj hstep).symm
      | span size k count => exact (Option.some.inj hstep).symm
      | string src => exact (Option.some.inj hstep).symm
    rw [hq]
    rcases perform_spec hcall hwrap with hnone | hgrant
    · rw [hnone]
      exact h
    · rw [if_neg hgrant.valid]
      exact h.grant hgrant

/- All that has been handed out since the last reset is aligned, inside the arena and apart. -/
structure Period.Sound (a : Arena) (p : Period) : Prop where
  inside : ∀ b ∈ p.blocks, b.align ∣ b.addr ∧ a.ptr.toNat ≤ b.addr ∧
    b.addr + b.size ≤ a.ptr.toNat + a.capacity.toNat
  apart : p.blocks.Pairwise fun b c => b.addr + b.size ≤ c.addr ∨ c.addr + c.size ≤ b.addr

theorem Period.Ordered.sound (h : p.Ordered a) : p.Sound a := by
  have hfilled := UInt64.le_iff_toNat_le.1 p.arena.filled
  have hptr := congrArg UInt64.toNat h.ptr
  have hcapacity := congrArg UInt64.toNat h.capacity
  refine ⟨?_, h.apart.imp fun hbefore => Or.inl hbefore⟩
  intro b hb
  have hhigh := h.high b hb
  exact ⟨h.aligned b hb, h.low b hb, by omega⟩

/-- In every arena, along calls in which no sum of an offset and a requested size wraps around, the
results of the current period are aligned, lie in the arena and do not overlap. -/
theorem arena_blocks_apart (a : Arena) (calls : List ArenaCall) (p : Period)
    (hrun : run Period.step { arena := a } calls = some p)
    (hwrap : Meets Period.step Period.NoWrap { arena := a } calls) : p.Sound a := by
  have hstart : Period.Ordered a { arena := a } :=
    ⟨rfl, rfl, fun b hb => absurd hb not_mem_nil, fun b hb => absurd hb not_mem_nil,
      fun b hb => absurd hb not_mem_nil, List.Pairwise.nil⟩
  exact (run_invariant_of_meets Period.step_ordered hrun hwrap hstart).sound

def smallArena : Arena where
  capacity := 64
  ptr := 4096
  block := by decide
  filled := by decide

theorem arena_blocks_apart_small : ∃ p, run Period.step { arena := smallArena }
    [.allocate 5 0, .span 8 3 2, .string (lit "text")] = some p ∧
      p.blocks = [⟨4096, 5, 1⟩, ⟨4104, 16, 8⟩, ⟨4128, 4, 16⟩] ∧ p.Sound smallArena := by
  have hcheck : ∀ p call, decide (Period.NoWrap p call) = true → p.NoWrap call :=
    fun _ _ h => of_decide_eq_true h
  have hwrap := Meets.of_check hcheck
    (by decide : meets Period.step _ { arena := smallArena } [.allocate 5 0, .span 8 3 2, .string (lit "text")] = true)
  exact ⟨_, rfl, by decide, arena_blocks_apart smallArena _ _ rfl hwrap⟩

/- A size of `2 ^ 64 - 16` behind the first 16 bytes wraps around to 0: it is granted, and the
arena starts over under the first block. -/
theorem arena_size_wraps : ∃ p, run Period.step { arena := smallArena }
    [.allocate 16 4, .allocate (0 - 16) 4, .allocate 16 4] = some p ∧
      p.blocks = [⟨4096, 16, 16⟩, ⟨4112, 2 ^ 64 - 16, 16⟩, ⟨4096, 16, 16⟩] ∧ ¬ p.Sound smallArena := by
  refine ⟨_, rfl, by decide, fun hsound => ?_⟩
  have hinside := (hsound.inside ⟨4112, 2 ^ 64 - 16, 16⟩ (by decide)).2.2
  exact absurd hinside (by decide)

end AgentCpp
