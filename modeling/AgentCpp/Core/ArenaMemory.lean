import AgentCpp.Core.Arena
import AgentCpp.Lib.Memory

/-!
# Filling an arena

Programs that allocate from an arena and write to its memory, and what they do when the arena
suffices.
-/

namespace AgentCpp
open Lib List

instance neZeroAlignments : NeZero 64 := ⟨by decide⟩

/- `std::string_view` and `std::span`: an address and a number of elements. -/
structure MemView where
  addr : UInt64 := 0
  size : ℕ := 0
  deriving DecidableEq

/- An allocation, with the arena that it found. -/
structure Asked where
  call : ArenaCall
  arena : Arena

structure Filling where
  arena : Arena
  mem : Memory

/- Programs that allocate. The list of their allocations is not in the source. -/
def Fill (α : Type) : Type := Filling → List Asked × α × Filling

instance : Monad Fill where
  pure a := fun s => ([], a, s)
  bind m f := fun s => ((m s).1 ++ (f (m s).2.1 (m s).2.2).1, (f (m s).2.1 (m s).2.2).2)

namespace Fill

def ask (call : ArenaCall) : Fill UInt64 := fun s =>
  let r := call.perform s.arena
  ([⟨call, s.arena⟩], r.2, { s with arena := r.1 })

/- `memcpy` -/
def write (addr : UInt64) (bytes : Bytes) : Fill Unit := fun s =>
  ([], (), { s with mem := store s.mem addr.toNat bytes })

def allocate (size : UInt64) (alignment : Fin 64) : Fill UInt64 := ask (.allocate size alignment)

def allocateSpan (size : UInt64) (alignment : Fin 64) (count : ℕ) : Fill MemView := do
  let addr ← ask (.span size alignment (UInt64.ofNat count))
  return if addr = 0 then {} else ⟨addr, count⟩

end Fill

def Filling.level (s : Filling) : ℕ := s.arena.ptr.toNat + s.arena.offset.toNat

theorem Filling.level_le (s : Filling) : s.level ≤ 2 ^ 64 := by
  unfold Filling.level
  have hfilled := UInt64.le_iff_toNat_le.1 s.arena.filled
  by_cases hptr : s.arena.ptr = 0
  · rw [hptr, UInt64.toNat_zero]
    have hoffset := s.arena.offset.toNat_lt
    omega
  · have hblock := s.arena.block hptr
    omega

/- The arena has memory for this allocation, behind all it has handed out. -/
def Asked.Suffices (e : Asked) : Prop :=
  e.call.size = 0 ∨ e.arena.ptr ≠ 0 ∧
    (e.arena.alignedOffset e.call.alignment).toNat + e.call.size ≤ e.arena.capacity.toNat

instance (e : Asked) : Decidable e.Suffices := inferInstanceAs (Decidable (_ ∨ _ ∧ _))

section Rules

variable {α β : Type} {s : Filling} {m : Fill α} {f : α → Fill β} {P Q : α → Filling → Prop} {Q' : β → Filling → Prop}

/- When the arena suffices for every allocation of the program. -/
def Post (s : Filling) (m : Fill α) (Q : α → Filling → Prop) : Prop :=
  (∀ e ∈ (m s).1, e.Suffices) → Q (m s).2.1 (m s).2.2

theorem post_pure {a : α} (h : Q a s) : Post s (pure a) Q := fun _ => h

theorem post_write (addr : UInt64) (bytes : Bytes) :
    Post s (Fill.write addr bytes) fun _ t => t = (Fill.write addr bytes s).2.2 := fun _ => rfl

theorem post_bind (hm : Post s m P) (hf : ∀ a t, P a t → Post t (f a) Q') : Post s (m >>= f) Q' := by
  intro hok
  have hfirst : P (m s).2.1 (m s).2.2 := hm fun e he => hok e (mem_append_left _ he)
  exact hf _ _ hfirst fun e he => hok e (mem_append_right _ he)

theorem Post.mono (h : Post s m P) (himp : ∀ a t, P a t → Q a t) : Post s m Q := fun hok => himp _ _ (h hok)

end Rules

section Specs

variable {s : Filling}

theorem ask_suffices {call : ArenaCall} (hcall : call ≠ .reset) :
    Post s (Fill.ask call) fun addr s' => s'.mem = s.mem ∧
      (call.size ≠ 0 → addr ≠ 0 ∧ addr.toNat + call.size ≤ s'.level) := by
  intro hok
  refine ⟨rfl, fun hsize => ?_⟩
  obtain ⟨hptr, hroom⟩ := (hok ⟨call, s.arena⟩ (mem_singleton.2 rfl)).resolve_left hsize
  have hcapacity := s.arena.capacity.toNat_lt
  have hvalid : (call.perform s.arena).2 ≠ 0 := perform_ne_zero hcall hsize hptr hroom
  refine ⟨hvalid, ?_⟩
  rcases perform_spec hcall (lt_of_le_of_lt hroom hcapacity) with hnone | hgrant
  · rw [hnone] at hvalid
    exact absurd rfl hvalid
  · exact le_of_eq hgrant.high

theorem allocateSpan_suffices {size : UInt64} (hsize : size ≠ 0) (alignment : Fin 64) {count : ℕ}
    (hcount : count < 2 ^ 64) : Post s (Fill.allocateSpan size alignment count) fun v s' =>
      s'.mem = s.mem ∧ v.size = count := by
  have hcall : ArenaCall.span size alignment (UInt64.ofNat count) ≠ .reset := nofun
  refine post_bind (ask_suffices hcall) fun addr t ht => post_pure ⟨ht.1, ?_⟩
  by_cases hzero : count = 0
  · rw [hzero]
    split <;> rfl
  · have hexact : (ArenaCall.span size alignment (UInt64.ofNat count)).size ≠ 0 := by
      change size.toNat * (UInt64.ofNat count).toNat ≠ 0
      rw [UInt64.toNat_ofNat_of_lt' hcount]
      exact Nat.mul_ne_zero (fun h => hsize (UInt64.toNat_inj.1 h)) hzero
    rw [if_neg (ht.2 hexact).1]

end Specs

end AgentCpp
