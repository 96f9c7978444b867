import AgentCpp.Core.Arena
import AgentCpp.Engines.IpcRoundTrip
import AgentCpp.Engines.IpcSafety

/-!
# The arena of a decoder

Each array is charged to the bytes of the frame that its elements take: four bytes of the
arena for each of them.
-/

namespace AgentCpp.Ipc
open Lib Reader

def Arena.ofWords (a : AgentCpp.Arena) : Arena where
  base := a.ptr.toNat
  capacity := if a.ptr = 0 then 0 else a.capacity.toNat
  offset := a.offset.toNat

theorem toNat_alignedOffset {a : AgentCpp.Arena} (hptr : a.ptr ≠ 0) :
    (a.alignedOffset 8).toNat = (a.ptr.toNat + a.offset.toNat + (8 - 1)) / 8 * 8 - a.ptr.toNat := by
  have hblock := a.block hptr
  have hfilled := UInt64.le_iff_toNat_le.1 a.filled
  have hpos : 0 < a.ptr.toNat := Nat.pos_of_ne_zero fun hzero => hptr (UInt64.toNat_inj.1 hzero)
  have hvalue : (a.alignedPtr 8).toNat = (a.ptr + a.offset + (8 - 1)).toNat / 2 ^ 3 * 2 ^ 3 :=
    toNat_and_not_mask _ _ (by decide) rfl
  have hmask : (8 - 1 : UInt64).toNat = 7 := rfl
  rw [UInt64.toNat_add, UInt64.toNat_add] at hvalue
  unfold AgentCpp.Arena.alignedOffset
  rw [UInt64.toNat_sub]
  omega

/-- As long as the sum is a word, `Arena::allocate` computes with exact numbers. -/
theorem allocate_ofWords (a : AgentCpp.Arena) (size : UInt64)
    (hwrap : (a.alignedOffset 8).toNat + size.toNat < 2 ^ 64) : (Arena.ofWords a).allocate size.toNat 8 =
      if (a.allocate size 8).2 = 0 then none
      else some ((a.alignedOffset 8).toNat, Arena.ofWords (a.allocate size 8).1) := by
  unfold Arena.allocate AgentCpp.Arena.allocate
  by_cases hnone : a.ptr = 0 ∨ size = 0
  · have hexact : (Arena.ofWords a).capacity = 0 ∨ size.toNat = 0 :=
      hnone.imp (fun hptr => if_pos hptr) (congrArg UInt64.toNat)
    rw [if_pos hexact, if_pos hnone]
    rfl
  · obtain ⟨hptr, hsize⟩ := not_or.1 hnone
    have hoffset : ((Arena.ofWords a).base + (Arena.ofWords a).offset + (8 - 1)) / 8 * 8 - (Arena.ofWords a).base =
        (a.alignedOffset 8).toNat := (toNat_alignedOffset hptr).symm
    have hcapacity : (Arena.ofWords a).capacity = a.capacity.toNat := if_neg hptr
    have hsum : (a.alignedOffset 8 + size).toNat = (a.alignedOffset 8).toNat + size.toNat := by
      rw [UInt64.toNat_add, Nat.mod_eq_of_lt hwrap]
    have hpos : 0 < size.toNat := Nat.pos_of_ne_zero fun h => hsize (UInt64.toNat_inj.1 h)
    rw [if_neg hnone]
    simp only [hcapacity, hoffset]
    by_cases hfull : a.capacity < a.alignedOffset 8 + size
    · have hfull' := UInt64.lt_iff_toNat_lt.1 hfull
      rw [hsum] at hfull'
      rw [dif_pos hfull, if_pos rfl, if_pos hfull', ite_self]
    · have hfits := UInt64.le_iff_toNat_le.1 (UInt64.not_lt.1 hfull)
      rw [hsum] at hfits
      have hvalid := AgentCpp.Arena.alignedPtr_ne_zero hptr hpos hfits
      rw [dif_neg hfull, if_neg hvalid, if_neg (by omega), if_neg (by omega)]
      unfold Arena.ofWords
      rw [if_neg hptr, ← hsum]

theorem allocate_ofWords_small : (Arena.ofWords smallArena).allocate 5 8 =
    some (0, Arena.ofWords (smallArena.allocate 5 8).1) :=
  allocate_ofWords smallArena 5 (by decide)

def Arena.top (a : Arena) : ℕ := (a.base + a.offset + 7) / 8 * 8 - a.base

theorem Arena.offset_le_top (a : Arena) : a.offset ≤ a.top := by
  unfold Arena.top
  omega

theorem Arena.top_le (a : Arena) : a.top ≤ a.offset + 7 := by
  unfold Arena.top
  omega

theorem Arena.allocate_some {a a' : Arena} {size off : ℕ} (hsize : 8 ∣ size)
    (h : a.allocate size 8 = some (off, a')) :
    size ≠ 0 ∧ off = a.top ∧ a' = { a with offset := a.top + size } ∧ a'.top = a.top + size := by
  unfold Arena.allocate at h
  split at h
  · cases h
  · next hnone =>
    rw [not_or] at hnone
    simp only at h
    split at h
    · cases h
    · cases h
      refine ⟨hnone.2, rfl, rfl, ?_⟩
      unfold Arena.top
      simp only [Nat.add_one_sub_one]
      omega

theorem Arena.allocate_other {a b : Arena} {size : ℕ} (hsize : size ≠ 0) (hbase : b.base % 8 = a.base % 8)
    (hoffset : b.offset = a.offset) (hroom : a.top + size ≤ b.capacity) :
    b.allocate size 8 = some (a.top, { b with offset := a.top + size }) := by
  have htop : (b.base + b.offset + (8 - 1)) / 8 * 8 - b.base = a.top := by
    unfold Arena.top
    omega
  unfold Arena.allocate
  simp only [htop]
  rw [if_neg (by omega), if_neg (by omega)]

def Reader.within (r : Reader) (a : Arena) : Reader := { r with arena := { a with offset := r.arena.offset } }

/- What was read paid for the growth of the arena, with `c` left over. -/
structure Spent (c : ℕ) (r r' : Reader) : Prop where
  ok : r.ok = true
  base : r'.arena.base = r.arena.base
  offset : r.arena.offset ≤ r'.arena.offset
  top : r'.arena.top + c + 4 * r.pos ≤ r.arena.top + 4 * r'.pos

/- When the read succeeds, it has paid for what it allocated, and it runs the same in every arena
large enough. -/
def Fits {α : Type} (c : ℕ) (Q : α → Prop) (r : Reader) (m : Read α) : Prop :=
  (m r).2.ok = true → Q (m r).1 ∧ Spent c r (m r).2 ∧
    ∀ a : Arena, a.base % 8 = r.arena.base % 8 → (m r).2.arena.offset ≤ a.capacity →
      m (r.within a) = ((m r).1, (m r).2.within a)

section Rules

variable {α β : Type} {c d : ℕ} {Q : α → Prop} {Q' : β → Prop} {r : Reader} {m : Read α}

theorem fits_pure {a : α} (h : Q a) : Fits 0 Q r (pure a) := by
  intro hok
  exact ⟨h, ⟨hok, rfl, le_refl _, le_refl _⟩, fun _ _ _ => rfl⟩

theorem fits_bind {e : ℕ} {f : α → Read β} (hm : Fits c Q r m)
    (hf : ∀ a t, (t.ok = true → Q a) → Fits (e - c) Q' t (f a)) : Fits e Q' r (m >>= f) := by
  intro hok
  obtain ⟨hQ', hspent', hsame'⟩ := hf _ (m r).2 (fun hfirst => (hm hfirst).1) hok
  obtain ⟨-, hspent, hsame⟩ := hm hspent'.ok
  have htop := hspent.top
  have htop' := hspent'.top
  refine ⟨hQ', ⟨hspent.ok, hspent'.base.trans hspent.base, hspent.offset.trans hspent'.offset, ?_⟩, fun a hbase hcap => ?_⟩
  · change (f (m r).1 (m r).2).2.arena.top + e + 4 * r.pos ≤ r.arena.top + 4 * (f (m r).1 (m r).2).2.pos
    omega
  · have hfits : (m r).2.arena.offset ≤ a.capacity := hspent'.offset.trans hcap
    rw [bind_run (hsame a hbase hfits)]
    exact hsame' a (by rw [hspent.base]; exact hbase) hcap

theorem fits_get {g : Reader → Read α} (hsame : (g r r).2.ok = true → ∀ a, g (r.within a) = g r)
    (h : Fits c Q r (g r)) : Fits c Q r (get >>= g) := by
  intro hok
  obtain ⟨hQ, hspent, hrun⟩ := h hok
  refine ⟨hQ, hspent, fun a hbase hcap => ?_⟩
  change g (r.within a) (r.within a) = _
  rw [hsame hok]
  exact hrun a hbase hcap

abbrev FitsSome (c : ℕ) (r : Reader) (m : Read (Option α)) : Prop := Fits c (fun o => o.isSome = true) r m

theorem fitsSome_bind {e : ℕ} {m : Read (Option α)} {f : Option α → Read β} {b : β} (hm : FitsSome c r m)
    (hnone : f none = pure b) (hf : ∀ a t, Fits (e - c) Q' t (f (some a))) : Fits e Q' r (m >>= f) := by
  refine fits_bind hm fun o t ho => ?_
  cases o with
  | none =>
    rw [hnone]
    exact fun hok => nomatch ho hok
  | some a => exact hf a t

theorem fits_checked {a : α} : FitsSome 0 r (get >>= fun t => pure (if t.ok = true then some a else none)) := by
  refine fits_get (fun _ _ => rfl) fun hok => ?_
  change r.ok = true at hok
  have hsome : FitsSome 0 r (pure (some a)) := fits_pure rfl
  rw [if_pos hok]
  exact hsome hok

end Rules

namespace Reader

variable {α : Type} {r : Reader}

theorem take_fits (n : ℕ) : Fits (4 * n) (fun taken => taken = true) r (take n) := by
  unfold Fits take
  split
  · exact nofun
  · next hroom =>
    rw [not_or, Bool.not_eq_false] at hroom
    intro _
    refine ⟨rfl, ⟨hroom.1, rfl, le_refl _, ?_⟩, fun a _ _ => ?_⟩
    · change r.arena.top + 4 * n + 4 * r.pos ≤ r.arena.top + 4 * (r.pos + n)
      omega
    · refine if_neg ?_
      rw [not_or, Bool.not_eq_false]
      exact hroom

theorem raw_fits (n : ℕ) : Fits (4 * n) (fun _ => True) r (raw n) := by
  refine fits_bind (take_fits n) fun taken t _ => ?_
  rw [Nat.sub_self]
  split
  · exact fits_get (fun _ _ => rfl) (fits_pure trivial)
  · exact fits_pure trivial

theorem scalar_fits (width : ℕ) : Fits (4 * width) (fun _ => True) r (scalar width) := by
  refine fits_bind (raw_fits width) fun read t _ => ?_
  rw [Nat.sub_self]
  cases read with
  | none => exact fits_pure trivial
  | some bytes => exact fits_pure trivial

theorem u32_fits : Fits 16 (fun _ => True) r u32 :=
  fits_bind (scalar_fits 4) fun _ _ _ => fits_pure trivial

theorem i32_fits : Fits 16 (fun _ => True) r i32 :=
  fits_bind (scalar_fits 4) fun _ _ _ => fits_pure trivial

theorem u64_fits : Fits 32 (fun _ => True) r u64 :=
  fits_bind (scalar_fits 8) fun _ _ _ => fits_pure trivial

theorem str_fits : Fits 16 (fun _ => True) r str := by
  refine fits_bind u32_fits fun n t _ => fits_bind (take_fits n.toNat) fun taken t' _ => ?_
  rw [Nat.zero_sub]
  split
  · exact fits_get (fun _ _ => rfl) (fits_pure trivial)
  · exact fits_pure trivial

theorem bytes_fits (n : ℕ) : Fits 0 (fun _ => True) r (bytes n) := by
  by_cases hroom : r.remaining < n
  · intro hok
    change ((if r.remaining < n then _ else _ : Read ℕ) r).2.ok = true at hok
    rw [if_pos hroom] at hok
    cases hok
  · refine fits_get (fun _ a => (if_neg hroom).trans (if_neg hroom).symm) ?_
    rw [if_neg hroom]
    refine fits_bind (take_fits n) fun taken t _ => fits_get (fun _ _ => rfl) ?_
    rw [Nat.zero_sub]
    exact fits_pure trivial

theorem repeated_fits {c : ℕ} {read : Read (Option α)} (hread : ∀ r, FitsSome c r read)
    (count : ℕ) : FitsSome (c * count) r (repeated read count) := by
  induction count generalizing r with
  | zero => exact fits_pure rfl
  | succ count ih =>
    refine fitsSome_bind (hread r) rfl fun a t => ?_
    rw [Nat.mul_succ, Nat.add_sub_cancel]
    refine fitsSome_bind ih rfl fun as t' => ?_
    rw [Nat.sub_self]
    exact fits_pure rfl

def placed (r : Reader) (item : Item) (count : ℕ) : Reader := { r with
  allocations := r.allocations ++ [⟨item, count, r.remaining⟩]
  arena := { r.arena with offset := r.arena.top + item.size * count } }

theorem allocateSpan_cases (item : Item) (hitem : 8 ∣ item.size) (count : ℕ) :
    (∃ t, allocateSpan item count r = (none, t)) ∨
      (item.size * count ≠ 0 ∧ (r.placed item count).arena.top = r.arena.top + item.size * count ∧
        allocateSpan item count r = (some r.arena.top, r.placed item count)) := by
  unfold allocateSpan
  simp only
  cases halloc : r.arena.allocate (item.size * count) 8 with
  | none => exact Or.inl ⟨_, rfl⟩
  | some memory =>
    obtain ⟨off, arena⟩ := memory
    obtain ⟨hsize, rfl, rfl, htop⟩ := Arena.allocate_some (Dvd.dvd.mul_right hitem count) halloc
    exact Or.inr ⟨hsize, htop, rfl⟩

theorem allocateSpan_within {item : Item} {count : ℕ} {a : Arena} (hsize : item.size * count ≠ 0)
    (hbase : a.base % 8 = r.arena.base % 8) (hroom : r.arena.top + item.size * count ≤ a.capacity) :
    allocateSpan item count (r.within a) = (some r.arena.top, (r.placed item count).within a) := by
  have halloc := Arena.allocate_other (b := (r.within a).arena) hsize hbase rfl hroom
  unfold allocateSpan
  simp only [halloc]
  rfl

theorem spent_of_placed {item : Item} {count : ℕ} {r' : Reader}
    (htop : (r.placed item count).arena.top = r.arena.top + item.size * count)
    (h : Spent (item.size * count) (r.placed item count) r') : Spent 0 r r' := by
  have hpaid := h.top
  change _ + 4 * r.pos ≤ _ at hpaid
  exact ⟨h.ok, h.base, r.arena.offset_le_top.trans ((Nat.le_add_right _ _).trans h.offset), by omega⟩

theorem items_fits {item : Item} {read : Read (Option α)}
    (hread : ∀ r, FitsSome item.size r read) (count off : ℕ) :
    FitsSome (item.size * count) (r.placed item count)
      (repeated read count >>= fun o => match o with
        | none => pure none
        | some items => pure (some (some (Placed.mk off items)))) := by
  refine fitsSome_bind (repeated_fits hread count) rfl fun items t => ?_
  rw [Nat.sub_self]
  exact fits_pure rfl

theorem array_fits (item : Item) {read : Read (Option α)} (hitem : 8 ∣ item.size)
    (hread : ∀ r, FitsSome item.size r read) (count : ℕ) :
    FitsSome 0 r (array item read count) := by
  refine fits_get (fun _ _ => rfl) ?_
  split
  · exact nofun
  · split
    · exact fits_pure rfl
    · intro hok
      rcases allocateSpan_cases item hitem count with ⟨t, hnone⟩ | ⟨hsize, htop, hsome⟩
      · rw [bind_run hnone] at hok
        cases hok
      · rw [bind_run hsome] at hok ⊢
        obtain ⟨hanswer, hspent, hsame⟩ := items_fits hread count r.arena.top hok
        refine ⟨hanswer, spent_of_placed htop hspent, fun a hbase hcap => ?_⟩
        have hroom : r.arena.top + item.size * count ≤ a.capacity := hspent.offset.trans hcap
        rw [bind_run (allocateSpan_within hsize hbase hroom)]
        exact hsame a hbase hcap

theorem dim_fits : FitsSome Item.dim.size r dim :=
  fits_bind (scalar_fits 8) fun _ _ _ => fits_pure rfl

theorem data_fits : FitsSome 48 r data := by
  refine fits_bind u64_fits fun size t _ => fits_bind u32_fits fun loc t' _ => ?_
  split
  · exact fits_bind (bytes_fits size.toNat) fun off t'' _ => fits_checked
  · split
    · refine fits_bind u64_fits fun off t'' _ => fits_get (fun _ _ => rfl) ?_
      split
      · exact nofun
      · split
        · exact nofun
        · exact fits_pure rfl
    · exact nofun

theorem part_fits : FitsSome Item.part.size r part := by
  refine fits_bind u32_fits fun kind _ _ => ?_
  refine fits_bind str_fits fun text _ _ => ?_
  refine fits_bind str_fits fun path _ _ => ?_
  refine fits_bind str_fits fun mime _ _ => ?_
  refine fits_bind str_fits fun name _ _ => ?_
  refine fits_bind u32_fits fun dtype _ _ => ?_
  refine fits_bind u32_fits fun ndim _ _ => ?_
  refine fitsSome_bind (array_fits .dim (by decide) (fun _ => dim_fits) ndim.toNat) rfl fun shape _ => ?_
  exact fitsSome_bind data_fits rfl fun data _ => fits_pure rfl

theorem call_fits : FitsSome Item.call.size r call := by
  refine fits_bind str_fits fun id _ _ => ?_
  refine fits_bind str_fits fun name _ _ => ?_
  exact fits_bind str_fits fun arguments _ _ => fits_pure rfl

theorem message_fits : FitsSome Item.message.size r message := by
  refine fits_bind str_fits fun role _ _ => ?_
  refine fits_bind u32_fits fun nParts _ _ => ?_
  refine fitsSome_bind (array_fits .part (by decide) (fun _ => part_fits) nParts.toNat) rfl fun parts _ => ?_
  refine fits_bind u32_fits fun nCalls _ _ => ?_
  refine fitsSome_bind (array_fits .call (by decide) (fun _ => call_fits) nCalls.toNat) rfl fun toolCalls _ => ?_
  exact fits_bind str_fits fun toolCallId _ _ => fits_checked

theorem request_fits : FitsSome 0 r request := by
  refine fits_bind u32_fits fun task _ _ => ?_
  refine fits_bind u32_fits fun flags _ _ => ?_
  refine fits_bind u32_fits fun runFlags _ _ => ?_
  refine fits_bind u32_fits fun n _ _ => ?_
  refine fitsSome_bind (array_fits .message (by decide) (fun _ => message_fits) n.toNat) rfl fun messages _ => ?_
  refine fits_bind str_fits fun toolsJson _ _ => ?_
  refine fits_bind str_fits fun paramsJson _ _ => ?_
  exact fits_bind str_fits fun outputDir _ _ => fits_checked

theorem response_fits : FitsSome 0 r response := by
  refine fitsSome_bind message_fits rfl fun message _ => ?_
  refine fits_bind i32_fits fun promptTokens _ _ => ?_
  exact fits_bind i32_fits fun completionTokens _ _ => fits_checked

/- An answer is given only by a reader that has not failed. -/
def Checked (m : Read (Option α)) : Prop := ∀ r a, (m r).1 = some a → (m r).2.ok = true

theorem checked_none : Checked (pure none : Read (Option α)) := nofun

theorem checked_last {a : α} : Checked (get >>= fun t => pure (if t.ok = true then some a else none)) := by
  intro r b h
  change (if r.ok = true then some a else none) = some b at h
  split at h
  · next hok => exact hok
  · cases h

theorem checked_bind {β : Type} {m : Read β} {f : β → Read (Option α)} (hf : ∀ b, Checked (f b)) :
    Checked (m >>= f) := fun r a h => hf (m r).1 (m r).2 a h

theorem request_checked : Checked request := by
  refine checked_bind fun task => checked_bind fun flags => checked_bind fun runFlags => ?_
  refine checked_bind fun n => checked_bind fun o => ?_
  cases o with
  | none => exact checked_none
  | some messages =>
    exact checked_bind fun toolsJson => checked_bind fun paramsJson => checked_bind fun outputDir => checked_last

theorem response_checked : Checked response := by
  refine checked_bind fun o => ?_
  cases o with
  | none => exact checked_none
  | some message => exact checked_bind fun promptTokens => checked_bind fun completionTokens => checked_last

theorem rerun {Q : Option α → Prop} {P : Option α → Reader → Prop} {m : Read (Option α)} (hfits : Fits 0 Q r m)
    (hchecked : Checked m) (hsafe : Ensures (Bounded r.payload r.shm r.arena.capacity) Went r m P)
    (hbounded : Bounded r.payload r.shm r.arena.capacity r) (hfresh : r.arena.offset = 0) {a : Arena}
    (hfresh' : a.offset = 0) (hbase : a.base % 8 = r.arena.base % 8)
    (hbound : decodeArenaBound r.payload.length ≤ a.capacity) {x : α} (haccept : (m r).1 = some x) :
    (m { r with arena := a }).1 = some x := by
  obtain ⟨-, hspent, hsame⟩ := hfits (hchecked r x haccept)
  have hpos := (hsafe hbounded).1.pos
  have htop := hspent.top
  have hend := (m r).2.arena.offset_le_top
  have hstart := r.arena.top_le
  unfold decodeArenaBound at hbound
  have harena : r.within a = { r with arena := a } := by
    unfold within
    rw [hfresh, ← hfresh']
  rw [← harena, hsame a hbase (by omega)]
  exact haccept

end Reader

/-- Whatever arena a frame is accepted with: every fresh arena of `decode_arena_bound` bytes gives
the same result, wherever in the frame the request or response starts. -/
theorem decode_arena_suffices (payload : Bytes) (pos : ℕ) (shm : Option Bytes) (arena arena' : Arena)
    (hpos : pos ≤ payload.length) (hfresh : arena.offset = 0) (hfresh' : arena'.offset = 0)
    (hbase : arena'.base % 8 = arena.base % 8) (hbound : decodeArenaBound payload.length ≤ arena'.capacity) :
    (∀ req, (Reader.request { payload, pos, shm, arena }).1 = some req →
      (Reader.request { payload, pos, shm, arena := arena' }).1 = some req) ∧
    (∀ resp, (Reader.response { payload, pos, shm, arena }).1 = some resp →
      (Reader.response { payload, pos, shm, arena := arena' }).1 = some resp) := by
  let r : Reader := { payload, pos, shm, arena }
  have hbounded : Bounded r.payload r.shm r.arena.capacity r := ⟨rfl, rfl, rfl, hpos, nofun⟩
  refine ⟨fun req haccept => ?_, fun resp haccept => ?_⟩
  · exact Reader.rerun (r := r) request_fits request_checked request_safe hbounded hfresh hfresh'
      hbase hbound haccept
  · exact Reader.rerun (r := r) response_fits response_checked response_safe hbounded hfresh
      hfresh' hbase hbound haccept

def twoPartsFrame : Bytes := (requestBytes none twoParts 1).1

/- Parts with shapes and inline data and a tool call, in an arena whose arrays have to be padded. -/
theorem decode_arena_suffices_twoParts : ∃ req,
    (Reader.request { payload := twoPartsFrame, arena := ⟨65537, 2 ^ 40, 0⟩ }).1 = some req ∧
      (Reader.request { payload := twoPartsFrame, arena := ⟨4097, decodeArenaBound twoPartsFrame.length, 0⟩ }).1 =
        some req := by
  have haccept : (Reader.request { payload := twoPartsFrame, arena := ⟨65537, 2 ^ 40, 0⟩ }).1.isSome = true := by
    decide +kernel
  obtain ⟨req, hreq⟩ := Option.isSome_iff_exists.1 haccept
  exact ⟨req, hreq, (decode_arena_suffices twoPartsFrame 0 none ⟨65537, 2 ^ 40, 0⟩
    ⟨4097, decodeArenaBound twoPartsFrame.length, 0⟩ (Nat.zero_le _) rfl rfl (by decide) (Nat.le_refl _)).1 req hreq⟩

end AgentCpp.Ipc
