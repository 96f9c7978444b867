import AgentCpp.Engines.Ipc
import AgentCpp.Lib.Machine

/-!
# Reading arbitrary frames

Whatever the bytes of a frame are, the reader stays inside it, asks the arena only for what the rest
of the frame could hold, and gives views that lie in the frame, the segment or the arena.
-/

namespace AgentCpp.Ipc
open Lib Reader

def View.Inside (v : View) (n : ℕ) : Prop := v.off + v.size ≤ n

def Placed.Inside {α : Type} (p : Placed α) (item : Item) (capacity : ℕ) : Prop :=
  p.off + item.size * p.items.length ≤ capacity

section Inside

/- The frame, the segment and the size of the arena. -/
variable (payload : Bytes) (shm : Option Bytes) (capacity : ℕ)

def DataView.Inside : DataView → Prop
  | .frame v => v.Inside payload.length
  | .segment v => ∃ mem, shm = some mem ∧ v.Inside mem.length

structure PartView.Inside (p : PartView) : Prop where
  text : ∀ v ∈ p.text, v.Inside payload.length
  path : ∀ v ∈ p.path, v.Inside payload.length
  mime : ∀ v ∈ p.mime, v.Inside payload.length
  name : ∀ v ∈ p.name, v.Inside payload.length
  shape : ∀ a ∈ p.shape, a.Inside .dim capacity
  data : ∀ v ∈ p.data, v.Inside payload shm

structure CallView.Inside (c : CallView) : Prop where
  id : ∀ v ∈ c.id, v.Inside payload.length
  name : ∀ v ∈ c.name, v.Inside payload.length
  arguments : ∀ v ∈ c.arguments, v.Inside payload.length

structure MessageView.Inside (m : MessageView) : Prop where
  role : ∀ v ∈ m.role, v.Inside payload.length
  parts : ∀ a ∈ m.parts, a.Inside .part capacity ∧ ∀ p ∈ a.items, p.Inside payload shm capacity
  toolCalls : ∀ a ∈ m.toolCalls, a.Inside .call capacity ∧ ∀ c ∈ a.items, c.Inside payload
  toolCallId : ∀ v ∈ m.toolCallId, v.Inside payload.length

structure RequestView.Inside (r : RequestView) : Prop where
  messages : ∀ a ∈ r.messages, a.Inside .message capacity ∧ ∀ m ∈ a.items, m.Inside payload shm capacity
  toolsJson : ∀ v ∈ r.toolsJson, v.Inside payload.length
  paramsJson : ∀ v ∈ r.paramsJson, v.Inside payload.length
  outputDir : ∀ v ∈ r.outputDir, v.Inside payload.length

end Inside

/- The rest of the frame could hold that many of the smallest elements. -/
def Allocation.Possible (a : Allocation) (frame : ℕ) : Prop :=
  a.count * a.item.wire ≤ a.remaining ∧ a.remaining ≤ frame

structure Bounded (frame : Bytes) (segment : Option Bytes) (size : ℕ) (r : Reader) : Prop where
  payload : r.payload = frame
  shm : r.shm = segment
  capacity : r.arena.capacity = size
  pos : r.pos ≤ frame.length
  allocations : ∀ a ∈ r.allocations, a.Possible frame.length

/- A read goes forward, and not at all after a failure. -/
structure Went (r r' : Reader) : Prop where
  pos : r.pos ≤ r'.pos
  ok : r'.ok = true → r.ok = true
  stuck : r.ok = false → r'.pos = r.pos

instance : Std.Refl Went := ⟨fun _ => ⟨le_refl _, id, fun _ => rfl⟩⟩

instance : IsTrans Reader Went where
  trans r r' r'' h h' := by
    refine ⟨h.pos.trans h'.pos, fun hok => h.ok (h'.ok hok), fun hfailed => ?_⟩
    have hfailed' : r'.ok = false := by
      by_contra hok
      rw [h.ok (Bool.eq_true_of_not_eq_false hok)] at hfailed
      cases hfailed
    rw [h'.stuck hfailed', h.stuck hfailed]

namespace Reader

section Rules

variable {α β : Type} (payload : Bytes) (shm : Option Bytes) (capacity : ℕ) (r : Reader)

abbrev Keeps (m : Read α) : Prop := Ensures (Bounded payload shm capacity) Went r m fun _ _ => True

/- What is read, if anything is, satisfies `P`. -/
abbrev Gives (m : Read (Option α)) (P : α → Prop) : Prop :=
  Ensures (Bounded payload shm capacity) Went r m fun o _ => ∀ a ∈ o, P a

variable {payload shm capacity r} {m : Read (Option α)} {f : Option α → Read (Option β)} {P : α → Prop} {Q : β → Prop}

theorem gives_bind (hm : Gives payload shm capacity r m P) (hnone : f none = pure none)
    (hf : ∀ a t, P a → Gives payload shm capacity t (f (some a)) Q) : Gives payload shm capacity r (m >>= f) Q := by
  refine ensures_bind hm fun o t _ ho => ?_
  cases o with
  | none =>
    rw [hnone]
    exact ensures_pure fun _ => nofun
  | some a => exact hf a t (ho a rfl)

theorem gives_checked {a : α} (h : P a) :
    Gives payload shm capacity r (get >>= fun t => pure (if t.ok = true then some a else none)) P := by
  refine ensures_get (ensures_pure fun _ b hb => ?_)
  split at hb
  · cases hb
    exact h
  · cases hb

end Rules

variable {payload : Bytes} {shm : Option Bytes} {capacity : ℕ} {r : Reader} {α : Type}

theorem take_safe (n : ℕ) : Ensures (Bounded payload shm capacity) Went r (take n) fun taken r' =>
    (taken = true → n ≤ r'.pos) ∧ (taken = false → r'.ok = false) := by
  intro h
  unfold take
  split
  · exact ⟨{ h with }, ⟨le_refl _, nofun, fun _ => rfl⟩, nofun, fun _ => rfl⟩
  · next hroom =>
    rw [not_or, Bool.not_eq_false, Nat.not_lt] at hroom
    obtain ⟨hok, hroom⟩ := hroom
    have hpos := h.pos
    unfold remaining at hroom
    rw [h.payload] at hroom
    refine ⟨{ h with pos := ?_ }, ⟨Nat.le_add_right _ _, fun _ => hok, ?_⟩,
      fun _ => Nat.le_add_left _ _, nofun⟩
    · change r.pos + n ≤ payload.length
      omega
    · intro hfailed
      rw [hok] at hfailed
      cases hfailed

theorem fail_safe (arena : Bool) : Keeps payload shm capacity r (fail arena) := by
  intro h
  exact ⟨{ h with }, ⟨le_refl _, nofun, fun _ => rfl⟩, trivial⟩

theorem raw_safe (n : ℕ) : Keeps payload shm capacity r (raw n) := by
  refine ensures_bind (take_safe n) fun taken t _ _ => ?_
  split
  · exact ensures_get (ensures_pure fun _ => trivial)
  · exact ensures_pure fun _ => trivial

theorem scalar_safe (width : ℕ) : Keeps payload shm capacity r (scalar width) := by
  refine ensures_bind (raw_safe width) fun read t _ _ => ?_
  cases read with
  | none => exact ensures_pure fun _ => trivial
  | some bytes => exact ensures_pure fun _ => trivial

theorem u32_safe : Keeps payload shm capacity r u32 :=
  ensures_bind (scalar_safe 4) fun _ _ _ _ => ensures_pure fun _ => trivial

theorem i32_safe : Keeps payload shm capacity r i32 :=
  ensures_bind (scalar_safe 4) fun _ _ _ _ => ensures_pure fun _ => trivial

theorem u64_safe : Keeps payload shm capacity r u64 :=
  ensures_bind (scalar_safe 8) fun _ _ _ _ => ensures_pure fun _ => trivial

theorem str_safe : Gives payload shm capacity r str (·.Inside payload.length) := by
  refine ensures_bind u32_safe fun n t _ _ => ensures_bind (take_safe n.toNat) fun taken t' _ htaken => ?_
  split
  · next htrue =>
    refine ensures_get (ensures_pure fun ht v hv => ?_)
    have hle := htaken.1 htrue
    have hpos := ht.pos
    split at hv
    · cases hv
    · cases hv
      change t'.pos - n.toNat + n.toNat ≤ payload.length
      omega
  · exact ensures_pure fun _ => nofun

theorem bytes_safe (n : ℕ) : Ensures (Bounded payload shm capacity) Went r (bytes n) fun off r' =>
    r'.ok = true → off + n ≤ payload.length := by
  refine ensures_get ?_
  split
  · intro h
    exact ⟨{ h with }, ⟨le_refl _, nofun, fun _ => rfl⟩, nofun⟩
  · refine ensures_bind (take_safe n) fun taken t _ htaken => ensures_get (ensures_pure fun ht hok => ?_)
    cases taken with
    | true =>
      have hle := htaken.1 rfl
      have hpos := ht.pos
      omega
    | false =>
      rw [htaken.2 rfl] at hok
      cases hok

theorem allocateSpan_safe (item : Item) (count : ℕ) (hroom : count * item.wire ≤ r.remaining) :
    Ensures (Bounded payload shm capacity) Went r (allocateSpan item count) fun off _ =>
      ∀ o ∈ off, o + item.size * count ≤ capacity := by
  intro h
  have hpossible : ∀ a ∈ r.allocations ++ [⟨item, count, r.remaining⟩], a.Possible payload.length := by
    intro a ha
    rcases List.mem_append.1 ha with ha | ha
    · exact h.allocations a ha
    · rw [List.mem_singleton.1 ha]
      refine ⟨hroom, ?_⟩
      change r.payload.length - r.pos ≤ payload.length
      rw [h.payload]
      exact Nat.sub_le _ _
  unfold allocateSpan
  simp only
  cases halloc : r.arena.allocate (item.size * count) 8 with
  | none => exact ⟨{ h with allocations := hpossible }, ⟨le_refl _, id, fun _ => rfl⟩, nofun⟩
  | some memory =>
    obtain ⟨off, arena⟩ := memory
    unfold Arena.allocate at halloc
    split at halloc
    · cases halloc
    · simp only at halloc
      split at halloc
      · cases halloc
      · next hfits =>
        cases halloc
        refine ⟨{ h with allocations := hpossible }, ⟨le_refl _, id, fun _ => rfl⟩, ?_⟩
        intro o ho
        cases ho
        rw [← h.capacity]
        exact Nat.not_lt.1 hfits

theorem repeated_safe {read : Read (Option α)} {P : α → Prop}
    (hread : ∀ r, Gives payload shm capacity r read P) (count : ℕ) :
    Gives payload shm capacity r (repeated read count) fun as => as.length = count ∧ ∀ a ∈ as, P a := by
  induction count generalizing r with
  | zero =>
    refine ensures_pure fun _ as has => ?_
    cases has
    exact ⟨rfl, nofun⟩
  | succ count ih =>
    refine gives_bind (hread r) rfl fun a t ha => ?_
    refine gives_bind ih rfl fun as t' has => ensures_pure fun _ all hall => ?_
    cases hall
    exact ⟨congrArg (· + 1) has.1, List.forall_mem_cons.2 ⟨ha, has.2⟩⟩

theorem array_safe (item : Item) {read : Read (Option α)} {P : α → Prop}
    (hread : ∀ r, Gives payload shm capacity r read P) (count : ℕ) :
    Gives payload shm capacity r (array item read count) fun arr =>
      ∀ p ∈ arr, p.Inside item capacity ∧ ∀ a ∈ p.items, P a := by
  refine ensures_get ?_
  split
  · exact ensures_bind (fail_safe false) fun _ _ _ _ => ensures_pure fun _ => nofun
  · next hroom =>
    rw [not_or, Nat.not_lt] at hroom
    split
    · refine ensures_pure fun _ arr harr => ?_
      cases harr
      exact nofun
    · -- `count` elements fit into the rest of the frame
      have hfit : count * item.wire ≤ r.remaining :=
        (Nat.mul_le_mul_right _ hroom.2).trans (Nat.div_mul_le_self _ _)
      refine ensures_bind (allocateSpan_safe item count hfit) fun o t _ ho => ?_
      cases o with
      | none => exact ensures_bind (fail_safe true) fun _ _ _ _ => ensures_pure fun _ => nofun
      | some off =>
        refine gives_bind (repeated_safe hread count) rfl fun items t' hitems => ensures_pure fun _ arr harr p hp => ?_
        cases harr
        cases hp
        refine ⟨?_, hitems.2⟩
        change off + item.size * items.length ≤ capacity
        rw [hitems.1]
        exact ho off rfl

theorem dim_safe : Gives payload shm capacity r dim fun _ => True :=
  ensures_bind (scalar_safe 8) fun _ _ _ _ => ensures_pure fun _ _ _ => trivial

theorem data_safe : Gives payload shm capacity r data fun d => ∀ v ∈ d, v.Inside payload shm := by
  refine ensures_bind u64_safe fun size t _ _ => ensures_bind u32_safe fun loc t' _ _ => ?_
  split
  · refine ensures_bind (bytes_safe size.toNat) fun off t'' _ hoff => ensures_get (ensures_pure fun _ d hd v hv => ?_)
    split at hd
    · next hok =>
      cases hd
      split at hv
      · cases hv
      · cases hv
        exact hoff hok
    · cases hd
  · split
    · refine ensures_bind u64_safe fun off t'' ht'' _ => ensures_get ?_
      split
      · exact ensures_bind (fail_safe false) fun _ _ _ _ => ensures_pure fun _ => nofun
      · next mem hmem =>
        split
        · exact ensures_bind (fail_safe false) fun _ _ _ _ => ensures_pure fun _ => nofun
        · next hin =>
          refine ensures_pure fun _ d hd v hv => ?_
          cases hd
          split at hv
          · cases hv
          · cases hv
            refine ⟨mem, ht''.shm.symm.trans hmem, ?_⟩
            change off.toNat + size.toNat ≤ mem.length
            omega
    · exact ensures_bind (fail_safe false) fun _ _ _ _ => ensures_pure fun _ => nofun

theorem part_safe : Gives payload shm capacity r part (·.Inside payload shm capacity) := by
  refine ensures_bind u32_safe fun kind _ _ _ => ?_
  refine ensures_bind str_safe fun text _ _ htext => ?_
  refine ensures_bind str_safe fun path _ _ hpath => ?_
  refine ensures_bind str_safe fun mime _ _ hmime => ?_
  refine ensures_bind str_safe fun name _ _ hname => ?_
  refine ensures_bind u32_safe fun dtype _ _ _ => ?_
  refine ensures_bind u32_safe fun ndim _ _ _ => ?_
  refine gives_bind (array_safe .dim (fun _ => dim_safe) ndim.toNat) rfl fun shape _ hshape => ?_
  refine gives_bind data_safe rfl fun data _ hdata => ensures_pure fun _ p hp => ?_
  cases hp
  exact ⟨htext, hpath, hmime, hname, fun a ha => (hshape a ha).1, hdata⟩

theorem call_safe : Gives payload shm capacity r call (·.Inside payload) := by
  refine ensures_bind str_safe fun id _ _ hid => ?_
  refine ensures_bind str_safe fun name _ _ hname => ?_
  refine ensures_bind str_safe fun arguments _ _ harguments => ?_
  refine ensures_pure fun _ c hc => ?_
  cases hc
  exact ⟨hid, hname, harguments⟩

theorem message_safe : Gives payload shm capacity r message (·.Inside payload shm capacity) := by
  refine ensures_bind str_safe fun role _ _ hrole => ?_
  refine ensures_bind u32_safe fun nParts _ _ _ => ?_
  refine gives_bind (array_safe .part (fun _ => part_safe) nParts.toNat) rfl fun parts _ hparts => ?_
  refine ensures_bind u32_safe fun nCalls _ _ _ => ?_
  refine gives_bind (array_safe .call (fun _ => call_safe) nCalls.toNat) rfl fun toolCalls _ hcalls => ?_
  exact ensures_bind str_safe fun toolCallId _ _ hid => gives_checked ⟨hrole, hparts, hcalls, hid⟩

theorem request_safe : Gives payload shm capacity r request (·.1.Inside payload shm capacity) := by
  refine ensures_bind u32_safe fun task _ _ _ => ?_
  refine ensures_bind u32_safe fun flags _ _ _ => ?_
  refine ensures_bind u32_safe fun runFlags _ _ _ => ?_
  refine ensures_bind u32_safe fun n _ _ _ => ?_
  refine gives_bind (array_safe .message (fun _ => message_safe) n.toNat) rfl fun messages _ hmessages => ?_
  refine ensures_bind str_safe fun toolsJson _ _ htools => ?_
  refine ensures_bind str_safe fun paramsJson _ _ hparams => ?_
  exact ensures_bind str_safe fun outputDir _ _ hdir => gives_checked ⟨hmessages, htools, hparams, hdir⟩

theorem response_safe : Gives payload shm capacity r response (·.message.Inside payload shm capacity) := by
  refine gives_bind message_safe rfl fun message _ hmessage => ?_
  refine ensures_bind i32_safe fun promptTokens _ _ _ => ?_
  exact ensures_bind i32_safe fun completionTokens _ _ _ => gives_checked hmessage

end Reader

inductive ReadOp where
  | raw (n : ℕ)
  | u32
  | i32
  | u64
  | str
  | bytes (n : ℕ)
  | part
  | message
  | request
  | response

def ReadOp.exec (r : Reader) : ReadOp → Reader
  | .raw n => (Reader.raw n r).2
  | .u32 => (Reader.u32 r).2
  | .i32 => (Reader.i32 r).2
  | .u64 => (Reader.u64 r).2
  | .str => (Reader.str r).2
  | .bytes n => (Reader.bytes n r).2
  | .part => (Reader.part r).2
  | .message => (Reader.message r).2
  | .request => (Reader.request r).2
  | .response => (Reader.response r).2

section Reads

variable {payload : Bytes} {shm : Option Bytes} {capacity : ℕ}

theorem ReadOp.exec_safe {r : Reader} (h : Bounded payload shm capacity r) (op : ReadOp) :
    Bounded payload shm capacity (op.exec r) ∧ Went r (op.exec r) := by
  have hpart : ∀ {α : Type} {m : Read α} {Q : α → Reader → Prop},
      Ensures (Bounded payload shm capacity) Went r m Q → Bounded payload shm capacity (m r).2 ∧ Went r (m r).2 :=
    fun hm => ⟨(hm h).1, (hm h).2.1⟩
  cases op with
  | raw n => exact hpart (raw_safe n)
  | u32 => exact hpart u32_safe
  | i32 => exact hpart i32_safe
  | u64 => exact hpart u64_safe
  | str => exact hpart str_safe
  | bytes n => exact hpart (bytes_safe n)
  | part => exact hpart part_safe
  | message => exact hpart message_safe
  | request => exact hpart request_safe
  | response => exact hpart response_safe

theorem ReadOp.run_safe {r : Reader} (h : Bounded payload shm capacity r) (ops : List ReadOp) :
    Bounded payload shm capacity (ops.foldl ReadOp.exec r) ∧ Went r (ops.foldl ReadOp.exec r) := by
  induction ops generalizing r with
  | nil => exact ⟨h, Std.Refl.refl r⟩
  | cons op ops ih =>
    obtain ⟨hbounded, hwent⟩ := op.exec_safe h
    obtain ⟨hbounded', hwent'⟩ := ih hbounded
    exact ⟨hbounded', IsTrans.trans _ _ _ hwent hwent'⟩

end Reads

/-- Reading any bytes: the reader stays in the frame, allocates only what the frame could hold and
gives only views that lie inside, and no read succeeds after one that has failed. -/
theorem reader_safe (payload : Bytes) (shm : Option Bytes) (arena : Arena) (ops ops' : List ReadOp) :
    let start : Reader := { payload, shm, arena }
    let r := ops.foldl ReadOp.exec start
    let r' := ops'.foldl ReadOp.exec r
    r'.pos ≤ payload.length ∧ (∀ a ∈ r'.allocations, a.Possible payload.length) ∧
      (∀ req flags, (Reader.request r).1 = some (req, flags) → req.Inside payload shm arena.capacity) ∧
      (∀ resp, (Reader.response r).1 = some resp → resp.message.Inside payload shm arena.capacity) ∧
      (r.ok = false → r'.ok = false ∧ r'.pos = r.pos) := by
  have hstart : Bounded payload shm arena.capacity { payload, shm, arena } :=
    ⟨rfl, rfl, rfl, Nat.zero_le _, nofun⟩
  obtain ⟨hr, -⟩ := ReadOp.run_safe hstart ops
  obtain ⟨hr', hwent⟩ := ReadOp.run_safe hr ops'
  refine ⟨hr'.pos, hr'.allocations, fun req flags hreq => ?_, fun resp hresp => ?_, fun hfailed => ?_⟩
  · exact (request_safe hr).2.2 (req, flags) hreq
  · exact (response_safe hr).2.2 resp hresp
  · refine ⟨?_, hwent.stuck hfailed⟩
    by_contra hok
    rw [hwent.ok (Bool.eq_true_of_not_eq_false hok)] at hfailed
    cases hfailed

end AgentCpp.Ipc
