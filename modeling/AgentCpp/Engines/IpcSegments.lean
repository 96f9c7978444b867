import AgentCpp.Engines.IpcRoundTrip

/-!
# The size of a segment

`shm_bytes` computes how large a segment has to be for the payloads of a request or a response.
In a segment of that size the writer places every large payload, each behind the one before.
-/

namespace AgentCpp.Ipc
open Lib List

def Message.shmBytes (m : Message) (threshold : ℕ) : ℕ :=
  m.parts.items.foldl (fun n p => match p.data with
    | .null _ => n
    | .ptr bytes => if threshold ≤ bytes.length then (n + alignUp bytes.length) % 2 ^ 64 else n) 0

def Request.shmBytes (r : Request) (threshold : ℕ) : ℕ :=
  r.messages.items.foldl (fun n m => (n + m.shmBytes threshold) % 2 ^ 64) 0

def Message.payloads (m : Message) : List (Span UInt8) := m.parts.items.map Part.data

def Request.payloads (r : Request) : List (Span UInt8) := r.messages.items.flatMap Message.payloads

def Span.large (threshold : ℕ) : Span UInt8 → Bool
  | .null _ => false
  | .ptr bytes => decide (threshold ≤ bytes.length)

def Span.room (threshold : ℕ) (p : Span UInt8) : ℕ :=
  if p.large threshold = true then (p.items.length + 63) / 64 * 64 else 0

def exactBytes (threshold : ℕ) (ps : List (Span UInt8)) : ℕ := (ps.map (Span.room threshold)).sum

theorem exactBytes_cons (threshold : ℕ) (p : Span UInt8) (ps : List (Span UInt8)) :
    exactBytes threshold (p :: ps) = p.room threshold + exactBytes threshold ps := rfl

theorem exactBytes_append (threshold : ℕ) (ps qs : List (Span UInt8)) :
    exactBytes threshold (ps ++ qs) = exactBytes threshold ps + exactBytes threshold qs := by
  unfold exactBytes
  rw [map_append, sum_append]

theorem Message.shmBytes_eq (m : Message) (threshold : ℕ) :
    m.shmBytes threshold = exactBytes threshold m.payloads % 2 ^ 64 := by
  unfold Message.shmBytes Message.payloads
  suffices h : ∀ (ps : List Part) (n : ℕ), n < 2 ^ 64 → ps.foldl (fun n p => match p.data with
      | .null _ => n
      | .ptr bytes => if threshold ≤ bytes.length then (n + alignUp bytes.length) % 2 ^ 64 else n) n =
        (n + exactBytes threshold (ps.map Part.data)) % 2 ^ 64 by
    rw [h _ 0 (by decide), Nat.zero_add]
  intro ps
  induction ps with
  | nil =>
    intro n hn
    exact (Nat.mod_eq_of_lt hn).symm
  | cons p ps ih =>
    intro n hn
    have hstep : (match p.data with
        | .null _ => n
        | .ptr bytes => if threshold ≤ bytes.length then (n + alignUp bytes.length) % 2 ^ 64 else n) =
          (n + p.data.room threshold) % 2 ^ 64 := by
      unfold Span.room Span.large
      cases p.data with
      | null count => exact (Nat.mod_eq_of_lt hn).symm
      | ptr bytes =>
        simp only [decide_eq_true_eq, Span.items]
        split
        · unfold alignUp
          omega
        · exact (Nat.mod_eq_of_lt hn).symm
    rw [foldl_cons, hstep, ih _ (Nat.mod_lt _ (by decide)), Nat.mod_add_mod, map_cons, exactBytes_cons, Nat.add_assoc]

theorem Request.shmBytes_eq (r : Request) (threshold : ℕ) :
    r.shmBytes threshold = exactBytes threshold r.payloads % 2 ^ 64 := by
  unfold Request.shmBytes Request.payloads
  suffices h : ∀ (ms : List Message) (n : ℕ), n < 2 ^ 64 →
      ms.foldl (fun n m => (n + m.shmBytes threshold) % 2 ^ 64) n =
        (n + exactBytes threshold (ms.flatMap Message.payloads)) % 2 ^ 64 by
    rw [h _ 0 (by decide), Nat.zero_add]
  intro ms
  induction ms with
  | nil =>
    intro n hn
    exact (Nat.mod_eq_of_lt hn).symm
  | cons m ms ih =>
    intro n _
    rw [foldl_cons, ih _ (Nat.mod_lt _ (by decide)), m.shmBytes_eq, flatMap_cons,
      exactBytes_append]
    omega

def ShmOut.after (seg : ShmOut) (p : Span UInt8) : ShmOut := ((seg.place p).map Prod.snd).getD seg

/- Each payload with the offset at which it is placed; `none` when it is sent in the frame. -/
def placements (seg : ShmOut) : List (Span UInt8) → List (Span UInt8 × Option ℕ)
  | [] => []
  | p :: ps => (p, (seg.place p).map Prod.fst) :: placements (seg.after p) ps

theorem placements_append (seg : ShmOut) (ps qs : List (Span UInt8)) :
    placements seg (ps ++ qs) = placements seg ps ++ placements (ps.foldl ShmOut.after seg) qs := by
  induction ps generalizing seg with
  | nil => rfl
  | cons p ps ih => exact congrArg _ (ih (seg.after p))

/- The steps of a writer: bytes, and payloads that are given to `data`. -/
inductive Writes : Writer → List (Span UInt8 × Option ℕ) → Writer → Prop
  | bytes (w : Writer) (bytes : Bytes) : Writes w [] (w.raw bytes)
  | data (w : Writer) (p : Span UInt8) : Writes w [(p, (w.shm.bind (·.place p)).map Prod.fst)] (w.data p)
  | trans {w w' w'' : Writer} {log log' : List (Span UInt8 × Option ℕ)} :
      Writes w log w' → Writes w' log' w'' → Writes w (log ++ log') w''

/- The payloads are written one after the other, with nothing but bytes between them. -/
def Delivers (ps : List (Span UInt8)) (w w' : Writer) : Prop :=
  ∀ seg, w.shm = some seg → Writes w (placements seg ps) w' ∧ w'.shm = some (ps.foldl ShmOut.after seg)

namespace Writer

variable {w w' w'' : Writer} {ps qs : List (Span UInt8)}

theorem delivers_trans (h : Delivers ps w w') (h' : Delivers qs w' w'') : Delivers (ps ++ qs) w w'' := by
  intro seg hseg
  obtain ⟨hwrites, hseg'⟩ := h seg hseg
  obtain ⟨hwrites', hseg''⟩ := h' _ hseg'
  rw [placements_append, foldl_append]
  exact ⟨hwrites.trans hwrites', hseg''⟩

theorem delivers_then (h : Delivers ps w w') (h' : Delivers [] w' w'') : Delivers ps w w'' := by
  have hboth := delivers_trans h h'
  rw [append_nil] at hboth
  exact hboth

theorem delivers_after (h : Delivers [] w w') (h' : Delivers ps w' w'') : Delivers ps w w'' := delivers_trans h h'

theorem delivers_raw (w : Writer) (bytes : Bytes) : Delivers [] w (w.raw bytes) :=
  fun _ hseg => ⟨.bytes w bytes, hseg⟩

theorem delivers_str (w : Writer) (s : Str) : Delivers [] w (w.str s) :=
  delivers_trans (delivers_raw w _) (delivers_raw _ s.items)

theorem delivers_data (w : Writer) (p : Span UInt8) : Delivers [p] w (w.data p) := by
  intro seg hseg
  have hwrites := Writes.data w p
  rw [hseg] at hwrites
  refine ⟨hwrites, ?_⟩
  rw [data_with]
  unfold dataBytes Writer.with
  rw [hseg, Option.bind_some]
  change _ = some (((seg.place p).map Prod.snd).getD seg)
  cases seg.place p with
  | none => rfl
  | some placed => rfl

theorem delivers_foldl {α : Type} {write : Writer → α → Writer} {payloads : α → List (Span UInt8)}
    (h : ∀ w a, Delivers (payloads a) w (write w a)) (as : List α) (w : Writer) :
    Delivers (as.flatMap payloads) w (as.foldl write w) := by
  induction as generalizing w with
  | nil =>
    have hnothing : w.raw [] = w := by
      unfold Writer.raw
      rw [append_nil]
    have hraw := delivers_raw w []
    rw [hnothing] at hraw
    exact hraw
  | cons a as ih => exact delivers_trans (h w a) (ih (write w a))

theorem delivers_bytes {α : Type} {write : Writer → α → Writer} (h : ∀ w a, Delivers [] w (write w a)) (as : List α)
    (w : Writer) : Delivers [] w (as.foldl write w) := by
  have hfold := delivers_foldl h as w
  rw [flatMap_eq_nil_iff.2 fun _ _ => rfl] at hfold
  exact hfold

theorem delivers_part (w : Writer) (p : Part) : Delivers [p.data] w (w.part p) := by
  refine delivers_after ?_ (delivers_data _ p.data)
  refine delivers_then ?_ (delivers_bytes (fun w v => delivers_raw w _) _ _)
  refine delivers_then (delivers_then ?_ (delivers_raw _ _)) (delivers_raw _ _)
  refine delivers_then ?_ (delivers_str _ p.name)
  refine delivers_then ?_ (delivers_str _ p.mime)
  refine delivers_then ?_ (delivers_str _ p.path)
  exact delivers_then (delivers_raw w _) (delivers_str _ p.text)

theorem delivers_call (w : Writer) (c : Call) : Delivers [] w (w.call c) :=
  delivers_then (delivers_then (delivers_str w c.id) (delivers_str _ c.name)) (delivers_str _ c.arguments)

theorem delivers_message (w : Writer) (m : Message) : Delivers m.payloads w (w.message m) := by
  refine delivers_then ?_ (delivers_str _ m.toolCallId)
  refine delivers_then (delivers_then ?_ (delivers_raw _ _)) (delivers_bytes delivers_call _ _)
  have hparts := delivers_foldl delivers_part m.parts.items ((w.str m.role).u32 (UInt32.ofNat m.parts.items.length))
  rw [← map_eq_flatMap] at hparts
  exact delivers_after (delivers_then (delivers_str w m.role) (delivers_raw _ _)) hparts

theorem delivers_request (w : Writer) (r : Request) (runFlags : UInt32) :
    Delivers r.payloads w (w.request r runFlags) := by
  refine delivers_then (delivers_then (delivers_then ?_ (delivers_str _ _)) (delivers_str _ _)) (delivers_str _ _)
  refine delivers_after ?_ (delivers_foldl delivers_message r.messages.items _)
  exact delivers_then (delivers_then (delivers_then (delivers_raw w _) (delivers_raw _ _)) (delivers_raw _ _))
    (delivers_raw _ _)

theorem delivers_response (w : Writer) (r : Response) : Delivers r.message.payloads w (w.response r) :=
  delivers_then (delivers_then (delivers_message w r.message) (delivers_raw _ _)) (delivers_raw _ _)

end Writer

structure Holds (low high : ℕ) (mem : Bytes) (p : Span UInt8) (off : ℕ) : Prop where
  aligned : 64 ∣ off
  low : low ≤ off
  high : off + p.items.length ≤ high
  bytes : (mem.drop off).take p.items.length = p.items

structure Segmented (threshold low high : ℕ) (mem : Bytes) (log : List (Span UInt8 × Option ℕ)) : Prop where
  placed : ∀ e ∈ log, e.2.isSome = true ↔ e.1.large threshold = true
  holds : ∀ e ∈ log, ∀ off ∈ e.2, Holds low high mem e.1 off
  apart : log.Pairwise fun e e' => ∀ off ∈ e.2, ∀ off' ∈ e'.2,
    off + e.1.items.length ≤ off' ∨ off' + e'.1.items.length ≤ off

variable {seg : ShmOut} {p : Span UInt8}

theorem ShmOut.place_small (h : p.large seg.threshold = false) : seg.place p = none := by
  obtain ⟨mem, used, threshold, count, fits⟩ := seg
  cases p with
  | null n => cases mem <;> rfl
  | ptr bytes =>
    cases mem with
    | null n => rfl
    | ptr mem =>
      have hsmall : ¬ threshold ≤ bytes.length := of_decide_eq_false h
      exact if_neg fun hplace => hsmall hplace.1

theorem ShmOut.place_large {mem : Bytes} (hmem : seg.mem = .ptr mem)
    (haligned : 64 ∣ seg.used) (h : p.large seg.threshold = true)
    (hroom : seg.used + p.room seg.threshold ≤ mem.length) :
    ∃ seg', seg.place p = some (seg.used, seg') ∧ seg'.used = seg.used + p.room seg.threshold ∧
      seg'.threshold = seg.threshold := by
  obtain ⟨smem, used, threshold, count, fits⟩ := seg
  cases hmem
  change mem.length < 2 ^ 63 at fits
  unfold Span.room at hroom ⊢
  rw [if_pos h] at hroom ⊢
  cases p with
  | null n => cases h
  | ptr bytes =>
    have hlarge : threshold ≤ bytes.length := of_decide_eq_true h
    simp only [Span.items] at hroom ⊢
    obtain ⟨k, rfl⟩ := haligned
    have hplace : threshold ≤ bytes.length ∧ bytes.length ≤ subSize mem.length (64 * k) := by
      rw [subSize_eq (by omega) fits]
      omega
    refine ⟨_, if_pos hplace, ?_, rfl⟩
    have hnext : alignUp (64 * k + bytes.length) = 64 * k + (bytes.length + 63) / 64 * 64 := by
      unfold alignUp
      omega
    rw [hnext, if_neg (by omega)]

section Fill

variable {threshold low high : ℕ} {mem : Bytes} {log : List (Span UInt8 × Option ℕ)} {p : Span UInt8}

theorem Segmented.skip (h : Segmented threshold low high mem log) (hp : p.large threshold = false) :
    Segmented threshold low high mem ((p, none) :: log) where
  placed := by
    refine forall_mem_cons.2 ⟨?_, h.placed⟩
    rw [hp]
    exact ⟨nofun, nofun⟩
  holds := forall_mem_cons.2 ⟨nofun, h.holds⟩
  apart := pairwise_cons.2 ⟨nofun, h.apart⟩

theorem Segmented.place {middle : ℕ} (h : Segmented threshold middle high mem log) (hp : p.large threshold = true)
    (hfirst : Holds low middle mem p low) (hmiddle : low ≤ middle) (hhigh : middle ≤ high) :
    Segmented threshold low high mem ((p, some low) :: log) where
  placed := by
    refine forall_mem_cons.2 ⟨?_, h.placed⟩
    rw [hp]
    exact ⟨fun _ => rfl, fun _ => rfl⟩
  holds := by
    refine forall_mem_cons.2 ⟨fun off hoff => ?_, fun e he off hoff => ?_⟩
    · cases hoff
      exact ⟨hfirst.aligned, le_refl _, hfirst.high.trans hhigh, hfirst.bytes⟩
    · have hlater := h.holds e he off hoff
      exact { hlater with low := hmiddle.trans hlater.low }
  apart := by
    refine pairwise_cons.2 ⟨fun e he off hoff off' hoff' => ?_, h.apart⟩
    cases hoff
    exact Or.inl (hfirst.high.trans (h.holds e he off' hoff').low)

end Fill

variable {seg : ShmOut}

theorem holds_kept {mem' : Bytes} {used off : ℕ} (h : Holds low high mem p off) (hused : high ≤ used)
    (hkept : mem'.take used = mem.take used) : Holds low high mem' p off := by
  have hbelow := h.high.trans hused
  refine { h with bytes := ?_ }
  rw [take_drop_below hbelow mem', hkept, ← take_drop_below hbelow mem]
  exact h.bytes

theorem Span.room_dvd (threshold : ℕ) (p : Span UInt8) : 64 ∣ p.room threshold := by
  unfold Span.room
  split
  · exact Nat.dvd_mul_left _ _
  · exact Nat.dvd_zero _

theorem placements_segmented (ps : List (Span UInt8)) (hmem : seg.mem = .ptr mem)
    (haligned : 64 ∣ seg.used) (hroom : seg.used + exactBytes seg.threshold ps ≤ mem.length) :
    (∀ p low high off, high ≤ seg.used → Holds low high seg.bytes p off →
        Holds low high (ps.foldl ShmOut.after seg).bytes p off) ∧
      Segmented seg.threshold seg.used (seg.used + exactBytes seg.threshold ps) (ps.foldl ShmOut.after seg).bytes
        (placements seg ps) := by
  induction ps generalizing seg mem with
  | nil => exact ⟨fun _ _ _ _ _ => id, ⟨nofun, nofun, List.Pairwise.nil⟩⟩
  | cons p ps ih =>
    rw [exactBytes_cons] at hroom ⊢
    cases hlarge : p.large seg.threshold with
    | false =>
      have hplace := ShmOut.place_small hlarge
      have hzero : p.room seg.threshold = 0 := by
        unfold Span.room
        rw [hlarge]
        rfl
      have hafter : seg.after p = seg := by
        unfold ShmOut.after
        rw [hplace]
        rfl
      rw [hzero, Nat.zero_add] at hroom ⊢
      obtain ⟨hkept, hsegmented⟩ := ih hmem haligned hroom
      unfold placements
      rw [foldl_cons, hafter, hplace]
      exact ⟨hkept, hsegmented.skip hlarge⟩
    | true =>
      have hbytes := ShmOut.bytes_eq hmem
      obtain ⟨seg', hplace, hused, hthreshold⟩ := ShmOut.place_large hmem haligned hlarge (by omega)
      have hafter : seg.after p = seg' := by
        unfold ShmOut.after
        rw [hplace]
        rfl
      obtain ⟨mem₀, mem', hmem₀, hmem', hsize, hmore, -, hkept, hend, hheld⟩ := place_some (by rw [hbytes]; omega) hplace
      cases hmem.symm.trans hmem₀
      obtain ⟨hkept', hsegmented⟩ := ih hmem' (by rw [hused]; exact Nat.dvd_add haligned (p.room_dvd _))
        (by rw [hthreshold]; omega)
      rw [ShmOut.bytes_eq hmem'] at hkept'
      have hfirst : Holds seg.used seg'.used mem' p seg.used := ⟨haligned, le_refl _, hend, hheld⟩
      rw [hthreshold] at hsegmented
      unfold placements
      rw [foldl_cons, hafter, hplace]
      constructor
      · intro p low high off hhigh hp
        rw [hbytes] at hp
        exact hkept' p low high off (hhigh.trans hmore) (holds_kept hp hhigh hkept)
      · rw [← Nat.add_assoc, ← hused]
        exact hsegmented.place hlarge (hkept' _ _ _ _ (le_refl _) hfirst) hmore (Nat.le_add_right _ _)

/- A whole write that puts every large payload into the segment and no other. -/
structure InSegment (seg : ShmOut) (ps : List (Span UInt8)) (w w' : Writer) : Prop where
  writes : Writes w (placements seg ps) w'
  segment : ∃ seg', w'.shm = some seg' ∧
    Segmented seg.threshold 0 seg.bytes.length seg'.bytes (placements seg ps)

theorem Delivers.inSegment (h : Delivers ps w w')
    (hshm : w.shm = some seg) (hmem : seg.mem = .ptr mem) (hused : seg.used = 0)
    (hroom : exactBytes seg.threshold ps ≤ mem.length) : InSegment seg ps w w' := by
  obtain ⟨hwrites, hshm'⟩ := h seg hshm
  have haligned : 64 ∣ seg.used := by
    rw [hused]
    exact Nat.dvd_zero _
  obtain ⟨-, hsegmented⟩ := placements_segmented ps hmem haligned (by rw [hused, Nat.zero_add]; exact hroom)
  rw [hused, Nat.zero_add] at hsegmented
  refine ⟨hwrites, _, hshm', hsegmented.placed, fun e he off hoff => ?_, hsegmented.apart⟩
  have hholds := hsegmented.holds e he off hoff
  rw [ShmOut.bytes_eq hmem]
  exact { hholds with high := hholds.high.trans hroom }

/-- A request or a response whose exact size in the segment is less than `2 ^ 64`, written with an
unused segment of `shm_bytes` bytes or more: exactly the payloads of at least the threshold are in
the segment, aligned, in range and apart. -/
theorem segment_holds_large (w : Writer) (seg : ShmOut) (mem : Bytes) (hshm : w.shm = some seg)
    (hmem : seg.mem = .ptr mem) (hused : seg.used = 0) :
    (∀ (r : Request) (runFlags : UInt32), exactBytes seg.threshold r.payloads < 2 ^ 64 →
      r.shmBytes seg.threshold ≤ mem.length → InSegment seg r.payloads w (w.request r runFlags)) ∧
    (∀ r : Response, exactBytes seg.threshold r.message.payloads < 2 ^ 64 →
      r.message.shmBytes seg.threshold ≤ mem.length → InSegment seg r.message.payloads w (w.response r)) := by
  constructor
  · intro r runFlags hsum hroom
    rw [r.shmBytes_eq, Nat.mod_eq_of_lt hsum] at hroom
    exact (Writer.delivers_request w r runFlags).inSegment hshm hmem hused hroom
  · intro r hsum hroom
    rw [r.message.shmBytes_eq, Nat.mod_eq_of_lt hsum] at hroom
    exact (Writer.delivers_response w r).inSegment hshm hmem hused hroom

def dataPart (bytes : Bytes) : Part where
  kind := 3
  text := .null 0
  path := .null 0
  mime := .null 0
  name := .null 0
  dtype := 0
  shape := .null 0
  data := .ptr bytes

def partsRequest (parts : List Part) : Request where
  task := 0
  flags := 0
  messages := .ptr [⟨.null 0, .ptr parts, .null 0, .null 0⟩]
  toolsJson := .null 0
  paramsJson := .null 0
  outputDir := .null 0

def unusedSegment (threshold : ℕ) : ShmOut where
  mem := .ptr (List.replicate 64 0)
  threshold := threshold
  fits := by decide

theorem segment_holds_large_tensor :
    InSegment (unusedSegment 2) (partsRequest [dataPart [1, 2, 3], dataPart [4]]).payloads { shm := some (unusedSegment 2) }
      (Writer.request { shm := some (unusedSegment 2) } (partsRequest [dataPart [1, 2, 3], dataPart [4]]) 0) :=
  (segment_holds_large { shm := some (unusedSegment 2) } (unusedSegment 2) (List.replicate 64 0) rfl rfl rfl).1 _ 0
    (by decide) (by decide)

/- Every part sends the same data, and the sum is `2 ^ 64`: `shm_bytes` is 0. -/
theorem partsRequest_wraps {bytes : Bytes} (hbytes : bytes.length = 2 ^ 33) :
    let r := partsRequest (List.replicate (2 ^ 31) (dataPart bytes))
    exactBytes 65536 r.payloads = 2 ^ 64 ∧ r.shmBytes 65536 = 0 ∧
      ¬ InSegment (unusedSegment 65536) r.payloads { shm := some (unusedSegment 65536) }
        (Writer.request { shm := some (unusedSegment 65536) } r 0) := by
  intro r
  have hpayloads : r.payloads = List.replicate (2 ^ 31) (.ptr bytes) := by
    change (List.replicate (2 ^ 31) (dataPart bytes)).map Part.data ++ [] = _
    rw [append_nil, map_replicate]
    rfl
  have hlarge : Span.large 65536 (.ptr bytes) = true := by
    refine decide_eq_true ?_
    rw [hbytes]
    decide
  have hroom : Span.room 65536 (.ptr bytes) = 2 ^ 33 := by
    unfold Span.room
    rw [if_pos hlarge]
    change (bytes.length + 63) / 64 * 64 = _
    rw [hbytes]
    norm_num
  have hsum : exactBytes 65536 r.payloads = 2 ^ 64 := by
    rw [hpayloads]
    unfold exactBytes
    rw [map_replicate, hroom, sum_replicate]
    rfl
  refine ⟨hsum, by rw [r.shmBytes_eq, hsum, Nat.mod_self], fun hsegment => ?_⟩
  obtain ⟨seg', -, hsegmented⟩ := hsegment.segment
  rw [hpayloads] at hsegmented
  have hplace : (unusedSegment 65536).place (.ptr bytes) = none := by
    refine if_neg fun hfits => absurd hfits.2 ?_
    rw [hbytes]
    decide
  have hfirst := (forall_mem_cons.1 hsegmented.placed).1.2 hlarge
  rw [hplace] at hfirst
  cases hfirst

theorem segment_size_wraps :
    let r := partsRequest (List.replicate (2 ^ 31) (dataPart (List.replicate (2 ^ 33) 0)))
    exactBytes 65536 r.payloads = 2 ^ 64 ∧ r.shmBytes 65536 = 0 ∧
      ¬ InSegment (unusedSegment 65536) r.payloads { shm := some (unusedSegment 65536) }
        (Writer.request { shm := some (unusedSegment 65536) } r 0) :=
  partsRequest_wraps length_replicate

end AgentCpp.Ipc
