import AgentCpp.Lib.Scan
import AgentCpp.Lib.Utf8
import AgentCpp.Rag.Pipeline

/-!
# Chunking (`chunker.cpp`)

`chunk_text` walks over a text with a window of `size` bytes, ends a chunk at the strongest
boundary in its back half, and steps back by up to `overlap` bytes.
-/

namespace AgentCpp.Rag
open Lib List

def isSpace (c : UInt8) : Bool :=
  c = 0x20 || c = 0x09 || c = 0x0A || c = 0x0D || c = 0x0C || c = 0x0B

def isUtf8Continuation (c : UInt8) : Bool := c &&& 0xC0 = 0x80

def byteAt (t : Bytes) (i : ℕ) : UInt8 := t.getD i 0

def spaceAt (t : Bytes) (i : ℕ) : Bool := isSpace (byteAt t i)

def skipSpace (t : Bytes) (i : ℕ) : ℕ := stepForward t.length (spaceAt t) i

def paragraphBreak (t : Bytes) (start b : ℕ) : Bool :=
  if byteAt t (b - 1) ≠ 0x0A ∨ b < start + 2 then false
  else
    let j := stepBack start (fun j => byteAt t j = 0x20 || byteAt t j = 0x09 || byteAt t j = 0x0D) (b - 2)
    byteAt t j = 0x0A

def lineBreak (t : Bytes) (_ b : ℕ) : Bool := byteAt t (b - 1) = 0x0A

def sentenceBreak (t : Bytes) (start b : ℕ) : Bool :=
  start + 2 ≤ b && spaceAt t (b - 1) &&
    (byteAt t (b - 2) = 0x2E || byteAt t (b - 2) = 0x21 || byteAt t (b - 2) = 0x3F)

def wordBreak (t : Bytes) (_ b : ℕ) : Bool := spaceAt t (b - 1) || spaceAt t b

/- The strongest kind first. -/
def kBreaks : List (Bytes → ℕ → ℕ → Bool) := [paragraphBreak, lineBreak, sentenceBreak, wordBreak]

/- The last position in `(lo, hi]` that is a break of one kind. -/
def lastBreak (isBreak : ℕ → Bool) (lo hi : ℕ) : Option ℕ :=
  let b := stepBack lo (fun b => !isBreak b) hi
  if lo < b then some b else none

/- Without a boundary the window is cut, but not inside a UTF-8 sequence. -/
def findBreak (t : Bytes) (start hi : ℕ) : ℕ :=
  let lo := start + (hi - start) / 2
  match kBreaks.findSome? fun isBreak => lastBreak (isBreak t start) lo hi with
  | some b => b
  | none => stepBack (start + 1) (fun b => isUtf8Continuation (byteAt t b)) hi

def trimmed (t : Bytes) (start stop : ℕ) : Chunk :=
  let start := stepForward stop (spaceAt t) start
  let stop := stepBack start (fun i => spaceAt t (i - 1)) stop
  ⟨start, (t.drop start).take (stop - start)⟩

/- Back by up to `overlap` bytes, then forward to the start of a word. -/
def stepBackOverlap (t : Bytes) (overlap pos stop : ℕ) : ℕ :=
  if 0 < overlap then
    let back := if overlap < stop then stop - overlap else 0
    let back := if back ≤ pos then pos + 1 else back
    stepForward stop (fun i => !spaceAt t (i - 1)) back
  else stop

def pushChunk (c : Chunk) (chunks : List Chunk) : List Chunk := if c.text = [] then chunks else c :: chunks

def chunkLoop (t : Bytes) (options : ChunkOptions) : ℕ → ℕ → Option (List Chunk)
  | 0, _ => none
  | fuel + 1, pos =>
    if t.length ≤ pos then some []
    else if t.length - pos ≤ options.size then some (pushChunk (trimmed t pos t.length) [])
    else
      let stop := findBreak t pos (pos + options.size)
      let next := skipSpace t (stepBackOverlap t options.overlap pos stop)
      (chunkLoop t options fuel next).map (pushChunk (trimmed t pos stop))

def chunkText (fuel : ℕ) (text : Bytes) (options : ChunkOptions) : Outcome (List Chunk) :=
  if options.size = 0 then some (fail .invalidConfig (lit "chunk_text: size must be > 0."))
  else if options.size ≤ options.overlap then
    some (fail .invalidConfig (lit "chunk_text: overlap must be smaller than size."))
  else (chunkLoop text options fuel (skipSpace text 0)).map .ok

theorem isUtf8Continuation_eq (c : UInt8) : isUtf8Continuation c = Utf8.isCont c := by
  have hall : ∀ n : Fin 256, isUtf8Continuation (UInt8.ofNat n.val) = Utf8.isCont (UInt8.ofNat n.val) := by
    decide +kernel
  have hc := hall ⟨c.toNat, c.toNat_lt⟩
  simpa using hc

theorem isSpace_ascii {c : UInt8} (h : isSpace c = true) : c < 0x80 := by
  unfold isSpace at h
  simp only [Bool.or_eq_true, decide_eq_true_eq] at h
  rcases h with ((((rfl | rfl) | rfl) | rfl) | rfl) | rfl <;> decide

variable {t : Bytes} {i n b hi pos : ℕ}

theorem byteAt_eq (h : i < t.length) : t[i]? = some (byteAt t i) := by
  unfold byteAt
  rw [getD_eq_getElem _ _ h, getElem?_eq_getElem h]

theorem spaceAt_lt (h : spaceAt t i = true) : i < t.length := by
  by_contra hge
  unfold spaceAt byteAt at h
  rw [getD_eq_default _ _ (Nat.le_of_not_lt hge)] at h
  cases h

theorem boundary_of_byteAt (h : isUtf8Continuation (byteAt t n) = false) : Utf8.Boundary t n := by
  intro b hb
  obtain ⟨hn, rfl⟩ := List.getElem?_eq_some_iff.1 hb
  rw [isUtf8Continuation_eq, byteAt, getD_eq_getElem _ _ hn] at h
  exact h

theorem boundary_at_space (h : spaceAt t n = true) : Utf8.Boundary t n := by
  intro b hb
  have hascii := isSpace_ascii h
  obtain ⟨hn, rfl⟩ := List.getElem?_eq_some_iff.1 hb
  rw [byteAt, getD_eq_getElem _ _ hn] at hascii
  unfold Utf8.isCont
  rw [decide_eq_false (UInt8.not_le.2 hascii), Bool.false_and]

theorem boundary_after_space (ht : Utf8.Valid t) (hn : 0 < n) (h : spaceAt t (n - 1) = true) : Utf8.Boundary t n := by
  have hafter := Utf8.boundary_after_ascii ht (byteAt_eq (spaceAt_lt h)) (isSpace_ascii h)
  rwa [Nat.sub_add_cancel hn] at hafter

theorem lastBreak_some {isBreak : ℕ → Bool} {lo : ℕ} (h : lastBreak isBreak lo hi = some b) :
    lo < b ∧ b ≤ hi ∧ isBreak b = true := by
  unfold lastBreak at h
  simp only at h
  split at h
  · next hlo =>
    cases h
    have hstop := stepBack_stopped hlo
    exact ⟨hlo, stepBack_le _ _ _, by simpa using hstop⟩
  · cases h

theorem kBreaks_space {isBreak : Bytes → ℕ → ℕ → Bool} (h : isBreak ∈ kBreaks) {start : ℕ}
    (hb : isBreak t start b = true) : spaceAt t (b - 1) = true ∨ spaceAt t b = true := by
  have hnewline : ∀ i, byteAt t i = 0x0A → spaceAt t i = true := by
    intro i hi
    unfold spaceAt
    rw [hi]
    rfl
  unfold kBreaks at h
  simp only [mem_cons, not_mem_nil, or_false] at h
  rcases h with rfl | rfl | rfl | rfl
  · unfold paragraphBreak at hb
    split at hb
    · cases hb
    · next hc => exact Or.inl (hnewline _ (not_not.1 (not_or.1 hc).1))
  · exact Or.inl (hnewline _ (of_decide_eq_true hb))
  · unfold sentenceBreak at hb
    simp only [Bool.and_eq_true] at hb
    exact Or.inl hb.1.2
  · exact Bool.or_eq_true_iff.1 hb

theorem findBreak_cases (t : Bytes) (start hi : ℕ) :
    (start + (hi - start) / 2 < findBreak t start hi ∧ findBreak t start hi ≤ hi ∧
      (spaceAt t (findBreak t start hi - 1) = true ∨ spaceAt t (findBreak t start hi) = true)) ∨
    findBreak t start hi = stepBack (start + 1) (fun b => isUtf8Continuation (byteAt t b)) hi := by
  cases hfind : kBreaks.findSome? fun isBreak => lastBreak (isBreak t start) (start + (hi - start) / 2) hi with
  | some b =>
    have heq : findBreak t start hi = b := by
      unfold findBreak
      simp [hfind]
    obtain ⟨isBreak, hmem, hlast⟩ := exists_of_findSome?_eq_some hfind
    obtain ⟨hlo, hhi, hb⟩ := lastBreak_some hlast
    rw [heq]
    exact Or.inl ⟨hlo, hhi, kBreaks_space hmem hb⟩
  | none =>
    right
    unfold findBreak
    simp [hfind]

theorem findBreak_bounds (t : Bytes) {start : ℕ} (h : start < hi) :
    start < findBreak t start hi ∧ findBreak t start hi ≤ hi := by
  rcases findBreak_cases t start hi with ⟨hlo, hhi, -⟩ | heq
  · exact ⟨by omega, hhi⟩
  · rw [heq]
    have hfloor := le_stepBack (fun b => isUtf8Continuation (byteAt t b)) (Nat.succ_le_of_lt h)
    exact ⟨hfloor, stepBack_le _ _ _⟩

theorem findBreak_boundary (ht : Utf8.Valid t) {start : ℕ} (hsize : start + 4 ≤ hi)
    (hhi : hi < t.length) : Utf8.Boundary t (findBreak t start hi) := by
  have hlt : start < hi := by omega
  have hbounds := findBreak_bounds t hlt
  rcases findBreak_cases t start hi with ⟨-, -, hspace | hspace⟩ | heq
  · exact boundary_after_space ht (by omega) hspace
  · exact boundary_at_space hspace
  · rw [heq] at hbounds ⊢
    by_cases hfloor : start + 1 < stepBack (start + 1) (fun b => isUtf8Continuation (byteAt t b)) hi
    · exact boundary_of_byteAt (stepBack_stopped hfloor)
    · have hstop : stepBack (start + 1) (fun b => isUtf8Continuation (byteAt t b)) hi = start + 1 := by omega
      have hpassed := stepBack_passed (start + 1) (fun b => isUtf8Continuation (byteAt t b)) hi
      rw [hstop] at hpassed ⊢
      obtain ⟨j, hj, hj4, hboundary⟩ := Utf8.exists_boundary ht (show start + 1 + 4 ≤ t.length by omega)
      rcases Nat.lt_or_eq_of_le hj with hgt | rfl
      · have hcont := hpassed j hgt (by omega)
        have hfalse := hboundary _ (byteAt_eq (by omega))
        rw [isUtf8Continuation_eq, hfalse] at hcont
        cases hcont
      · exact hboundary

def Chunk.stop (c : Chunk) : ℕ := c.offset + c.text.length

structure Trims (t : Bytes) (start stop : ℕ) (c : Chunk) : Prop where
  offset : c.offset = start
  text : c.text = (t.drop c.offset).take c.text.length
  nonempty : c.offset < c.stop
  inside : c.stop ≤ stop
  first : spaceAt t c.offset = false
  last : spaceAt t (c.stop - 1) = false
  rest : ∀ j, c.stop ≤ j → j < stop → spaceAt t j = true

theorem Trims.reaches {start stop j : ℕ} {c : Chunk} (h : Trims t start stop c) (hj : j < stop)
    (hword : spaceAt t j = false) : j < c.stop := by
  by_contra hnot
  rw [h.rest j (by omega) hj] at hword
  cases hword

theorem trimmed_trims {start stop : ℕ} (hword : spaceAt t start = false) (hlt : start < stop)
    (hstop : stop ≤ t.length) : Trims t start stop (trimmed t start stop) := by
  have hstart : stepForward stop (spaceAt t) start = start := stepForward_self hword
  have hle := stepBack_le start (fun i => spaceAt t (i - 1)) stop
  -- The first byte is no space, so the scan from the end stops after it.
  have hgt : start < stepBack start (fun i => spaceAt t (i - 1)) stop := by
    by_contra hnot
    have hpassed := stepBack_passed start (fun i => spaceAt t (i - 1)) stop (start + 1) (by omega) (by omega)
    simp only [Nat.add_sub_cancel] at hpassed
    rw [hword] at hpassed
    cases hpassed
  have hlen : (trimmed t start stop).text.length = stepBack start (fun i => spaceAt t (i - 1)) stop - start := by
    unfold trimmed
    simp only [hstart, length_take, length_drop]
    omega
  have hoffset : (trimmed t start stop).offset = start := by
    unfold trimmed
    simp [hstart]
  have hend : (trimmed t start stop).stop = stepBack start (fun i => spaceAt t (i - 1)) stop := by
    unfold Chunk.stop
    omega
  refine ⟨hoffset, ?_, by omega, by omega, by rw [hoffset]; exact hword, ?_, ?_⟩
  · rw [hlen]
    unfold trimmed
    simp [hstart]
  · rw [hend]
    exact stepBack_stopped hgt
  · intro j hj hlt
    have hpassed := stepBack_passed start (fun i => spaceAt t (i - 1)) stop (j + 1) (by omega) (by omega)
    simpa using hpassed

structure Follows (t : Bytes) (overlap pos stop next : ℕ) : Prop where
  progress : pos < next
  shared : stop ≤ next + overlap
  disjoint : overlap = 0 ∨ (stop ≤ pos + 2 ∧ spaceAt t pos = false) → stop ≤ next
  gap : ∀ j, stop ≤ j → j < next → spaceAt t j = true
  word : next < t.length → spaceAt t next = false
  boundary : next = stop ∨ spaceAt t (next - 1) = true

theorem stepBackOverlap_spec (t : Bytes) (overlap : ℕ) {stop : ℕ} (hlt : pos < stop) :
    pos < stepBackOverlap t overlap pos stop ∧ stepBackOverlap t overlap pos stop ≤ stop ∧
      stop ≤ stepBackOverlap t overlap pos stop + overlap ∧
      (stepBackOverlap t overlap pos stop = stop ∨
        (0 < overlap ∧ spaceAt t (stepBackOverlap t overlap pos stop - 1) = true)) := by
  unfold stepBackOverlap
  by_cases hoverlap : 0 < overlap
  · rw [if_pos hoverlap]
    simp only
    generalize hback : (if (if overlap < stop then stop - overlap else 0) ≤ pos then pos + 1
      else if overlap < stop then stop - overlap else 0) = back
    have hbounds : pos < back ∧ back ≤ stop ∧ stop ≤ back + overlap := by
      rw [← hback]
      split <;> split <;> omega
    have hle : back ≤ stepForward stop (fun i => !spaceAt t (i - 1)) back := le_stepForward
    have hstop : stepForward stop (fun i => !spaceAt t (i - 1)) back ≤ stop := stepForward_le hbounds.2.1
    refine ⟨by omega, hstop, by omega, ?_⟩
    rcases Nat.lt_or_eq_of_le hstop with hbefore | heq
    · have hstopped := stepForward_stopped hbefore
      exact Or.inr ⟨hoverlap, by simpa using hstopped⟩
    · exact Or.inl heq
  · rw [if_neg hoverlap]
    exact ⟨hlt, Nat.le_refl _, by omega, Or.inl rfl⟩

theorem skipSpace_word (t : Bytes) (i : ℕ) (h : skipSpace t i < t.length) :
    spaceAt t (skipSpace t i) = false := stepForward_stopped h

theorem follows_skipSpace (t : Bytes) (overlap : ℕ) {stop : ℕ} (hlt : pos < stop) :
    Follows t overlap pos stop (skipSpace t (stepBackOverlap t overlap pos stop)) := by
  obtain ⟨hpos, hstop, hshared, hboundary⟩ := stepBackOverlap_spec t overlap hlt
  have hle : stepBackOverlap t overlap pos stop ≤ skipSpace t (stepBackOverlap t overlap pos stop) :=
    le_stepForward
  have hpassed : ∀ j, stepBackOverlap t overlap pos stop ≤ j →
      j < skipSpace t (stepBackOverlap t overlap pos stop) → spaceAt t j = true := stepForward_passed
  refine ⟨by omega, by omega, fun hnone => ?_, fun j hj hnext => hpassed j (by omega) hnext,
    skipSpace_word t _, ?_⟩
  · rcases hboundary with heq | ⟨hsome, hspace⟩
    · omega
    · -- a step back into two bytes would end behind the first one, which is no space
      obtain ⟨hfew, hword⟩ := hnone.resolve_left (by omega)
      by_contra hbefore
      have hsecond : stepBackOverlap t overlap pos stop - 1 = pos := by omega
      rw [hsecond, hword] at hspace
      cases hspace
  rcases Nat.lt_or_eq_of_le hle with hskipped | heq
  · exact Or.inr (hpassed _ (by omega) (by omega))
  · rw [← heq]
    exact hboundary.imp id And.right

/- Where the window from `pos` ends, and where the next one starts. -/
def windowEnd (t : Bytes) (options : ChunkOptions) (pos : ℕ) : ℕ :=
  if t.length ≤ pos + options.size then t.length else findBreak t pos (pos + options.size)

def nextStart (t : Bytes) (options : ChunkOptions) (pos : ℕ) : ℕ :=
  skipSpace t (stepBackOverlap t options.overlap pos (windowEnd t options pos))

theorem windowEnd_eq {options : ChunkOptions} (h : pos + options.size < t.length) :
    windowEnd t options pos = findBreak t pos (pos + options.size) := if_neg (Nat.not_le.2 h)

variable {options : ChunkOptions}

theorem windowEnd_bounds (hsize : 0 < options.size) (hpos : pos < t.length) : pos < windowEnd t options pos ∧
    windowEnd t options pos ≤ t.length ∧ windowEnd t options pos ≤ pos + options.size := by
  unfold windowEnd
  split
  · omega
  · have hbounds := findBreak_bounds t (show pos < pos + options.size by omega)
    omega

inductive ChunkRun (t : Bytes) (options : ChunkOptions) : ℕ → List Chunk → Prop
  | done {pos : ℕ} (hpos : t.length ≤ pos) : ChunkRun t options pos []
  | last {pos : ℕ} {c : Chunk} (hpos : pos < t.length) (hsize : t.length ≤ pos + options.size)
      (hc : Trims t pos (windowEnd t options pos) c) : ChunkRun t options pos [c]
  | more {pos : ℕ} {c : Chunk} {chunks : List Chunk} (hsize : pos + options.size < t.length)
      (hc : Trims t pos (windowEnd t options pos) c)
      (hnext : Follows t options.overlap pos (windowEnd t options pos) (nextStart t options pos))
      (hrest : ChunkRun t options (nextStart t options pos) chunks) : ChunkRun t options pos (c :: chunks)

theorem pushChunk_of_trims {start stop : ℕ} {c : Chunk} (h : Trims t start stop c)
    (chunks : List Chunk) : pushChunk c chunks = c :: chunks := by
  have hlen := h.nonempty
  unfold Chunk.stop at hlen
  unfold pushChunk
  rw [if_neg (length_pos_iff.1 (by omega))]

/- Every window moves on by a byte at least, so the length of the rest is fuel enough. -/
theorem chunkLoop_run (t : Bytes) (hsize : 0 < options.size) (fuel pos : ℕ)
    (hfuel : t.length - pos < fuel) (hword : pos < t.length → spaceAt t pos = false) :
    ∃ chunks, chunkLoop t options fuel pos = some chunks ∧ ChunkRun t options pos chunks := by
  induction fuel generalizing pos with
  | zero => exact absurd hfuel (Nat.not_lt_zero _)
  | succ fuel ih =>
    unfold chunkLoop
    by_cases hend : t.length ≤ pos
    · rw [if_pos hend]
      exact ⟨[], rfl, .done hend⟩
    · have hpos : pos < t.length := Nat.lt_of_not_le hend
      have hbounds := windowEnd_bounds hsize hpos
      have htrims := trimmed_trims (hword hpos) hbounds.1 hbounds.2.1
      rw [if_neg hend]
      by_cases hlast : t.length - pos ≤ options.size
      · have hstop : windowEnd t options pos = t.length := if_pos (by omega)
        rw [if_pos hlast, ← hstop, pushChunk_of_trims htrims]
        exact ⟨_, rfl, .last hpos (by omega) htrims⟩
      · have hfollows : Follows t options.overlap pos (windowEnd t options pos) (nextStart t options pos) :=
          follows_skipSpace t options.overlap hbounds.1
        obtain ⟨chunks, hloop, hrun⟩ := ih _ (by have := hfollows.progress; omega) hfollows.word
        rw [if_neg hlast, ← windowEnd_eq (by omega)]
        change ∃ chunks, (chunkLoop t options fuel (nextStart t options pos)).map _ = some chunks ∧ _
        rw [hloop, Option.map_some, pushChunk_of_trims htrims]
        exact ⟨_, rfl, .more (by omega) htrims hfollows hrun⟩

theorem chunkLoop_more {fuel fuel' : ℕ} {chunks : List Chunk} (h : chunkLoop
    t options fuel pos = some chunks) (hle : fuel ≤ fuel') : chunkLoop t options fuel' pos = some chunks := by
  induction fuel generalizing fuel' pos chunks with
  | zero => cases h
  | succ fuel ih =>
    obtain ⟨fuel', rfl⟩ : ∃ k, fuel' = k + 1 := ⟨fuel' - 1, by omega⟩
    unfold chunkLoop at h ⊢
    by_cases hend : t.length ≤ pos
    · rw [if_pos hend] at h ⊢
      exact h
    · rw [if_neg hend] at h ⊢
      by_cases hlast : t.length - pos ≤ options.size
      · rw [if_pos hlast] at h ⊢
        exact h
      · rw [if_neg hlast] at h ⊢
        obtain ⟨rest, hrest, hpush⟩ := Option.map_eq_some_iff.1 h
        have hmore := ih hrest (Nat.le_of_succ_le_succ hle)
        simp [hmore, hpush]

section Run

variable {t : Bytes} {options : ChunkOptions} {pos : ℕ} {chunks : List Chunk}

variable {c : Chunk}

theorem ChunkRun.head (h : ChunkRun t options pos (c :: chunks)) :
    pos < t.length ∧ Trims t pos (windowEnd t options pos) c := by
  cases h with
  | last hpos _ hc => exact ⟨hpos, hc⟩
  | more hsize hc => exact ⟨by omega, hc⟩

theorem ChunkRun.trims (h : ChunkRun t options pos chunks) :
    ∀ c ∈ chunks, ∃ start < t.length, Trims t start (windowEnd t options start) c := by
  induction h with
  | done => exact nofun
  | last hpos _ hc => exact forall_mem_singleton.2 ⟨_, hpos, hc⟩
  | more hsize hc _ _ ih => exact forall_mem_cons.2 ⟨⟨_, by omega, hc⟩, ih⟩

/- What relates the chunks of two windows that follow each other. -/
theorem ChunkRun.chain {R : Chunk → Chunk → Prop} (h : ChunkRun t options pos chunks)
    (hR : ∀ pos c d, pos < t.length → Trims t pos (windowEnd t options pos) c →
      Follows t options.overlap pos (windowEnd t options pos) (nextStart t options pos) →
      Trims t (nextStart t options pos) (windowEnd t options (nextStart t options pos)) d → R c d) :
    chunks.IsChain R := by
  induction h with
  | done => exact .nil
  | last => exact .singleton _
  | @more pos c chunks hbig hc hnext hrest ih =>
    cases chunks with
    | nil => exact .singleton _
    | cons d chunks => exact isChain_cons_cons.2 ⟨hR pos c d (by omega) hc hnext hrest.head.2, ih⟩

theorem ChunkRun.starts (h : ChunkRun t options pos chunks) : chunks.Pairwise fun a b => a.offset < b.offset := by
  have htrans : IsTrans Chunk fun a b => a.offset < b.offset := ⟨fun _ _ _ => Nat.lt_trans⟩
  refine isChain_iff_pairwise.1 (h.chain fun pos c d _ hc hnext hd => ?_)
  rw [hc.offset, hd.offset]
  exact hnext.progress

theorem ChunkRun.covered (h : ChunkRun t options pos chunks) :
    ∀ i, pos ≤ i → i < t.length → spaceAt t i = false → ∃ c ∈ chunks, c.offset ≤ i ∧ i < c.stop := by
  induction h with
  | done hpos =>
    omega
  | @last pos c hpos hfit hc =>
    intro i hi hlen hword
    have hstop : windowEnd t options pos = t.length := if_pos hfit
    exact ⟨c, mem_singleton_self c, hc.offset.trans_le hi, hc.reaches (by omega) hword⟩
  | @more pos c chunks hbig hc hnext hrest ih =>
    intro i hi hlen hword
    by_cases hin : i < windowEnd t options pos
    · exact ⟨c, mem_cons_self, hc.offset.trans_le hi, hc.reaches hin hword⟩
    · have hafter : nextStart t options pos ≤ i := by
        by_contra hbefore
        rw [hnext.gap i (by omega) (by omega)] at hword
        cases hword
      obtain ⟨d, hd, hcover⟩ := ih i hafter hlen hword
      exact ⟨d, mem_cons_of_mem _ hd, hcover⟩

theorem Trims.boundary {start stop : ℕ} (h : Trims t start stop c)
    (hstop : Utf8.Boundary t stop) : Utf8.Boundary t c.stop := by
  rcases Nat.lt_or_eq_of_le h.inside with hbefore | heq
  · exact boundary_at_space (h.rest c.stop (Nat.le_refl _) hbefore)
  · rw [heq]
    exact hstop

theorem ChunkRun.utf8 (ht : Utf8.Valid t) (hsize : 4 ≤ options.size) (h : ChunkRun t options pos chunks)
    (hpos : Utf8.Boundary t pos) : ∀ c ∈ chunks, Utf8.Boundary t c.offset ∧ Utf8.Boundary t c.stop := by
  induction h with
  | done => exact nofun
  | last hin hfit hc =>
    refine forall_mem_singleton.2 ⟨by rwa [hc.offset], hc.boundary ?_⟩
    rw [windowEnd, if_pos hfit]
    exact Utf8.boundary_of_length_le t _ (Nat.le_refl _)
  | @more pos c chunks hbig hc hnext hrest ih =>
    have hstop := findBreak_boundary ht (show pos + 4 ≤ pos + options.size by omega) hbig
    rw [← windowEnd_eq hbig] at hstop
    refine forall_mem_cons.2 ⟨⟨by rwa [hc.offset], hc.boundary hstop⟩, ih ?_⟩
    rcases hnext.boundary with heq | hspace
    · rwa [heq]
    · have hprogress := hnext.progress
      exact boundary_after_space ht (by omega) hspace

end Run

structure ChunkedText (t : Bytes) (options : ChunkOptions) (chunks : List Chunk) : Prop where
  views : ∀ c ∈ chunks, c.stop ≤ t.length ∧ c.text = (t.drop c.offset).take c.text.length
  nonempty : ∀ c ∈ chunks, c.text ≠ []
  trimmed : ∀ c ∈ chunks, spaceAt t c.offset = false ∧ spaceAt t (c.stop - 1) = false
  size : ∀ c ∈ chunks, c.text.length ≤ options.size
  starts : chunks.Pairwise fun a b => a.offset < b.offset
  covered : ∀ i, i < t.length → spaceAt t i = false → ∃ c ∈ chunks, c.offset ≤ i ∧ i < c.stop
  shared : chunks.IsChain fun a b => a.stop ≤ b.offset + options.overlap
  utf8 : Utf8.Valid t → 4 ≤ options.size → ∀ c ∈ chunks, Utf8.Boundary t c.offset ∧ Utf8.Boundary t c.stop

theorem boundary_skipSpace (ht : Utf8.Valid t) : Utf8.Boundary t (skipSpace t 0) := by
  by_cases hzero : skipSpace t 0 = 0
  · rw [hzero, ← Utf8.valid_take_iff t 0 ht]
    exact Utf8.valid_nil
  · refine boundary_after_space ht (by omega) ?_
    have hpassed : ∀ j, 0 ≤ j → j < skipSpace t 0 → spaceAt t j = true := stepForward_passed
    exact hpassed _ (Nat.zero_le _) (by omega)

theorem ChunkRun.chunked
    (hsize : 0 < options.size) (h : ChunkRun t options (skipSpace t 0) chunks) : ChunkedText t options chunks where
  views := by
    intro c hmem
    obtain ⟨start, hstart, hc⟩ := h.trims c hmem
    exact ⟨hc.inside.trans (windowEnd_bounds hsize hstart).2.1, hc.text⟩
  nonempty := by
    intro c hmem
    obtain ⟨start, -, hc⟩ := h.trims c hmem
    have hlt := hc.nonempty
    unfold Chunk.stop at hlt
    exact length_pos_iff.1 (by omega)
  trimmed := by
    intro c hmem
    obtain ⟨start, -, hc⟩ := h.trims c hmem
    exact ⟨hc.first, hc.last⟩
  size := by
    intro c hmem
    obtain ⟨start, hstart, hc⟩ := h.trims c hmem
    have hbounds := windowEnd_bounds hsize hstart
    have hoffset := hc.offset
    have hinside := hc.inside
    unfold Chunk.stop at hinside
    omega
  starts := h.starts
  covered := by
    intro i hlen hword
    refine h.covered i ?_ hlen hword
    by_contra hbefore
    have hpassed : ∀ j, 0 ≤ j → j < skipSpace t 0 → spaceAt t j = true := stepForward_passed
    rw [hpassed i (Nat.zero_le _) (by omega)] at hword
    cases hword
  shared := h.chain fun pos c d _ hc hnext hd => by
    rw [hd.offset]
    exact hc.inside.trans hnext.shared
  utf8 := fun ht hfour => h.utf8 ht hfour (boundary_skipSpace ht)

theorem chunkText_run (text : Bytes) (hsize : 0 < options.size) (hoverlap : options.overlap < options.size) :
    ∃ chunks, (∀ fuel, text.length < fuel → chunkText fuel text options = some (.ok chunks)) ∧
      ChunkRun text options (skipSpace text 0) chunks := by
  obtain ⟨chunks, hloop, hrun⟩ := chunkLoop_run text hsize (text.length + 1) (skipSpace text 0) (by omega)
    (skipSpace_word text 0)
  refine ⟨chunks, ?_, hrun⟩
  intro fuel hfuel
  unfold chunkText
  rw [if_neg (by omega), if_neg (by omega), chunkLoop_more hloop hfuel]
  rfl

/-- For every text and all accepted options the chunks are trimmed, non-empty views of at most `size`
bytes with increasing starts that cover the text; neighbours share at most `overlap` bytes, and no
UTF-8 sequence is cut when `size` allows it. -/
theorem chunkText_covers (text : Bytes) (options : ChunkOptions) (hsize : 0 < options.size)
    (hoverlap : options.overlap < options.size) :
    ∃ chunks, (∀ fuel, text.length < fuel → chunkText fuel text options = some (.ok chunks)) ∧
      ChunkedText text options chunks := by
  obtain ⟨chunks, hreturns, hrun⟩ := chunkText_run text hsize hoverlap
  exact ⟨chunks, hreturns, hrun.chunked hsize⟩

theorem chunkText_covers_note : ∃ chunks,
    (∀ fuel, (lit "a . ").length < fuel →
      chunkText fuel (lit "a . ") { size := 3, overlap := 1 } = some (.ok chunks)) ∧
    ChunkedText (lit "a . ") { size := 3, overlap := 1 } chunks :=
  chunkText_covers (lit "a . ") { size := 3, overlap := 1 } (by decide) (by decide)

theorem Trims.stop_lt_iff {start stop next stop' : ℕ} {c d : Chunk} (hc : Trims t start stop c)
    (hd : Trims t next stop' d) : c.stop < d.stop ↔ ∃ j, stop ≤ j ∧ j < stop' ∧ spaceAt t j = false := by
  have hcin := hc.inside
  have hdin := hd.inside
  have hdpos := hd.nonempty
  constructor
  · intro hlt
    refine ⟨d.stop - 1, ?_, by omega, hd.last⟩
    by_contra hbefore
    have hspace := hc.rest (d.stop - 1) (by omega) (by omega)
    rw [hd.last] at hspace
    cases hspace
  · rintro ⟨j, hj, hj', hword⟩
    have := hd.reaches hj' hword
    omega

/- The windows that follow the one from `pos`. -/
inductive Reaches (t : Bytes) (options : ChunkOptions) : ℕ → ℕ → Prop
  | refl (pos : ℕ) : Reaches t options pos pos
  | step {pos later : ℕ} (hsize : pos + options.size < t.length)
      (hrest : Reaches t options (nextStart t options pos) later) : Reaches t options pos later

/- The next window, if there is one, has a word byte behind the break of this one. -/
def NewWord (t : Bytes) (options : ChunkOptions) (pos : ℕ) : Prop :=
  pos + options.size < t.length → nextStart t options pos < t.length →
    ∃ j, windowEnd t options pos ≤ j ∧ j < windowEnd t options (nextStart t options pos) ∧ spaceAt t j = false

theorem newWords_of_end (h : t.length ≤ pos + options.size) :
    ∀ later, Reaches t options pos later → NewWord t options later := by
  intro later hreach hsize
  cases hreach with
  | refl => omega
  | step hmore hrest => omega

theorem newWords_step (h : pos + options.size < t.length) :
    (∀ later, Reaches t options pos later → NewWord t options later) ↔
      NewWord t options pos ∧ ∀ later, Reaches t options (nextStart t options pos) later → NewWord t options later := by
  constructor
  · exact fun hall => ⟨hall pos (.refl pos), fun later hreach => hall later (.step h hreach)⟩
  · rintro ⟨hhere, hrest⟩ later hreach
    cases hreach with
    | refl => exact hhere
    | step hmore hreach => exact hrest later hreach

theorem ChunkRun.adds_iff (h : ChunkRun t options pos chunks) :
    (chunks.IsChain fun a b => a.stop < b.stop) ↔
      ∀ later, Reaches t options pos later → NewWord t options later := by
  induction h with
  | done hpos => exact iff_of_true List.IsChain.nil (newWords_of_end (by omega))
  | last hpos hfit hc => exact iff_of_true (List.IsChain.singleton _) (newWords_of_end hfit)
  | @more pos c chunks hbig hc hnext hrest ih =>
    rw [newWords_step hbig, ← ih]
    cases chunks with
    | nil =>
      -- no chunk follows: the rest of the text is whitespace, and the next window starts at its end
      refine iff_of_true (List.IsChain.singleton _) ⟨fun _ hin => ?_, List.IsChain.nil⟩
      obtain ⟨d, hd, -⟩ := hrest.covered _ (Nat.le_refl _) hin (hnext.word hin)
      cases hd
    | cons d chunks =>
      obtain ⟨hin, hd⟩ := hrest.head
      have hword : c.stop < d.stop ↔ NewWord t options pos := by
        rw [hc.stop_lt_iff hd, NewWord]
        exact ⟨fun hex _ _ => hex, fun hnew => hnew hbig hin⟩
      rw [isChain_cons_cons, hword]

/- Every chunk ends after the one before it. -/
def AddsText (text : Bytes) (options : ChunkOptions) : Prop :=
  ∃ chunks, (∀ fuel, text.length < fuel → chunkText fuel text options = some (.ok chunks)) ∧
    chunks.IsChain fun a b => a.stop < b.stop

theorem addsText_iff (text : Bytes) (hsize : 0 < options.size) (hoverlap : options.overlap < options.size) :
    AddsText text options ↔ ∀ pos, Reaches text options (skipSpace text 0) pos → NewWord text options pos := by
  obtain ⟨chunks, hreturns, hrun⟩ := chunkText_run text hsize hoverlap
  rw [← hrun.adds_iff]
  constructor
  · rintro ⟨chunks', hreturns', hchain⟩
    have hsame := (hreturns _ (Nat.lt_succ_self _)).symm.trans (hreturns' _ (Nat.lt_succ_self _))
    cases hsame
    exact hchain
  · exact fun hchain => ⟨chunks, hreturns, hchain⟩

/- Without an overlap, or with windows of two bytes, no window starts before the break of the last. -/
theorem ChunkRun.adds_of_disjoint (hsize : 0 < options.size) (hnone : options.overlap = 0 ∨ options.size ≤ 2)
    (h : ChunkRun t options pos chunks) : chunks.IsChain fun a b => a.stop < b.stop := by
  refine h.chain fun pos c d hpos hc hnext hd => ?_
  have hbounds := windowEnd_bounds hsize hpos
  have hword : spaceAt t pos = false := hc.offset ▸ hc.first
  have hafter := hnext.disjoint (hnone.imp id fun hfew => ⟨by omega, hword⟩)
  have hinside := hc.inside
  have hstart := hd.offset
  have hnonempty := hd.nonempty
  omega

/- A word, a full stop and a blank: one byte more than a window. -/
def doubledText (n : ℕ) : Bytes := replicate (n + 1) 0x61 ++ [0x20, 0x2E, 0x20]

theorem doubledText_length (n : ℕ) : (doubledText n).length = n + 4 := by
  rw [doubledText, length_append, length_replicate]
  rfl

theorem byteAt_word {n i : ℕ} (hi : i < n + 1) : byteAt (doubledText n) i = 0x61 := by
  unfold byteAt doubledText
  rw [getD_append _ _ _ _ (by rwa [length_replicate]), getD_replicate _ hi]

theorem byteAt_tail (n i : ℕ) : byteAt (doubledText n) (n + 1 + i) = [0x20, 0x2E, 0x20].getD i 0 := by
  unfold byteAt doubledText
  rw [getD_append_right _ _ _ _ (by rw [length_replicate]; omega), length_replicate, Nat.add_sub_cancel_left]

theorem byteAt_doubledText {n i : ℕ} (hi : i ≤ n + 2) : (i < n + 1 ∧ byteAt (doubledText n) i = 0x61) ∨
    (i = n + 1 ∧ byteAt (doubledText n) i = 0x20) ∨ (i = n + 2 ∧ byteAt (doubledText n) i = 0x2E) := by
  rcases Nat.lt_or_ge i (n + 1) with hword | htail
  · exact Or.inl ⟨hword, byteAt_word hword⟩
  · obtain rfl | rfl : i = n + 1 ∨ i = n + 2 := by omega
    · exact Or.inr (Or.inl ⟨rfl, byteAt_tail n 0⟩)
    · exact Or.inr (Or.inr ⟨rfl, byteAt_tail n 1⟩)

theorem lastBreak_none {isBreak : ℕ → Bool} {lo : ℕ} (h : ∀ b, b ≤ hi → isBreak b = false) :
    lastBreak isBreak lo hi = none := by
  cases hlast : lastBreak isBreak lo hi with
  | none => rfl
  | some b =>
    obtain ⟨-, hle, hb⟩ := lastBreak_some hlast
    rw [h b hle] at hb
    cases hb

theorem lastBreak_self {isBreak : ℕ → Bool} {lo : ℕ} (hlo : lo < hi) (h : isBreak hi = true) :
    lastBreak isBreak lo hi = some hi := by
  have hself : stepBack lo (fun b => !isBreak b) hi = hi := by
    refine Nat.le_antisymm (stepBack_le _ _ _) (Nat.le_of_not_lt fun hlt => ?_)
    have hpassed := stepBack_passed lo (fun b => !isBreak b) hi hi hlt (Nat.le_refl _)
    simp [h] at hpassed
  unfold lastBreak
  simp only [hself, if_pos hlo]

/- The strongest break in the window is the one between the full stop and the blank. -/
theorem findBreak_doubledText (n : ℕ) : findBreak (doubledText n) 0 (n + 3) = n + 3 := by
  have hnewline : ∀ b, b ≤ n + 3 → byteAt (doubledText n) (b - 1) ≠ 0x0A := by
    intro b hb
    rcases byteAt_doubledText (show b - 1 ≤ n + 2 by omega) with ⟨-, h⟩ | ⟨-, h⟩ | ⟨-, h⟩ <;> rw [h] <;> decide
  have hparagraph : ∀ b, b ≤ n + 3 → paragraphBreak (doubledText n) 0 b = false :=
    fun b hb => if_pos (Or.inl (hnewline b hb))
  have hline : ∀ b, b ≤ n + 3 → lineBreak (doubledText n) 0 b = false := fun b hb => decide_eq_false (hnewline b hb)
  have hsentence : ∀ b, b ≤ n + 3 → sentenceBreak (doubledText n) 0 b = false := by
    intro b hb
    unfold sentenceBreak spaceAt
    rcases byteAt_doubledText (show b - 1 ≤ n + 2 by omega) with ⟨-, h⟩ | ⟨hat, h⟩ | ⟨-, h⟩
    · simp [h, isSpace]
    · rw [byteAt_word (show b - 2 < n + 1 by omega)]
      simp
    · simp [h, isSpace]
  have hword : wordBreak (doubledText n) 0 (n + 3) = true := by
    unfold wordBreak spaceAt
    rw [byteAt_tail n 2]
    exact Bool.or_true _
  unfold findBreak kBreaks
  simp only [findSome?_cons, findSome?_nil]
  rw [lastBreak_none hparagraph, lastBreak_none hline, lastBreak_none hsentence, lastBreak_self (by omega) hword]

theorem stepBackOverlap_doubledText (n : ℕ) {overlap : ℕ} (hoverlap : 0 < overlap) :
    stepBackOverlap (doubledText n) overlap 0 (n + 3) = n + 2 := by
  unfold stepBackOverlap
  rw [if_pos hoverlap]
  simp only
  generalize hback : (if (if overlap < n + 3 then n + 3 - overlap else 0) ≤ 0 then 0 + 1
    else if overlap < n + 3 then n + 3 - overlap else 0) = back
  have hbounds : 0 < back ∧ back ≤ n + 2 := by
    rw [← hback]
    split <;> split <;> omega
  have hblank : spaceAt (doubledText n) (n + 1) = true := by
    rw [spaceAt, byteAt_tail n 0]
    rfl
  have hle : stepForward (n + 3) (fun i => !spaceAt (doubledText n) (i - 1)) back ≤ n + 2 := by
    by_contra hpast
    have hpassed := stepForward_passed (n + 2) hbounds.2 (Nat.lt_of_not_le hpast)
    simp [hblank] at hpassed
  have hge : back ≤ stepForward (n + 3) (fun i => !spaceAt (doubledText n) (i - 1)) back := le_stepForward
  have hstopped := stepForward_stopped (Nat.lt_succ_of_le hle)
  generalize stepForward (n + 3) (fun i => !spaceAt (doubledText n) (i - 1)) back = i at hle hge hstopped
  rcases byteAt_doubledText (show i - 1 ≤ n + 2 by omega) with ⟨-, h⟩ | ⟨hat, -⟩ | ⟨hat, -⟩
  · simp [spaceAt, h, isSpace] at hstopped
  · omega
  · omega

theorem doubledText_repeats (n : ℕ) (hsize : options.size = n + 3) (hoverlap : 0 < options.overlap)
    (hless : options.overlap < options.size) : ¬ AddsText (doubledText n) options := by
  have hlength := doubledText_length n
  have hfirst : spaceAt (doubledText n) 0 = false := by
    rw [spaceAt, byteAt_word (Nat.succ_pos n)]
    rfl
  have hstop : spaceAt (doubledText n) (n + 2) = false := by
    rw [spaceAt, byteAt_tail n 1]
    rfl
  have hzero : skipSpace (doubledText n) 0 = 0 := stepForward_self hfirst
  have hend : windowEnd (doubledText n) options 0 = n + 3 := by
    rw [windowEnd_eq (by omega), hsize, Nat.zero_add, findBreak_doubledText]
  have hnext : nextStart (doubledText n) options 0 = n + 2 := by
    rw [nextStart, hend, stepBackOverlap_doubledText n hoverlap]
    exact stepForward_self hstop
  rw [addsText_iff _ (by omega) hless, hzero]
  intro hall
  obtain ⟨j, hj, hlast, hword⟩ := hall 0 (.refl 0) (by omega) (by omega)
  rw [hnext, windowEnd, if_pos (by omega)] at hlast
  obtain rfl : j = n + 1 + 2 := by omega
  rw [spaceAt, byteAt_tail n 2] at hword
  cases hword

/-- Every chunk of a text ends after the one before it if and only if each window that follows another
has a word byte behind that one's break; the options under which this holds for every text are those
without an overlap and those with windows of at most two bytes. -/
theorem chunkText_adds (options : ChunkOptions) (hsize : 0 < options.size) (hoverlap : options.overlap < options.size) :
    (∀ text, AddsText text options ↔
      ∀ pos, Reaches text options (skipSpace text 0) pos → NewWord text options pos) ∧
    ((∀ text, AddsText text options) ↔ options.overlap = 0 ∨ options.size ≤ 2) := by
  refine ⟨fun text => addsText_iff text hsize hoverlap, fun hall => ?_, fun hnone text => ?_⟩
  · by_contra hsome
    simp only [not_or, Nat.not_le] at hsome
    exact doubledText_repeats (options.size - 3) (by omega) (by omega) hoverlap (hall _)
  · obtain ⟨chunks, hreturns, hrun⟩ := chunkText_run text hsize hoverlap
    exact ⟨chunks, hreturns, hrun.adds_of_disjoint hsize hnone⟩

theorem chunkText_adds_words : AddsText (lit "ab cd ef") { size := 5, overlap := 0 } :=
  ((chunkText_adds { size := 5, overlap := 0 } (by decide) (by decide)).2.2 (Or.inl rfl)) _

/- The full stop is the second chunk once more, because only a blank follows it. -/
theorem chunkText_repeats : ∃ a b, chunkText 5 (lit "a . ") { size := 3, overlap := 1 } = some (.ok [a, b]) ∧
    a.offset ≤ b.offset ∧ b.stop ≤ a.stop := by
  refine ⟨⟨0, lit "a ."⟩, ⟨2, lit "."⟩, ?_, ?_, ?_⟩
  · rfl
  · decide
  · decide

end AgentCpp.Rag
