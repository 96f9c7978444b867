import AgentCpp.Core.Types
import AgentCpp.Lib.Lists

/-!
# Pooled decodes of the llama engine (`pooled_decode`)

Embedding and reranking pack several inputs into one decode, each on a sequence of its own, and copy
the pooled output of each sequence into its row of the result.
-/

namespace AgentCpp.Engines.Pool
open Lib List

structure BatchToken (τ : Type) where
  token : τ
  pos : ℕ
  seq : ℕ
  deriving DecidableEq

def kPoolSeqs : ℕ := 16

/- The context: whether a batch decodes, and the pooled output of a sequence after it. The memory is cleared before
every decode. -/
structure Context (τ F : Type) where
  nBatch : ℕ
  nSeqMax : ℕ
  zero : F
  decode : List (BatchToken τ) → Bool
  embeddingsSeq : List (BatchToken τ) → ℕ → Option (List F)
  oneSeq : 0 < nSeqMax

variable {τ F : Type}

def seqTokens (seq : ℕ) (input : List τ) : List (BatchToken τ) := input.zipIdx.map fun p => ⟨p.1, p.2, seq⟩

/- The inner loop: the batch, and the inputs that wait for the next one. -/
def fillBatch (nBatch nSeqMax : ℕ) : ℕ → List (BatchToken τ) → List (List τ) → List (BatchToken τ) × List (List τ)
  | _, batch, [] => (batch, [])
  | seq, batch, input :: rest =>
    if seq < nSeqMax ∧ batch.length + input.length ≤ nBatch then
      fillBatch nBatch nSeqMax (seq + 1) (batch ++ seqTokens seq input) rest
    else (batch, input :: rest)

structure Pooled (τ F : Type) where
  error : Option Error := none
  out : List F
  batches : List (List (BatchToken τ)) := []

/- Rows `first + s` up to `first + s + left`; false if a sequence has no output. -/
def copyRows (ctx : Context τ F) (nOut : ℕ) (batch : List (BatchToken τ)) (first : ℕ) : ℕ → ℕ → List F → Bool × List F
  | _, 0, out => (true, out)
  | s, left + 1, out =>
    match ctx.embeddingsSeq batch s with
    | none => (false, out)
    | some e => copyRows ctx nOut batch first (s + 1) left (overwrite out ((first + s) * nOut) (e.take nOut))

def Context.seqs (ctx : Context τ F) : ℕ := min kPoolSeqs ctx.nSeqMax

def pooledLoop (ctx : Context τ F) (nOut : ℕ) (cancel : ℕ → Bool) : ℕ → ℕ → Pooled τ F → List (List τ) → Option (Pooled τ F)
  | _, _, r, [] => some r
  | 0, _, _, _ :: _ => none
  | fuel + 1, first, r, input :: inputs =>
    if cancel first then some { r with error := some ⟨.cancelled, lit "llama: cancelled"⟩ }
    else
      let filled := fillBatch ctx.nBatch ctx.seqs 0 [] (input :: inputs)
      let taken := inputs.length + 1 - filled.2.length
      if taken = 0 then some { r with error := some ⟨.invalidConfig, lit "llama: empty input"⟩ }
      else
        let r := { r with batches := r.batches ++ [filled.1] }
        if !ctx.decode filled.1 then some { r with error := some ⟨.decodeFailed, lit "llama: embedding decode failed"⟩ }
        else
          match copyRows ctx nOut filled.1 first 0 taken r.out with
          | (false, out) =>
            some { r with out := out, error := some ⟨.decodeFailed, lit "llama: the context produced no pooled output"⟩ }
          | (true, out) => pooledLoop ctx nOut cancel fuel (first + taken) { r with out := out } filled.2

def pooledDecode (ctx : Context τ F) (inputs : List (List τ)) (nOut : ℕ) (cancel : ℕ → Bool) : Option (Pooled τ F) :=
  pooledLoop ctx nOut cancel inputs.length 0 { out := List.replicate (inputs.length * nOut) ctx.zero } inputs

def packed : ℕ → List (List τ) → List (BatchToken τ)
  | _, [] => []
  | seq, input :: inputs => seqTokens seq input ++ packed (seq + 1) inputs

def pooledRow (ctx : Context τ F) (nOut : ℕ) (batch : List (BatchToken τ)) (s : ℕ) : List F :=
  ((ctx.embeddingsSeq batch s).getD []).take nOut

section Packing

variable {ctx : Context τ F} {nBatch nSeqMax nOut : ℕ}

theorem fillBatch_spec (nBatch : ℕ) (inputs : List (List τ)) (seq : ℕ) (batch : List (BatchToken τ)) (hseq : seq ≤ nSeqMax)
    (hbatch : batch.length ≤ nBatch) : ∃ g, inputs = g ++ (fillBatch nBatch nSeqMax seq batch inputs).2 ∧
      (fillBatch nBatch nSeqMax seq batch inputs).1 = batch ++ packed seq g ∧ seq + g.length ≤ nSeqMax ∧
      (batch ++ packed seq g).length ≤ nBatch := by
  induction inputs generalizing seq batch with
  | nil => exact ⟨[], rfl, by simp [fillBatch, packed], hseq, by simpa [packed] using hbatch⟩
  | cons input rest ih =>
    unfold fillBatch
    split
    · next hfits =>
      obtain ⟨g, hrest, hbatch', hseqs, htokens⟩ :=
        ih (seq + 1) (batch ++ seqTokens seq input) hfits.1 (by simp [seqTokens]; omega)
      refine ⟨input :: g, congrArg _ hrest, ?_, by simp; omega, ?_⟩
      · rw [hbatch', packed, append_assoc]
      · rwa [packed, ← append_assoc]
    · exact ⟨[], rfl, by simp [packed], hseq, by simpa [packed] using hbatch⟩

theorem fillBatch_ne {input : List τ} (inputs : List (List τ)) (hseq : 0 < nSeqMax) (hfits : input.length ≤ nBatch) :
    (fillBatch nBatch nSeqMax 0 [] (input :: inputs)).2.length < inputs.length + 1 := by
  have hshrinks : ∀ (inputs : List (List τ)) (seq : ℕ) (batch : List (BatchToken τ)),
      (fillBatch nBatch nSeqMax seq batch inputs).2.length ≤ inputs.length := by
    intro inputs
    induction inputs with
    | nil => exact fun _ _ => Nat.le_refl 0
    | cons x xs ih =>
      intro seq batch
      unfold fillBatch
      split
      · exact (ih _ _).trans (Nat.le_succ _)
      · exact Nat.le_refl _
  unfold fillBatch
  rw [if_pos ⟨hseq, by simpa using hfits⟩]
  exact Nat.lt_succ_of_le (hshrinks inputs _ _)

theorem packed_seq {g : List (List τ)} (hne : ∀ x ∈ g, x ≠ []) (seq : ℕ) {s : ℕ} (hs : s < g.length) :
    ∃ t ∈ packed seq g, t.seq = seq + s := by
  induction g generalizing seq s with
  | nil => cases hs
  | cons x g ih =>
    cases s with
    | zero =>
      obtain ⟨a, x, rfl⟩ := exists_cons_of_ne_nil (hne x (mem_cons_self ..))
      exact ⟨⟨a, 0, seq⟩, by simp [packed, seqTokens], rfl⟩
    | succ s =>
      obtain ⟨t, ht, hseq⟩ := ih (fun y hy => hne y (mem_cons_of_mem _ hy)) (seq + 1) (Nat.lt_of_succ_lt_succ hs)
      exact ⟨t, mem_append_right _ ht, by omega⟩

theorem copyRows_spec (batch : List (BatchToken τ)) (first s left : ℕ)
    (hrows : ∀ i, s ≤ i → i < s + left → ∃ e, ctx.embeddingsSeq batch i = some e ∧ nOut ≤ e.length)
    (done zeros : List F) (hdone : done.length = (first + s) * nOut) :
    copyRows ctx nOut batch first s left (done ++ zeros) =
      (true, done ++ (List.range' s left).flatMap (pooledRow ctx nOut batch) ++ zeros.drop (left * nOut)) := by
  induction left generalizing s done zeros with
  | zero => simp [copyRows]
  | succ left ih =>
    obtain ⟨e, he, hlength⟩ := hrows s (Nat.le_refl s) (by omega)
    have hrow : pooledRow ctx nOut batch s = e.take nOut := by simp [pooledRow, he]
    have hwidth : (e.take nOut).length = nOut := by simp [hlength]
    have hrest := ih (s + 1) (fun i hi hlt => hrows i (by omega) (by omega)) (done ++ e.take nOut) (zeros.drop nOut)
      (by simp [hdone, hwidth]; ring)
    simp only [copyRows, he]
    rw [← hdone, overwrite_append, hwidth, hrest]
    simp [List.range'_succ, hrow, Nat.succ_mul, Nat.add_comm]

def groupRows (ctx : Context τ F) (nOut : ℕ) (g : List (List τ)) : List F :=
  (List.range' 0 g.length).flatMap (pooledRow ctx nOut (packed 0 g))

theorem length_groupRows {g : List (List τ)}
    (hrows : ∀ i < g.length, ∃ e, ctx.embeddingsSeq (packed 0 g) i = some e ∧ nOut ≤ e.length) :
    (groupRows ctx nOut g).length = g.length * nOut := by
  have hwidth : ∀ i ∈ List.range' 0 g.length, (pooledRow ctx nOut (packed 0 g) i).length = nOut := by
    intro i hi
    obtain ⟨e, he, hlength⟩ := hrows i (by simpa using hi)
    simp [pooledRow, he, hlength]
  simp [groupRows, map_congr_left hwidth]

structure Batches (ctx : Context τ F) (inputs : List (List τ)) (groups : List (List (List τ))) : Prop where
  each : groups.flatten = inputs
  seqs : ∀ g ∈ groups, g.length ≤ ctx.seqs
  tokens : ∀ g ∈ groups, (packed 0 g).length ≤ ctx.nBatch

theorem pooledLoop_spec (hdecode : ∀ b, ctx.decode b = true)
    (hrows : ∀ b, ∀ t ∈ b, ∃ e, ctx.embeddingsSeq b t.seq = some e ∧ nOut ≤ e.length) {cancel : ℕ → Bool}
    (hcancel : ∀ i, cancel i = false) (fuel first : ℕ) (inputs : List (List τ)) (done : List F)
    (batches : List (List (BatchToken τ))) (hfuel : inputs.length ≤ fuel)
    (hinputs : ∀ x ∈ inputs, x ≠ [] ∧ x.length ≤ ctx.nBatch) (hdone : done.length = first * nOut) :
    ∃ groups, Batches ctx inputs groups ∧
      pooledLoop ctx nOut cancel fuel first
        { out := done ++ List.replicate (inputs.length * nOut) ctx.zero, batches := batches } inputs =
        some { out := done ++ groups.flatMap (groupRows ctx nOut), batches := batches ++ groups.map (packed 0) } := by
  induction fuel generalizing first inputs done batches with
  | zero =>
    obtain rfl := List.length_eq_zero_iff.1 (Nat.le_zero.1 hfuel)
    exact ⟨[], ⟨rfl, nofun, nofun⟩, by simp [pooledLoop]⟩
  | succ fuel ih =>
    cases inputs with
    | nil => exact ⟨[], ⟨rfl, nofun, nofun⟩, by simp [pooledLoop]⟩
    | cons input inputs =>
      have hseqs : 0 < ctx.seqs := Nat.lt_min.2 ⟨by decide, ctx.oneSeq⟩
      obtain ⟨g, hsplit, hbatch, hcount, htokens⟩ :=
        fillBatch_spec ctx.nBatch (input :: inputs) 0 [] hseqs.le (Nat.zero_le _)
      have hshorter := fillBatch_ne inputs hseqs (hinputs input (mem_cons_self ..)).2
      simp only [pooledLoop, hcancel, Bool.false_eq_true, ↓reduceIte, hdecode]
      generalize fillBatch ctx.nBatch ctx.seqs 0 [] (input :: inputs) = filled at hsplit hbatch hshorter ⊢
      obtain ⟨batch, rest⟩ := filled
      simp only [nil_append] at hsplit hbatch hshorter htokens ⊢
      subst hbatch
      have hlength := congrArg List.length hsplit
      rw [length_append, length_cons] at hlength
      have htaken : inputs.length + 1 - rest.length = g.length := by omega
      have hg : ∀ x ∈ g, x ≠ [] := fun x hx => (hinputs x (by rw [hsplit]; exact mem_append_left _ hx)).1
      have hgrows : ∀ i < g.length, ∃ e, ctx.embeddingsSeq (packed 0 g) i = some e ∧ nOut ≤ e.length := by
        intro i hi
        obtain ⟨t, ht, hseq⟩ := packed_seq hg 0 hi
        have hrow := hrows _ t ht
        rwa [hseq, Nat.zero_add] at hrow
      have hcopy := copyRows_spec (packed 0 g) first 0 g.length (fun i _ hi => hgrows i (by omega)) done
        (List.replicate ((inputs.length + 1) * nOut) ctx.zero) hdone
      obtain ⟨groups, hgroups, hloop⟩ := ih (first + g.length) rest (done ++ groupRows ctx nOut g)
        (batches ++ [packed 0 g]) (by rw [length_cons] at hfuel; omega)
        (fun x hx => hinputs x (by rw [hsplit]; exact mem_append_right _ hx))
        (by rw [length_append, hdone, length_groupRows hgrows, Nat.add_mul])
      refine ⟨g :: groups, ⟨?_, List.forall_mem_cons.2 ⟨by simpa using hcount, hgroups.seqs⟩,
        List.forall_mem_cons.2 ⟨htokens, hgroups.tokens⟩⟩, ?_⟩
      · simp [hgroups.each, hsplit]
      · have hzeros : (inputs.length + 1) * nOut - g.length * nOut = rest.length * nOut := by
          rw [← Nat.sub_mul, hlength, Nat.add_sub_cancel_left]
        rw [htaken, if_neg (by omega), length_cons, hcopy]
        simp only [drop_replicate, hzeros]
        rw [show (List.range' 0 g.length).flatMap (pooledRow ctx nOut (packed 0 g)) = groupRows ctx nOut g from rfl, hloop]
        simp

/-- Every input is decoded once, from position 0 on a sequence of its own; no batch holds more than `n_batch` tokens or
`n_seq_max` sequences, and the rows of the result are the pooled outputs in the order of the inputs. -/
theorem pooledDecode_packs (ctx : Context τ F) (inputs : List (List τ)) (nOut : ℕ) (cancel : ℕ → Bool)
    (hinputs : ∀ x ∈ inputs, x ≠ [] ∧ x.length ≤ ctx.nBatch) (hdecode : ∀ b, ctx.decode b = true)
    (hrows : ∀ b, ∀ t ∈ b, ∃ e, ctx.embeddingsSeq b t.seq = some e ∧ nOut ≤ e.length)
    (hcancel : ∀ i, cancel i = false) : ∃ groups, Batches ctx inputs groups ∧
      pooledDecode ctx inputs nOut cancel =
        some { out := groups.flatMap (groupRows ctx nOut), batches := groups.map (packed 0) } := by
  obtain ⟨groups, hgroups, hloop⟩ := pooledLoop_spec hdecode hrows hcancel inputs.length 0 inputs [] [] (Nat.le_refl _)
    hinputs (Nat.zero_mul nOut).symm
  exact ⟨groups, hgroups, hloop⟩

def countContext : Context ℕ ℕ where
  nBatch := 2
  nSeqMax := 4
  zero := 0
  decode _ := true
  embeddingsSeq b s := some [(b.filter fun t => t.seq = s).length]
  oneSeq := by decide

theorem pooledDecode_packs_three :
    (pooledDecode countContext [[5], [6, 7], [8]] 1 fun _ => false).map Pooled.out = some [1, 2, 1] ∧
      ∃ groups, Batches countContext [[5], [6, 7], [8]] groups := by
  obtain ⟨groups, hgroups, -⟩ := pooledDecode_packs countContext [[5], [6, 7], [8]] 1 (fun _ => false) (by decide)
    (fun _ => rfl) (fun b t _ => ⟨_, rfl, Nat.le_refl 1⟩) fun _ => rfl
  exact ⟨by decide, groups, hgroups⟩

end Packing

end AgentCpp.Engines.Pool
