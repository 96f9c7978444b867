import AgentCpp.Engines.BatcherDecode

/-!
# Batching is transparent

The invariant says of every thread that holds a sequence where its generation stands,
in terms of the same calls made by a generation alone.
-/

namespace AgentCpp.Llama
open Lib Batcher List Function Option

variable {τ S L V : Type} {m : Model τ S L V}

/- What the loop does: each request is answered from its own logits, by its own sampler. -/
structure Answered (m : Model τ S L V) (logits : RoundReq τ → L) (reqs : List (RoundReq τ)) (b b' : Batcher τ S L V) :
    Prop where
  ctx : b'.ctx = b.ctx
  free : b'.freeSeqIds = b.freeSeqIds
  pending : b'.pending = b.pending
  batching : b'.batching = b.batching
  otherSeq : ∀ seq ∉ reqs.map RoundReq.seq, b'.nextPos seq = b.nextPos seq ∧ b'.results seq = b.results seq
  otherThread : ∀ t ∉ reqs.map RoundReq.sampler, b'.threads t = b.threads t
  each : ∀ req ∈ reqs, ∀ th, b.threads req.sampler = some th →
    b'.threads req.sampler = some { th with sampler := (m.sample th.sampler (logits req)).2 } ∧
    b'.results req.seq = some (m.sample th.sampler (logits req)).1 ∧
    b'.nextPos req.seq = some (b.posOf req.seq + 1)

theorem answer_eq (m : Model τ S L V) (b : Batcher τ S L V) (req : RoundReq τ) (l : L) {th : Thread τ S V}
    (h : b.threads req.sampler = some th) : b.answer m req l = some { b with
      threads := update b.threads req.sampler (some { th with sampler := (m.sample th.sampler l).2 })
      nextPos := update b.nextPos req.seq (some (b.posOf req.seq + 1))
      results := update b.results req.seq (some (m.sample th.sampler l).1) } := by
  unfold answer sampleWith
  rw [h]
  rfl

theorem answerAll_answered (m : Model τ S L V) (logits : RoundReq τ → L) (reqs : List (RoundReq τ)) (k : ℕ)
    (b : Batcher τ S L V) (hseqs : (reqs.map RoundReq.seq).Nodup) (hthreads : (reqs.map RoundReq.sampler).Nodup)
    (hheld : ∀ req ∈ reqs, ∃ th, b.threads req.sampler = some th)
    (hrows : ∀ x ∈ reqs.zipIdx k, b.ctx.logitsIth x.2 = some (logits x.1)) :
    ∃ b', b.answerAll m (reqs.zipIdx k) = some b' ∧ Answered m logits reqs b b' := by
  induction reqs generalizing k b with
  | nil => exact ⟨b, rfl, rfl, rfl, rfl, rfl, fun _ _ => ⟨rfl, rfl⟩, fun _ _ => rfl, nofun⟩
  | cons req reqs ih =>
    rw [map_cons, nodup_cons] at hseqs hthreads
    obtain ⟨th, hth⟩ := hheld req (mem_cons_self ..)
    have hanswer := answer_eq m b req (logits req) hth
    rw [zipIdx_cons] at hrows ⊢
    have hne : ∀ r ∈ reqs, r.sampler ≠ req.sampler ∧ r.seq ≠ req.seq := by
      intro r hr
      exact ⟨fun heq => hthreads.1 (heq ▸ mem_map_of_mem hr), fun heq => hseqs.1 (heq ▸ mem_map_of_mem hr)⟩
    generalize hb₁ : ({ b with
      threads := update b.threads req.sampler (some { th with sampler := (m.sample th.sampler (logits req)).2 })
      nextPos := update b.nextPos req.seq (some (b.posOf req.seq + 1))
      results := update b.results req.seq (some (m.sample th.sampler (logits req)).1) } : Batcher τ S L V) = b₁
      at hanswer
    obtain ⟨b', hrun, h⟩ := ih (k + 1) b₁ hseqs.2 hthreads.2 (by
        intro r hr
        obtain ⟨thr, hthr⟩ := hheld r (mem_cons_of_mem _ hr)
        refine ⟨thr, ?_⟩
        subst hb₁
        dsimp only
        rw [update_of_ne (hne r hr).1, hthr]) (by
        intro x hx
        subst hb₁
        exact hrows x (mem_cons_of_mem _ hx))
    refine ⟨b', ?_, ?_⟩
    · unfold answerAll
      rw [hrows _ (mem_cons_self ..)]
      dsimp only [bind_eq_bind, bind_some]
      rw [hanswer]
      exact hrun
    subst hb₁
    refine ⟨h.ctx, h.free, h.pending, h.batching, ?_, ?_, ?_⟩
    · intro seq hseq
      rw [map_cons, mem_cons, not_or] at hseq
      obtain ⟨hpos, hres⟩ := h.otherSeq seq hseq.2
      dsimp only at hpos hres
      rw [update_of_ne hseq.1] at hpos hres
      exact ⟨hpos, hres⟩
    · intro t ht
      rw [map_cons, mem_cons, not_or] at ht
      have hsame := h.otherThread t ht.2
      dsimp only at hsame
      rw [update_of_ne ht.1] at hsame
      exact hsame
    · intro r hr thr hthr
      obtain heq | hr := mem_cons.1 hr
      · subst heq
        rw [hth] at hthr
        cases hthr
        obtain ⟨hpos, hres⟩ := h.otherSeq r.seq hseqs.1
        have hsame := h.otherThread r.sampler hthreads.1
        dsimp only at hpos hres hsame
        rw [update_self] at hpos hres hsame
        exact ⟨hsame, hres, hpos⟩
      · obtain ⟨hne₁, hne₂⟩ := hne r hr
        have heach := h.each r hr thr (by
          dsimp only
          rw [update_of_ne hne₁, hthr])
        unfold posOf at heach ⊢
        dsimp only at heach
        rw [update_of_ne hne₂] at heach
        exact heach

/- The sequence holds the tokens of the generation `u` at consecutive positions, and the sampler is in its state. -/
structure Tracks (b : Batcher τ S L V) (th : Thread τ S V) (u : Alone τ S V) : Prop where
  memory : b.ctx.memory th.seq = cells u.tokens
  nextPos : b.nextPos th.seq = some u.tokens.length
  sampler : th.sampler = u.sampler

structure Free (m : Model τ S L V) (b : Batcher τ S L V) (t : ℕ) (th : Thread τ S V) : Prop where
  place : th.place = .outside
  tracks : Tracks b th (alone m th.start th.calls)
  outputs : th.outputs = (alone m th.start th.calls).outputs
  results : b.results th.seq = none
  pending : ∀ req ∈ b.pending, req.sampler ≠ t

structure Asked (m : Model τ S L V) (b : Batcher τ S L V) (t : ℕ) (th : Thread τ S V) (calls : List (Op τ)) (last : τ) :
    Prop where
  place : th.place ≠ .outside
  calls_eq : th.calls = calls ++ [.nextToken last]
  tracks : Tracks b th (alone m th.start calls)
  outputs : th.outputs = (alone m th.start calls).outputs
  results : b.results th.seq = none
  pending : ∀ req ∈ b.pending, req.sampler = t → req = ⟨th.seq, last, t⟩
  request : ⟨th.seq, last, t⟩ ∈ b.pending

structure Served (m : Model τ S L V) (b : Batcher τ S L V) (t : ℕ) (th : Thread τ S V) (token : τ) : Prop where
  place : th.place ≠ .outside
  asked : ∃ calls last, th.calls = calls ++ [.nextToken last] ∧ th.outputs = (alone m th.start calls).outputs
  tracks : Tracks b th (alone m th.start th.calls)
  outputs : th.outputs ++ [.token token] = (alone m th.start th.calls).outputs
  results : b.results th.seq = some token
  pending : ∀ req ∈ b.pending, req.sampler ≠ t

def Stands (m : Model τ S L V) (b : Batcher τ S L V) (t : ℕ) (th : Thread τ S V) : Prop :=
  Free m b t th ∨ (∃ calls last, Asked m b t th calls last) ∨ th.place = .following ∧ ∃ token, Served m b t th token

/- The sequences and requests have each one thread. -/
structure Books (b : Batcher τ S L V) : Prop where
  nodup : b.freeSeqIds.Nodup
  held : ∀ t th, b.threads t = some th → th.seq ∉ b.freeSeqIds
  apart : ∀ t t' th th', b.threads t = some th → b.threads t' = some th' → th.seq = th'.seq → t = t'
  requests : ∀ req ∈ b.pending, ∃ th, b.threads req.sampler = some th
  once : (b.pending.map RoundReq.sampler).Nodup
  results : ∀ seq token, b.results seq = some token → ∃ t th, b.threads t = some th ∧ th.seq = seq
  quiet : b.batching = false → b.pending = []

structure Inv (m : Model τ S L V) (b : Batcher τ S L V) : Prop extends Books b where
  stands : ∀ t th, b.threads t = some th → Stands m b t th
  leads : b.batching = true → ∃ t th, b.threads t = some th ∧ th.place = .leading
  leader : ∀ t t' th th', b.threads t = some th → b.threads t' = some th' → th.place = .leading →
    th'.place = .leading → t = t'
  led : ∀ t th, b.threads t = some th → th.place = .leading → b.batching = true

variable {b b' : Batcher τ S L V} {t : ℕ} {th : Thread τ S V}

theorem Tracks.frame {u : Alone τ S V} (h : Tracks b th u) (hmem : b'.ctx.memory th.seq = b.ctx.memory th.seq)
    (hpos : b'.nextPos th.seq = b.nextPos th.seq) : Tracks b' th u := ⟨hmem ▸ h.memory, hpos ▸ h.nextPos, h.sampler⟩

theorem Free.frame (h : Free m b t th) (hmem : b'.ctx.memory th.seq = b.ctx.memory th.seq)
    (hpos : b'.nextPos th.seq = b.nextPos th.seq) (hres : b'.results th.seq = b.results th.seq)
    (hpend : ∀ req, req.sampler = t → req ∈ b'.pending → req ∈ b.pending) : Free m b' t th :=
  ⟨h.place, h.tracks.frame hmem hpos, h.outputs, hres ▸ h.results,
    fun req hreq heq => h.pending req (hpend req heq hreq) heq⟩

theorem Served.frame {token : τ} (h : Served m b t th token) (hmem : b'.ctx.memory th.seq = b.ctx.memory th.seq)
    (hpos : b'.nextPos th.seq = b.nextPos th.seq) (hres : b'.results th.seq = b.results th.seq)
    (hpend : ∀ req, req.sampler = t → req ∈ b'.pending → req ∈ b.pending) : Served m b' t th token :=
  ⟨h.place, h.asked, h.tracks.frame hmem hpos, h.outputs, hres ▸ h.results,
    fun req hreq heq => h.pending req (hpend req heq hreq) heq⟩

theorem Stands.frame (h : Stands m b t th) (hmem : b'.ctx.memory th.seq = b.ctx.memory th.seq)
    (hpos : b'.nextPos th.seq = b.nextPos th.seq) (hres : b'.results th.seq = b.results th.seq)
    (hpend : ∀ req, req.sampler = t → (req ∈ b'.pending ↔ req ∈ b.pending)) : Stands m b' t th := by
  obtain h | ⟨calls, last, h⟩ | ⟨hplace, token, h⟩ := h
  · exact .inl (h.frame hmem hpos hres fun req heq => (hpend req heq).1)
  · exact .inr (.inl ⟨calls, last, h.place, h.calls_eq, h.tracks.frame hmem hpos, h.outputs, hres ▸ h.results,
      fun req hreq heq => h.pending req ((hpend req heq).1 hreq) heq, (hpend _ rfl).2 h.request⟩)
  · exact .inr (.inr ⟨hplace, token, h.frame hmem hpos hres fun req heq => (hpend req heq).1⟩)

theorem of_some {P : Batcher τ S L V → Prop} {o : Option (Batcher τ S L V)} (h : ∃ b, o = some b ∧ P b)
    (ho : o = some b') : P b' := by
  obtain ⟨b, hb, hP⟩ := h
  exact some.inj (hb.symm.trans ho) ▸ hP

theorem Inv.free (h : Inv m b) (hth : b.threads t = some th) (hplace : th.place = .outside) : Free m b t th := by
  obtain hs | ⟨_, _, hs⟩ | ⟨hf, -⟩ := h.stands t th hth
  · exact hs
  · exact absurd hplace hs.place
  · rw [hplace] at hf
    cases hf

theorem Inv.asked (h : Inv m b) {req : RoundReq τ} (hreq : req ∈ b.pending) : ∃ th calls,
    b.threads req.sampler = some th ∧ th.seq = req.seq ∧ Asked m b req.sampler th calls req.token := by
  obtain ⟨th, hth⟩ := h.requests req hreq
  obtain hs | ⟨calls, last, hs⟩ | ⟨-, _, hs⟩ := h.stands _ th hth
  · exact absurd rfl (hs.pending req hreq)
  · have heq := hs.pending req hreq rfl
    have hlast : last = req.token := congrArg RoundReq.token heq.symm
    exact ⟨th, calls, hth, congrArg RoundReq.seq heq.symm, hlast ▸ hs⟩
  · exact absurd rfl (hs.pending req hreq)

/- The invariant but for thread `t`, which is about to change. -/
structure Others (m : Model τ S L V) (b : Batcher τ S L V) (t : ℕ) : Prop extends Books b where
  stands : ∀ t' th, t' ≠ t → b.threads t' = some th → Stands m b t' th
  leads : b.batching = true → ∃ t' th, t' ≠ t ∧ b.threads t' = some th ∧ th.place = .leading
  leader : ∀ t₁ t₂ th₁ th₂, t₁ ≠ t → t₂ ≠ t → b.threads t₁ = some th₁ → b.threads t₂ = some th₂ →
    th₁.place = .leading → th₂.place = .leading → t₁ = t₂
  led : ∀ t' th, t' ≠ t → b.threads t' = some th → th.place = .leading → b.batching = true

theorem Inv.others (h : Inv m b) (hplace : ∀ th, b.threads t = some th → th.place ≠ .leading) : Others m b t := by
  refine ⟨h.toBooks, fun t₁ th₁ _ => h.stands t₁ th₁, fun hbatch => ?_,
    fun t₁ t₂ th₁ th₂ _ _ => h.leader t₁ t₂ th₁ th₂, fun t₁ th₁ _ => h.led t₁ th₁⟩
  obtain ⟨t₁, th₁, h₁, hp⟩ := h.leads hbatch
  exact ⟨t₁, th₁, fun ht => hplace th₁ (ht ▸ h₁) hp, h₁, hp⟩

theorem Inv.others_of (h : Inv m b) (hth : b.threads t = some th) (hplace : th.place ≠ .leading) : Others m b t :=
  h.others fun _ h₁ => some.inj (hth.symm.trans h₁) ▸ hplace

theorem Others.put (h : Others m b t) {th' : Thread τ S V} (hthreads : b'.threads = update b.threads t (some th'))
    (hfree : b'.freeSeqIds.Sublist b.freeSeqIds) (hheld : th'.seq ∉ b'.freeSeqIds)
    (hwas : ∀ th, b.threads t = some th → th.seq = th'.seq)
    (hapart : ∀ t₁ th₁, t₁ ≠ t → b.threads t₁ = some th₁ → th₁.seq ≠ th'.seq)
    (hsame : ∀ seq ≠ th'.seq, b'.ctx.memory seq = b.ctx.memory seq ∧ b'.nextPos seq = b.nextPos seq ∧
      b'.results seq = b.results seq)
    (hpend : ∀ req, req.sampler ≠ t → (req ∈ b'.pending ↔ req ∈ b.pending)) (honce : (b'.pending.map RoundReq.sampler).Nodup)
    (hlead : th'.place = .leading → b.batching = false ∧ b'.batching = true)
    (hkept : th'.place ≠ .leading → b'.batching = b.batching) (hquiet : b'.batching = false → b'.pending = [])
    (hstands : Stands m b' t th') : Inv m b' := by
  have hkeep : ∀ t₁ th₁, b'.threads t₁ = some th₁ → t₁ = t ∧ th₁ = th' ∨ t₁ ≠ t ∧ b.threads t₁ = some th₁ :=
    fun t₁ th₁ h₁ => (update_cases (hthreads ▸ h₁)).imp_left fun h => ⟨h.1, (some.inj h.2).symm⟩
  have hself : b'.threads t = some th' := by rw [hthreads, update_self]
  have hother : ∀ {t₁ th₁}, t₁ ≠ t → b.threads t₁ = some th₁ → b'.threads t₁ = some th₁ :=
    fun ht h₁ => by rw [hthreads, update_of_ne ht, h₁]
  -- if this thread leads now, no other one does
  have hclash : ∀ t₁ th₁, t₁ ≠ t → b.threads t₁ = some th₁ → th₁.place = .leading → th'.place ≠ .leading := by
    intro t₁ th₁ ht h₁ hp hp'
    cases (h.led t₁ th₁ ht h₁ hp).symm.trans (hlead hp').1
  refine ⟨⟨h.nodup.sublist hfree, ?_, ?_, ?_, honce, ?_, hquiet⟩, ?_, ?_, ?_, ?_⟩
  · intro t₁ th₁ h₁
    obtain ⟨-, rfl⟩ | ⟨-, hold⟩ := hkeep t₁ th₁ h₁
    · exact hheld
    · exact fun hmem => h.held t₁ th₁ hold (hfree.subset hmem)
  · intro t₁ t₂ th₁ th₂ h₁ h₂ heq
    obtain ⟨rfl, rfl⟩ | ⟨ht₁, hold₁⟩ := hkeep t₁ th₁ h₁
    · obtain ⟨rfl, -⟩ | ⟨ht₂, hold₂⟩ := hkeep t₂ th₂ h₂
      · rfl
      · exact absurd heq.symm (hapart t₂ th₂ ht₂ hold₂)
    · obtain ⟨rfl, rfl⟩ | ⟨-, hold₂⟩ := hkeep t₂ th₂ h₂
      · exact absurd heq (hapart t₁ th₁ ht₁ hold₁)
      · exact h.apart t₁ t₂ th₁ th₂ hold₁ hold₂ heq
  · intro req hreq
    by_cases ht : req.sampler = t
    · exact ⟨th', ht ▸ hself⟩
    · obtain ⟨th₁, h₁⟩ := h.requests req ((hpend req ht).1 hreq)
      exact ⟨th₁, hother ht h₁⟩
  · intro seq token hr
    by_cases hseq : seq = th'.seq
    · exact ⟨t, th', hself, hseq.symm⟩
    · obtain ⟨t₁, th₁, h₁, hs⟩ := h.results seq token ((hsame seq hseq).2.2 ▸ hr)
      exact ⟨t₁, th₁, hother (fun ht => hseq (hs ▸ hwas th₁ (ht ▸ h₁))) h₁, hs⟩
  · intro t₁ th₁ h₁
    obtain ⟨rfl, rfl⟩ | ⟨ht, hold⟩ := hkeep t₁ th₁ h₁
    · exact hstands
    · obtain ⟨hmem, hpos, hres⟩ := hsame _ (hapart t₁ th₁ ht hold)
      exact (h.stands t₁ th₁ ht hold).frame hmem hpos hres fun req heq => hpend req (heq ▸ ht)
  · intro hb
    by_cases hp : th'.place = .leading
    · exact ⟨t, th', hself, hp⟩
    · obtain ⟨t₁, th₁, ht, h₁, hp₁⟩ := h.leads (hkept hp ▸ hb)
      exact ⟨t₁, th₁, hother ht h₁, hp₁⟩
  · intro t₁ t₂ th₁ th₂ h₁ h₂ hp₁ hp₂
    obtain ⟨rfl, rfl⟩ | ⟨ht₁, hold₁⟩ := hkeep t₁ th₁ h₁
    · obtain ⟨rfl, -⟩ | ⟨ht₂, hold₂⟩ := hkeep t₂ th₂ h₂
      · rfl
      · exact absurd hp₁ (hclash t₂ th₂ ht₂ hold₂ hp₂)
    · obtain ⟨rfl, rfl⟩ | ⟨ht₂, hold₂⟩ := hkeep t₂ th₂ h₂
      · exact absurd hp₂ (hclash t₁ th₁ ht₁ hold₁ hp₁)
      · exact h.leader t₁ t₂ th₁ th₂ ht₁ ht₂ hold₁ hold₂ hp₁ hp₂
  · intro t₁ th₁ h₁ hp
    obtain ⟨rfl, rfl⟩ | ⟨ht, hold⟩ := hkeep t₁ th₁ h₁
    · exact (hlead hp).2
    · rw [hkept (hclash t₁ th₁ ht hold hp)]
      exact h.led t₁ th₁ ht hold hp

theorem Others.seq_ne (h : Others m b t) (hth : b.threads t = some th) {th' : Thread τ S V} (hseq : th'.seq = th.seq) :
    (∀ th, b.threads t = some th → th.seq = th'.seq) ∧
      ∀ t₁ th₁, t₁ ≠ t → b.threads t₁ = some th₁ → th₁.seq ≠ th'.seq := by
  refine ⟨fun th₁ h₁ => ?_, fun t₁ th₁ ht h₁ heq => ht (h.apart t₁ t th₁ th h₁ hth (heq.trans hseq))⟩
  cases hth.symm.trans h₁
  exact hseq.symm

theorem Inv.work (h : Inv m b) (hth : b.threads t = some th) (hplace : th.place = .outside) {th' : Thread τ S V}
    (hseq : th'.seq = th.seq) (hplace' : th'.place = .outside)
    (hthreads : b'.threads = update b.threads t (some th'))
    (hmem : ∀ seq ≠ th.seq, b'.ctx.memory seq = b.ctx.memory seq) (hpos : ∀ seq ≠ th.seq, b'.nextPos seq = b.nextPos seq)
    (hres : b'.results = b.results) (hpend : b'.pending = b.pending) (hbatch : b'.batching = b.batching)
    (hfree : b'.freeSeqIds = b.freeSeqIds) (hstands : Stands m b' t th') : Inv m b' := by
  have hothers := h.others_of hth (hplace ▸ nofun)
  obtain ⟨hwas, hapart⟩ := hothers.seq_ne hth hseq
  refine hothers.put hthreads (hfree ▸ .refl _) (by rw [hfree, hseq]; exact h.held t th hth) hwas hapart
    (fun seq hne => ?_) (fun _ _ => by rw [hpend]) (hpend ▸ h.once) (fun hp => ?_) (fun _ => hbatch) (fun hb => ?_) hstands
  · rw [hseq] at hne
    exact ⟨hmem seq hne, hpos seq hne, by rw [hres]⟩
  · rw [hplace'] at hp
    cases hp
  · rw [hpend]
    exact h.quiet (hbatch ▸ hb)

theorem alone_snoc (m : Model τ S L V) (start : S) (calls : List (Op τ)) (op : Op τ) :
    alone m start (calls ++ [op]) = (alone m start calls).call m op := foldl_append

theorem inv_init (m : Model τ S L V) (n : ℕ) : Inv m (Batcher.init n) :=
  ⟨⟨nodup_range, nofun, nofun, nofun, .nil, nofun, fun _ => rfl⟩, nofun, nofun, nofun, nofun⟩

theorem Inv.acquire (h : Inv m b) (hnone : b.threads t = none) {sampler : S} (hb : b.acquireSeq t sampler = some b') :
    Inv m b' := by
  unfold acquireSeq at hb
  cases hfree : b.freeSeqIds with
  | nil =>
    rw [hfree] at hb
    cases hb
  | cons seq rest =>
    rw [hfree] at hb
    cases hb
    obtain ⟨hnot, hnodup⟩ := nodup_cons.1 (hfree ▸ h.nodup)
    have hseq : ∀ t₁ th₁, b.threads t₁ = some th₁ → th₁.seq ≠ seq := by
      intro t₁ th₁ h₁ heq
      exact h.held t₁ th₁ h₁ (by rw [hfree, heq]; exact mem_cons_self ..)
    have hnew : ∀ th, b.threads t ≠ some th := fun th hth => nomatch hnone.symm.trans hth
    refine (h.others fun th hth => absurd hth (hnew th)).put rfl (by rw [hfree]; exact sublist_cons_self ..) hnot
      (fun th hth => absurd hth (hnew th)) (fun t₁ th₁ _ => hseq t₁ th₁) (fun seq' hne => ?_) (fun _ _ => .rfl) h.once nofun
      (fun _ => rfl) h.quiet (.inl ⟨rfl, ⟨?_, update_self .., rfl⟩, rfl, ?_, fun req hreq heq => ?_⟩)
    · exact ⟨update_of_ne hne .., update_of_ne hne .., rfl⟩
    · change update b.ctx.memory seq _ seq = []
      rw [update_self]
      exact filter_eq_nil_iff.2 fun cell _ => by simp
    · cases hr : b.results seq with
      | none => rfl
      | some token =>
        obtain ⟨t₂, th₂, h₂, hs⟩ := h.results seq token hr
        exact absurd hs (hseq t₂ th₂ h₂)
    · obtain ⟨th₂, h₂⟩ := h.requests req hreq
      exact hnew th₂ (heq ▸ h₂)

theorem Inv.release (h : Inv m b) (hth : b.threads t = some th) (hplace : th.place = .outside) :
    Inv m (b.releaseSeq t th) := by
  have hf := h.free hth hplace
  have hkeep : ∀ t₁ th₁, update b.threads t none t₁ = some th₁ → t₁ ≠ t ∧ b.threads t₁ = some th₁ := by
    intro t₁ th₁ h₁
    by_cases ht : t₁ = t
    · subst ht
      rw [update_self] at h₁
      cases h₁
    · rw [update_of_ne ht] at h₁
      exact ⟨ht, h₁⟩
  have hother : ∀ {t₁ th₁}, t₁ ≠ t → b.threads t₁ = some th₁ → update b.threads t none t₁ = some th₁ :=
    fun ht h₁ => (update_of_ne ht ..).trans h₁
  have hne : ∀ {t₁ th₁}, t₁ ≠ t → b.threads t₁ = some th₁ → th₁.seq ≠ th.seq :=
    fun ht h₁ heq => ht (h.apart _ t _ th h₁ hth heq)
  refine ⟨⟨nodup_cons.2 ⟨h.held t th hth, h.nodup⟩, ?_, ?_, ?_, h.once, ?_, h.quiet⟩, ?_, ?_, ?_, ?_⟩
  · intro t₁ th₁ h₁
    obtain ⟨ht, h₁⟩ := hkeep t₁ th₁ h₁
    exact fun hmem => (mem_cons.1 hmem).elim (hne ht h₁) (h.held t₁ th₁ h₁)
  · intro t₁ t₂ th₁ th₂ h₁ h₂
    exact h.apart t₁ t₂ th₁ th₂ (hkeep t₁ th₁ h₁).2 (hkeep t₂ th₂ h₂).2
  · intro req hreq
    obtain ⟨th₁, h₁⟩ := h.requests req hreq
    exact ⟨th₁, hother (hf.pending req hreq) h₁⟩
  · intro seq token hr
    obtain ⟨t₁, th₁, h₁, hs⟩ := h.results seq token hr
    refine ⟨t₁, th₁, hother (fun heq => ?_) h₁, hs⟩
    rw [heq, hth] at h₁
    cases h₁
    have hnone := hf.results
    rw [hs, show b.results seq = some token from hr] at hnone
    cases hnone
  · intro t₁ th₁ h₁
    obtain ⟨ht, h₁⟩ := hkeep t₁ th₁ h₁
    exact (h.stands t₁ th₁ h₁).frame rfl (update_of_ne (hne ht h₁) ..) rfl fun _ _ => .rfl
  · intro hb
    obtain ⟨t₁, th₁, h₁, hp⟩ := h.leads hb
    refine ⟨t₁, th₁, hother (fun heq => ?_) h₁, hp⟩
    rw [heq, hth] at h₁
    cases h₁
    rw [hplace] at hp
    cases hp
  · intro t₁ t₂ th₁ th₂ h₁ h₂
    exact h.leader t₁ t₂ th₁ th₂ (hkeep t₁ th₁ h₁).2 (hkeep t₂ th₂ h₂).2
  · intro t₁ th₁ h₁
    exact h.led t₁ th₁ (hkeep t₁ th₁ h₁).2

theorem Inv.returns (h : Inv m b) (hth : b.threads t = some th) (hplace : th.place = .outside) {op : Op τ}
    {output : Output τ V} (halone : ∀ u : Alone τ S V, u.call m op = { u with outputs := u.outputs ++ [output] })
    (hb : b.returns t op output = some b') : Inv m b' := by
  have hf := h.free hth hplace
  unfold Batcher.returns at hb
  rw [hth] at hb
  cases hb
  have hcall := alone_snoc m th.start th.calls op
  rw [halone] at hcall
  refine h.work hth hplace (by rfl) (by exact hplace) rfl (fun _ _ => rfl) (fun _ _ => rfl) rfl rfl rfl rfl
    (.inl ⟨hplace, ⟨?_, ?_, ?_⟩, ?_, hf.results, hf.pending⟩)
  · rw [hcall]
    exact hf.tracks.memory
  · rw [hcall]
    exact hf.tracks.nextPos
  · rw [hcall]
    exact hf.tracks.sampler
  · rw [hcall, hf.outputs]

theorem Free.prompted (hf : Free m b t th) (tokens : List τ) (hne : tokens ≠ []) :
    (b.prompted m th.seq tokens).ctx.memory =
        update b.ctx.memory th.seq (cells ((alone m th.start th.calls).tokens ++ tokens)) ∧
      (b.prompted m th.seq tokens).nextPos = update b.nextPos th.seq
        (some ((alone m th.start th.calls).tokens ++ tokens).length) ∧
      (b.prompted m th.seq tokens).ctx.lastLogits =
        some (m.logits (cells ((alone m th.start th.calls).tokens ++ tokens))) := by
  have hpos : b.posOf th.seq = (alone m th.start th.calls).tokens.length := by
    unfold posOf
    rw [hf.tracks.nextPos]
    rfl
  unfold Batcher.prompted
  rw [hpos, length_append]
  exact ⟨decodePrompt_memory m _ _ _ _ hf.tracks.memory, rfl, decodePrompt_last m _ _ _ _ hf.tracks.memory hne⟩

theorem Inv.fails (h : Inv m b) (hth : b.threads t = some th) (hplace : th.place = .outside) {op : Op τ}
    (halone : ∀ u : Alone τ S V, u.call m op = { u with outputs := u.outputs ++ [.failed] }) :
    ∃ b', b.returns t op .failed = some b' ∧ Inv m b' := by
  have hb : b.returns t op .failed = some (b.setThread t { th with
      calls := th.calls ++ [op], outputs := th.outputs ++ [.failed] }) := by
    unfold Batcher.returns
    rw [hth]
    rfl
  exact ⟨_, hb, h.returns hth hplace halone hb⟩

theorem Inv.prefill (h : Inv m b) (hth : b.threads t = some th) (hplace : th.place = .outside) (tokens : List τ) :
    ∃ b', b.prefill m t th tokens = some b' ∧ Inv m b' := by
  unfold Batcher.prefill
  split
  · next hempty => exact h.fails hth hplace fun u => if_pos hempty
  · next hempty =>
    have hf := h.free hth hplace
    obtain ⟨hmem, hpos, hlast⟩ := hf.prompted tokens (by rwa [List.isEmpty_iff] at hempty)
    have hcall := alone_snoc m th.start th.calls (.prefill tokens)
    have hop : (alone m th.start th.calls).call m (.prefill tokens) = (alone m th.start th.calls).sample m tokens :=
      if_neg hempty
    rw [hop] at hcall
    dsimp only
    rw [hlast]
    have hthread : (b.prompted m th.seq tokens).threads t = some th := hth
    unfold sampleWith Batcher.returns setThread
    dsimp only [bind_eq_bind]
    rw [hthread]
    dsimp only [map_some, bind_some]
    rw [update_self]
    refine ⟨_, rfl, h.work hth hplace (by rfl) (by exact hplace) (update_idem ..) ?_ ?_ rfl rfl rfl rfl
      (.inl ⟨hplace, ⟨?_, ?_, ?_⟩, ?_, hf.results, hf.pending⟩)⟩
    · intro seq hseq
      rw [hmem, update_of_ne hseq]
    · intro seq hseq
      rw [hpos, update_of_ne hseq]
    · rw [hmem, hcall, update_self]
      rfl
    · rw [hpos, hcall, update_self]
      rfl
    · rw [hcall, hf.tracks.sampler]
      rfl
    · rw [hcall, hf.tracks.sampler, hf.outputs]
      rfl

theorem Inv.scoreOptions (h : Inv m b) (hth : b.threads t = some th) (hplace : th.place = .outside) (tokens : List τ)
    (options : List (τ × List τ)) : ∃ b', b.scoreOptions m t th tokens options = some b' ∧ Inv m b' := by
  unfold Batcher.scoreOptions
  split
  · next hempty => exact h.fails hth hplace fun u => if_pos hempty
  · next hempty =>
    have hf := h.free hth hplace
    obtain ⟨hmem, hpos, hlast⟩ := hf.prompted tokens (by rwa [List.isEmpty_iff] at hempty)
    have hcall := alone_snoc m th.start th.calls (.scoreOptions tokens options)
    have hop : (alone m th.start th.calls).call m (.scoreOptions tokens options) = { alone m th.start th.calls with
        tokens := (alone m th.start th.calls).tokens ++ tokens
        outputs := (alone m th.start th.calls).outputs ++
          [.logprobs (options.map (scoreAlone m ((alone m th.start th.calls).tokens ++ tokens)))] } := if_neg hempty
    rw [hop] at hcall
    have hbase : (b.prompted m th.seq tokens).posOf th.seq = ((alone m th.start th.calls).tokens ++ tokens).length := by
      unfold posOf
      rw [hpos, update_self]
      rfl
    obtain ⟨ctx, hctx, hscore⟩ := scoreAll_eq m (b.prompted m th.seq tokens).ctx th.seq
      ((alone m th.start th.calls).tokens ++ tokens) options (by rw [hmem, update_self])
    have hthread : (b.prompted m th.seq tokens).threads t = some th := hth
    dsimp only
    rw [hlast]
    dsimp only [bind_eq_bind, bind_some]
    rw [hbase, hscore]
    unfold Batcher.returns setThread
    dsimp only [bind_some]
    rw [hthread]
    refine ⟨_, rfl, h.work hth hplace (by rfl) (by exact hplace) rfl ?_ ?_ rfl rfl rfl rfl
      (.inl ⟨hplace, ⟨?_, ?_, ?_⟩, ?_, hf.results, hf.pending⟩)⟩
    · intro seq hseq
      rw [hctx, hmem, update_of_ne hseq]
    · intro seq hseq
      rw [hpos, update_of_ne hseq]
    · rw [hctx, hmem, hcall, update_self]
    · rw [hpos, hcall, update_self]
    · rw [hcall]
      exact hf.tracks.sampler
    · rw [hcall, hf.outputs]

theorem Inv.enter (h : Inv m b) (hth : b.threads t = some th) (hplace : th.place = .outside) (last : τ) :
    Inv m (b.enter t th last) := by
  have hf := h.free hth hplace
  generalize hth' : ({ th with
    place := if b.batching then .following else .leading
    calls := th.calls ++ [.nextToken last] } : Thread τ S V) = th'
  have hthreads : (b.enter t th last).threads = update b.threads t (some th') := by
    rw [← hth']
    rfl
  have hseq : th'.seq = th.seq := by rw [← hth']
  have hout : th'.place ≠ .outside := by
    rw [← hth']
    split <;> exact nofun
  -- whoever leads already still does, and otherwise this thread does
  have hleads : th'.place = .leading ↔ b.batching = false := by
    rw [← hth']
    cases b.batching <;> simp
  have hothers := h.others_of hth (hplace ▸ nofun)
  obtain ⟨hwas, hapart⟩ := hothers.seq_ne hth hseq
  refine hothers.put hthreads (.refl _) (hseq ▸ h.held t th hth) hwas hapart (fun _ _ => ⟨rfl, rfl, rfl⟩) ?_ ?_
    (fun hp => ⟨hleads.1 hp, rfl⟩) (fun hp => ?_) nofun (.inr (.inl ⟨th.calls, last, hout, ?_, ?_, ?_, ?_, ?_, ?_⟩))
  · intro req hne
    change req ∈ b.pending ++ [_] ↔ _
    rw [mem_append, mem_singleton, or_iff_left_iff_imp]
    rintro rfl
    exact absurd rfl hne
  · change ((b.pending ++ [_]).map _).Nodup
    rw [map_append, nodup_append]
    refine ⟨h.once, pairwise_singleton _ _, ?_⟩
    intro t₁ h₁ t₂ h₂ heq
    obtain ⟨req, hreq, rfl⟩ := mem_map.1 h₁
    rw [mem_singleton.1 h₂] at heq
    exact hf.pending req hreq heq
  · exact (Bool.of_not_eq_false fun hb => hp (hleads.2 hb)).symm
  · rw [← hth']
  · rw [← hth']
    exact { hf.tracks with }
  · rw [← hth']
    exact hf.outputs
  · rw [hseq]
    exact hf.results
  · intro req hreq heq
    obtain hreq | hreq := mem_append.1 hreq
    · exact absurd heq (hf.pending req hreq)
    · rw [mem_singleton.1 hreq, hseq]
  · rw [hseq]
    exact mem_append_right _ (mem_singleton_self _)

theorem Others.take (h : Others m b t) (hth : b.threads t = some th) {token : τ} (hserved : Served m b t th token) :
    ∃ b', b.take t th = some b' ∧ Inv m b' := by
  unfold Batcher.take
  rw [hserved.results]
  refine ⟨_, rfl, ?_⟩
  dsimp only
  generalize hth' : ({ th with
    place := .outside
    outputs := th.outputs ++ [.token token] } : Thread τ S V) = th'
  have hseq : th'.seq = th.seq := by rw [← hth']
  have hplace : th'.place = .outside := by rw [← hth']
  obtain ⟨hwas, hapart⟩ := h.seq_ne hth hseq
  refine h.put rfl (.refl _) (hseq ▸ h.held t th hth) hwas hapart (fun seq hne => ?_) (fun _ _ => .rfl) h.once (fun hp => ?_)
    (fun _ => rfl) h.quiet (.inl ⟨hplace, ?_, ?_, ?_, hserved.pending⟩)
  · exact ⟨rfl, rfl, update_of_ne (hseq ▸ hne) ..⟩
  · rw [hplace] at hp
    cases hp
  · rw [← hth']
    exact { hserved.tracks with }
  · rw [← hth']
    exact hserved.outputs
  · rw [hseq]
    exact update_self ..

theorem Inv.wake (h : Inv m b) (hth : b.threads t = some th) (hplace : th.place = .following)
    (hb : b.take t th = some b') : Inv m b' := by
  have hothers := h.others_of hth (hplace ▸ nofun)
  have hserved : ∃ token, Served m b t th token := by
    obtain hs | ⟨_, _, hs⟩ | ⟨-, hs⟩ := h.stands t th hth
    · have hout := hs.place
      rw [hplace] at hout
      cases hout
    · unfold Batcher.take at hb
      rw [hs.results] at hb
      cases hb
    · exact hs
  obtain ⟨token, hserved⟩ := hserved
  exact of_some (hothers.take hth hserved) hb

theorem Inv.seqs_nodup (h : Inv m b) : (b.pending.map RoundReq.seq).Nodup := by
  have honce := h.once
  unfold List.Nodup at honce ⊢
  rw [pairwise_map] at honce ⊢
  refine honce.imp_of_mem fun {r₁ r₂} h₁ h₂ hne heq => hne ?_
  obtain ⟨th₁, -, hth₁, hs₁, -⟩ := h.asked h₁
  obtain ⟨th₂, -, hth₂, hs₂, -⟩ := h.asked h₂
  exact h.apart _ _ th₁ th₂ hth₁ hth₂ (by rw [hs₁, hs₂, heq])

def roundBatch (b : Batcher τ S L V) : List (Row τ) :=
  b.pending.map fun req => ⟨req.token, b.posOf req.seq, req.seq, true⟩

def roundLogits (m : Model τ S L V) (b : Batcher τ S L V) (req : RoundReq τ) : L :=
  m.logits (b.ctx.memory req.seq ++ [(b.posOf req.seq, req.token)])

theorem Inv.decoded (h : Inv m b) : ∃ b₂, Batcher.answerAll m { b with pending := [], ctx := b.ctx.decode m (roundBatch b) }
      b.pending.zipIdx = some b₂ ∧
    Answered m (roundLogits m b) b.pending { b with pending := [], ctx := b.ctx.decode m (roundBatch b) } b₂ := by
  have hmap : (roundBatch b).map Row.seq = b.pending.map RoundReq.seq := List.map_map
  have hrows := decodeRows_rows m b.ctx.memory (roundBatch b) (hmap ▸ h.seqs_nodup) (by
    intro row hrow
    obtain ⟨req, -, rfl⟩ := List.mem_map.1 hrow
    rfl)
  refine answerAll_answered m _ b.pending 0 _ h.seqs_nodup h.once h.requests fun x hx => ?_
  have hx := List.mk_mem_zipIdx_iff_getElem?.1 hx
  change ((decodeRows m b.ctx.memory (roundBatch b)).2[x.2]?).join = _
  rw [hrows, roundBatch, List.map_map, List.getElem?_map, hx]
  rfl

theorem Inv.served (h : Inv m b) {b₂ : Batcher τ S L V} (ha : Answered m (roundLogits m b) b.pending
    { b with pending := [], ctx := b.ctx.decode m (roundBatch b) } b₂) (hth : b.threads t = some th) :
    ∃ th₂, b₂.threads t = some th₂ ∧ th₂.seq = th.seq ∧ th₂.place = th.place ∧
      (Free m b₂ t th₂ ∨ ∃ token, Served m b₂ t th₂ token) := by
  have hmap : (roundBatch b).map Row.seq = b.pending.map RoundReq.seq := map_map
  have hctx : b₂.ctx.memory = (decodeRows m b.ctx.memory (roundBatch b)).1 := congrArg Context.memory ha.ctx
  have hpend : ∀ req, req.sampler = t → req ∈ b₂.pending → req ∈ b.pending := by
    rw [ha.pending]
    exact nofun
  -- a thread that has not asked is not part of the round
  have hout : (∀ req ∈ b.pending, req.sampler ≠ t) → b₂.threads t = some th ∧
      b₂.ctx.memory th.seq = b.ctx.memory th.seq ∧ b₂.nextPos th.seq = b.nextPos th.seq ∧
      b₂.results th.seq = b.results th.seq := by
    intro hnot
    have ht : t ∉ b.pending.map RoundReq.sampler := fun hmem => by
      obtain ⟨req, hreq, heq⟩ := mem_map.1 hmem
      exact hnot req hreq heq
    have hseq : th.seq ∉ b.pending.map RoundReq.seq := fun hmem => by
      obtain ⟨req, hreq, heq⟩ := mem_map.1 hmem
      obtain ⟨th₁, -, hth₁, hs₁, -⟩ := h.asked hreq
      exact hnot req hreq (h.apart _ t th₁ th hth₁ hth (hs₁.trans heq))
    obtain ⟨hpos, hres⟩ := ha.otherSeq th.seq hseq
    refine ⟨(ha.otherThread t ht).trans hth, ?_, hpos, hres⟩
    rw [hctx]
    exact decodeRows_other m _ _ _ (hmap ▸ hseq)
  obtain hs | ⟨calls, last, hs⟩ | ⟨-, token, hs⟩ := h.stands t th hth
  · obtain ⟨hth₂, hmem, hpos, hres⟩ := hout hs.pending
    exact ⟨th, hth₂, rfl, rfl, .inl (hs.frame hmem hpos hres hpend)⟩
  · obtain ⟨hth₂, hres, hpos⟩ := ha.each _ hs.request th hth
    have htracks := hs.tracks
    have houtputs := hs.outputs
    generalize hu : alone m th.start calls = u at htracks houtputs
    have hposOf : b.posOf th.seq = u.tokens.length := by
      unfold posOf
      rw [htracks.nextPos]
      rfl
    have hcells : cells u.tokens ++ [(u.tokens.length, last)] = cells (u.tokens ++ [last]) := by
      rw [cells_append]
      rfl
    have hlogits : roundLogits m b ⟨th.seq, last, t⟩ = m.logits (cells (u.tokens ++ [last])) := by
      unfold roundLogits
      rw [htracks.memory, hposOf, hcells]
    have hcall : alone m th.start th.calls = u.sample m [last] := by
      rw [hs.calls_eq, alone_snoc, hu]
      rfl
    have hmem : b₂.ctx.memory th.seq = cells (u.tokens ++ [last]) := by
      have hrow : (⟨last, b.posOf th.seq, th.seq, true⟩ : Row τ) ∈ roundBatch b :=
        mem_map.2 ⟨⟨th.seq, last, t⟩, hs.request, rfl⟩
      have hdecoded := decodeRows_mem m b.ctx.memory (roundBatch b) (hmap ▸ h.seqs_nodup) _ hrow
      rw [hctx, hdecoded, htracks.memory, hposOf, hcells]
    rw [hlogits, htracks.sampler] at hth₂ hres
    refine ⟨_, hth₂, rfl, rfl, .inr ⟨_, hs.place, ⟨calls, last, hs.calls_eq, hs.outputs⟩, ⟨?_, ?_, ?_⟩, ?_, hres,
      fun req hreq heq => ?_⟩⟩
    · rw [hmem, hcall]
      rfl
    · rw [hcall]
      change _ = some (u.tokens ++ [last]).length
      rw [hpos, length_append, ← hposOf]
      rfl
    · rw [hcall]
      rfl
    · rw [hcall, houtputs]
      rfl
    · rw [ha.pending] at hreq
      cases hreq
  · obtain ⟨hth₂, hmem, hpos, hres⟩ := hout hs.pending
    exact ⟨th, hth₂, rfl, rfl, .inr ⟨token, hs.frame hmem hpos hres hpend⟩⟩

theorem Inv.round (h : Inv m b) (hth : b.threads t = some th) (hplace : th.place = .leading) :
    ∃ b', b.round m t = some b' ∧ Inv m b' := by
  obtain ⟨b₂, hrun, ha⟩ := h.decoded
  have hheld : ∀ t₁ th₂, b₂.threads t₁ = some th₂ → ∃ th₁, b.threads t₁ = some th₁ ∧ th₂.seq = th₁.seq ∧
      th₂.place = th₁.place ∧ (Free m b₂ t₁ th₂ ∨ ∃ token, Served m b₂ t₁ th₂ token) := by
    intro t₁ th₂ h₂
    cases h₁ : b.threads t₁ with
    | some th₁ =>
      obtain ⟨th₂', h₂', hs, hp, hf⟩ := h.served ha h₁
      rw [h₂] at h₂'
      cases h₂'
      exact ⟨th₁, rfl, hs, hp, hf⟩
    | none =>
      have ht : t₁ ∉ b.pending.map RoundReq.sampler := fun hmem => by
        obtain ⟨req, hreq, heq⟩ := mem_map.1 hmem
        obtain ⟨th₁, hth₁⟩ := h.requests req hreq
        rw [heq, h₁] at hth₁
        cases hth₁
      exact nomatch h₂.symm.trans ((ha.otherThread t₁ ht).trans h₁)
  obtain ⟨th₂, hth₂, hs₂, hp₂, hf₂⟩ := h.served ha hth
  have hnotFree : ∃ token, Served m b₂ t th₂ token := by
    obtain hf | hf := hf₂
    · have hout := hf.place
      rw [hp₂, hplace] at hout
      cases hout
    · exact hf
  obtain ⟨token, hsv⟩ := hnotFree
  have hothers : Others m { b₂ with batching := false } t := by
    have hlone : ∀ t₁ th₁, t₁ ≠ t → b₂.threads t₁ = some th₁ → th₁.place ≠ .leading := by
      intro t₁ th₁ ht h₁ hp
      obtain ⟨th₀, h₀, -, hp₀, -⟩ := hheld t₁ th₁ h₁
      exact ht (h.leader t₁ t th₀ th h₀ hth (hp₀ ▸ hp) hplace)
    refine ⟨⟨ha.free ▸ h.nodup, ?_, ?_, ?_, ?_, ?_, fun _ => ha.pending⟩, ?_, nofun, ?_, ?_⟩
    · intro t₁ th₁ h₁
      obtain ⟨th₀, h₀, hs, -⟩ := hheld t₁ th₁ h₁
      rw [hs, ha.free]
      exact h.held t₁ th₀ h₀
    · intro t₁ t₂ th₁ th₂ h₁ h₂ heq
      obtain ⟨th₁', h₁', hs₁, -⟩ := hheld t₁ th₁ h₁
      obtain ⟨th₂', h₂', hs₂, -⟩ := hheld t₂ th₂ h₂
      exact h.apart t₁ t₂ th₁' th₂' h₁' h₂' (by rw [← hs₁, ← hs₂, heq])
    · rw [show ({ b₂ with batching := false } : Batcher τ S L V).pending = [] from ha.pending]
      exact nofun
    · rw [show ({ b₂ with batching := false } : Batcher τ S L V).pending = [] from ha.pending]
      exact .nil
    · intro seq tok hr
      by_cases hseq : seq ∈ b.pending.map RoundReq.seq
      · obtain ⟨req, hreq, heq⟩ := mem_map.1 hseq
        obtain ⟨th₁, -, h₁, hs₁, -⟩ := h.asked hreq
        obtain ⟨th₁', h₁', hs₁', -⟩ := h.served ha h₁
        exact ⟨_, th₁', h₁', by rw [hs₁', hs₁, heq]⟩
      · have hold := (ha.otherSeq seq hseq).2
        obtain ⟨t₁, th₁, h₁, hs₁⟩ := h.results seq tok (hold.symm.trans hr)
        obtain ⟨th₁', h₁', hs₁', -⟩ := h.served ha h₁
        exact ⟨t₁, th₁', h₁', hs₁'.trans hs₁⟩
    · intro t₁ th₁ ht h₁
      obtain ⟨-, -, -, -, hf | ⟨tok, hf⟩⟩ := hheld t₁ th₁ h₁
      · exact .inl (hf.frame rfl rfl rfl fun _ _ => id)
      · refine .inr (.inr ⟨?_, tok, hf.frame rfl rfl rfl fun _ _ => id⟩)
        have hout := hf.place
        have hlead := hlone t₁ th₁ ht h₁
        cases hp : th₁.place with
        | outside => exact absurd hp hout
        | leading => exact absurd hp hlead
        | following => rfl
    · intro t₁ _ th₁ _ ht₁ _ h₁ _ hp₁ _
      exact absurd hp₁ (hlone t₁ th₁ ht₁ h₁)
    · intro t₁ th₁ ht h₁ hp
      exact absurd hp (hlone t₁ th₁ ht h₁)
  have hsv' : Served m { b₂ with batching := false } t th₂ token := hsv.frame rfl rfl rfl fun _ _ => id
  obtain ⟨b', hb', hinv⟩ := hothers.take hth₂ hsv'
  refine ⟨b', ?_, hinv⟩
  unfold Batcher.round
  dsimp only [bind_eq_bind]
  change (Batcher.answerAll m { b with pending := [], ctx := b.ctx.decode m (roundBatch b) } b.pending.zipIdx).bind _ = _
  rw [hrun, bind_some, hth₂]
  exact hb'

theorem threadAt_some {place : Place} (h : b.threadAt t place = some th) : b.threads t = some th ∧ th.place = place := by
  obtain ⟨hth, hp⟩ := filter_eq_some_iff.1 h
  exact ⟨hth, decide_eq_true_eq.mp hp⟩

theorem step_inv {a : Act τ S} (h : Inv m b) (hb : b.step m a = some b') : Inv m b' := by
  cases a with
  | acquireSeq t sampler =>
    obtain ⟨hnone, hb⟩ := ite_none_right_eq_some.1 hb
    exact h.acquire (isNone_iff_eq_none.1 hnone) hb
  | releaseSeq t =>
    obtain ⟨th, hat, rfl⟩ := map_eq_some_iff.1 hb
    obtain ⟨hth, hplace⟩ := threadAt_some hat
    exact h.release hth hplace
  | prefill t tokens =>
    obtain ⟨th, hat, hb⟩ := bind_eq_some_iff.1 hb
    obtain ⟨hth, hplace⟩ := threadAt_some hat
    exact of_some (h.prefill hth hplace tokens) hb
  | enter t last =>
    obtain ⟨th, hat, rfl⟩ := map_eq_some_iff.1 hb
    obtain ⟨hth, hplace⟩ := threadAt_some hat
    exact h.enter hth hplace last
  | round t =>
    obtain ⟨th, hat, hb⟩ := bind_eq_some_iff.1 hb
    obtain ⟨hth, hplace⟩ := threadAt_some hat
    exact of_some (h.round hth hplace) hb
  | wake t =>
    obtain ⟨th, hat, hb⟩ := bind_eq_some_iff.1 hb
    obtain ⟨hth, hplace⟩ := threadAt_some hat
    exact h.wake hth hplace hb
  | scoreOptions t tokens options =>
    obtain ⟨th, hat, hb⟩ := bind_eq_some_iff.1 hb
    obtain ⟨hth, hplace⟩ := threadAt_some hat
    exact of_some (h.scoreOptions hth hplace tokens options) hb

structure Transparent (m : Model τ S L V) (b : Batcher τ S L V) : Prop where
  /- no two holders share a sequence -/
  apart : ∀ t t' th th', b.threads t = some th → b.threads t' = some th' → th.seq = th'.seq → t = t'
  /- between its calls a holder has got what it would have got alone, from tokens at positions 0, 1, 2, .. -/
  outside : ∀ t th, b.threads t = some th → th.place = .outside →
    th.outputs = (alone m th.start th.calls).outputs ∧
      b.ctx.memory th.seq = cells (alone m th.start th.calls).tokens ∧
      b.nextPos th.seq = some (alone m th.start th.calls).tokens.length
  /- in `next_token` it lacks just one token, and the one laid out for it, if any, is the right one -/
  inside : ∀ t th, b.threads t = some th → th.place ≠ .outside → ∃ calls last, th.calls = calls ++ [.nextToken last] ∧
    th.outputs = (alone m th.start calls).outputs ∧
      ∀ token, b.results th.seq = some token → th.outputs ++ [.token token] = (alone m th.start th.calls).outputs
  /- a round takes every request, and results are left only for callers that wait for them -/
  ended : b.batching = false → b.pending = []
  waited : ∀ seq token, b.results seq = some token →
    ∃ t th, b.threads t = some th ∧ th.seq = seq ∧ th.place = .following
  /- whoever is in `next_token` gets on: a leader can close its round, a follower has its token or is in an open round -/
  leader : ∀ t th, b.threads t = some th → th.place = .leading → (b.step m (.round t)).isSome
  follower : ∀ t th, b.threads t = some th → th.place = .following → (b.step m (.wake t)).isSome ∨
    (∃ last, ⟨th.seq, last, t⟩ ∈ b.pending) ∧ ∃ t' th', b.threads t' = some th' ∧ th'.place = .leading

theorem Inv.threadAt (hth : b.threads t = some th) {place : Place} (hplace : th.place = place) :
    b.threadAt t place = some th := by
  unfold Batcher.threadAt
  rw [hth]
  exact filter_some_pos (decide_eq_true hplace)

theorem Inv.transparent (h : Inv m b) : Transparent m b := by
  refine ⟨h.apart, ?_, ?_, h.quiet, ?_, ?_, ?_⟩
  · intro t th hth hplace
    have hf := h.free hth hplace
    exact ⟨hf.outputs, hf.tracks.memory, hf.tracks.nextPos⟩
  · intro t th hth hplace
    obtain hs | ⟨calls, last, hs⟩ | ⟨-, token, hs⟩ := h.stands t th hth
    · exact absurd hs.place hplace
    · refine ⟨calls, last, hs.calls_eq, hs.outputs, fun token htok => ?_⟩
      rw [hs.results] at htok
      cases htok
    · obtain ⟨calls, last, hcalls, hout⟩ := hs.asked
      refine ⟨calls, last, hcalls, hout, fun token' htok => ?_⟩
      rw [hs.results] at htok
      cases htok
      exact hs.outputs
  · intro seq token hr
    obtain ⟨t, th, hth, hs⟩ := h.results seq token hr
    refine ⟨t, th, hth, hs, ?_⟩
    obtain hst | ⟨_, _, hst⟩ | ⟨hplace, -⟩ := h.stands t th hth
    · exact nomatch (hs ▸ hst.results).symm.trans hr
    · exact nomatch (hs ▸ hst.results).symm.trans hr
    · exact hplace
  · intro t th hth hplace
    obtain ⟨b', hb', -⟩ := h.round hth hplace
    change ((b.threadAt t .leading).bind _).isSome = true
    rw [Inv.threadAt hth hplace, hb']
    rfl
  · intro t th hth hplace
    obtain hs | ⟨calls, last, hs⟩ | ⟨-, token, hs⟩ := h.stands t th hth
    · have hout := hs.place
      rw [hplace] at hout
      cases hout
    · refine .inr ⟨⟨last, hs.request⟩, h.leads ?_⟩
      cases hb : b.batching with
      | true => rfl
      | false =>
        have hreq := hs.request
        rw [h.quiet hb] at hreq
        cases hreq
    · refine .inl ?_
      change ((b.threadAt t .following).bind _).isSome = true
      rw [Inv.threadAt hth hplace, bind_some]
      unfold Batcher.take
      rw [hs.results]
      rfl

/-- Every interleaving of any number of threads: holders never share a sequence, each call of `next_token` gets one token,
nothing is left behind by a round, and what a holder gets is what it would get alone. -/
theorem batching_transparent (m : Model τ S L V) (nSeqMax : ℕ) (acts : List (Act τ S)) (b : Batcher τ S L V)
    (h : run (Batcher.step m) (Batcher.init nSeqMax) acts = some b) : Transparent m b :=
  (run_invariant (fun _ _ _ hinv hb => step_inv hinv hb) h (inv_init m nSeqMax)).transparent

def countingModel : Model ℕ ℕ (List (ℕ × ℕ)) ℕ where
  logits := id
  sample := fun s l => (s + l.length, s + 1)
  tokenLogprob := fun l token => l.length + token
  add := (· + ·)
  nBatch := 2

def sharedRound : List (Act ℕ ℕ) :=
  [.acquireSeq 0 100, .acquireSeq 1 200, .prefill 0 [1, 2, 3], .scoreOptions 1 [4] [(5, [6, 7]), (8, [])], .enter 0 103,
    .enter 1 9, .round 0, .wake 1]

theorem batching_transparent_sharedRound : ∃ b, run (Batcher.step countingModel) (Batcher.init 2) sharedRound = some b ∧
    (∃ th, b.threads 0 = some th ∧ th.outputs = [.token 103, .token 105] ∧
      th.outputs = (alone countingModel th.start th.calls).outputs) ∧ Transparent countingModel b := by
  have hends : (run (Batcher.step countingModel) (Batcher.init 2) sharedRound).any (fun b => (b.threads 0).any fun th =>
      decide (th.outputs = [.token 103, .token 105]) && decide (th.place = .outside)) = true := by decide +kernel
  obtain ⟨b, hrun, hb⟩ := (any_eq_true _ _).1 hends
  obtain ⟨th, hth, hout⟩ := (any_eq_true _ _).1 hb
  rw [Bool.and_eq_true, decide_eq_true_eq, decide_eq_true_eq] at hout
  have htransparent := batching_transparent countingModel 2 sharedRound b hrun
  exact ⟨b, hrun, ⟨th, hth, hout.1, (htransparent.outside 0 th hth hout.2).1⟩, htransparent⟩

end AgentCpp.Llama
