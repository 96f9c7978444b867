import AgentCpp.Engines.Batcher

/-!
# What the decodes do

A prompt is decoded on one sequence, a round on one row of each of several. A row's logits come from
the tokens of its own sequence at consecutive positions.
-/

namespace AgentCpp.Llama
open Lib List Function

variable {τ S L V : Type} (m : Model τ S L V)

def cellsFrom (pos : ℕ) (tokens : List τ) : List (ℕ × τ) := (tokens.zipIdx pos).map fun x => (x.2, x.1)

variable (c : Context τ L) (memory : ℕ → List (ℕ × τ)) (tokens : List τ)

theorem cells_eq : cells tokens = cellsFrom 0 tokens := rfl

variable (batch : List (Row τ)) (seq pos : ℕ) (before : List τ)

theorem cellsFrom_append (as bs : List τ) :
    cellsFrom pos (as ++ bs) = cellsFrom pos as ++ cellsFrom (pos + as.length) bs := by
  unfold cellsFrom
  rw [zipIdx_append, map_append]

theorem cells_append (as bs : List τ) : cells (as ++ bs) = cells as ++ cellsFrom as.length bs := by
  rw [cells_eq, cellsFrom_append, Nat.zero_add]
  rfl

theorem rowsFrom_cons (token : τ) (tokens : List τ) (wanted : ℕ → Bool) :
    rowsFrom seq pos (token :: tokens) wanted =
      ⟨token, pos, seq, wanted 0⟩ :: rowsFrom seq (pos + 1) tokens fun i => wanted (i + 1) := by
  unfold rowsFrom
  rw [zipIdx_cons, map_cons, zipIdx_eq_map_add, map_map]
  congr 1
  refine map_congr_left fun x _ => ?_
  have hidx : 0 + 1 + x.2 = x.2 + 1 := by omega
  have hpos : pos + (x.2 + 1) = pos + 1 + x.2 := by omega
  simp only [comp_apply, hidx, hpos]

def rowLogits (before : List (ℕ × τ)) (pos : ℕ) (wanted : ℕ → Bool) : List τ → List (Option L)
  | [] => []
  | token :: tokens =>
    (if wanted 0 then some (m.logits (before ++ [(pos, token)])) else none) ::
      rowLogits (before ++ [(pos, token)]) (pos + 1) (fun i => wanted (i + 1)) tokens

theorem decodeRows_rowsFrom (tokens : List τ) (wanted : ℕ → Bool) :
    decodeRows m memory (rowsFrom seq pos tokens wanted) =
      (update memory seq (memory seq ++ cellsFrom pos tokens), rowLogits m (memory seq) pos wanted tokens) := by
  induction tokens generalizing memory pos wanted with
  | nil =>
    change (memory, []) = (update memory seq (memory seq ++ []), [])
    rw [append_nil, update_eq_self]
  | cons token tokens ih =>
    rw [rowsFrom_cons]
    dsimp only [decodeRows]
    rw [ih, update_self, update_idem, append_assoc]
    rfl

theorem get_rowLogits (before : List (ℕ × τ)) (pos : ℕ) (wanted : ℕ → Bool) (tokens : List τ) (i : ℕ)
    (hi : i < tokens.length) (hw : wanted i = true) : (rowLogits m before pos wanted tokens)[i]?.join =
      some (m.logits (before ++ cellsFrom pos (tokens.take (i + 1)))) := by
  induction tokens generalizing before pos wanted i with
  | nil => cases hi
  | cons token tokens ih =>
    cases i with
    | zero =>
      rw [rowLogits, if_pos hw]
      rfl
    | succ i =>
      rw [rowLogits, getElem?_cons_succ, ih _ _ _ i (Nat.lt_of_succ_lt_succ hi) hw, append_assoc]
      rfl

theorem last_rowLogits (before : List (ℕ × τ)) (pos : ℕ) (wanted : ℕ → Bool) (tokens : List τ) (hne : tokens ≠ [])
    (hw : wanted (tokens.length - 1) = true) :
    ((rowLogits m before pos wanted tokens).filterMap id).getLast? = some (m.logits (before ++ cellsFrom pos tokens)) := by
  induction tokens generalizing before pos wanted with
  | nil => exact absurd rfl hne
  | cons token tokens ih =>
    cases tokens with
    | nil =>
      have hw : wanted 0 = true := hw
      rw [rowLogits, if_pos hw]
      rfl
    | cons token' tokens =>
      have hrest := ih (before ++ [(pos, token)]) (pos + 1) (fun i => wanted (i + 1)) (cons_ne_nil _ _) hw
      rw [rowLogits]
      rw [append_assoc] at hrest
      cases wanted 0 with
      | false => exact hrest
      | true =>
        change (m.logits _ :: List.filterMap id _).getLast? = _
        rw [getLast?_cons, hrest]
        rfl

theorem decode_rowsFrom (tokens : List τ) (wanted : ℕ → Bool) :
    c.decode m (rowsFrom seq pos tokens wanted) =
      ⟨update c.memory seq (c.memory seq ++ cellsFrom pos tokens),
        rowLogits m (c.memory seq) pos wanted tokens⟩ := by
  unfold Context.decode
  rw [decodeRows_rowsFrom]

theorem length_drop_chunk {rest : List τ} {n k : ℕ} (hn : rest.length ≤ n + 1) :
    (rest.drop (max 1 k)).length ≤ n := by
  rw [length_drop]
  omega

theorem decodeChunks_memory (size n pos begun : ℕ) (rest : List τ) (c : Context τ L) (hn : rest.length ≤ n) :
    (decodeChunks m seq size n pos begun rest c).memory =
      update c.memory seq (c.memory seq ++ cellsFrom pos rest) := by
  have hstop : ∀ c : Context τ L, update c.memory seq (c.memory seq ++ cellsFrom pos ([] : List τ)) = c.memory := by
    intro c
    change update c.memory seq (c.memory seq ++ []) = _
    rw [append_nil, update_eq_self]
  induction n generalizing pos begun rest c with
  | zero =>
    have hnil : rest = [] := eq_nil_of_length_eq_zero (Nat.le_zero.1 hn)
    rw [hnil]
    exact (hstop c).symm
  | succ n ih =>
    unfold decodeChunks
    split
    · next hempty =>
      rw [isEmpty_iff.1 hempty]
      exact (hstop c).symm
    · next hne =>
      rw [List.isEmpty_iff] at hne
      have hsplit := take_append_drop (max 1 m.nBatch) rest
      rw [ih _ _ _ _ (length_drop_chunk hn) (fun c => by
        change update c.memory seq (c.memory seq ++ []) = _
        rw [append_nil, update_eq_self]), decode_rowsFrom]
      dsimp only
      rw [update_self, update_idem, append_assoc, ← cellsFrom_append, hsplit]

theorem decodeChunks_last (size n pos begun : ℕ) (rest : List τ) (c : Context τ L) (hn : rest.length ≤ n)
    (hne : rest ≠ []) (hsize : begun + rest.length = size) : (decodeChunks m seq size n pos begun rest c).lastLogits =
      some (m.logits (c.memory seq ++ cellsFrom pos rest)) := by
  induction n generalizing pos begun rest c with
  | zero => exact absurd (List.eq_nil_of_length_eq_zero (Nat.le_zero.1 hn)) hne
  | succ n ih =>
    unfold decodeChunks
    rw [if_neg (by rwa [List.isEmpty_iff])]
    have hsplit := List.take_append_drop (max 1 m.nBatch) rest
    have hlen := congrArg List.length hsplit
    rw [List.length_append] at hlen
    by_cases hlast : rest.drop (max 1 m.nBatch) = []
    · have hchunk : rest.take (max 1 m.nBatch) = rest := by
        rw [hlast, List.append_nil] at hsplit
        exact hsplit
      have hdone : ∀ k pos begun (c : Context τ L), decodeChunks m seq size k pos begun [] c = c := by
        intro k pos begun c
        cases k <;> rfl
      rw [hlast, hdone, hchunk, decode_rowsFrom]
      refine last_rowLogits m _ pos _ rest hne ?_
      have hpos := List.length_pos_iff.2 hne
      rw [beq_iff_eq]
      omega
    · rw [ih _ _ _ _ (length_drop_chunk hn) hlast (by omega), decode_rowsFrom]
      dsimp only
      rw [update_self, List.append_assoc, ← cellsFrom_append, hsplit]

theorem decodePrompt_memory (tokens : List τ) (hmem : c.memory seq = cells before) :
    (decodePrompt m c seq before.length tokens).memory = update c.memory seq (cells (before ++ tokens)) := by
  unfold decodePrompt
  rw [decodeChunks_memory _ _ _ _ _ _ _ _ (Nat.le_refl _), hmem, cells_append]

theorem decodePrompt_last (tokens : List τ) (hmem : c.memory seq = cells before)
    (hne : tokens ≠ []) :
    (decodePrompt m c seq before.length tokens).lastLogits = some (m.logits (cells (before ++ tokens))) := by
  unfold decodePrompt
  rw [decodeChunks_last _ _ _ _ _ _ _ _ (Nat.le_refl _) hne (Nat.zero_add _), hmem, cells_append]

theorem cells_lt {tokens : List τ} {cell : ℕ × τ} (h : cell ∈ cells tokens) : cell.1 < tokens.length := by
  obtain ⟨x, hx, rfl⟩ := mem_map.1 h
  exact snd_lt_of_mem_zipIdx hx

theorem le_of_mem_cellsFrom {pos : ℕ} {tokens : List τ} {cell : ℕ × τ} (h : cell ∈ cellsFrom pos tokens) : pos ≤ cell.1 := by
  obtain ⟨x, hx, rfl⟩ := mem_map.1 h
  exact le_snd_of_mem_zipIdx hx

theorem filter_cells_append (tokens : List τ) :
    (cells before ++ cellsFrom before.length tokens).filter (fun cell => cell.1 < before.length) = cells before := by
  rw [filter_append, filter_eq_self.2, filter_eq_nil_iff.2, append_nil]
  · intro cell hcell
    have := le_of_mem_cellsFrom hcell
    rw [decide_eq_true_eq]
    omega
  · intro cell hcell
    rw [decide_eq_true_eq]
    exact cells_lt hcell

theorem foldlM_map_some {α β γ : Type} {g : α → Option β} {f : α → β} (k : γ → α → β → γ) (l : List α)
    (h : ∀ x ∈ l, g x = some (f x)) (v : γ) :
    l.foldlM (fun v x => (g x).map fun y => k v x y) v = some (l.foldl (fun v x => k v x (f x)) v) := by
  induction l generalizing v with
  | nil => rfl
  | cons x l ih =>
    rw [foldlM_cons, h x (mem_cons_self ..)]
    exact ih (fun y hy => h y (mem_cons_of_mem _ hy)) _

theorem scoreRest_eq (option : τ × List τ) (hmem : c.memory seq = cells before) :
    ∃ c' : Context τ L, c'.memory = c.memory ∧
      Batcher.scoreRest m c seq before.length option (m.tokenLogprob (m.logits (cells before)) option.1) =
        some (c', scoreAlone m before option) := by
  obtain ⟨front, rest⟩ := option
  unfold Batcher.scoreRest scoreAlone
  split
  · next hempty =>
    rw [isEmpty_iff.1 hempty]
    exact ⟨c, rfl, rfl⟩
  · have hlen : (front :: rest).dropLast.length = rest.length := by
      rw [length_dropLast, length_cons, Nat.add_sub_cancel]
    rw [decode_rowsFrom, hmem]
    have hlogits : ∀ x ∈ rest.zipIdx,
        (rowLogits m (cells before) before.length (fun _ => true) (front :: rest).dropLast)[x.2]?.join =
          some (m.logits (cells (before ++ (front :: rest).take (x.2 + 1)))) := by
      intro x hx
      have hi : x.2 < rest.length := snd_lt_of_mem_zipIdx hx
      rw [get_rowLogits m _ _ _ _ x.2 (hlen ▸ hi) rfl, cells_append, dropLast_eq_take, take_take,
        length_cons, Nat.add_sub_cancel, Nat.min_eq_left hi]
    have hfold := foldlM_map_some (fun v x l => m.add v (m.tokenLogprob l x.1)) rest.zipIdx hlogits
      (m.tokenLogprob (m.logits (cells before)) front)
    refine ⟨_, ?_, congrArg (fun o => Option.bind o _) hfold⟩
    unfold Context.seqRm
    dsimp only
    rw [update_self, filter_cells_append, update_idem, ← hmem, update_eq_self]

theorem scoreAll_eq (options : List (τ × List τ))
    (hmem : c.memory seq = cells before) : ∃ c' : Context τ L, c'.memory = c.memory ∧
      Batcher.scoreAll m seq before.length (m.logits (cells before)) c options =
        some (c', options.map (scoreAlone m before)) := by
  induction options generalizing c with
  | nil => exact ⟨c, rfl, rfl⟩
  | cons option options ih =>
    obtain ⟨c₁, hm₁, h₁⟩ := scoreRest_eq m c seq before option hmem
    obtain ⟨c₂, hm₂, h₂⟩ := ih c₁ (by rw [hm₁, hmem])
    refine ⟨c₂, hm₂.trans hm₁, ?_⟩
    unfold Batcher.scoreAll
    rw [h₁]
    dsimp only [Option.bind_eq_bind, Option.bind_some]
    rw [h₂]
    rfl

theorem decodeRows_other (h : seq ∉ batch.map Row.seq) :
    (decodeRows m memory batch).1 seq = memory seq := by
  induction batch generalizing memory with
  | nil => rfl
  | cons row batch ih =>
    rw [map_cons, mem_cons, not_or] at h
    dsimp only [decodeRows]
    rw [ih _ h.2, update_of_ne h.1]

theorem decodeRows_mem (hnodup : (batch.map Row.seq).Nodup) (row : Row τ)
    (hrow : row ∈ batch) : (decodeRows m memory batch).1 row.seq = memory row.seq ++ [(row.pos, row.token)] := by
  induction batch generalizing memory with
  | nil => cases hrow
  | cons r batch ih =>
    rw [map_cons, nodup_cons] at hnodup
    dsimp only [decodeRows]
    obtain heq | hrow := mem_cons.1 hrow
    · rw [heq, decodeRows_other _ _ _ _ hnodup.1, update_self]
    · have hne : row.seq ≠ r.seq := fun heq => hnodup.1 (heq ▸ mem_map_of_mem hrow)
      rw [ih _ hnodup.2 hrow, update_of_ne hne]

theorem decodeRows_rows (hnodup : (batch.map Row.seq).Nodup)
    (hwanted : ∀ row ∈ batch, row.wanted = true) :
    (decodeRows m memory batch).2 = batch.map fun row => some (m.logits (memory row.seq ++ [(row.pos, row.token)])) := by
  induction batch generalizing memory with
  | nil => rfl
  | cons r batch ih =>
    rw [map_cons, nodup_cons] at hnodup
    dsimp only [decodeRows]
    rw [if_pos (hwanted r (mem_cons_self ..)), ih _ hnodup.2 fun row hrow => hwanted row (mem_cons_of_mem _ hrow)]
    congr 1
    refine map_congr_left fun row hrow => ?_
    have hne : row.seq ≠ r.seq := fun heq => hnodup.1 (heq ▸ mem_map_of_mem hrow)
    rw [update_of_ne hne]

end AgentCpp.Llama
