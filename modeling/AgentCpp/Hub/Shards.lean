import AgentCpp.Hub.Spec

/-!
# Names of shards

A shard's name ends in twenty bytes that say which it is; what stands before them is the stem
of its set. The lemmas here let a set be moved to another folder.
-/

namespace AgentCpp.Hub
open Lib Lib.Path List

theorem digitsVal_concat (ds : Bytes) (b : UInt8) : digitsVal (ds ++ [b]) = 10 * digitsVal ds + digitVal b := by
  unfold digitsVal
  rw [foldl_append]
  rfl

theorem digitVal_lt {b : UInt8} (h : isDigit b = true) : digitVal b < 10 := by
  obtain ⟨hlow, hhigh⟩ := Bool.and_eq_true_iff.1 h
  have hle := UInt8.le_iff_toNat_le.1 (of_decide_eq_true hhigh)
  unfold digitVal
  change b.toNat ≤ 57 at hle
  omega

theorem digitsVal_lt (ds : Bytes) (h : ∀ b ∈ ds, isDigit b = true) : digitsVal ds < 10 ^ ds.length := by
  induction ds using List.reverseRecOn with
  | nil => decide
  | append_singleton ds b ih =>
    have hds := ih fun c hc => h c (mem_append_left _ hc)
    have hb := digitVal_lt (h b (mem_append_right _ (mem_singleton_self b)))
    rw [digitsVal_concat, length_append, length_singleton]
    omega

theorem digitsVal_zeros (k : ℕ) (ds : Bytes) : digitsVal (List.replicate k 0x30 ++ ds) = digitsVal ds := by
  induction k with
  | zero => rfl
  | succ k ih => exact ih

variable {n k i : ℕ}

theorem length_decimal_le (h : n < 10 ^ 5) : (decimal n).length ≤ 5 := by
  unfold decimal
  split
  · decide
  · rw [length_map, length_reverse]
    exact (Nat.digits_length_le_iff (by decide) n).2 h

theorem length_pad5 (h : n < 10 ^ 5) : (pad5 n).length = 5 := by
  have := length_decimal_le h
  unfold pad5
  rw [length_append, length_replicate]
  omega

theorem digitsVal_pad5 (n : ℕ) : digitsVal (pad5 n) = n := by
  unfold pad5
  rw [digitsVal_zeros, digitsVal_decimal]

theorem pad5_digits (n : ℕ) : ∀ b ∈ pad5 n, isDigit b = true := by
  intro b hb
  cases mem_append.1 hb with
  | inl hb =>
    rw [eq_of_mem_replicate hb]
    rfl
  | inr hb => exact decimal_digits n b hb

theorem drop_append_length_sub (x t : Bytes) (h : k ≤ t.length) :
    (x ++ t).drop ((x ++ t).length - k) = t.drop (t.length - k) := by
  have hlength : (x ++ t).length - k = x.length + (t.length - k) := by
    rw [length_append]
    omega
  rw [hlength, drop_length_add_append]

theorem take_append_length_sub (x t : Bytes) (h : k ≤ t.length) :
    (x ++ t).take ((x ++ t).length - k) = x ++ t.take (t.length - k) := by
  have hlength : (x ++ t).length - k = x.length + (t.length - k) := by
    rw [length_append]
    omega
  rw [hlength, take_length_add_append]

variable {suffix t s : Bytes}

theorem endsWithCi_append (x : Bytes) (h : suffix.length ≤ t.length) :
    endsWithCi (x ++ t) suffix = endsWithCi t suffix := by
  have hle : suffix.length ≤ (x ++ t).length := by
    rw [length_append]
    omega
  unfold endsWithCi
  rw [drop_append_length_sub x t h, decide_eq_true hle, decide_eq_true h]

theorem parseShard_append (x : Bytes) (h : 20 ≤ t.length) :
    parseShard (x ++ t) = (parseShard t).map fun shard => { shard with stem := x ++ shard.stem } := by
  have hext : (lit ".gguf").length ≤ t.length := Nat.le_trans (by decide) h
  have hlt : ¬(x ++ t).length < 20 := by
    rw [length_append]
    omega
  have hlt' : ¬t.length < 20 := by omega
  have hstem : 15 ≤ (t.take (t.length - 5)).length := by
    rw [length_take]
    omega
  unfold parseShard
  rw [endsWithCi_append x hext, take_append_length_sub x t (by omega)]
  simp only [drop_append_length_sub x _ hstem, take_append_length_sub x _ hstem, hlt, hlt']
  split
  · rfl
  · split
    · rfl
    · rfl

theorem toLower_of_endsWithCi (h : endsWithCi s suffix = true) :
    toLower (s.drop (s.length - suffix.length)) = toLower suffix := by
  obtain ⟨hle, hfind⟩ := Bool.and_eq_true_iff.1 h
  unfold ifind at hfind
  split at hfind
  · cases hfind
  · have hmatch := find?_some (eq_of_beq hfind)
    have heq := eq_of_beq (Bool.and_eq_true_iff.1 hmatch).2
    rw [drop_zero, take_of_length_le] at heq
    · exact heq
    · rw [length_drop]
      omega

theorem slash_not_mem_of_endsWithCi (h : endsWithCi s (lit ".gguf") = true) :
    slash ∉ s.drop (s.length - 5) := by
  intro hmem
  have hlower : slash ∈ toLower (lit ".gguf") := by
    rw [← toLower_of_endsWithCi h]
    exact mem_map.2 ⟨slash, hmem, rfl⟩
  exact absurd hlower (by decide)

theorem parseShard_some {path : Bytes} {shard : Shard} (h : parseShard path = some shard) :
    ∃ tail, path = shard.stem ++ tail ∧ tail.length = 20 ∧ slash ∉ tail ∧ 1 ≤ shard.index ∧
      shard.index ≤ shard.total ∧ shard.total < 10 ^ 5 := by
  unfold parseShard at h
  split at h
  · cases h
  next hguard =>
  obtain ⟨hlength, hext⟩ := Bool.or_eq_false_iff.1 (Bool.eq_false_iff.2 hguard)
  have hlength := of_decide_eq_false hlength
  have hext : endsWithCi path (lit ".gguf") = true := by simpa using hext
  simp only at h
  generalize hstem : path.take (path.length - 5) = stem at h
  generalize htail : stem.drop (stem.length - 15) = tail at h
  have hstemLength : stem.length = path.length - 5 := by
    rw [← hstem, length_take]
    omega
  have htailLength : tail.length = 15 := by
    rw [← htail, length_drop]
    omega
  split at h
  · next hparts =>
    cases h
    simp only [Bool.and_eq_true, decide_eq_true_eq, beq_iff_eq, all_eq_true] at hparts
    obtain ⟨⟨⟨⟨hdash, hof⟩, hindex⟩, htotal⟩, hone, hone', hle⟩ := hparts
    refine ⟨tail ++ path.drop (path.length - 5), ?_, ?_, ?_, hone, hle, ?_⟩
    · rw [← append_assoc, ← htail, take_append_drop, ← hstem, take_append_drop]
    · rw [length_append, length_drop]
      omega
    · intro hmem
      cases mem_append.1 hmem with
      | inr hmem => exact slash_not_mem_of_endsWithCi hext hmem
      | inl hmem =>
        -- the tail is a dash, five digits, "-of-" and five digits
        have hsplit : tail = tail.take 1 ++ ((tail.drop 1).take 5 ++ ((tail.drop 6).take 4 ++ tail.drop 10)) := by
          have h10 : tail.drop 10 = (tail.drop 6).drop 4 := by rw [drop_drop]
          have h6 : tail.drop 6 = (tail.drop 1).drop 5 := by rw [drop_drop]
          rw [h10, take_append_drop, h6, take_append_drop, take_append_drop]
        rw [hsplit] at hmem
        cases mem_append.1 hmem with
        | inl hmem =>
          cases tail with
          | nil => cases hdash
          | cons c tail =>
            cases hdash
            exact absurd (mem_singleton.1 hmem) (by decide)
        | inr hmem =>
          cases mem_append.1 hmem with
          | inl hmem => exact absurd (hindex _ hmem) (by decide)
          | inr hmem =>
            cases mem_append.1 hmem with
            | inl hmem =>
              rw [hof] at hmem
              exact absurd hmem (by decide)
            | inr hmem => exact absurd (htotal _ hmem) (by decide)
    · have hlt := digitsVal_lt _ htotal
      rw [length_drop, htailLength] at hlt
      exact hlt
  · cases h

theorem shardSuffix_length (hi : i < 10 ^ 5) (hn : n < 10 ^ 5) : (shardSuffix i n).length = 20 := by
  unfold shardSuffix
  simp only [length_append, length_pad5 hi, length_pad5 hn]
  rfl

theorem slash_not_mem_shardSuffix (i n : ℕ) : slash ∉ shardSuffix i n := by
  have hpad (n : ℕ) : slash ∉ pad5 n := fun hmem => absurd (pad5_digits n _ hmem) (by decide)
  have hlit : slash ∉ lit "-" ∧ slash ∉ lit "-of-" ∧ slash ∉ lit ".gguf" := by decide
  unfold shardSuffix
  simp only [mem_append, hpad, hlit, or_self, not_false_eq_true]

theorem parseShard_shardSuffix (hone : 1 ≤ i) (hle : i ≤ n) (hn : n < 10 ^ 5) :
    parseShard (shardSuffix i n) = some { stem := [], index := i, total := n } := by
  have hi : i < 10 ^ 5 := Nat.lt_of_le_of_lt hle hn
  have hai := length_pad5 hi
  have hbn := length_pad5 hn
  have hdi := all_eq_true.2 (pad5_digits i)
  have hdn := all_eq_true.2 (pad5_digits n)
  have hvi := digitsVal_pad5 i
  have hvn := digitsVal_pad5 n
  unfold shardSuffix
  generalize pad5 i = a at hai hdi hvi
  generalize pad5 n = b at hbn hdn hvn
  subst hvi hvn
  match a, hai, b, hbn with
  | [a₀, a₁, a₂, a₃, a₄], _, [b₀, b₁, b₂, b₃, b₄], _ =>
    generalize hpath : lit "-" ++ [a₀, a₁, a₂, a₃, a₄] ++ lit "-of-" ++ [b₀, b₁, b₂, b₃, b₄] ++ lit ".gguf" = path
    have hend : endsWithCi path (lit ".gguf") = true := by
      rw [← hpath, endsWithCi_append _ (Nat.le_refl _)]
      decide +kernel
    have hlength : path.length = 20 := by
      rw [← hpath]
      rfl
    have hguard : ¬(decide (path.length < 20) || !endsWithCi path (lit ".gguf")) = true := by
      rw [hend, hlength]
      decide
    unfold parseShard
    rw [if_neg hguard, ← hpath]
    refine if_pos ?_
    simp only [Bool.and_eq_true]
    exact ⟨⟨⟨⟨rfl, by rfl⟩, hdi⟩, hdn⟩, decide_eq_true ⟨hone, Nat.le_trans hone hle, hle⟩⟩

theorem parseShard_append_shardSuffix (x : Bytes) (hone : 1 ≤ i) (hle : i ≤ n) (hn : n < 10 ^ 5) :
    parseShard (x ++ shardSuffix i n) = some { stem := x, index := i, total := n } := by
  have hlength := shardSuffix_length (Nat.lt_of_le_of_lt hle hn) hn
  rw [parseShard_append x (Nat.le_of_eq hlength.symm), parseShard_shardSuffix hone hle hn, Option.map_some,
    append_nil]

theorem parseShard_folder {pre : Bytes} (hpre : SlashEnded pre) (s : Bytes) :
    parseShard (pre ++ s) = (parseShard s).map fun shard => { shard with stem := pre ++ shard.stem } := by
  by_cases hlength : 20 ≤ s.length
  · exact parseShard_append pre hlength
  have hnone : parseShard s = none := by
    cases hshard : parseShard s with
    | none => rfl
    | some shard =>
      obtain ⟨tail, heq, htail, -⟩ := parseShard_some hshard
      have := congrArg List.length heq
      rw [length_append] at this
      omega
  rw [hnone]
  cases hshard : parseShard (pre ++ s) with
  | none => rfl
  | some shard =>
    exfalso
    obtain ⟨tail, heq, htail, hslash, -⟩ := parseShard_some hshard
    cases hpre with
    | inl h =>
      have := congrArg List.length heq
      rw [h, length_append, length_append, length_nil] at this
      omega
    | inr h =>
      obtain ⟨q, rfl⟩ := h
      -- the tail is longer than the name, so it reaches back over the slash
      have hname : slash :: s <:+ q ++ [slash] ++ s := ⟨q, by rw [append_assoc]; rfl⟩
      have hover : slash :: s <:+ tail := by
        refine suffix_of_suffix_length_le hname ⟨shard.stem, heq.symm⟩ ?_
        rw [length_cons]
        omega
      exact hslash (hover.subset mem_cons_self)

end AgentCpp.Hub
