import AgentCpp.Lib.Lists
import AgentCpp.Rag.Pipeline
import Mathlib.Data.List.Sort

/-!
# The in-memory vector store (`in_memory_vector_store.cpp`)

Entries and their vectors stand in two arrays, row by row, and `by_id` finds the row of an id.
Erasing moves the last row into the hole.
-/

namespace AgentCpp.Rag
open Lib Option List Table

/- The arithmetic on floats, with the scores in a total order. -/
structure VectorArith (F S : Type) where
  zero : F
  isFinite : F → Bool
  l2Normalize : List F → List F
  dot : List F → List F → S
  length_l2Normalize : ∀ v, (l2Normalize v).length = v.length

structure Entry where
  id : Bytes
  text : Bytes
  metadataJson : Bytes
  deriving DecidableEq

structure InMemoryVectorState (F : Type) where
  dims : ℕ
  entries : List Entry := []
  vectors : List F := []
  byId : Table ℕ := ∅

structure VectorHit (S : Type) where
  id : Bytes
  text : Bytes
  metadataJson : Bytes
  score : S

variable {F S : Type} (A : VectorArith F S)

def checkDims (s : InMemoryVectorState F) (v : List F) : Result Unit :=
  if v.length ≠ s.dims then
    fail .invalidConfig (lit "vector store: embedding has " ++ decimal v.length ++ lit " dimensions, the store " ++
      decimal s.dims ++ lit ".")
  else if v.all A.isFinite then .ok ()
  else fail .invalidConfig (lit "vector store: embedding contains a non-finite value.")

/- The row of the id with its text and metadata written, a new one at the end if it has none. -/
def claimRow (s : InMemoryVectorState F) (id text metadataJson : Bytes) : ℕ × InMemoryVectorState F :=
  match s.byId[id]? with
  | some row =>
    (row, { s with entries := s.entries.modify row fun e => { e with text := text, metadataJson := metadataJson } })
  | none =>
    (s.entries.length,
      { s with
        entries := s.entries ++ [⟨id, text, metadataJson⟩]
        vectors := s.vectors ++ List.replicate s.dims A.zero
        byId := s.byId.insert id s.entries.length })

/- `dst` is copied to and then normalised in place. -/
def writeRow (s : InMemoryVectorState F) (row : ℕ) (embedding : List F) : InMemoryVectorState F :=
  let copied := overwrite s.vectors (row * s.dims) embedding
  { s with vectors := overwrite copied (row * s.dims) (A.l2Normalize (flatRow s.dims copied row)) }

def memUpsert (s : InMemoryVectorState F) (id text : Bytes) (embedding : List F) (metadataJson : Bytes) :
    Result Unit × InMemoryVectorState F :=
  match checkDims A s embedding with
  | .error e => (.error e, s)
  | .ok () =>
    if id = [] then (fail .invalidConfig (lit "vector store: id must not be empty."), s)
    else
      let claimed := claimRow A s id text metadataJson
      (.ok (), writeRow A claimed.2 claimed.1 embedding)

def memErase (s : InMemoryVectorState F) (id : Bytes) : Result Bool × InMemoryVectorState F :=
  match s.byId[id]? with
  | none => (.ok false, s)
  | some row =>
    let last := s.entries.length - 1
    let s := { s with byId := s.byId.erase id }
    let s := match s.entries[last]? with
      | some e =>
        if row ≠ last then
          { s with
            entries := s.entries.set row e
            vectors := overwrite s.vectors (row * s.dims) (flatRow s.dims s.vectors last)
            byId := s.byId.insert e.id row }
        else s
      | none => s
    (.ok true, { s with entries := s.entries.take last, vectors := s.vectors.take (last * s.dims) })

def memClear (s : InMemoryVectorState F) : Result Unit × InMemoryVectorState F :=
  (.ok (), { s with entries := [], vectors := [], byId := ∅ })

section Query

variable [LinearOrder S]

/- The order of `std::partial_sort`: scores down, then rows up. -/
def Before (a b : S × ℕ) : Prop := b.1 < a.1 ∨ a.1 = b.1 ∧ a.2 ≤ b.2

instance : DecidableRel (Before (S := S)) := fun _ _ => inferInstanceAs (Decidable (_ ∨ _ ∧ _))

def scoredRows (s : InMemoryVectorState F) (q : List F) : List (S × ℕ) :=
  (List.range s.entries.length).map fun row => (A.dot (flatRow s.dims s.vectors row) q, row)

def hitOf (s : InMemoryVectorState F) (p : S × ℕ) : Option (VectorHit S) :=
  s.entries[p.2]?.map fun e => ⟨e.id, e.text, e.metadataJson, p.1⟩

def memQuery (s : InMemoryVectorState F) (embedding : List F) (k : ℤ) : Result (List (VectorHit S)) :=
  match checkDims A s embedding with
  | .error e => .error e
  | .ok () =>
    if k ≤ 0 then .ok []
    else
      let scored := scoredRows A s (A.l2Normalize embedding)
      .ok (((scored.insertionSort Before).take (min scored.length k.toNat)).filterMap (hitOf s))

end Query

/- `by_id` and the rows name each other, and the rows hold what the map holds. -/
structure Refines (s : InMemoryVectorState F) (t : Table (VectorEntry F)) : Prop where
  size : s.vectors.length = s.entries.length * s.dims
  rows : ∀ (id : Bytes) (row : ℕ), s.byId[id]? = some row ↔ s.entries[row]?.map Entry.id = some id
  stored : ∀ (row : ℕ) (e : Entry), s.entries[row]? = some e →
    t[e.id]? = some ⟨e.text, flatRow s.dims s.vectors row, e.metadataJson⟩
  only : ∀ (id : Bytes) (v : VectorEntry F), t[id]? = some v → ∃ row, s.byId[id]? = some row

section Refinement

variable {A} {s : InMemoryVectorState F} {t : Table (VectorEntry F)} {id : Bytes} {row : ℕ} {e : Entry}

theorem Refines.empty (dims : ℕ) : Refines (F := F) { dims := dims } ∅ where
  size := by simp
  rows id row := by simp
  stored row e h := by simp at h
  only id v h := by simp at h

theorem Refines.row_of_entry (h : Refines s t) (he : s.entries[row]? = some e) : s.byId[e.id]? = some row :=
  (h.rows _ _).2 (by rw [he]; rfl)

theorem Refines.entry_of_row (h : Refines s t) (hrow : s.byId[id]? = some row) :
    ∃ e, s.entries[row]? = some e ∧ e.id = id := by
  obtain ⟨e, he, hid⟩ := Option.map_eq_some_iff.1 ((h.rows _ _).1 hrow)
  exact ⟨e, he, hid⟩

theorem Refines.row_lt (h : Refines s t) (hrow : s.byId[id]? = some row) : row < s.entries.length := by
  obtain ⟨e, he, -⟩ := h.entry_of_row hrow
  exact (List.getElem?_eq_some_iff.1 he).1

theorem Refines.isSome_iff (h : Refines s t) (id : Bytes) : t[id]?.isSome = s.byId[id]?.isSome := by
  cases hrow : s.byId[id]? with
  | none =>
    cases hv : t[id]? with
    | none => rfl
    | some v =>
      obtain ⟨row, hrow'⟩ := h.only id v hv
      rw [hrow] at hrow'
      cases hrow'
  | some row =>
    obtain ⟨e, he, rfl⟩ := h.entry_of_row hrow
    rw [h.stored row e he]
    rfl

theorem writeRow_vectors {n r : ℕ} {embedding : List F} (hsize : s.vectors.length = n * s.dims) (hr : r < n)
    (hlen : embedding.length = s.dims) : (writeRow A s r embedding).vectors.length = n * s.dims ∧
      ∀ i, flatRow s.dims (writeRow A s r embedding).vectors i =
        if i = r then A.l2Normalize embedding else flatRow s.dims s.vectors i := by
  have hend := row_end_le s.dims hr
  have hcopied : (overwrite s.vectors (r * s.dims) embedding).length = n * s.dims := by
    rw [length_overwrite (by omega), hsize]
  have hunit : (A.l2Normalize embedding).length = s.dims := by rw [A.length_l2Normalize, hlen]
  simp only [writeRow, flatRow_overwrite_self hsize hr hlen]
  refine ⟨by rw [length_overwrite (by omega), hcopied], fun i => ?_⟩
  split
  · next hi => rw [hi, flatRow_overwrite_self hcopied hr hunit]
  · next hi => rw [flatRow_overwrite_ne hcopied hr hunit hi, flatRow_overwrite_ne hsize hr hlen hi]

theorem Refines.of_write {s' : InMemoryVectorState F} {r : ℕ} {text metadataJson : Bytes} {unit : List F} (h : Refines s t)
    (hsize : s'.vectors.length = s'.entries.length * s'.dims)
    (hentries : ∀ i, s'.entries[i]? = if i = r then some ⟨id, text, metadataJson⟩ else s.entries[i]?)
    (hbyId : ∀ k : Bytes, s'.byId[k]? = if id = k then some r else s.byId[k]?)
    (hself : flatRow s'.dims s'.vectors r = unit)
    (hother : ∀ i < s.entries.length, i ≠ r → flatRow s'.dims s'.vectors i = flatRow s.dims s.vectors i)
    (hfree : ∀ k : Bytes, s.byId[k]? = some r ↔ k = id ∧ s.byId[id]? ≠ none) :
    Refines s' (t.insert id ⟨text, unit, metadataJson⟩) := by
  have hid : ∀ i, s.byId[id]? = some i → i = r := by
    intro i hi
    have hr := (hfree id).2 ⟨rfl, by rw [hi]; exact some_ne_none i⟩
    rw [hi] at hr
    exact Option.some.inj hr
  refine ⟨hsize, fun k i => ?_, fun i e he => ?_, fun k v hv => ?_⟩
  · rw [hbyId, hentries]
    by_cases hk : id = k <;> by_cases hi : i = r
    · simp [hk, hi]
    · rw [if_pos hk, if_neg hi, ← h.rows, ← hk]
      exact ⟨fun heq => absurd (Option.some.inj heq).symm hi, fun heq => absurd (hid i heq) hi⟩
    · rw [if_neg hk, hi, hfree]
      simp [hk, Ne.symm hk]
    · rw [if_neg hk, if_neg hi, h.rows]
  · rw [hentries] at he
    by_cases hi : i = r
    · rw [if_pos hi] at he
      cases he
      rw [get_insert_self, hi, hself]
    · rw [if_neg hi] at he
      have hne : id ≠ e.id := fun heq => hi (hid i (heq ▸ h.row_of_entry he))
      rw [get_insert_ne _ _ _ _ hne, h.stored i e he, hother i (List.getElem?_eq_some_iff.1 he).1 hi]
  · rw [hbyId]
    by_cases hk : id = k
    · exact ⟨r, if_pos hk⟩
    · rw [get_insert_ne _ _ _ _ hk] at hv
      rw [if_neg hk]
      exact h.only k v hv

theorem writeRow_claimRow_refines (h : Refines s t) (id text metadataJson : Bytes) {embedding : List F}
    (hlen : embedding.length = s.dims) :
    Refines (writeRow A (claimRow A s id text metadataJson).2 (claimRow A s id text metadataJson).1 embedding)
      (t.insert id ⟨text, A.l2Normalize embedding, metadataJson⟩) := by
  cases hfound : s.byId[id]? with
  | some row =>
    obtain ⟨old, hold, hid⟩ := h.entry_of_row hfound
    have hlt := h.row_lt hfound
    simp only [claimRow, hfound]
    obtain ⟨hsize, hvec⟩ := writeRow_vectors (A := A)
      (s := { s with entries := s.entries.modify row fun e => { e with text := text, metadataJson := metadataJson } })
      h.size hlt hlen
    refine h.of_write (r := row) ?_ (fun i => ?_) (fun k => ?_) ?_ (fun i _ hi => ?_) fun k => ?_
    · rw [hsize]
      simp [writeRow]
    · simp only [writeRow, getElem?_modify, eq_comm (a := row)]
      split
      · next hi => simp [hi, hold, hid]
      · simp
    · simp only [writeRow]
      split
      · next hk => rw [← hk, hfound]
      · rfl
    · exact (hvec row).trans (if_pos rfl)
    · exact (hvec i).trans (if_neg hi)
    · rw [h.rows, hold, hfound]
      simp [hid, eq_comm]
  | none =>
    simp only [claimRow, hfound]
    obtain ⟨hsize, hvec⟩ := writeRow_vectors (A := A) (r := s.entries.length) (n := s.entries.length + 1)
      (s := { s with
        entries := s.entries ++ [⟨id, text, metadataJson⟩]
        vectors := s.vectors ++ List.replicate s.dims A.zero
        byId := s.byId.insert id s.entries.length })
      (by simp [h.size, Nat.succ_mul]) (Nat.lt_succ_self _) hlen
    refine h.of_write (r := s.entries.length) ?_ (fun i => ?_) (fun k => ?_) ?_ (fun i hlt hi => ?_) fun k => ?_
    · rw [hsize]
      simp [writeRow]
    · simp only [writeRow]
      grind
    · exact get_insert _ _ _ _
    · exact (hvec _).trans (if_pos rfl)
    · exact ((hvec i).trans (if_neg hi)).trans (flatRow_append h.size hlt)
    · rw [h.rows, hfound]
      simp

theorem Refines.of_move {s' : InMemoryVectorState F} {r n : ℕ} (h : Refines s t) (hr : s.byId[id]? = some r)
    (hn : s.entries.length = n + 1) (he : s.entries[n]? = some e)
    (hsize : s'.vectors.length = s'.entries.length * s'.dims)
    (hentries : ∀ i, s'.entries[i]? = if n ≤ i then none else if i = r then some e else s.entries[i]?)
    (hbyId : ∀ k : Bytes, s'.byId[k]? = if id = k then none else if e.id = k then some r else s.byId[k]?)
    (hvec : ∀ i < n, flatRow s'.dims s'.vectors i = flatRow s.dims s.vectors (if i = r then n else i)) :
    Refines s' (t.erase id) := by
  have hlast := h.row_of_entry he
  -- the moved entry is another one exactly when the given up row is not the last
  refine ⟨hsize, fun k i => ?_, fun i e' he' => ?_, fun k v hv => ?_⟩
  · have hrow := h.rows k i
    have hr' := (h.rows id r).1 hr
    grind
  · rw [hentries] at he'
    by_cases hi : n ≤ i
    · simp [hi] at he'
    · have hsource : s.entries[if i = r then n else i]? = some e' := by grind
      have hrow := h.row_of_entry hsource
      have hne : id ≠ e'.id := by
        grind
      rw [get_erase_ne _ _ _ hne, h.stored _ e' hsource, hvec i (by omega)]
  · rw [get_erase] at hv
    split at hv
    · cases hv
    · next hk =>
      obtain ⟨i, hi⟩ := h.only k v hv
      rw [hbyId, if_neg hk]
      split
      · exact ⟨r, rfl⟩
      · exact ⟨i, hi⟩

theorem memErase_refines (h : Refines s t) (id : Bytes) :
    (memErase s id).1 = .ok t[id]?.isSome ∧ Refines (memErase s id).2 (t.erase id) := by
  rw [h.isSome_iff id]
  cases hr : s.byId[id]? with
  | none =>
    simp only [memErase, hr, isSome_none, true_and]
    have hgone : t.erase id = t := by
      apply Table.ext
      intro k
      rw [get_erase]
      split
      · next hk =>
        have hnone := h.isSome_iff id
        rw [hr, isSome_none, isSome_eq_false_iff, isNone_iff_eq_none] at hnone
        rw [← hk, hnone]
      · rfl
    rw [hgone]
    exact h
  | some r =>
    have hlt := h.row_lt hr
    obtain ⟨n, hn⟩ : ∃ n, s.entries.length = n + 1 := ⟨s.entries.length - 1, by omega⟩
    obtain ⟨e, he⟩ : ∃ e, s.entries[n]? = some e := ⟨_, getElem?_eq_getElem (by omega)⟩
    simp only [memErase, hr, hn, Nat.add_sub_cancel, he, isSome_some, true_and]
    have hsize := h.size
    have hrows : n * s.dims ≤ s.vectors.length := by
      rw [hsize]
      exact Nat.mul_le_mul_right _ (by omega)
    by_cases hne : r ≠ n
    · rw [if_pos hne]
      have hwidth := length_flatRow hsize (i := n) (by omega)
      have hend := row_end_le s.dims hlt
      refine h.of_move hr hn he ?_ (fun i => ?_) (fun k => ?_) fun i hi => ?_
      · simp only [length_take, length_set]
        rw [length_overwrite (by omega), Nat.min_eq_left hrows, Nat.min_eq_left (by omega)]
      · grind
      · have hmoved := h.row_of_entry he
        grind
      · rw [flatRow_take hi]
        split
        · next hir => rw [hir, flatRow_overwrite_self hsize hlt hwidth]
        · next hir => rw [flatRow_overwrite_ne hsize hlt hwidth hir]
    · rw [if_neg hne]
      refine h.of_move hr hn he ?_ (fun i => ?_) (fun k => ?_) fun i hi => ?_
      · simp only [length_take]
        rw [Nat.min_eq_left hrows, Nat.min_eq_left (by omega)]
      · grind
      · have hmoved := h.row_of_entry he
        grind
      · rw [flatRow_take hi, if_neg (by omega)]

end Refinement

section TopK

variable [LinearOrder S]

instance : Std.Total (Before (S := S)) where
  total a b := by
    unfold Before
    rcases lt_trichotomy a.1 b.1 with h | h | h
    · exact .inr (.inl h)
    · rcases Nat.le_total a.2 b.2 with h' | h'
      · exact .inl (.inr ⟨h, h'⟩)
      · exact .inr (.inr ⟨h.symm, h'⟩)
    · exact .inl (.inl h)

instance : IsTrans (S × ℕ) Before where
  trans a b c := by
    unfold Before
    rintro (h | ⟨h, h'⟩) (g | ⟨g, g'⟩)
    · exact .inl (g.trans h)
    · exact .inl (g ▸ h)
    · exact .inl (h ▸ g)
    · exact .inr ⟨h.trans g, h'.trans g'⟩

variable {A} {s : InMemoryVectorState F} {t : Table (VectorEntry F)}

/- What a top-k answer is: `n` entries of the map, best first, and no better one left out. -/
structure TopK (score : VectorEntry F → S) (t : Table (VectorEntry F)) (n : ℕ) (hits : List (VectorHit S)) : Prop where
  count : hits.length = n
  distinct : (hits.map VectorHit.id).Nodup
  sorted : hits.Pairwise fun a b => b.score ≤ a.score
  entries : ∀ h ∈ hits, ∃ v, t[h.id]? = some v ∧ h.text = v.text ∧ h.metadataJson = v.metadata ∧ h.score = score v
  best : ∀ (id : Bytes) (v : VectorEntry F), t[id]? = some v → id ∉ hits.map VectorHit.id →
    ∀ h ∈ hits, score v ≤ h.score

omit [LinearOrder S] in
theorem mem_scoredRows {q : List F} {p : S × ℕ} :
    p ∈ scoredRows A s q ↔ p.2 < s.entries.length ∧ p.1 = A.dot (flatRow s.dims s.vectors p.2) q := by
  simp only [scoredRows, List.mem_map, List.mem_range]
  constructor
  · rintro ⟨row, hrow, rfl⟩
    exact ⟨hrow, rfl⟩
  · rintro ⟨hrow, hscore⟩
    exact ⟨p.2, hrow, Prod.ext hscore.symm rfl⟩

theorem Before.le {a b : S × ℕ} (h : Before a b) : b.1 ≤ a.1 := by
  rcases h with h | ⟨h, -⟩
  · exact h.le
  · exact h.ge

theorem ranked_pairwise (A : VectorArith F S) (s : InMemoryVectorState F) (q : List F) :
    ((scoredRows A s q).insertionSort Before).Pairwise fun a b => b.1 ≤ a.1 ∧ a.2 ≠ b.2 := by
  have hsorted := List.pairwise_insertionSort (Before (S := S)) (scoredRows A s q)
  have hrows : (((scoredRows A s q).insertionSort Before).map Prod.snd).Nodup := by
    refine ((List.perm_insertionSort _ _).map _).nodup_iff.2 ?_
    simp only [scoredRows, List.map_map, Function.comp_def, List.map_id']
    exact List.nodup_range
  exact (hsorted.and (List.pairwise_map.1 hrows)).imp fun h => ⟨h.1.le, h.2⟩

omit [LinearOrder S] in
theorem hitOf_spec (h : Refines s t) {p : S × ℕ} {b : VectorHit S} (hb : hitOf s p = some b) :
    s.byId[b.id]? = some p.2 ∧ b.score = p.1 ∧
      t[b.id]? = some ⟨b.text, flatRow s.dims s.vectors p.2, b.metadataJson⟩ := by
  obtain ⟨e, he, rfl⟩ := Option.map_eq_some_iff.1 hb
  exact ⟨h.row_of_entry he, rfl, h.stored p.2 e he⟩

theorem memQuery_topK (h : Refines s t) {embedding : List F} (hdims : checkDims A s embedding = .ok ()) (k : ℤ) :
    ∃ hits, memQuery A s embedding k = .ok hits ∧
      TopK (fun v => A.dot v.embedding (A.l2Normalize embedding)) t (min k.toNat s.entries.length) hits := by
  simp only [memQuery, hdims]
  by_cases hk : k ≤ 0
  · rw [if_pos hk]
    refine ⟨[], rfl, ⟨?_, nodup_nil, List.Pairwise.nil, nofun, nofun⟩⟩
    simp [Int.toNat_of_nonpos hk]
  · rw [if_neg hk]
    set q := A.l2Normalize embedding
    have hlength : (scoredRows A s q).length = s.entries.length := by simp [scoredRows]
    have hranked := ranked_pairwise A s q
    set ranked := (scoredRows A s q).insertionSort Before with hdef
    set n := min (scoredRows A s q).length k.toNat
    have hmem : ∀ p, p ∈ ranked ↔ p ∈ scoredRows A s q := fun p => mem_insertionSort _
    have hhit : ∀ p ∈ ranked, ∃ e, s.entries[p.2]? = some e ∧ p.1 = A.dot (flatRow s.dims s.vectors p.2) q := by
      intro p hp
      obtain ⟨hlt, hscore⟩ := mem_scoredRows.1 ((hmem p).1 hp)
      exact ⟨_, getElem?_eq_getElem hlt, hscore⟩
    have htop := hranked.sublist (take_sublist n ranked)
    refine ⟨_, rfl, ⟨?_, ?_, ?_, ?_, ?_⟩⟩
    · rw [filterMap_length_eq_length.2, length_take, length_insertionSort]
      · omega
      · intro p hp
        obtain ⟨e, he, -⟩ := hhit p (mem_of_mem_take hp)
        simp [hitOf, he]
    · refine pairwise_map.2 (pairwise_filterMap.2 (htop.imp fun hpq b hb b' hb' heq => hpq.2 ?_))
      have hrow := (hitOf_spec h hb).1
      rw [heq, (hitOf_spec h hb').1] at hrow
      exact (Option.some.inj hrow).symm
    · refine pairwise_filterMap.2 (htop.imp fun hpq b hb b' hb' => ?_)
      rw [(hitOf_spec h hb).2.1, (hitOf_spec h hb').2.1]
      exact hpq.1
    · intro b hb
      obtain ⟨p, hp, hpb⟩ := mem_filterMap.1 hb
      obtain ⟨-, hscore, hstored⟩ := hitOf_spec h hpb
      obtain ⟨-, -, hdot⟩ := hhit p (mem_of_mem_take hp)
      exact ⟨_, hstored, rfl, rfl, hscore.trans hdot⟩
    · intro id v hv hleft b hb
      obtain ⟨p, hp, hpb⟩ := mem_filterMap.1 hb
      obtain ⟨row, hrow⟩ := h.only id v hv
      obtain ⟨e, he, rfl⟩ := h.entry_of_row hrow
      have hvec := h.stored row e he
      rw [hv] at hvec
      cases hvec
      -- the row of the entry left out stands behind the cut
      have hrank : (A.dot (flatRow s.dims s.vectors row) q, row) ∈ ranked :=
        (hmem _).2 (mem_scoredRows.2 ⟨h.row_lt hrow, rfl⟩)
      rw [← take_append_drop n ranked] at hrank hranked
      rcases mem_append.1 hrank with htaken | hdropped
      · have hfound : hitOf s (A.dot (flatRow s.dims s.vectors row) q, row) =
            some ⟨e.id, e.text, e.metadataJson, A.dot (flatRow s.dims s.vectors row) q⟩ := by simp [hitOf, he]
        exact absurd (mem_map_of_mem (f := VectorHit.id) (mem_filterMap.2 ⟨_, htaken, hfound⟩)) hleft
      · rw [(hitOf_spec h hpb).2.1]
        exact ((pairwise_append.1 hranked).2.2 p hp _ hdropped).1

end TopK

inductive VectorCall (F : Type) where
  | upsert (id text : Bytes) (embedding : List F) (metadataJson : Bytes)
  | erase (id : Bytes)
  | clear
  | query (embedding : List F) (k : ℤ)

def vectorStep (s : InMemoryVectorState F) : VectorCall F → InMemoryVectorState F
  | .upsert id text embedding metadataJson => (memUpsert A s id text embedding metadataJson).2
  | .erase id => (memErase s id).2
  | .clear => (memClear s).2
  | .query _ _ => s

/- The map after the call: an upsert that is accepted is the id's last one. -/
def mapStep (dims : ℕ) (t : Table (VectorEntry F)) : VectorCall F → Table (VectorEntry F)
  | .upsert id text embedding metadataJson =>
    if embedding.length = dims ∧ embedding.all A.isFinite ∧ id ≠ [] then
      t.insert id ⟨text, A.l2Normalize embedding, metadataJson⟩
    else t
  | .erase id => t.erase id
  | .clear => ∅
  | .query _ _ => t

def vectorRun (dims : ℕ) (calls : List (VectorCall F)) : InMemoryVectorState F :=
  calls.foldl (vectorStep A) { dims := dims }

def mapRun (dims : ℕ) (calls : List (VectorCall F)) : Table (VectorEntry F) := calls.foldl (mapStep A dims) ∅

section Runs

variable {A} {s : InMemoryVectorState F} {t : Table (VectorEntry F)}

theorem checkDims_ok_iff {v : List F} : checkDims A s v = .ok () ↔ v.length = s.dims ∧ v.all A.isFinite := by
  unfold checkDims fail
  split <;> [skip; split] <;> simp_all

theorem memErase_dims (s : InMemoryVectorState F) (id : Bytes) : (memErase s id).2.dims = s.dims := by
  simp only [memErase]
  split
  · rfl
  · split
    · split <;> rfl
    · rfl

theorem claimRow_dims (s : InMemoryVectorState F) (id text metadataJson : Bytes) :
    (claimRow A s id text metadataJson).2.dims = s.dims := by
  unfold claimRow
  cases s.byId[id]? <;> rfl

theorem vectorStep_refines (h : Refines s t) (call : VectorCall F) :
    Refines (vectorStep A s call) (mapStep A s.dims t call) ∧ (vectorStep A s call).dims = s.dims := by
  cases call with
  | upsert id text embedding metadataJson =>
    simp only [vectorStep, mapStep, memUpsert]
    cases hdims : checkDims A s embedding with
    | error e =>
      have hrejected : ¬(embedding.length = s.dims ∧ embedding.all A.isFinite ∧ id ≠ []) := by
        rintro ⟨hlen, hfinite, -⟩
        rw [checkDims_ok_iff.2 ⟨hlen, hfinite⟩] at hdims
        cases hdims
      simp only [if_neg hrejected, h, and_self]
    | ok u =>
      obtain ⟨hlen, hfinite⟩ := checkDims_ok_iff.1 hdims
      by_cases hid : id = []
      · simp [hid, h]
      · simp only [hid, hlen, hfinite, ne_eq]
        exact ⟨writeRow_claimRow_refines h id text metadataJson hlen, claimRow_dims s id text metadataJson⟩
  | erase id => exact ⟨(memErase_refines h id).2, memErase_dims s id⟩
  | clear => exact ⟨Refines.empty s.dims, rfl⟩
  | query embedding k => exact ⟨h, rfl⟩

theorem vectorRun_refines (dims : ℕ) (calls : List (VectorCall F)) :
    Refines (vectorRun A dims calls) (mapRun A dims calls) ∧ (vectorRun A dims calls).dims = dims := by
  suffices hrun : ∀ (s : InMemoryVectorState F) (t : Table (VectorEntry F)), Refines s t ∧ s.dims = dims →
      Refines (calls.foldl (vectorStep A) s) (calls.foldl (mapStep A dims) t) ∧
        (calls.foldl (vectorStep A) s).dims = dims from hrun _ _ ⟨Refines.empty dims, rfl⟩
  induction calls with
  | nil => exact fun s t h => h
  | cons call calls ih =>
    rintro s t ⟨h, rfl⟩
    exact ih _ _ (vectorStep_refines h call)

/-- After any calls the store is the finite map of the last upserts: `by_id` and the rows name each
other, `erase` answers whether the id is there, and a query returns the best entries. -/
theorem inMemoryVectorStore_finiteMap [LinearOrder S] (A : VectorArith F S) (dims : ℕ) (calls : List (VectorCall F)) :
    Refines (vectorRun A dims calls) (mapRun A dims calls) ∧
      (∀ id : Bytes, (memErase (vectorRun A dims calls) id).1 = .ok (mapRun A dims calls)[id]?.isSome) ∧
      ∀ (embedding : List F) (k : ℤ), checkDims A (vectorRun A dims calls) embedding = .ok () →
        ∃ hits, memQuery A (vectorRun A dims calls) embedding k = .ok hits ∧
          TopK (fun v => A.dot v.embedding (A.l2Normalize embedding)) (mapRun A dims calls)
            (min k.toNat (vectorRun A dims calls).entries.length) hits := by
  obtain ⟨h, -⟩ := vectorRun_refines (A := A) dims calls
  exact ⟨h, fun id => (memErase_refines h id).1, fun embedding k hdims => memQuery_topK h hdims k⟩

def wholeArith : VectorArith ℤ ℤ where
  zero := 0
  isFinite _ := true
  l2Normalize v := v
  dot v q := (List.zipWith (· * ·) v q).sum
  length_l2Normalize _ := rfl

theorem inMemoryVectorStore_finiteMap_two : ∃ hits, memQuery wholeArith (vectorRun wholeArith 1
        [.upsert (lit "a") [] [1] [], .upsert (lit "b") [] [2] [], .erase (lit "a")]) [3] 2
        = .ok hits ∧ hits.length = 1 := by
  obtain ⟨-, -, hquery⟩ := inMemoryVectorStore_finiteMap wholeArith 1
    [.upsert (lit "a") [] [1] [], .upsert (lit "b") [] [2] [], .erase (lit "a")]
  obtain ⟨hits, hok, htop⟩ := hquery [3] 2 (by decide +kernel)
  refine ⟨hits, hok, htop.count.trans ?_⟩
  decide +kernel

end Runs

end AgentCpp.Rag
