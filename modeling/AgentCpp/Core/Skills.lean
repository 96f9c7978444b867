import AgentCpp.Lib.Bytes

/-!
# Frontmatter of a skill file

`parse_frontmatter` looks for the block between the first line and the next that begins with `---`.
Where that is the second line the length of the block wraps around.
-/

namespace AgentCpp.Skills

open AgentCpp.Lib List Option

structure Frontmatter where
  name : Bytes := []
  description : Bytes := []
deriving DecidableEq

def unquote (value : Bytes) : Bytes :=
  if 2 ≤ value.length ∧ (value.head? = some 0x22 ∨ value.head? = some 0x27) ∧ value.getLast? = value.head?
  then (value.drop 1).take (value.length - 2) else value

/- Key and value of a line with a colon. -/
def lineField (line : Bytes) : Option (Bytes × Bytes) :=
  (find [0x3A] line).map fun colon =>
    (trim (line.take colon), unquote (trim (line.drop (colon + 1))))

def readLine (out : Frontmatter) (line : Bytes) : Frontmatter :=
  match lineField line with
  | none => out
  | some (key, value) =>
    if key = lit "name" then { out with name := value }
    else if key = lit "description" then { out with description := value } else out

def Frontmatter.checked (out : Frontmatter) : Option Frontmatter :=
  if out.name ≠ [] ∧ out.description ≠ [] then some out else none

def dashes (s : Bytes) : Bool := (lit "---").isPrefixOf s

def parseFrontmatter (content : Bytes) : Option Frontmatter :=
  if !dashes content then none
  else (find [0x0A] (content.drop 3)).bind fun n =>
    let bodyStart := n + 3
    (find (0x0A :: lit "---") (content.drop bodyStart)).bind fun k =>
      -- with `end == body_start` the count `end - body_start - 1` is npos
      let rest := content.drop (bodyStart + 1)
      let block := if k = 0 then rest else rest.take (k - 1)
      -- the loop stops before an empty last line, which has no colon
      ((block.splitOn 0x0A).foldl readLine {}).checked

/- The part of a file below its first line. -/
def below (lines : List Bytes) : Bytes := lines.flatMap (0x0A :: ·)

variable {first l : Bytes} {ls : List Bytes}

theorem below_cons (l : Bytes) (ls : List Bytes) : below (l :: ls) = 0x0A :: (l ++ below ls) := rfl

theorem eq_lines {s : Bytes} (h : s.splitOn 0x0A = first :: ls) : s = first ++ below ls := by
  have hs : [0x0A].intercalate (s.splitOn 0x0A) = s := intercalate_splitOn 0x0A
  rw [← hs, h]
  clear h hs
  induction ls generalizing first with
  | nil => simp [intercalate, below]
  | cons l ls ih => rw [below_cons, ← ih, intercalate_cons_cons, append_assoc, singleton_append]

theorem splitOn_lines (h : 0x0A ∉ first) (hls : ∀ l ∈ ls, 0x0A ∉ l) :
    (first ++ below ls).splitOn 0x0A = first :: ls := by
  induction ls generalizing first with
  | nil =>
    rw [below, flatMap_nil, append_nil]
    exact splitOn_eq_singleton h
  | cons l ls ih =>
    rw [forall_mem_cons] at hls
    rw [below_cons, splitOn_append_cons_self_of_not_mem h, ih hls.1 hls.2]

theorem isPrefixOf_line (p : Bytes) (hp : 0x0A ∉ p) (l : Bytes) (ls : List Bytes) :
    p.isPrefixOf (l ++ below ls) = p.isPrefixOf l := by
  induction p generalizing l with
  | nil => simp
  | cons c p ih =>
    rw [mem_cons, not_or] at hp
    cases l with
    | cons d l => simp [List.isPrefixOf, ih hp.2 l]
    | nil =>
      cases ls with
      | nil => rfl
      | cons l ls => simp [below_cons, List.isPrefixOf, Ne.symm hp.1]

theorem dashes_line (l : Bytes) (ls : List Bytes) : dashes (l ++ below ls) = dashes l :=
  isPrefixOf_line (lit "---") (by decide +kernel) l ls

/- The search for the end stops at the first line below that begins with `---`. -/
theorem find_dashes (hls : ∀ l ∈ ls, 0x0A ∉ l) :
    find (0x0A :: lit "---") (below ls) =
      if ls.dropWhile (!dashes ·) = [] then none else some (below (ls.takeWhile (!dashes ·))).length := by
  induction ls with
  | nil => rfl
  | cons l ls ih =>
    rw [forall_mem_cons] at hls
    have hhead : (0x0A :: lit "---").isPrefixOf (0x0A :: (l ++ below ls)) = dashes l := by
      rw [isPrefixOf_cons_cons, beq_self_eq_true, Bool.true_and]
      exact dashes_line l ls
    rw [below_cons, find, hhead]
    cases hl : dashes l with
    | true => simp [hl, below]
    | false =>
      simp only [Bool.false_eq_true, if_false, find_skip hls.1, ih hls.2, dropWhile_cons, takeWhile_cons,
        hl, Bool.not_false, if_true]
      split
      · rfl
      · simp only [map_some, below_cons, length_cons, length_append]
        rw [Nat.add_comm l.length]

theorem parseFrontmatter_lines (h : 0x0A ∉ first) (hls : ∀ l ∈ ls, 0x0A ∉ l) (hfirst : dashes first) :
    parseFrontmatter (first ++ below ls) =
      if ls.dropWhile (!dashes ·) = [] then none
      else ((if ls.takeWhile (!dashes ·) = [] then ls else ls.takeWhile (!dashes ·)).foldl readLine {}).checked := by
  obtain ⟨f, rfl⟩ := List.isPrefixOf_iff_prefix.1 hfirst
  have hf : 0x0A ∉ f := fun hm => h (mem_append_right _ hm)
  have hdrop : (lit "---" ++ f ++ below ls).drop 3 = f ++ below ls := by
    rw [append_assoc]
    exact drop_left' rfl
  have hbody : (lit "---" ++ f ++ below ls).drop (f.length + 3) = below ls := by
    rw [Nat.add_comm, ← drop_drop, hdrop, drop_left]
  unfold parseFrontmatter
  rw [dashes_line, hfirst, hdrop, find_skip hf]
  cases ls with
  | nil => rfl
  | cons l ls =>
    have hrest : (lit "---" ++ f ++ below (l :: ls)).drop (f.length + 3 + 1) = l ++ below ls := by
      rw [← drop_drop, hbody, below_cons, drop_one, tail_cons]
    have hnl : find [0x0A] (below (l :: ls)) = some 0 := by simp [below_cons, find]
    simp only [hnl, Bool.not_true, Bool.false_eq_true, if_false, map_some, bind_some, Nat.zero_add,
      hbody, hrest, find_dashes hls]
    split
    · rfl
    · rw [forall_mem_cons] at hls
      rw [bind_some]
      cases hin : (l :: ls).takeWhile (!dashes ·) with
      | nil => rw [if_pos rfl, if_pos (by rfl), splitOn_lines hls.1 hls.2]
      | cons m ms =>
        have hsplit := takeWhile_append_dropWhile (p := (!dashes ·)) (l := l :: ls)
        rw [hin, cons_append, List.cons.injEq] at hsplit
        obtain ⟨rfl, hms⟩ := hsplit
        have hblock : (m ++ below ls).take (m ++ below ms).length = m ++ below ms := by
          rw [← hms, below, below, flatMap_append, ← append_assoc]
          exact take_left
        simp only [below_cons, length_cons, Nat.add_one_ne_zero, Nat.add_one_sub_one, hblock, if_false, reduceCtorEq]
        rw [splitOn_lines hls.1 fun l hl => hls.2 l (by rw [← hms]; exact mem_append_left _ hl)]

theorem foldl_readLine {field : Frontmatter → Bytes} {key : Bytes}
    (hline : ∀ out l, field (readLine out l) = field out ∨ lineField l = some (key, field (readLine out l)))
    (ls : List Bytes) (out : Frontmatter) : field (ls.foldl readLine out) = field out ∨
      ∃ l ∈ ls, lineField l = some (key, field (ls.foldl readLine out)) := by
  induction ls generalizing out with
  | nil => exact .inl rfl
  | cons l ls ih =>
    rcases ih (readLine out l) with hsame | ⟨m, hm, hfield⟩
    · rw [foldl_cons, hsame]
      exact (hline out l).imp_right fun hfield => ⟨l, mem_cons_self, hfield⟩
    · exact .inr ⟨m, mem_cons_of_mem _ hm, hfield⟩

theorem readLine_fields (out : Frontmatter) (l : Bytes) :
    ((readLine out l).name = out.name ∨ lineField l = some (lit "name", (readLine out l).name)) ∧
      ((readLine out l).description = out.description ∨
        lineField l = some (lit "description", (readLine out l).description)) := by
  cases hl : lineField l with
  | none => simp [readLine, hl]
  | some field =>
    obtain ⟨key, value⟩ := field
    simp only [readLine, hl, Option.some.injEq, Prod.mk.injEq]
    split
    · next hname => exact ⟨.inr ⟨hname, rfl⟩, .inl rfl⟩
    · split
      · next hdescription => exact ⟨.inl rfl, .inr ⟨hdescription, rfl⟩⟩
      · exact ⟨.inl rfl, .inl rfl⟩

/- A result comes from the lines between the first and the next one that begins with `---`. -/
def StaysInBlock (content : Bytes) : Prop :=
  ∀ out, parseFrontmatter content = some out →
    ∃ first inner stop after, content.splitOn 0x0A = first :: (inner ++ stop :: after) ∧
      dashes first ∧ dashes stop ∧ (∀ l ∈ inner, !dashes l) ∧
      (∃ l ∈ inner, lineField l = some (lit "name", out.name)) ∧
      ∃ l ∈ inner, lineField l = some (lit "description", out.description)

theorem not_mem_inner {first first' second stop : Bytes} {after inner rest : List Bytes}
    (hlines : first :: second :: after = first' :: (inner ++ stop :: rest)) (hinner : ∀ l ∈ inner, !dashes l)
    (hd : dashes second) (l : Bytes) : l ∉ inner := by
  cases inner with
  | nil => exact not_mem_nil
  | cons m ms =>
    obtain ⟨rfl, -⟩ := List.cons.inj (List.cons.inj hlines).2
    exact absurd (hinner second mem_cons_self) (by simp [hd])

/-- The fields come from the lines between the first two that begin with `---`, unless the second line of the file is
such a line and the lines from there on hold both fields. -/
theorem parseFrontmatter_block (content : Bytes) :
    StaysInBlock content ↔ ∀ first second after, content.splitOn 0x0A = first :: second :: after →
      dashes first → dashes second → ((second :: after).foldl readLine {}).checked = none := by
  obtain ⟨first, ls, hsplit⟩ := exists_cons_of_ne_nil (splitOn_ne_nil 0x0A content)
  obtain ⟨hfirst, hls⟩ := List.forall_mem_cons.1 (hsplit ▸ not_mem_splitOn 0x0A content)
  unfold StaysInBlock
  rw [hsplit, eq_lines hsplit]
  constructor
  · rintro hstays _ second after ⟨⟩ hd hd'
    cases hout : ((second :: after).foldl readLine {}).checked with
    | none => rfl
    | some out =>
      have hparse := parseFrontmatter_lines hfirst hls hd
      simp only [dropWhile_cons, takeWhile_cons, hd', Bool.not_true, Bool.false_eq_true, if_false, if_true,
        reduceCtorEq, hout] at hparse
      obtain ⟨_, inner, stop, rest, hlines, -, -, hinner, ⟨l, hl, -⟩, -⟩ := hstays out hparse
      exact absurd hl (not_mem_inner hlines hinner hd' l)
  · intro hblock out hparse
    cases hd : dashes first with
    | false => simp [parseFrontmatter, dashes_line, hd] at hparse
    | true =>
      rw [parseFrontmatter_lines hfirst hls hd] at hparse
      have hlines := takeWhile_append_dropWhile (p := (!dashes ·)) (l := ls)
      cases htail : ls.dropWhile (!dashes ·) with
      | nil => simp [htail] at hparse
      | cons stop after =>
        have hstop : dashes stop = true := by
          have := head_dropWhile_not (!dashes ·) (l := ls) (by simp [htail])
          simpa [htail] using this
        rw [htail] at hlines hparse
        by_cases hin : ls.takeWhile (!dashes ·) = []
        · rw [hin, nil_append] at hlines
          have hnone := hblock first stop after (by rw [hlines]) hd hstop
          rw [if_neg (cons_ne_nil _ _), if_pos hin, ← hlines, hnone] at hparse
          cases hparse
        · simp only [hin, reduceCtorEq, if_false, Frontmatter.checked] at hparse
          split at hparse
          · next hset =>
            cases hparse
            have hname := foldl_readLine (fun out l => (readLine_fields out l).1) (ls.takeWhile (!dashes ·)) {}
            have hdescription := foldl_readLine (fun out l => (readLine_fields out l).2) (ls.takeWhile (!dashes ·)) {}
            exact ⟨first, _, stop, after, by rw [hlines], hd, hstop, fun l hl => mem_takeWhile_imp (p := (!dashes ·)) hl,
              hname.resolve_left hset.1, hdescription.resolve_left hset.2⟩
          · cases hparse

/- The second line closes the block, and the fields are taken from the text after it. -/
theorem parseFrontmatter_reads_body : ¬StaysInBlock (lit "---\n---\nname: a\ndescription: b") := by
  intro h
  have hparse : parseFrontmatter (lit "---\n---\nname: a\ndescription: b") = some ⟨lit "a", lit "b"⟩ := by
    decide +kernel
  have hsplit : (lit "---\n---\nname: a\ndescription: b").splitOn 0x0A =
      [lit "---", lit "---", lit "name: a", lit "description: b"] := by decide +kernel
  obtain ⟨first, inner, stop, after, hlines, -, -, hinner, ⟨l, hl, -⟩, -⟩ := h _ hparse
  exact not_mem_inner (hsplit.symm.trans hlines) hinner (by decide +kernel) l hl

end AgentCpp.Skills
