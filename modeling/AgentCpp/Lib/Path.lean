import AgentCpp.Lib.Bytes

/-!
# POSIX paths, lexically

`append` is the operator `/` of `std::filesystem::path`, `lexicallyNormal` removes `.`, `..` and
repeated slashes. `Under dir p`: `p` lies strictly below `dir` after normalisation.
-/

namespace AgentCpp.Lib.Path

open List

def slash : UInt8 := 0x2F

def segments (p : Bytes) : List Bytes := p.splitOn slash

def isAbsolute (p : Bytes) : Bool := p.head? == some slash

def append (p q : Bytes) : Bytes :=
  if isAbsolute q then q
  else if p = [] ∨ p.getLast? = some slash then p ++ q
  else p ++ slash :: q

def filename (p : Bytes) : Bytes := (segments p).getLastD []

def parentPath (p : Bytes) : Bytes :=
  let folder := p.take (p.length - (filename p).length)
  let names := folder.rdropWhile (· == slash)
  if names = [] then folder.take 1 else names

def absolute (cwd p : Bytes) : Bytes := if isAbsolute p then p else append cwd p

/- `..` at the root stays at the root. -/
def pushName (names : List Bytes) (segment : Bytes) : List Bytes :=
  if segment = [] ∨ segment = lit "." then names
  else if segment = lit ".." then names.dropLast
  else names ++ [segment]

def normalNames (p : Bytes) : List Bytes := (segments p).foldl pushName []

/- The last segment names a directory: a normalised path keeps its slash. -/
def endsInDirectory (p : Bytes) : Bool :=
  match (segments p).getLast? with
  | none => false
  | some last => last = [] ∨ last = lit "." ∨ last = lit ".."

/- For absolute paths. -/
def lexicallyNormal (p : Bytes) : Bytes :=
  slash :: [slash].intercalate (normalNames p) ++
    if endsInDirectory p ∧ normalNames p ≠ [] then [slash] else []

def Under (dir p : Bytes) : Prop := ∃ names, names ≠ [] ∧ normalNames p = normalNames dir ++ names

structure IsName (s : Bytes) : Prop where
  nonempty : s ≠ []
  notDot : s ≠ lit "."
  notDots : s ≠ lit ".."
  noSlash : slash ∉ s

variable {s p q pre : Bytes} {names : List Bytes}

theorem pushName_of_isName (h : IsName s) (names : List Bytes) : pushName names s = names ++ [s] := by
  unfold pushName
  rw [if_neg (not_or.2 ⟨h.nonempty, h.notDot⟩), if_neg h.notDots]

theorem foldl_pushName_of_isName {ss : List Bytes} (h : ∀ s ∈ ss, IsName s) (names : List Bytes) :
    ss.foldl pushName names = names ++ ss := by
  induction ss generalizing names with
  | nil => rw [append_nil]; rfl
  | cons s ss ih =>
    rw [foldl_cons, pushName_of_isName (h s mem_cons_self), ih (fun t ht => h t (mem_cons_of_mem _ ht)), append_assoc]
    rfl

theorem isName_pushName (hs : slash ∉ s) (h : ∀ n ∈ names, IsName n) : ∀ n ∈ pushName names s, IsName n := by
  unfold pushName
  split
  · exact h
  next hdot =>
  split
  · exact fun n hn => h n (mem_of_mem_dropLast hn)
  next hdots =>
  intro n hn
  cases mem_append.1 hn with
  | inl hn => exact h n hn
  | inr hn =>
    obtain rfl := mem_singleton.1 hn
    obtain ⟨hne, hnotDot⟩ := not_or.1 hdot
    exact ⟨hne, hnotDot, hdots, hs⟩

theorem isName_foldl {ss : List Bytes} (hss : ∀ s ∈ ss, slash ∉ s) (h : ∀ n ∈ names, IsName n) :
    ∀ n ∈ ss.foldl pushName names, IsName n := by
  induction ss generalizing names with
  | nil => exact h
  | cons s ss ih =>
    exact ih (fun t ht => hss t (mem_cons_of_mem _ ht)) (isName_pushName (hss s mem_cons_self) h)

theorem isName_normalNames (p : Bytes) : ∀ n ∈ normalNames p, IsName n :=
  isName_foldl (not_mem_splitOn slash p) fun _ h => absurd h not_mem_nil

theorem segments_append (p q : Bytes) : segments (p ++ slash :: q) = segments p ++ segments q :=
  splitOn_append_cons_self p q

theorem normalNames_append (p q : Bytes) :
    normalNames (p ++ slash :: q) = (segments q).foldl pushName (normalNames p) := by
  unfold normalNames
  rw [segments_append, foldl_append]

theorem normalNames_cons_slash (p : Bytes) : normalNames (slash :: p) = normalNames p :=
  normalNames_append [] p

theorem normalNames_concat_slash (p : Bytes) : normalNames (p ++ [slash]) = normalNames p :=
  normalNames_append p []

theorem normalNames_intercalate (h : ∀ n ∈ names, IsName n) : normalNames ([slash].intercalate names) = names := by
  by_cases hnil : names = []
  · rw [hnil]
    rfl
  · unfold normalNames segments
    rw [splitOn_intercalate slash (fun n hn => (h n hn).noSlash) hnil, foldl_pushName_of_isName h]
    rfl

theorem normalNames_lexicallyNormal (p : Bytes) : normalNames (lexicallyNormal p) = normalNames p := by
  unfold lexicallyNormal
  split
  · rw [cons_append, normalNames_cons_slash, normalNames_concat_slash, normalNames_intercalate (isName_normalNames p)]
  · rw [append_nil, normalNames_cons_slash, normalNames_intercalate (isName_normalNames p)]

theorem absolute_append_slash {cwd : Bytes} (hp : p ≠ []) :
    absolute cwd (p ++ slash :: q) = absolute cwd p ++ slash :: q := by
  have hhead : isAbsolute (p ++ slash :: q) = isAbsolute p := by
    unfold isAbsolute
    rw [head?_append_of_ne_nil _ hp]
  unfold absolute
  rw [hhead]
  split
  · rfl
  · next hrel =>
    unfold append
    rw [hhead, if_neg hrel]
    split
    · rw [append_assoc]
    · rw [append_assoc]
      rfl

theorem append_of_relative (hq : isAbsolute q = false) (hp : p ≠ []) (hlast : p.getLast? ≠ some slash) :
    append p q = p ++ slash :: q := by
  unfold append
  rw [hq, if_neg Bool.false_ne_true, if_neg (not_or.2 ⟨hp, hlast⟩)]

def SlashEnded (p : Bytes) : Prop := p = [] ∨ ∃ q, p = q ++ [slash]

theorem SlashEnded.prepend (h : SlashEnded p) (hq : SlashEnded q) : SlashEnded (q ++ p) := by
  cases h with
  | inl h =>
    rw [h, append_nil]
    exact hq
  | inr h =>
    obtain ⟨r, rfl⟩ := h
    exact .inr ⟨q ++ r, (append_assoc _ _ _).symm⟩

theorem slashEnded_of_getLast (h : p.getLast? = some slash) : SlashEnded p :=
  .inr ⟨p.dropLast, (dropLast_append_getLast? slash h).symm⟩

theorem isAbsolute_append (hs : slash ∉ s) : isAbsolute (pre ++ s) = isAbsolute pre := by
  unfold isAbsolute
  cases pre with
  | nil =>
    cases s with
    | nil => rfl
    | cons c s =>
      have hc : c ≠ slash := fun he => hs (he ▸ mem_cons_self)
      simp [hc]
  | cons c pre => rfl

theorem segments_of_not_mem (hs : slash ∉ s) : segments s = [s] := splitOn_eq_singleton hs

theorem segments_concat (hpre : SlashEnded pre) :
    ∃ before, (∀ t, slash ∉ t → segments (pre ++ t) = before ++ [t]) ∧ normalNames pre = before.foldl pushName [] := by
  cases hpre with
  | inl h =>
    refine ⟨[], fun t ht => ?_, ?_⟩
    · rw [h, nil_append, segments_of_not_mem ht]
      rfl
    · rw [h]
      rfl
  | inr h =>
    obtain ⟨q, rfl⟩ := h
    refine ⟨segments q, fun t ht => ?_, normalNames_concat_slash q⟩
    rw [append_assoc, singleton_append, segments_append, segments_of_not_mem ht]

theorem intercalate_concat (names : List Bytes) (s : Bytes) :
    [slash].intercalate (names ++ [s]) = names.flatMap (· ++ [slash]) ++ s := by
  induction names with
  | nil => simp
  | cons n names ih =>
    rw [flatMap_cons, append_assoc, ← ih]
    cases names with
    | nil => simp
    | cons m names => simp [List.intercalate]

theorem normalNames_concat (hpre : SlashEnded pre) (hs : IsName s) : normalNames (pre ++ s) = normalNames pre ++ [s] := by
  obtain ⟨before, hsegments, hnames⟩ := segments_concat hpre
  unfold normalNames at hnames ⊢
  rw [hsegments s hs.noSlash, foldl_append, ← hnames]
  exact pushName_of_isName hs _

theorem under_concat {dir : Bytes} (hpre : SlashEnded pre) (hs : IsName s) :
    Under dir (pre ++ s) ↔ normalNames dir <+: normalNames pre := by
  unfold Under
  rw [normalNames_concat hpre hs]
  constructor
  · rintro ⟨names, hne, h⟩
    rw [← dropLast_append_getLast hne, ← append_assoc] at h
    exact ⟨_, (append_inj_left' h rfl).symm⟩
  · rintro ⟨names, h⟩
    exact ⟨names ++ [s], by simp, by rw [← h, append_assoc]⟩

theorem lexicallyNormal_concat (hpre : SlashEnded pre) (hs : IsName s) :
    lexicallyNormal (pre ++ s) = slash :: (normalNames pre).flatMap (· ++ [slash]) ++ s := by
  obtain ⟨before, hsegments, -⟩ := segments_concat hpre
  have hend : endsInDirectory (pre ++ s) = false := by
    unfold endsInDirectory
    rw [hsegments s hs.noSlash]
    simp [hs.nonempty, hs.notDot, hs.notDots]
  unfold lexicallyNormal
  rw [hend, normalNames_concat hpre hs, intercalate_concat]
  simp

theorem IsName.of_length (hs : slash ∉ s) (hlength : 2 < s.length) : IsName s where
  nonempty := ne_nil_of_length_pos (by omega)
  notDot := fun h => absurd (h ▸ hlength) (by decide)
  notDots := fun h => absurd (h ▸ hlength) (by decide)
  noSlash := hs

theorem slashEnded_folder (names : List Bytes) : SlashEnded (slash :: names.flatMap (· ++ [slash])) := by
  cases names using List.reverseRecOn with
  | nil => exact .inr ⟨[], rfl⟩
  | append_singleton names n =>
    refine .inr ⟨slash :: (names.flatMap (· ++ [slash]) ++ n), ?_⟩
    simp

theorem append_concat (p : Bytes) (hpre : SlashEnded pre) :
    ∃ q, SlashEnded q ∧ ∀ s, slash ∉ s → append p (pre ++ s) = q ++ s := by
  unfold append
  by_cases habs : isAbsolute pre = true
  · refine ⟨pre, hpre, fun s hs => ?_⟩
    rw [isAbsolute_append hs, if_pos habs]
  by_cases hlast : p = [] ∨ p.getLast? = some slash
  · refine ⟨p ++ pre, hpre.prepend ?_, fun s hs => ?_⟩
    · cases hlast with
      | inl h => exact .inl h
      | inr h => exact slashEnded_of_getLast h
    · rw [isAbsolute_append hs, if_neg habs, if_pos hlast, append_assoc]
  · refine ⟨p ++ [slash] ++ pre, hpre.prepend (.inr ⟨p, rfl⟩), fun s hs => ?_⟩
    rw [isAbsolute_append hs, if_neg habs, if_neg hlast, append_assoc, append_assoc]
    rfl

theorem absolute_concat (cwd : Bytes) (hpre : SlashEnded pre) :
    ∃ q, SlashEnded q ∧ ∀ s, slash ∉ s → absolute cwd (pre ++ s) = q ++ s := by
  unfold absolute
  by_cases habs : isAbsolute pre = true
  · refine ⟨pre, hpre, fun s hs => ?_⟩
    rw [isAbsolute_append hs, if_pos habs]
  · obtain ⟨q, hq, happend⟩ := append_concat cwd hpre
    refine ⟨q, hq, fun s hs => ?_⟩
    rw [isAbsolute_append hs, if_neg habs, happend s hs]

theorem exists_concat (p : Bytes) : ∃ pre s, p = pre ++ s ∧ SlashEnded pre ∧ slash ∉ s := by
  induction p with
  | nil => exact ⟨[], [], rfl, .inl rfl, not_mem_nil⟩
  | cons c p ih =>
    obtain ⟨pre, s, rfl, hpre, hs⟩ := ih
    by_cases hc : c = slash
    · exact ⟨c :: pre, s, rfl, hpre.prepend (.inr ⟨[], congrArg ([·]) hc⟩), hs⟩
    · cases hpre with
      | inl h =>
        refine ⟨[], c :: s, by rw [h]; rfl, .inl rfl, fun hmem => ?_⟩
        cases mem_cons.1 hmem with
        | inl he => exact hc he.symm
        | inr hmem => exact hs hmem
      | inr h =>
        obtain ⟨q, rfl⟩ := h
        exact ⟨c :: (q ++ [slash]), s, rfl, .inr ⟨c :: q, rfl⟩, hs⟩

end AgentCpp.Lib.Path
