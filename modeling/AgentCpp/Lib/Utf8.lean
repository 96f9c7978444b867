import AgentCpp.Lib.Bytes

/-!
# UTF-8 validity (RFC 3629)

The automaton remembers which octets may come next. Cutting a valid string leaves a valid prefix
exactly when the cut does not stand before a continuation octet.
-/

namespace AgentCpp.Lib.Utf8

open List Option

/-- What the automaton still expects of the character it is in. -/
inductive State where
  | start
  | tail1
  | tail2
  | tail3
  | afterE0
  | afterED
  | afterF0
  | afterF4
  deriving DecidableEq, Repr

def isCont (b : UInt8) : Bool := 0x80 ≤ b && b ≤ 0xBF

/-- The first octet of a character. -/
def lead (b : UInt8) : Option State :=
  if b < 0x80 then some .start
  else if b < 0xC2 then none
  else if b ≤ 0xDF then some .tail1
  else if b = 0xE0 then some .afterE0
  else if b = 0xED then some .afterED
  else if b ≤ 0xEF then some .tail2
  else if b = 0xF0 then some .afterF0
  else if b ≤ 0xF3 then some .tail3
  else if b = 0xF4 then some .afterF4
  else none

def within (lo hi b : UInt8) (q : State) : Option State :=
  if lo ≤ b ∧ b ≤ hi then some q else none

def next : State → UInt8 → Option State
  | .start, b => lead b
  | .tail1, b => within 0x80 0xBF b .start
  | .tail2, b => within 0x80 0xBF b .tail1
  | .tail3, b => within 0x80 0xBF b .tail2
  | .afterE0, b => within 0xA0 0xBF b .tail1
  | .afterED, b => within 0x80 0x9F b .tail1
  | .afterF0, b => within 0x90 0xBF b .tail2
  | .afterF4, b => within 0x80 0x8F b .tail2

/-- The state after a string; `none` once an octet was refused. -/
def run (q : Option State) (s : Bytes) : Option State :=
  s.foldl (fun q b => q.bind (next · b)) q

def Valid (s : Bytes) : Prop := run (some .start) s = some .start

instance (s : Bytes) : Decidable (Valid s) := inferInstanceAs (Decidable (_ = _))

theorem run_cons (q : Option State) (b : UInt8) (s : Bytes) : run q (b :: s) = run (q.bind (next · b)) s := rfl

theorem run_append (q : Option State) (s t : Bytes) : run q (s ++ t) = run (run q s) t :=
  foldl_append

variable (q : State) (s : Bytes) (b : UInt8) (n : ℕ)

theorem run_none : run none s = none := by
  induction s with
  | nil => rfl
  | cons b s ih => rw [run_cons, bind_none, ih]

theorem valid_nil : Valid [] := rfl

theorem valid_append {s t : Bytes} (hs : Valid s) : Valid (s ++ t) ↔ Valid t := by
  unfold Valid at hs ⊢
  rw [run_append, hs]

theorem next_start_cont (h : isCont b = true) : next .start b = none := by
  simp only [isCont, Bool.and_eq_true, decide_eq_true_eq] at h
  have h1 : ¬b < 0x80 := UInt8.not_lt.2 h.1
  have h2 : b < 0xC2 := UInt8.lt_of_le_of_lt h.2 (by decide)
  simp only [next, lead, h1, ite_false, h2, ite_true]

theorem within_not_cont (lo hi b : UInt8) (q : State) (hlo : 0x80 ≤ lo) (hhi : hi ≤ 0xBF)
    (h : isCont b = false) : within lo hi b q = none := by
  apply if_neg
  rintro ⟨h1, h2⟩
  have hc : isCont b = true := by
    simp only [isCont, Bool.and_eq_true, decide_eq_true_eq]
    exact ⟨UInt8.le_trans hlo h1, UInt8.le_trans h2 hhi⟩
  rw [hc] at h
  exact absurd h (by decide)

theorem next_inner_not_cont (hq : q ≠ .start) (h : isCont b = false) :
    next q b = none := by
  cases q with
  | start => exact absurd rfl hq
  | tail1 => exact within_not_cont _ _ b _ (by decide) (by decide) h
  | tail2 => exact within_not_cont _ _ b _ (by decide) (by decide) h
  | tail3 => exact within_not_cont _ _ b _ (by decide) (by decide) h
  | afterE0 => exact within_not_cont _ _ b _ (by decide) (by decide) h
  | afterED => exact within_not_cont _ _ b _ (by decide) (by decide) h
  | afterF0 => exact within_not_cont _ _ b _ (by decide) (by decide) h
  | afterF4 => exact within_not_cont _ _ b _ (by decide) (by decide) h

theorem next_start_ascii (h : b < 0x80) : next .start b = some .start := by
  simp only [next, lead, h, ite_true]

theorem next_inner_ascii (hq : q ≠ .start) (h : b < 0x80) :
    next q b = none := by
  apply next_inner_not_cont q b hq
  have hb : ¬(0x80 : UInt8) ≤ b := UInt8.not_le.2 h
  simp only [isCont, hb, decide_false, Bool.false_and]

theorem valid_of_ascii (h : ∀ b ∈ s, b < 0x80) : Valid s := by
  unfold Valid
  induction s with
  | nil => rfl
  | cons b s ih =>
    have hb := h b (mem_cons_self ..)
    rw [run_cons, bind_some, next_start_ascii b hb]
    exact ih (fun c hc => h c (mem_cons_of_mem _ hc))

/-- An ASCII octet closes what stands before it: the text on both sides has to
be valid by itself. -/
theorem valid_append_ascii (t : Bytes) (h : b < 0x80) :
    Valid (s ++ b :: t) ↔ Valid s ∧ Valid t := by
  unfold Valid
  rw [run_append, run_cons]
  cases hq : run (some .start) s with
  | none => simp only [bind_none, run_none, reduceCtorEq, false_and]
  | some q =>
    by_cases hs : q = .start
    · subst hs
      simp only [bind_some, next_start_ascii b h, true_and]
    · simp only [bind_some, next_inner_ascii q b hs h, run_none, reduceCtorEq, Option.some.injEq, hs, false_and]

/-- A cut at `n` stands between two characters: at the end of the string, or
before an octet that continues nothing. -/
def Boundary (s : Bytes) (n : ℕ) : Prop := ∀ b ∈ s[n]?, isCont b = false

instance (s : Bytes) (n : ℕ) : Decidable (Boundary s n) :=
  decidable_of_iff (s[n]?.all (fun b => !isCont b) = true) (by simp [Boundary, Option.all_eq_true])

theorem boundary_of_length_le (h : s.length ≤ n) : Boundary s n := by
  intro b hb
  rw [getElem?_eq_none h] at hb
  exact absurd hb (by simp)

theorem valid_take_iff (hs : Valid s) : Valid (s.take n) ↔ Boundary s n := by
  by_cases hn : n < s.length
  · have hsplit : s = s.take n ++ s[n] :: s.drop (n + 1) := by
      rw [getElem_cons_drop, take_append_drop]
    have hr : run (run (some .start) (s.take n)) (s[n] :: s.drop (n + 1)) = some .start := by
      rw [← run_append, ← hsplit]
      exact hs
    have hb : Boundary s n ↔ isCont s[n] = false := by
      simp [Boundary, getElem?_eq_getElem hn]
    rw [hb]
    unfold Valid
    cases hq : run (some .start) (s.take n) with
    | none =>
      rw [hq, run_none] at hr
      exact absurd hr (by simp)
    | some q =>
      rw [hq, run_cons, bind_some] at hr
      constructor
      · intro he
        rw [Option.some.inj he] at hr
        by_contra hc
        rw [next_start_cont _ (by simpa using hc), run_none] at hr
        exact absurd hr (by simp)
      · intro hc
        by_contra he
        rw [next_inner_not_cont q _ (fun h => he (congrArg some h)) hc, run_none] at hr
        exact absurd hr (by simp)
  · rw [take_of_length_le (Nat.le_of_not_lt hn)]
    exact ⟨fun _ => boundary_of_length_le s n (Nat.le_of_not_lt hn), fun _ => hs⟩

theorem valid_drop (hs : Valid s) (ht : Valid (s.take n)) : Valid (s.drop n) := by
  rw [← take_append_drop n s] at hs
  exact (valid_append ht).1 hs

theorem boundary_take (m n : ℕ) : Boundary (s.take m) n ↔ m ≤ n ∨ Boundary s n := by
  by_cases h : m ≤ n
  · have hlen : (s.take m).length ≤ n := by
      rw [length_take]
      omega
    exact iff_of_true (boundary_of_length_le _ _ hlen) (Or.inl h)
  · unfold Boundary
    rw [getElem?_take_of_lt (by omega)]
    exact (or_iff_right h).symm

theorem boundary_drop (m n : ℕ) : Boundary (s.drop m) n ↔ Boundary s (m + n) := by
  unfold Boundary
  rw [getElem?_drop]

theorem boundary_after_ascii {s : Bytes} (hs : Valid s) {n : ℕ} {b : UInt8} (hb : s[n]? = some b)
    (hascii : b < 0x80) : Boundary s (n + 1) := by
  obtain ⟨hn, rfl⟩ := List.getElem?_eq_some_iff.1 hb
  have hsplit : s = s.take n ++ s[n] :: s.drop (n + 1) := by
    rw [getElem_cons_drop, take_append_drop]
  have htake : Valid (s.take n) := ((valid_append_ascii _ _ _ hascii).1 (hsplit ▸ hs)).1
  rw [← valid_take_iff s (n + 1) hs, take_add_one, List.getElem?_eq_getElem hn]
  exact (valid_append_ascii _ _ _ hascii).2 ⟨htake, valid_nil⟩

/-- How many octets the character still needs. -/
def State.pending : State → ℕ
  | .start => 0
  | .tail1 => 1
  | .tail2 => 2
  | .tail3 => 3
  | .afterE0 => 2
  | .afterED => 2
  | .afterF0 => 3
  | .afterF4 => 3

theorem within_eq {lo hi b : UInt8} {q q' : State} (h : within lo hi b q = some q') : q' = q := by
  unfold within at h
  split at h
  · exact (Option.some.inj h).symm
  · cases h

theorem pending_next {q q' : State} {b : UInt8} (hcont : isCont b = true) (h : next q b = some q') :
    q'.pending + 1 = q.pending := by
  cases q with
  | start =>
    rw [next_start_cont b hcont] at h
    cases h
  | tail1 => rw [within_eq h]; rfl
  | tail2 => rw [within_eq h]; rfl
  | tail3 => rw [within_eq h]; rfl
  | afterE0 => rw [within_eq h]; rfl
  | afterED => rw [within_eq h]; rfl
  | afterF0 => rw [within_eq h]; rfl
  | afterF4 => rw [within_eq h]; rfl

theorem run_conts (cs : Bytes) (hcont : ∀ b ∈ cs, isCont b = true) (q q' : State)
    (h : run (some q) cs = some q') : q'.pending + cs.length = q.pending := by
  induction cs generalizing q with
  | nil =>
    cases h
    rfl
  | cons b cs ih =>
    obtain ⟨hb, hrest⟩ := forall_mem_cons.1 hcont
    rw [run_cons, bind_some] at h
    cases hnext : next q b with
    | none =>
      rw [hnext, run_none] at h
      cases h
    | some q₁ =>
      rw [hnext] at h
      have hstep := pending_next hb hnext
      have hrun := ih hrest q₁ h
      rw [length_cons]
      omega

theorem exists_boundary {s : Bytes} (hs : Valid s) {n : ℕ} (hn : n + 4 ≤ s.length) :
    ∃ j, n ≤ j ∧ j < n + 4 ∧ Boundary s j := by
  by_contra hnone
  have hcont : ∀ b ∈ (s.drop n).take 4, isCont b = true := by
    intro b hb
    obtain ⟨k, hk, rfl⟩ := mem_iff_getElem.1 hb
    rw [length_take] at hk
    by_contra hfalse
    refine hnone ⟨n + k, by omega, by omega, ?_⟩
    intro b hb
    rw [getElem?_eq_getElem (by omega)] at hb
    cases hb
    simpa using hfalse
  have hsplit : s = s.take n ++ ((s.drop n).take 4 ++ (s.drop n).drop 4) := by
    rw [take_append_drop, take_append_drop]
  have hrun : run (run (run (some .start) (s.take n)) ((s.drop n).take 4)) ((s.drop n).drop 4) = some .start := by
    rw [← run_append, ← run_append, ← hsplit]
    exact hs
  cases hq : run (some .start) (s.take n) with
  | none =>
    rw [hq, run_none, run_none] at hrun
    cases hrun
  | some q =>
    cases hq' : run (some q) ((s.drop n).take 4) with
    | none =>
      rw [hq, hq', run_none] at hrun
      cases hrun
    | some q' =>
      have hlen := run_conts _ hcont q q' hq'
      rw [length_take, length_drop] at hlen
      have hpending : q.pending ≤ 3 := by cases q <;> decide
      omega

end AgentCpp.Lib.Utf8
