import Mathlib.Data.List.Sort
import Mathlib.Data.List.Permutation

/-!
# Linearizable histories

A history lists the calls made on an object, each with the time it was invoked and, once
it is over, the time and the result it returned with.
-/

namespace AgentCpp.Lib

open List Option

structure Call (ω ρ : Type) where
  op : ω
  inv : ℕ
  ret : Option (ℕ × ρ)
  deriving DecidableEq

def Call.Precedes {ω ρ : Type} (a b : Call ω ρ) : Prop := ∃ x ∈ a.ret, x.1 < b.inv

instance {ω ρ : Type} (a b : Call ω ρ) : Decidable (a.Precedes b) :=
  inferInstanceAs (Decidable (∃ x ∈ a.ret, x.1 < b.inv))

section Linearizable

variable {σ ω ρ : Type} (apply : σ → ω → σ × ρ)

def replay (s : σ) (calls : List (Call ω ρ)) : σ := calls.foldl (fun s c => (apply s c.op).1) s

/- The sequential object gives each call that returned the result it returned with. -/
def Legal (s : σ) : List (Call ω ρ) → Prop
  | [] => True
  | c :: calls => (∀ x ∈ c.ret, (apply s c.op).2 = x.2) ∧ Legal (apply s c.op).1 calls

instance decidableLegal [DecidableEq ρ] (s : σ) : (calls : List (Call ω ρ)) → Decidable (Legal apply s calls)
  | [] => .isTrue trivial
  | c :: calls =>
    have := decidableLegal (apply s c.op).1 calls
    inferInstanceAs (Decidable ((∀ x ∈ c.ret, (apply s c.op).2 = x.2) ∧ Legal apply (apply s c.op).1 calls))

/- A call that has not returned may have taken effect or not. -/
structure Linearizes (s : σ) (calls order : List (Call ω ρ)) : Prop where
  invoked : order.Subperm calls
  completed : (calls.filter fun c => c.ret.isSome).Subperm order
  legal : Legal apply s order
  realTime : order.Pairwise fun a b => ¬ b.Precedes a

def Linearizable (s : σ) (calls : List (Call ω ρ)) : Prop := ∃ order, Linearizes apply s calls order

variable {apply}

theorem not_linearizable {s : σ} {calls : List (Call ω ρ)}
    (hall : ∀ c ∈ calls, c.ret.isSome) (h : ∀ order ∈ calls.permutations', ¬ (Legal apply s order ∧
      order.Pairwise fun a b => ¬ b.Precedes a)) : ¬ Linearizable apply s calls := by
  intro ⟨order, hl⟩
  have hcompleted := hl.completed
  rw [filter_eq_self.2 hall] at hcompleted
  have hperm := hl.invoked.antisymm hcompleted
  exact h order (mem_permutations'.2 hperm) ⟨hl.legal, hl.realTime⟩

theorem replay_append (s : σ) (as bs : List (Call ω ρ)) :
    replay apply s (as ++ bs) = replay apply (replay apply s as) bs := foldl_append

theorem replay_snoc (s : σ) (as : List (Call ω ρ)) (c : Call ω ρ) :
    replay apply s (as ++ [c]) = (apply (replay apply s as) c.op).1 := by
  rw [replay_append]
  rfl

theorem legal_append (s : σ) (as bs : List (Call ω ρ)) :
    Legal apply s (as ++ bs) ↔ Legal apply s as ∧ Legal apply (replay apply s as) bs := by
  induction as generalizing s with
  | nil => exact ⟨fun h => ⟨trivial, h⟩, fun h => h.2⟩
  | cons c as ih =>
    change (_ ∧ Legal apply _ (as ++ bs)) ↔ (_ ∧ Legal apply _ as) ∧ _
    rw [ih, and_assoc]
    rfl

/-! ### Calls that only read

When every other call takes effect as it is invoked, a history is linearizable as
soon as each call that only reads has seen the object as it was at some moment
between its invocation and its return. -/

section Reads

variable (isRead : ω → Bool) (point : Call ω ρ → ℕ) (reads : List (Call ω ρ))

def readsAt (j : ℕ) : List (Call ω ρ) := reads.filter fun c => point c = j

variable (s : σ) (j : ℕ) (calls : List (Call ω ρ))

theorem mem_readsAt (c : Call ω ρ) : c ∈ readsAt point reads j ↔ c ∈ reads ∧ point c = j := by
  rw [readsAt, mem_filter, decide_eq_true_eq]

def updatesOf (c : Call ω ρ) : List (Call ω ρ) := if isRead c.op then [] else [c]

theorem mem_updatesOf (c d : Call ω ρ) : d ∈ updatesOf isRead c ↔ d = c ∧ isRead d.op = false := by
  unfold updatesOf
  cases hr : isRead c.op with
  | false =>
    rw [if_neg Bool.false_ne_true, mem_singleton]
    exact ⟨fun h => ⟨h, h ▸ hr⟩, fun h => h.1⟩
  | true =>
    refine ⟨fun h => absurd h not_mem_nil, fun h => ?_⟩
    rw [h.1, hr] at h
    exact absurd h.2 (by decide)

/- Before the call number `j` come the reads that saw the first `j` calls. -/
def weave (j : ℕ) : List (Call ω ρ) → List (Call ω ρ)
  | [] => readsAt point reads j
  | c :: calls => readsAt point reads j ++ (updatesOf isRead c ++ weave (j + 1) calls)

theorem mem_weave (c : Call ω ρ) : c ∈ weave isRead point reads j calls ↔
    (c ∈ calls ∧ isRead c.op = false) ∨ (c ∈ reads ∧ j ≤ point c ∧ point c ≤ j + calls.length) := by
  induction calls generalizing j with
  | nil =>
    rw [weave, mem_readsAt, length_nil]
    constructor
    · intro h
      exact .inr ⟨h.1, by omega, by omega⟩
    · intro h
      obtain ⟨h, -⟩ | h := h
      · cases h
      · exact ⟨h.1, by omega⟩
  | cons d calls ih =>
    rw [weave, mem_append, mem_append, ih, mem_readsAt, mem_updatesOf, length_cons, mem_cons]
    constructor
    · intro h
      obtain h | h | h | h := h
      · exact .inr ⟨h.1, by omega, by omega⟩
      · exact .inl ⟨.inl h.1, h.2⟩
      · exact .inl ⟨.inr h.1, h.2⟩
      · exact .inr ⟨h.1, by omega, by omega⟩
    · intro h
      obtain ⟨h | h, hr⟩ | ⟨h, hlo, hhi⟩ := h
      · exact .inr (.inl ⟨h, hr⟩)
      · exact .inr (.inr (.inl ⟨h, hr⟩))
      · by_cases hj : point c = j
        · exact .inl ⟨h, hj⟩
        · exact .inr (.inr (.inr ⟨h, by omega, by omega⟩))

theorem nodup_weave (hcalls : calls.Nodup) (hreads : reads.Nodup)
    (honly : ∀ c ∈ reads, isRead c.op = true) : (weave isRead point reads j calls).Nodup := by
  induction calls generalizing j with
  | nil => exact hreads.filter _
  | cons d calls ih =>
    obtain ⟨hd, hcalls⟩ := nodup_cons.1 hcalls
    have hrest : (updatesOf isRead d ++ weave isRead point reads (j + 1) calls).Nodup := by
      unfold updatesOf
      cases hr : isRead d.op with
      | true => exact ih (j + 1) hcalls
      | false =>
        refine nodup_cons.2 ⟨fun hmem => ?_, ih (j + 1) hcalls⟩
        obtain ⟨h, -⟩ | ⟨h, -, -⟩ := (mem_weave isRead point reads (j + 1) calls d).1 hmem
        · exact hd h
        · rw [honly d h] at hr
          cases hr
    refine nodup_append.2 ⟨hreads.filter _, hrest, ?_⟩
    intro a ha b hb hab
    subst hab
    obtain ⟨ha, hj⟩ := (mem_readsAt point reads j a).1 ha
    have hread := honly a ha
    rw [mem_append, mem_updatesOf, mem_weave, hread] at hb
    obtain ⟨-, h⟩ | ⟨-, h⟩ | ⟨-, h, -⟩ := hb
    · cases h
    · cases h
    · omega

theorem legal_reads_append (hread : ∀ op, isRead op = true → ∀ s, (apply s op).1 = s) (s : σ)
    (as bs : List (Call ω ρ)) (has : ∀ c ∈ as, isRead c.op = true ∧ ∀ x ∈ c.ret, (apply s c.op).2 = x.2)
    (hbs : Legal apply s bs) : Legal apply s (as ++ bs) := by
  induction as with
  | nil => exact hbs
  | cons c as ih =>
    obtain ⟨hc, hres⟩ := has c (mem_cons_self ..)
    refine ⟨hres, ?_⟩
    rw [hread c.op hc]
    exact ih fun d hd => has d (mem_cons_of_mem _ hd)

theorem legal_weave (hread : ∀ op, isRead op = true → ∀ s, (apply s op).1 = s) (s : σ) (pre calls : List (Call ω ρ))
    (hupdates : ∀ as c bs, pre ++ calls = as ++ c :: bs → isRead c.op = false →
      ∀ x ∈ c.ret, (apply (replay apply s as) c.op).2 = x.2)
    (hreads : ∀ c ∈ reads, isRead c.op = true ∧
      ∀ x ∈ c.ret, (apply (replay apply s ((pre ++ calls).take (point c))) c.op).2 = x.2) :
    Legal apply (replay apply s pre) (weave isRead point reads pre.length calls) := by
  -- the reads placed at this point saw the object as the calls before it left it
  have hhere : ∀ c ∈ readsAt point reads pre.length, isRead c.op = true ∧
      ∀ x ∈ c.ret, (apply (replay apply s pre) c.op).2 = x.2 := by
    intro c hc
    obtain ⟨hc, hj⟩ := (mem_readsAt point reads _ c).1 hc
    have h := hreads c hc
    rw [hj, take_left] at h
    exact h
  cases calls with
  | nil =>
    have h := legal_reads_append isRead hread (replay apply s pre) _ [] hhere trivial
    rw [append_nil] at h
    exact h
  | cons c calls =>
    refine legal_reads_append isRead hread _ _ _ hhere ?_
    have happ : pre ++ c :: calls = (pre ++ [c]) ++ calls := by rw [append_assoc]; rfl
    have hlen : (pre ++ [c]).length = pre.length + 1 := length_append
    have hnext := legal_weave hread s (pre ++ [c]) calls (happ ▸ hupdates) (happ ▸ hreads)
    rw [replay_snoc, hlen] at hnext
    unfold updatesOf
    cases hr : isRead c.op with
    | true =>
      rw [hread c.op hr] at hnext
      exact hnext
    | false => exact ⟨hupdates pre c calls rfl hr, hnext⟩

/- A read returned after every call it saw was invoked, and was invoked before every call it did not see. -/
structure Placed (all : List (Call ω ρ)) (point : Call ω ρ → ℕ) (c : Call ω ρ) : Prop where
  mem : c ∈ all
  returned : c.ret.isSome = true
  le_length : point c ≤ all.length
  seen : ∀ d ∈ all.take (point c), ∀ x ∈ c.ret, d.inv ≤ x.1
  unseen : ∀ d ∈ all.drop (point c), c.inv ≤ d.inv

/- What is placed later had not returned before what is placed earlier was invoked. -/
theorem realTime_weave (all : List (Call ω ρ)) (hinv : all.Pairwise fun a b => a.inv < b.inv)
    (hret : ∀ c ∈ all, ∀ x ∈ c.ret, c.inv ≤ x.1)
    (hsorted : reads.Pairwise fun a b => ∀ x ∈ a.ret, ∀ y ∈ b.ret, x.1 ≤ y.1)
    (hreads : ∀ c ∈ reads, Placed all point c) (pre calls : List (Call ω ρ)) (hall : all = pre ++ calls) :
    (weave isRead point reads pre.length calls).Pairwise fun a b => ¬ b.Precedes a := by
  have hhere : (readsAt point reads pre.length).Pairwise fun a b => ¬ b.Precedes a := by
    refine (List.Pairwise.and_mem.1 (List.Pairwise.filter _ hsorted)).imp ?_
    intro a b ⟨ha, hb, hle⟩ ⟨y, hy, hlt⟩
    have hplaced := hreads a (mem_filter.1 ha).1
    obtain ⟨x, hx⟩ := isSome_iff_exists.1 hplaced.returned
    have hxy := hle x hx y hy
    have hax := hret a hplaced.mem x hx
    omega
  cases calls with
  | nil => exact hhere
  | cons c calls =>
    have happ : all = (pre ++ [c]) ++ calls := by rw [hall, append_assoc]; rfl
    have hlen : (pre ++ [c]).length = pre.length + 1 := length_append
    have hdrop : all.drop pre.length = c :: calls := by rw [hall, drop_left]
    have hnext := realTime_weave all hinv hret hsorted hreads (pre ++ [c]) calls happ
    rw [hlen] at hnext
    have hsub : ∀ d ∈ c :: calls, d ∈ all := fun d hd => hall ▸ mem_append_right _ hd
    -- the call at this place was invoked before every later read returned
    have hseen : ∀ b ∈ reads, pre.length + 1 ≤ point b → ∀ y ∈ b.ret, c.inv ≤ y.1 := by
      intro b hb hj
      have htake : all.take (pre.length + 1) = pre ++ [c] := by rw [happ, ← hlen, take_left]
      have hc : c ∈ all.take (pre.length + 1) := htake ▸ mem_append_right _ (mem_singleton_self c)
      exact (hreads b hb).seen c (take_subset_take_left all hj hc)
    refine pairwise_append.2 ⟨hhere, pairwise_append.2 ⟨?_, hnext, ?_⟩, ?_⟩
    · unfold updatesOf
      split
      · exact .nil
      · exact pairwise_singleton _ _
    · intro a ha b hb ⟨y, hy, hlt⟩
      obtain ⟨rfl, -⟩ := (mem_updatesOf isRead c a).1 ha
      obtain ⟨hb, -⟩ | ⟨hb, hj, -⟩ := (mem_weave isRead point reads _ _ b).1 hb
      · have hab : a.inv < b.inv := by
          rw [hall] at hinv
          exact rel_of_pairwise_cons (pairwise_append.1 hinv).2.1 hb
        have hby := hret b (hsub b (mem_cons_of_mem _ hb)) y hy
        omega
      · have := hseen b hb hj y hy
        omega
    · intro a ha b hb ⟨y, hy, hlt⟩
      obtain ⟨ha, hj⟩ := (mem_readsAt point reads _ a).1 ha
      have hunseen := (hreads a ha).unseen
      rw [hj, hdrop] at hunseen
      rw [mem_append, mem_updatesOf, mem_weave] at hb
      have hupdate : ∀ d ∈ c :: calls, d = b → False := by
        intro d hd heq
        subst heq
        have hby := hret d (hsub d hd) y hy
        have hab := hunseen d hd
        omega
      obtain ⟨heq, -⟩ | ⟨hb, -⟩ | ⟨hb, hj, -⟩ := hb
      · exact hupdate c (mem_cons_self ..) heq.symm
      · exact hupdate b (mem_cons_of_mem _ hb) rfl
      · have hcy := hseen b hb hj y hy
        have hac := hunseen c (mem_cons_self ..)
        omega

def Call.retTime (c : Call ω ρ) : ℕ := (c.ret.map Prod.fst).getD 0

theorem linearizable_of_reads
    (hread : ∀ op, isRead op = true → ∀ s, (apply s op).1 = s)
    (hinv : calls.Pairwise fun a b => a.inv < b.inv) (hret : ∀ c ∈ calls, ∀ x ∈ c.ret, c.inv ≤ x.1)
    (hupdates : ∀ as c bs, calls = as ++ c :: bs → isRead c.op = false →
      ∀ x ∈ c.ret, (apply (replay apply s as) c.op).2 = x.2)
    (hreads : ∀ c ∈ calls, isRead c.op = true → ∀ x ∈ c.ret, ∃ j ≤ calls.length,
      (∀ d ∈ calls.take j, d.inv ≤ x.1) ∧ (∀ d ∈ calls.drop j, c.inv ≤ d.inv) ∧
        (apply (replay apply s (calls.take j)) c.op).2 = x.2) : Linearizable apply s calls := by
  have hchoice : ∀ c, ∃ j, c ∈ calls → isRead c.op = true → ∀ x ∈ c.ret, j ≤ calls.length ∧
      (∀ d ∈ calls.take j, d.inv ≤ x.1) ∧ (∀ d ∈ calls.drop j, c.inv ≤ d.inv) ∧
        (apply (replay apply s (calls.take j)) c.op).2 = x.2 := by
    intro c
    by_cases h : c ∈ calls ∧ isRead c.op = true ∧ ∃ x, c.ret = some x
    · obtain ⟨hc, hr, x, hx⟩ := h
      obtain ⟨j, hj⟩ := hreads c hc hr x hx
      refine ⟨j, fun _ _ y hy => ?_⟩
      rw [hx] at hy
      cases hy
      exact hj
    · exact ⟨0, fun hc hr x hx => absurd ⟨hc, hr, x, hx⟩ h⟩
  choose point hpoint using hchoice
  have hnodup : calls.Nodup := hinv.imp fun h heq => by rw [heq] at h; omega
  let reads := (calls.filter fun c => isRead c.op && c.ret.isSome).insertionSort fun a b => a.retTime ≤ b.retTime
  have hmem : ∀ c, c ∈ reads ↔ c ∈ calls ∧ isRead c.op = true ∧ c.ret.isSome = true := by
    intro c
    rw [mem_insertionSort, mem_filter, Bool.and_eq_true]
  have hsorted : reads.Pairwise fun a b => ∀ x ∈ a.ret, ∀ y ∈ b.ret, x.1 ≤ y.1 := by
    refine (pairwise_insertionSort _ _).imp ?_
    intro a b h x hx y hy
    rw [Call.retTime, Call.retTime, mem_def.1 hx, mem_def.1 hy] at h
    exact h
  have hplaced : ∀ c ∈ reads, Placed calls point c := by
    intro c hc
    obtain ⟨hc, hr, hs⟩ := (hmem c).1 hc
    obtain ⟨x, hx⟩ := isSome_iff_exists.1 hs
    obtain ⟨hle, hseen, hunseen, -⟩ := hpoint c hc hr x hx
    refine ⟨hc, hs, hle, fun d hd y hy => ?_, hunseen⟩
    rw [hx] at hy
    cases hy
    exact hseen d hd
  have hweave := mem_weave isRead point reads 0 calls
  refine ⟨weave isRead point reads 0 calls, ?_, ?_, ?_, ?_⟩
  · have hw := nodup_weave isRead point reads 0 calls hnodup
      ((perm_insertionSort _ _).nodup_iff.2 (hnodup.filter _)) fun c hc => ((hmem c).1 hc).2.1
    refine subperm_of_subset hw fun c hc => ?_
    obtain ⟨hc, -⟩ | ⟨hc, -⟩ := (hweave c).1 hc
    · exact hc
    · exact ((hmem c).1 hc).1
  · refine subperm_of_subset (hnodup.filter _) fun c hc => (hweave c).2 ?_
    obtain ⟨hc, hs⟩ := mem_filter.1 hc
    cases hr : isRead c.op with
    | false => exact .inl ⟨hc, rfl⟩
    | true =>
      have hcr := (hmem c).2 ⟨hc, hr, hs⟩
      have := (hplaced c hcr).le_length
      exact .inr ⟨hcr, by omega, by omega⟩
  · refine legal_weave isRead point reads hread s [] calls hupdates fun c hc => ?_
    obtain ⟨hc, hr, -⟩ := (hmem c).1 hc
    exact ⟨hr, fun x hx => (hpoint c hc hr x hx).2.2.2⟩
  · exact realTime_weave isRead point reads calls hinv hret hsorted hplaced [] calls rfl

end Reads

end Linearizable

end AgentCpp.Lib
