import Mathlib.Algebra.BigOperators.Group.List.Basic
import Mathlib.Algebra.GroupWithZero.Nat
import Mathlib.Data.List.Basic
import Mathlib.Logic.Function.Basic

/-!
# Machines

A machine takes one action of one of its parties at a time, and refuses an action
that is not enabled. An interleaving of the parties is a list of actions. Stateful code of one party
is specified by what it ensures: started in a state of the invariant it ends in one, related to the
first by `R`, with an answer of which the postcondition holds.
-/

namespace AgentCpp.Lib

open List

section Machine

variable {σ α : Type} (step : σ → α → Option σ)

def run (s : σ) : List α → Option σ
  | [] => some s
  | a :: as => (step s a).bind fun t => run t as

variable {step}

theorem run_cons {s t : σ} {a : α} {as : List α} (h : run step s (a :: as) = some t) :
    ∃ u, step s a = some u ∧ run step u as = some t := Option.bind_eq_some_iff.1 h

theorem run_append (s : σ) (as bs : List α) :
    run step s (as ++ bs) = (run step s as).bind fun t => run step t bs := by
  induction as generalizing s with
  | nil => rfl
  | cons a as ih =>
    change (step s a).bind _ = ((step s a).bind _).bind _
    rw [Option.bind_assoc]
    exact Option.bind_congr fun u _ => ih u

theorem run_append_eq {s t u : σ} {as bs : List α} (h : run step s as = some t)
    (h' : run step t bs = some u) : run step s (as ++ bs) = some u := by
  rw [run_append, h]
  exact h'

theorem run_snoc {s t u : σ} {as : List α} {a : α} (h : run step s as = some t)
    (h' : step t a = some u) : run step s (as ++ [a]) = some u := by
  refine run_append_eq h ?_
  change (step t a).bind _ = _
  rw [h']
  rfl

theorem run_invariant {Inv : σ → Prop} (hstep : ∀ s a t, Inv s → step s a = some t → Inv t) {s t : σ}
    {as : List α} (h : run step s as = some t) (hs : Inv s) : Inv t := by
  induction as generalizing s with
  | nil =>
    cases h
    exact hs
  | cons a as ih =>
    obtain ⟨u, hu, ht⟩ := run_cons h
    exact ih ht (hstep s a u hs hu)

variable (step) in
/- Each action meets `ok` in the state it is taken in. -/
def Meets (ok : σ → α → Prop) (s : σ) : List α → Prop
  | [] => True
  | a :: as => ok s a ∧ ∀ t, step s a = some t → Meets ok t as

theorem Meets.cons {ok : σ → α → Prop} {s t : σ} {a : α} {as : List α} (ha : ok s a)
    (hstep : step s a = some t) (h : Meets step ok t as) : Meets step ok s (a :: as) := by
  refine ⟨ha, fun u hu => ?_⟩
  rw [hstep] at hu
  cases hu
  exact h

theorem meets_of_forall {ok : σ → α → Prop} {s : σ} {as : List α} (h : ∀ a ∈ as, ∀ s, ok s a) :
    Meets step ok s as := by
  induction as generalizing s with
  | nil => trivial
  | cons a as ih =>
    exact ⟨h a (mem_cons_self ..) s, fun t _ => ih fun b hb => h b (mem_cons_of_mem _ hb)⟩

variable (step) in
/- `Meets`, evaluated. -/
def meets (ok : σ → α → Bool) (s : σ) : List α → Bool
  | [] => true
  | a :: as => ok s a && (step s a).all fun t => meets ok t as

theorem Meets.of_check {check : σ → α → Bool} {ok : σ → α → Prop} (hcheck : ∀ s a, check s a = true → ok s a) {s : σ}
    {as : List α} (h : meets step check s as = true) : Meets step ok s as := by
  induction as generalizing s with
  | nil => trivial
  | cons a as ih =>
    obtain ⟨ha, hrest⟩ := Bool.and_eq_true_iff.1 h
    refine ⟨hcheck s a ha, fun t ht => ?_⟩
    rw [ht] at hrest
    exact ih hrest

theorem Meets.and {ok ok' : σ → α → Prop} {s : σ} {as : List α} (h : Meets step ok s as)
    (h' : Meets step ok' s as) : Meets step (fun s a => ok s a ∧ ok' s a) s as := by
  induction as generalizing s with
  | nil => trivial
  | cons a as ih => exact ⟨⟨h.1, h'.1⟩, fun t ht => ih (h.2 t ht) (h'.2 t ht)⟩

theorem run_invariant_of_meets {Inv : σ → Prop} {ok : σ → α → Prop}
    (hstep : ∀ s a t, Inv s → ok s a → step s a = some t → Inv t) {s t : σ} {as : List α}
    (h : run step s as = some t) (hok : Meets step ok s as) (hs : Inv s) : Inv t := by
  induction as generalizing s with
  | nil =>
    cases h
    exact hs
  | cons a as ih =>
    obtain ⟨u, hu, ht⟩ := run_cons h
    exact ih ht (hok.2 u hu) (hstep s a u hs hok.1 hu)

end Machine

theorem sum_map_set {α : Type} (f : α → ℕ) (xs : List α) (i : ℕ) (x y : α) (h : xs[i]? = some x) :
    ((xs.set i y).map f).sum + f x = (xs.map f).sum + f y := by
  induction xs generalizing i with
  | nil => cases h
  | cons z zs ih =>
    cases i with
    | zero =>
      cases h
      simp only [set_cons_zero, map_cons, sum_cons]
      omega
    | succ i =>
      have := ih i h
      simp only [set_cons_succ, map_cons, sum_cons]
      omega

theorem sum_map_eraseIdx {α : Type} (f : α → ℕ) (xs : List α) (i : ℕ) (x : α) (h : xs[i]? = some x) :
    ((xs.eraseIdx i).map f).sum + f x = (xs.map f).sum := by
  induction xs generalizing i with
  | nil => cases h
  | cons z zs ih =>
    cases i with
    | zero =>
      cases h
      simp only [eraseIdx_zero, tail_cons, map_cons, sum_cons]
      omega
    | succ i =>
      have := ih i h
      simp only [eraseIdx_cons_succ, map_cons, sum_cons]
      omega

theorem update_cases {α β : Type} [DecidableEq α] {f : α → β} {a x : α} {b y : β}
    (h : Function.update f a b x = y) : x = a ∧ b = y ∨ x ≠ a ∧ f x = y := by
  rw [Function.update_apply] at h
  split at h
  · next heq => exact .inl ⟨heq, h⟩
  · next hne => exact .inr ⟨hne, h⟩

section StateSpec

variable {σ α β : Type} (I : σ → Prop) (R : σ → σ → Prop)

def Ensures (s : σ) (m : StateM σ α) (Q : α → σ → Prop) : Prop :=
  I s → I (m s).2 ∧ R s (m s).2 ∧ Q (m s).1 (m s).2

variable {I R} {s : σ} {m : StateM σ α} {f : α → StateM σ β} {P Q : α → σ → Prop} {Q' : β → σ → Prop}

theorem ensures_pure [Std.Refl R] {a : α} (h : I s → Q a s) : Ensures I R s (pure a) Q :=
  fun hs => ⟨hs, Std.Refl.refl s, h hs⟩

theorem ensures_bind [IsTrans σ R] (hm : Ensures I R s m P)
    (hf : ∀ a t, I t → P a t → Ensures I R t (f a) Q') : Ensures I R s (m >>= f) Q' := by
  intro hs
  obtain ⟨hI, hR, hP⟩ := hm hs
  obtain ⟨hI', hR', hQ⟩ := hf _ _ hI hP hI
  exact ⟨hI', IsTrans.trans _ _ _ hR hR', hQ⟩

theorem ensures_get {g : σ → StateM σ β} (h : Ensures I R s (g s) Q') : Ensures I R s (get >>= g) Q' := h

theorem bind_run {t : σ} {a : α} (h : m s = (a, t)) : (m >>= f) s = f a t := by
  change f (m s).1 (m s).2 = _
  rw [h]

end StateSpec

end AgentCpp.Lib
