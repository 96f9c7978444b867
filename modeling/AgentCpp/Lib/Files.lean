import AgentCpp.Lib.Table

/-!
# Files and the operations done on them

A disk holds the content of every file and the log of the operations that made it so. `Did P`:
one disk comes from another by logged operations that all meet `P`.
-/

namespace AgentCpp.Lib

open List Table

/- `put` leaves the content it names, whether the file was created, truncated or extended. -/
inductive FileOp where
  | put (path content : Bytes)
  | remove (path : Bytes)
  | rename (source target content : Bytes)
  deriving DecidableEq

namespace FileOp

def paths : FileOp → List Bytes
  | put path _ => [path]
  | remove path => [path]
  | rename source target _ => [source, target]

def apply (files : Table Bytes) : FileOp → Table Bytes
  | put path content => files.insert path content
  | remove path => files.erase path
  | rename source target content => (files.erase source).insert target content

theorem apply_frame {op : FileOp} {p : Bytes} (files : Table Bytes) (h : p ∉ op.paths) :
    (op.apply files)[p]? = files[p]? := by
  cases op with
  | put path content =>
    have hne : path ≠ p := fun he => h (he ▸ mem_singleton_self _)
    exact get_insert_ne _ _ _ _ hne
  | remove path =>
    have hne : path ≠ p := fun he => h (he ▸ mem_singleton_self _)
    exact get_erase_ne _ _ _ hne
  | rename source target content =>
    have hs : source ≠ p := fun he => h (he ▸ mem_cons_self)
    have ht : target ≠ p := fun he => h (he ▸ mem_cons_of_mem _ (mem_singleton_self _))
    exact (get_insert_ne _ _ _ _ ht).trans (get_erase_ne _ _ _ hs)

end FileOp

structure Disk where
  files : Table Bytes := ∅
  ops : List FileOp := []

namespace Disk

def read (d : Disk) (path : Bytes) : Option Bytes := d.files[path]?

def size (d : Disk) (path : Bytes) : ℕ := ((d.read path).getD []).length

def perform (d : Disk) (op : FileOp) : Disk where
  files := op.apply d.files
  ops := d.ops ++ [op]

def put (d : Disk) (path content : Bytes) : Disk := d.perform (.put path content)

def append (d : Disk) (path more : Bytes) : Disk := d.put path ((d.read path).getD [] ++ more)

def remove (d : Disk) (path : Bytes) : Disk := d.perform (.remove path)

variable (d : Disk) (path content : Bytes)

theorem read_put : (d.put path content).read path = some content :=
  get_insert_self _ _ _

theorem read_append (more : Bytes) :
    (d.append path more).read path = some ((d.read path).getD [] ++ more) := read_put _ _ _

theorem read_remove : (d.remove path).read path = none := by
  unfold read remove perform FileOp.apply
  rw [get_erase, if_pos rfl]

theorem read_rename (source target content : Bytes) :
    (d.perform (.rename source target content)).read target = some content := get_insert_self _ _ _

theorem read_rename_source {source target : Bytes} (h : source ≠ target) :
    (d.perform (.rename source target content)).read source = none := by
  unfold read perform FileOp.apply
  rw [get_insert_ne _ _ _ _ h.symm, get_erase, if_pos rfl]

theorem size_of_read {d : Disk} {path content : Bytes} (h : d.read path = some content) :
    d.size path = content.length := by
  unfold size
  rw [h]
  rfl

end Disk

structure Did (P : FileOp → Prop) (d d' : Disk) : Prop where
  done : ∃ ops, d'.ops = d.ops ++ ops ∧ d'.files = ops.foldl FileOp.apply d.files ∧ ∀ op ∈ ops, P op

namespace Did

variable {P Q : FileOp → Prop} {d d' d'' : Disk}

theorem refl (d : Disk) : Did P d d :=
  ⟨[], (append_nil _).symm, rfl, fun _ h => absurd h not_mem_nil⟩

theorem perform (d : Disk) {op : FileOp} (h : P op) : Did P d (d.perform op) :=
  ⟨[op], rfl, rfl, fun _ hop => List.mem_singleton.1 hop ▸ h⟩

theorem trans (h : Did P d d') (h' : Did P d' d'') : Did P d d'' := by
  obtain ⟨ops, hlog, hfiles, hops⟩ := h.done
  obtain ⟨ops', hlog', hfiles', hops'⟩ := h'.done
  refine ⟨ops ++ ops', ?_, ?_, ?_⟩
  · rw [hlog', hlog, append_assoc]
  · rw [hfiles', hfiles, foldl_append]
  · intro op hop
    cases List.mem_append.1 hop with
    | inl hop => exact hops op hop
    | inr hop => exact hops' op hop

theorem mono (h : Did P d d') (hPQ : ∀ op, P op → Q op) : Did Q d d' := by
  obtain ⟨ops, hlog, hfiles, hops⟩ := h.done
  exact ⟨ops, hlog, hfiles, fun op hop => hPQ op (hops op hop)⟩

theorem foldl_frame {p : Bytes} (ops : List FileOp) (files : Table Bytes) (h : ∀ op ∈ ops, p ∉ op.paths) :
    (ops.foldl FileOp.apply files)[p]? = files[p]? := by
  induction ops generalizing files with
  | nil => rfl
  | cons op ops ih =>
    rw [foldl_cons, ih _ fun o ho => h o (mem_cons_of_mem _ ho), FileOp.apply_frame _ (h op mem_cons_self)]

theorem frame {p : Bytes} (h : Did P d d') (hP : ∀ op, P op → p ∉ op.paths) : d'.read p = d.read p := by
  obtain ⟨ops, _, hfiles, hops⟩ := h.done
  unfold Disk.read
  rw [hfiles]
  exact foldl_frame ops d.files fun op hop => hP op (hops op hop)

end Did

end AgentCpp.Lib
