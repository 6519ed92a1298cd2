import Mathlib.Data.List.Basic
import Mathlib.Logic.Function.Basic

/-!
# Cells behind a write cache

A write to a cell is seen by every later read, but a crash is certain to keep it
only after a sync that began later has returned.  At a crash each write that no
sync covers is kept or lost on its own.
-/

namespace Pagebox.Base

open Function List

/-- The elements a crash leaves of a list: those it must keep, and others as the
flags say. -/
def survive {α : Type} (must : α → Bool) : List Bool → List α → List α
  | _, [] => []
  | keep, x :: xs =>
    if must x || keep.headD false then x :: survive must keep.tail xs
    else survive must keep.tail xs

theorem survive_sublist {α : Type} (must : α → Bool) (keep : List Bool) (xs : List α) :
    (survive must keep xs).Sublist xs := by
  induction xs generalizing keep with
  | nil => exact .slnil
  | cons x xs ih =>
    rw [survive]
    split
    · exact (ih _).cons_cons x
    · exact (ih _).cons x

theorem mem_survive_of_must {α : Type} {must : α → Bool} {x : α} (hx : must x = true)
    (keep : List Bool) {xs : List α} (h : x ∈ xs) : x ∈ survive must keep xs := by
  induction xs generalizing keep with
  | nil => cases h
  | cons y ys ih =>
    rw [survive]
    rcases mem_cons.mp h with rfl | h
    · simp [hx]
    · split
      · exact mem_cons_of_mem y (ih _ h)
      · exact ih _ h

/-- Cells with the writes that no sync covers, oldest first, and the number of
writes covered so far. -/
structure WriteCache (κ ν : Type) where
  synced : κ → ν
  pending : List (κ × ν)
  covered : Nat

namespace WriteCache

variable {κ ν : Type}

def stored (cells : κ → ν) : WriteCache κ ν := ⟨cells, [], 0⟩

def write (c : WriteCache κ ν) (k : κ) (v : ν) : WriteCache κ ν :=
  { c with pending := c.pending ++ [(k, v)] }

/-- The number of writes so far; a sync that begins now covers them. -/
def issued (c : WriteCache κ ν) : Nat := c.covered + c.pending.length

/-- A crash may leave `v` in cell `k`. -/
def Survives (c : WriteCache κ ν) (k : κ) (v : ν) : Prop :=
  v = c.synced k ∨ (k, v) ∈ c.pending

variable {c : WriteCache κ ν} {k k' : κ} {v v' : ν}

theorem survives_stored {cells : κ → ν} : (stored cells).Survives k v ↔ v = cells k := by
  simp [Survives, stored]

theorem survives_write : (c.write k v).Survives k' v' ↔ c.Survives k' v' ∨ (k' = k ∧ v' = v) := by
  simp [Survives, write, or_assoc]

@[simp] theorem issued_write (c : WriteCache κ ν) (k : κ) (v : ν) :
    (c.write k v).issued = c.issued + 1 := by
  simp [issued, write]
  omega

variable [DecidableEq κ]

def apply (cells : κ → ν) (writes : List (κ × ν)) : κ → ν :=
  writes.foldl (fun cells w => update cells w.1 w.2) cells

def read (c : WriteCache κ ν) : κ → ν := apply c.synced c.pending

/-- The return of a sync that began when `n` writes had been issued. -/
def sync (c : WriteCache κ ν) (n : Nat) : WriteCache κ ν where
  synced := apply c.synced (c.pending.take (n - c.covered))
  pending := c.pending.drop (n - c.covered)
  covered := c.covered + min (n - c.covered) c.pending.length

def crash (c : WriteCache κ ν) (keep : List Bool) : κ → ν :=
  apply c.synced (survive (fun _ => false) keep c.pending)

theorem apply_append (cells : κ → ν) (ws ws' : List (κ × ν)) :
    apply cells (ws ++ ws') = apply (apply cells ws) ws' :=
  foldl_append

/-- A cell keeps its value or has one that was written to it. -/
theorem apply_mem (cells : κ → ν) (ws : List (κ × ν)) (k : κ) :
    apply cells ws k = cells k ∨ (k, apply cells ws k) ∈ ws := by
  induction ws generalizing cells with
  | nil => exact .inl rfl
  | cons w ws ih =>
    rcases ih (update cells w.1 w.2) with h | h
    · change apply _ ws k = _ at h
      by_cases hk : k = w.1
      · refine .inr (mem_cons.mpr (.inl ?_))
        change (k, apply _ ws k) = w
        rw [h, hk, update_self]
      · rw [update_of_ne hk] at h
        exact .inl h
    · exact .inr (mem_cons_of_mem w h)

theorem read_write (c : WriteCache κ ν) (k : κ) (v : ν) :
    (c.write k v).read = update c.read k v := by
  rw [read, write, apply_append]
  rfl

@[simp] theorem read_sync (c : WriteCache κ ν) (n : Nat) : (c.sync n).read = c.read := by
  rw [read, read, sync, ← apply_append, take_append_drop]

theorem survives_read (c : WriteCache κ ν) (k : κ) : c.Survives k (c.read k) :=
  apply_mem c.synced c.pending k

theorem survives_crash (c : WriteCache κ ν) (keep : List Bool) (k : κ) :
    c.Survives k (c.crash keep k) :=
  (apply_mem c.synced _ k).imp_right fun h => (survive_sublist _ keep c.pending).subset h

theorem Survives.of_sync {n : Nat} (h : (c.sync n).Survives k v) : c.Survives k v := by
  rcases h with rfl | h
  · exact (apply_mem c.synced _ k).imp_right fun h => mem_of_mem_take h
  · exact .inr (mem_of_mem_drop h)

theorem sync_sync (c : WriteCache κ ν) (a b : Nat) : (c.sync a).sync b = c.sync (max a b) := by
  have htake : c.pending.take (a - c.covered) ++ (c.pending.drop (a - c.covered)).take
      (b - (c.covered + min (a - c.covered) c.pending.length)) =
      c.pending.take (max a b - c.covered) := by
    rcases Nat.le_total (a - c.covered) c.pending.length with hle | hle
    · rw [Nat.min_eq_left hle, ← take_add]
      congr 1
      omega
    · rw [drop_eq_nil_of_le hle, take_nil, append_nil, take_of_length_le hle,
        take_of_length_le (by omega)]
  have hdrop : (c.pending.drop (a - c.covered)).drop
      (b - (c.covered + min (a - c.covered) c.pending.length)) =
      c.pending.drop (max a b - c.covered) := by
    rcases Nat.le_total (a - c.covered) c.pending.length with hle | hle
    · rw [Nat.min_eq_left hle, List.drop_drop]
      congr 1
      omega
    · rw [drop_eq_nil_of_le hle, drop_nil, drop_eq_nil_of_le (by omega)]
  simp only [sync, ← apply_append, htake, hdrop, length_drop, mk.injEq, true_and]
  omega

theorem sync_comm (c : WriteCache κ ν) (a b : Nat) : (c.sync a).sync b = (c.sync b).sync a := by
  rw [sync_sync, sync_sync, Nat.max_comm]

@[simp] theorem issued_sync (c : WriteCache κ ν) (n : Nat) : (c.sync n).issued = c.issued := by
  simp only [issued, sync, length_drop]
  omega

/-- A sync that covers all writes leaves what is read. -/
theorem survives_sync_issued : (c.sync c.issued).Survives k v ↔ v = c.read k := by
  have hall : c.issued - c.covered = c.pending.length := by simp [issued]
  simp [Survives, sync, hall, read]

/-- A write after a sync began is not covered by it. -/
theorem sync_write {n : Nat} (h : n ≤ c.issued) (k : κ) (v : ν) :
    (c.write k v).sync n = (c.sync n).write k v := by
  have hle : n - c.covered ≤ c.pending.length := by
    unfold issued at h
    omega
  simp only [sync, write, take_append_of_le_length hle, drop_append_of_le_length hle,
    mk.injEq, true_and, length_append, length_singleton]
  omega

end WriteCache

end Pagebox.Base
