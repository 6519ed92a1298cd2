import Mathlib.Algebra.BigOperators.Fin
import Mathlib.Algebra.Order.BigOperators.Group.Finset

/-!
# Tallies

`tally g x` adds up the weight `g` of the entries of a finite family `x`: how many
threads hold a token, how many slots are occupied.  An accounting law of a
component equates a counter with a tally, and a step that changes one entry
changes the tally by the difference of two weights.
-/

namespace Pagebox.Base

open Function Finset

variable {k : Nat} {α : Type}

def tally (g : α → Nat) (x : Fin k → α) : Nat := ∑ i, g (x i)

theorem tally_const_zero {g : α → Nat} {x : Fin k → α} (h : ∀ i, g (x i) = 0) : tally g x = 0 :=
  sum_eq_zero fun i _ => h i

theorem tally_update (g : α → Nat) (x : Fin k → α) (i : Fin k) (a : α) :
    tally g (update x i a) + g (x i) = tally g x + g a := by
  have hrest : ∑ j ∈ univ.erase i, g (update x i a j) = ∑ j ∈ univ.erase i, g (x j) := by
    refine sum_congr rfl fun j hj => ?_
    rw [update_of_ne (ne_of_mem_erase hj)]
  unfold tally
  rw [← add_sum_erase univ (fun j => g (update x i a j))
      (mem_univ i),
    ← add_sum_erase univ (fun j => g (x j)) (mem_univ i), hrest]
  simp only [update_self]
  omega

theorem le_tally (g : α → Nat) (x : Fin k → α) (i : Fin k) : g (x i) ≤ tally g x :=
  single_le_sum (f := fun j => g (x j)) (fun _ _ => Nat.zero_le _) (mem_univ i)

end Pagebox.Base
