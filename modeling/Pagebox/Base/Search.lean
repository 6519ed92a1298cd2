import Mathlib.Data.Nat.Basic
import Mathlib.Tactic.Ring

/-!
# Binary search

A binary search over positions that may fail to compare at some of them.  If
every comparison it makes agrees with a monotone order of the positions, its
answer is the first position that is not less than the probe.
-/

namespace Pagebox.Base

/-- Search the positions from `lo` up to `hi`; `none` when a comparison fails.
The answer is a position, and whether it holds the probe. -/
def binarySearch (cmp : Nat → Option Ordering) : Nat → Nat → Nat → Option (Nat × Bool)
  | 0, lo, _ => some (lo, false)
  | fuel + 1, lo, hi =>
    if lo < hi then
      let mid := lo + (hi - lo) / 2
      match cmp mid with
      | none => none
      | some .lt => binarySearch cmp fuel (mid + 1) hi
      | some .gt => binarySearch cmp fuel lo mid
      | some .eq => some (mid, true)
    else some (lo, false)

/-- Positions below the probe come first, positions above it last. -/
structure Ascending (n : Nat) (order : Nat → Ordering) : Prop where
  lt : ∀ i j, i < j → j < n → order j ≠ .gt → order i = .lt
  gt : ∀ i j, i < j → j < n → order i ≠ .lt → order j = .gt

/-- `pos` is the first position not below the probe; `exact` says that it holds
the probe. -/
structure IsLowerBound (n : Nat) (order : Nat → Ordering) (pos : Nat) (exact : Bool) : Prop where
  le : pos ≤ n
  below : ∀ i < pos, order i = .lt
  found : exact = true → pos < n ∧ order pos = .eq
  above : exact = false → ∀ i, pos ≤ i → i < n → order i = .gt

section

variable {cmp : Nat → Option Ordering} {order : Nat → Ordering} {n : Nat}

theorem IsLowerBound.congr {order' : Nat → Ordering} {pos : Nat} {exact : Bool}
    (h : IsLowerBound n order pos exact) (hsame : ∀ i < n, order' i = order i) :
    IsLowerBound n order' pos exact where
  le := h.le
  below i hi := (hsame i (hi.trans_le h.le)).trans (h.below i hi)
  found hexact := ⟨(h.found hexact).1, (hsame pos (h.found hexact).1).trans (h.found hexact).2⟩
  above hexact i hi hn := (hsame i hn).trans (h.above hexact i hi hn)

/-- The positions below `lo` are less than the probe and those from `hi` on are
greater; the part between them shrinks in every round. -/
theorem binarySearch_spec (hcmp : ∀ i o, i < n → cmp i = some o → o = order i)
    (hasc : Ascending n order) {fuel lo hi : Nat} (hfuel : hi - lo < fuel) (hhi : hi ≤ n)
    (hle : lo ≤ hi) (hbelow : ∀ i < lo, order i = .lt)
    (habove : ∀ i, hi ≤ i → i < n → order i = .gt) {pos : Nat} {exact : Bool}
    (h : binarySearch cmp fuel lo hi = some (pos, exact)) : IsLowerBound n order pos exact := by
  induction fuel generalizing lo hi with
  | zero => omega
  | succ fuel ih =>
    unfold binarySearch at h
    split at h
    · rename_i hlt
      have hlo : lo ≤ lo + (hi - lo) / 2 := Nat.le_add_right _ _
      have hmid : lo + (hi - lo) / 2 < hi := by omega
      simp only at h
      generalize lo + (hi - lo) / 2 = mid at h hlo hmid
      have hn : mid < n := hmid.trans_le hhi
      split at h
      · cases h
      · rename_i hless
        have horder := hcmp mid _ hn hless
        refine ih (by omega) hhi (by omega) ?_ habove h
        intro i hi'
        rcases Nat.lt_succ_iff_lt_or_eq.mp hi' with hi' | heq
        · exact hasc.lt i mid hi' hn (by rw [← horder]; nofun)
        · rw [heq, ← horder]
      · rename_i hgreater
        have horder := hcmp mid _ hn hgreater
        refine ih (by omega) (hmid.le.trans hhi) hlo hbelow ?_ h
        intro i hi' hin
        rcases Nat.lt_or_eq_of_le hi' with hi' | heq
        · exact hasc.gt mid i hi' hin (by rw [← horder]; nofun)
        · rw [← heq, ← horder]
      · rename_i hequal
        have horder := hcmp mid _ hn hequal
        cases h
        exact ⟨hn.le, fun i hi' => hasc.lt i pos hi' hn (by rw [← horder]; nofun),
          fun _ => ⟨hn, horder.symm⟩, nofun⟩
    · cases h
      exact ⟨hle.trans hhi, hbelow, nofun, fun _ i hi' hn => habove i (by omega) hn⟩

/-- A search that can compare everywhere finds an answer. -/
theorem binarySearch_isSome (hcmp : ∀ i < n, (cmp i).isSome) (fuel lo : Nat) {hi : Nat}
    (hhi : hi ≤ n) : (binarySearch cmp fuel lo hi).isSome := by
  induction fuel generalizing lo hi with
  | zero => rfl
  | succ fuel ih =>
    unfold binarySearch
    split
    · rename_i hlt
      have hmid : lo + (hi - lo) / 2 < hi := by omega
      simp only
      generalize lo + (hi - lo) / 2 = mid at hmid
      obtain ⟨o, ho⟩ := Option.isSome_iff_exists.mp (hcmp mid (hmid.trans_le hhi))
      rw [ho]
      cases o with
      | lt => exact ih (mid + 1) hhi
      | gt => exact ih lo (hmid.le.trans hhi)
      | eq => rfl
    · rfl

end

end Pagebox.Base
