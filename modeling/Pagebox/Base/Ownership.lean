import Mathlib.Data.Set.Lattice
import Mathlib.Logic.Function.Basic
import Mathlib.Order.CompletePartialOrder

/-!
# Disjoint holdings

A resource (a page, a buffer, a slot) sits in at most one place.  The places
form an arbitrary index type, `held i` is the set of resources at place `i`, and
the safety property of an allocator is that these sets are pairwise disjoint.
A step moves a set of resources from one place to another, and may lose some on
the way; both keep the holdings disjoint.
-/

namespace Pagebox.Base

open Function

variable {ι ρ : Type}

/-- No resource sits in two places. -/
def HeldOnce (held : ι → Set ρ) : Prop :=
  ∀ ⦃i j : ι⦄, i ≠ j → Disjoint (held i) (held j)

/-- `moved` leaves place `src` for place `dst`; elsewhere nothing is gained. -/
structure Moves (held held' : ι → Set ρ) (src dst : ι) (moved : Set ρ) : Prop where
  taken : moved ⊆ held src
  left : held' src ⊆ held src \ moved
  arrived : held' dst ⊆ held dst ∪ moved
  frame : ∀ i, i ≠ src → i ≠ dst → held' i ⊆ held i

theorem HeldOnce.not_mem {held : ι → Set ρ} (h : HeldOnce held) {i j : ι}
    (hij : i ≠ j) {r : ρ} (hi : r ∈ held i) : r ∉ held j :=
  fun hj => Set.disjoint_left.mp (h hij) hi hj

theorem HeldOnce.of_subset {held held' : ι → Set ρ} (h : HeldOnce held)
    (hsub : ∀ i, held' i ⊆ held i) : HeldOnce held' :=
  fun i j hij => (h hij).mono (hsub i) (hsub j)

namespace Moves

variable {held held' : ι → Set ρ} {src dst : ι} {moved : Set ρ}

/-- A move given by the new contents of its two places. -/
theorem of_update [DecidableEq ι] {source target : Set ρ} (hne : src ≠ dst)
    (htaken : moved ⊆ held src) (hleft : source ⊆ held src \ moved)
    (harrived : target ⊆ held dst ∪ moved) :
    Moves held (update (update held src source) dst target)
      src dst moved where
  taken := htaken
  left := by
    rw [update_of_ne hne, update_self]
    exact hleft
  arrived := by
    rw [update_self]
    exact harrived
  frame := by
    intro i hsrc hdst
    rw [update_of_ne hdst, update_of_ne hsrc]

theorem subset_of_ne_dst (h : Moves held held' src dst moved) {i : ι} (hi : i ≠ dst) :
    held' i ⊆ held i := by
  by_cases hsrc : i = src
  · subst hsrc
    exact h.left.trans Set.sdiff_subset
  · exact h.frame i hsrc hi

theorem disjoint_moved (h : Moves held held' src dst moved) (hheld : HeldOnce held)
    {i : ι} (hi : i ≠ dst) : Disjoint (held' i) moved := by
  by_cases hsrc : i = src
  · subst hsrc
    exact Set.disjoint_sdiff_left.mono_left h.left
  · exact (hheld hsrc).mono (h.frame i hsrc hi) h.taken

/-- Moving resources between places keeps the holdings disjoint. -/
theorem heldOnce (h : Moves held held' src dst moved) (hheld : HeldOnce held) : HeldOnce held' := by
  intro i j hij
  by_cases hj : j = dst
  · subst hj
    refine Disjoint.mono_right h.arrived ?_
    rw [Set.disjoint_union_right]
    exact ⟨(hheld hij).mono_left (h.subset_of_ne_dst hij), h.disjoint_moved hheld hij⟩
  by_cases hi : i = dst
  · subst hi
    refine Disjoint.mono_left h.arrived ?_
    rw [Set.disjoint_union_left]
    exact ⟨(hheld hij).mono_right (h.subset_of_ne_dst hj), (h.disjoint_moved hheld hj).symm⟩
  · exact (hheld hij).mono (h.subset_of_ne_dst hi) (h.subset_of_ne_dst hj)

theorem mem_before (h : Moves held held' src dst moved) {i : ι} {r : ρ}
    (hr : r ∈ held' i) : r ∈ held i ∨ (i = dst ∧ r ∈ held src) := by
  by_cases hi : i = dst
  · subst hi
    rcases h.arrived hr with hold | hmoved
    · exact .inl hold
    · exact .inr ⟨rfl, h.taken hmoved⟩
  · exact .inl (h.subset_of_ne_dst hi hr)

end Moves

/-- What sits in a place other than `out` still does afterwards. -/
def Keeps (held held' : ι → Set ρ) (out : ι) : Prop :=
  ∀ i, i ≠ out → ∀ r ∈ held i, ∃ j, j ≠ out ∧ r ∈ held' j

namespace Keeps

variable {held held' : ι → Set ρ} {src dst out : ι}

theorem of_subset (h : ∀ i, i ≠ out → held i ⊆ held' i) : Keeps held held' out :=
  fun i hi _ hr => ⟨i, hi, h i hi hr⟩

/-- Two places that together hold what they held before. -/
theorem of_update [DecidableEq ι] {source target : Set ρ} (hne : src ≠ dst) (hsrc : src ≠ out)
    (hdst : dst ≠ out) (hleft : held src ⊆ source ∪ target) (hright : held dst ⊆ source ∪ target) :
    Keeps held (update (update held src source) dst target) out := by
  have hunion : ∀ r ∈ source ∪ target, ∃ j, j ≠ out ∧
      r ∈ update (update held src source) dst target j := by
    rintro r (hr | hr)
    · exact ⟨src, hsrc, by rwa [update_of_ne hne, update_self]⟩
    · exact ⟨dst, hdst, by rwa [update_self]⟩
  intro i hi r hr
  by_cases hid : i = dst
  · subst hid
    exact hunion r (hright hr)
  · by_cases his : i = src
    · subst his
      exact hunion r (hleft hr)
    · exact ⟨i, hi, by rwa [update_of_ne hid, update_of_ne his]⟩

end Keeps

end Pagebox.Base
