import Mathlib.Data.List.Pairwise
import Mathlib.Data.Set.Card
import Mathlib.Order.Interval.Set.LinearOrder

/-!
# Separated ranges

Lists of half-open ranges of naturals, given by their ends `lo` and `hi`, that stand in
order with a gap between any two.  Such a list lists the components of the set it covers.
-/

namespace Pagebox.Base

variable {α : Type} {lo hi : α → Nat} {l l' : List α}

def Separated (lo hi : α → Nat) (l : List α) : Prop := l.Pairwise fun a b => hi a < lo b

def covered (lo hi : α → Nat) (l : List α) : Set Nat := { i | ∃ a ∈ l, i ∈ Set.Ico (lo a) (hi a) }

/-- Where the components of a set start. -/
def componentStarts (S : Set Nat) : Set Nat := { i | i ∈ S ∧ ∀ j, j + 1 = i → j ∉ S }

theorem covered_append : covered lo hi (l ++ l') = covered lo hi l ∪ covered lo hi l' := by
  ext i
  simp [covered, or_and_right, exists_or]

theorem covered_cons (a : α) :
    covered lo hi (a :: l) = Set.Ico (lo a) (hi a) ∪ covered lo hi l := by
  ext i
  simp [covered]

@[simp] theorem covered_nil : covered lo hi [] = ∅ := by
  simp [covered]

theorem covered_singleton (a : α) : covered lo hi [a] = Set.Ico (lo a) (hi a) := by
  simp [covered_cons]

theorem Separated.apart (h : Separated lo hi l) {a b : α} (ha : a ∈ l) (hb : b ∈ l)
    (hab : a ≠ b) : hi a < lo b ∨ hi b < lo a := by
  have hor : l.Pairwise fun a b => hi a < lo b ∨ hi b < lo a := h.imp .inl
  have : Std.Symm fun a b => hi a < lo b ∨ hi b < lo a := ⟨fun _ _ => .symm⟩
  exact hor.forall ha hb hab

theorem componentStarts_covered (h : Separated lo hi l) (hne : ∀ a ∈ l, lo a < hi a) :
    componentStarts (covered lo hi l) = { i | i ∈ l.map lo } := by
  ext i
  simp only [componentStarts, covered, Set.mem_Ico, Set.mem_ofPred_eq, List.mem_map]
  constructor
  · rintro ⟨⟨a, ha, hlow, hhigh⟩, hfirst⟩
    refine ⟨a, ha, ?_⟩
    by_contra hlt
    exact hfirst (i - 1) (by omega) ⟨a, ha, by omega, by omega⟩
  rintro ⟨a, ha, rfl⟩
  have hpos := hne a ha
  refine ⟨⟨a, ha, le_rfl, hpos⟩, ?_⟩
  rintro j hj ⟨b, hb, hlow, hhigh⟩
  have hab : a ≠ b := by
    rintro rfl
    omega
  have := h.apart ha hb hab
  omega

/-- A separated list has one range for each component of the set it covers. -/
theorem ncard_componentStarts (h : Separated lo hi l) (hne : ∀ a ∈ l, lo a < hi a) :
    (componentStarts (covered lo hi l)).ncard = l.length := by
  have hsorted : l.Pairwise fun a b => lo a < lo b :=
    h.imp_of_mem fun ha _ hab => (hne _ ha).trans hab
  have hnodup : (l.map lo).Nodup :=
    List.pairwise_map.mpr (hsorted.imp fun hab => hab.ne)
  have hset : { i | i ∈ l.map lo } = ((l.map lo).toFinset : Set Nat) := by
    ext i
    simp
  rw [componentStarts_covered h hne, hset, Set.ncard_coe_finset, List.toFinset_card_of_nodup hnodup,
    List.length_map]

end Pagebox.Base
