import Mathlib.Data.List.TakeWhile
import Pagebox.Base.Intervals
import Pagebox.Storage.PageMutation

/-!
# The ranges of a mutation

`add_range` keeps the components of the set of bytes added so far, in order, up to
`PAGE_MUTATION_MAX_RANGES` of them.  It gives the list up for the full image only when
the set has more components than that.
-/

namespace Pagebox.Storage.PageMutation

open Pagebox.Base List

variable {ps : PageSize} {ranges : List (MutationRange ps)} {r : MutationRange ps}

/-- The ranges stand in order, none adjacent to another. -/
abbrev Canonical (ranges : List (MutationRange ps)) : Prop :=
  Separated MutationRange.start MutationRange.stop ranges

abbrev rangeBytes (ranges : List (MutationRange ps)) : Set Nat :=
  covered MutationRange.start MutationRange.stop ranges

/-- `m` stands for the set of bytes `S`: it lists its components, or there are too many. -/
def Stands (m : PageMutation ps) (S : Set Nat) : Prop :=
  if m.fullImage then m.ranges = [] ∧ maxRanges < (componentStarts S).ncard
  else Canonical m.ranges ∧ m.ranges.length ≤ maxRanges ∧ rangeBytes m.ranges = S

/-- One range more than the list `ranges` had, and apart from them. -/
theorem stands_grown {grown : List (MutationRange ps)} (h : Canonical grown)
    (hlen : grown.length = ranges.length + 1) (hmax : ranges.length ≤ maxRanges) :
    Stands (if ranges.length = maxRanges then full else ⟨grown, false⟩) (rangeBytes grown) := by
  split
  · rename_i hfull
    refine ⟨rfl, ?_⟩
    rw [ncard_componentStarts h fun a _ => a.ordered, hlen, hfull]
    exact Nat.lt_succ_self _
  · exact ⟨h, by simp only; omega, rfl⟩

theorem join_Ico {a b : MutationRange ps} (h : b.start ≤ a.stop) (h' : a.start ≤ b.stop) :
    Set.Ico (a.join b).start (a.join b).stop = Set.Ico a.start a.stop ∪ Set.Ico b.start b.stop :=
  (Set.Ico_union_Ico' h h').symm

/-! ## The loop that absorbs -/

theorem length_absorb_le (r : MutationRange ps) (rest : List (MutationRange ps)) :
    (absorb r rest).2.Sublist rest ∧
      ((absorb r rest).2.length = rest.length → absorb r rest = (r, rest)) := by
  induction rest generalizing r with
  | nil => exact ⟨.slnil, fun _ => rfl⟩
  | cons x rest ih =>
    unfold absorb
    split
    · obtain ⟨hsub, -⟩ := ih (r.join x)
      refine ⟨hsub.cons x, fun hlen => ?_⟩
      have := hsub.length_le
      rw [length_cons] at hlen
      omega
    · exact ⟨List.Sublist.refl _, fun _ => rfl⟩

/-- Absorbing the ranges that touch leaves a canonical list of the same bytes. -/
theorem absorb_spec {rest : List (MutationRange ps)} (h : Canonical rest)
    (htouch : ∀ x ∈ rest, r.start ≤ x.stop) :
    Canonical ((absorb r rest).1 :: (absorb r rest).2) ∧
      rangeBytes ((absorb r rest).1 :: (absorb r rest).2) = rangeBytes (r :: rest) ∧
      ∀ k, k < r.start → (∀ x ∈ rest, k < x.start) → k < (absorb r rest).1.start := by
  induction rest generalizing r with
  | nil => exact ⟨pairwise_singleton _ _, rfl, fun k hk _ => hk⟩
  | cons x rest ih =>
    obtain ⟨hx, hrest⟩ := pairwise_cons.mp h
    unfold absorb
    split
    · rename_i hjoin
      obtain ⟨hcanon, hbytes, hlow⟩ := @ih (r.join x) hrest fun y hy =>
        (min_le_left ..).trans (htouch y (mem_cons_of_mem x hy))
      refine ⟨hcanon, ?_, ?_⟩
      · rw [hbytes]
        simp only [rangeBytes, covered_cons, join_Ico hjoin (htouch x mem_cons_self),
          Set.union_assoc]
      · intro k hk hall
        exact hlow k (lt_min hk (hall x mem_cons_self)) fun y hy =>
          hall y (mem_cons_of_mem x hy)
    rename_i hgap
    refine ⟨pairwise_cons.mpr ⟨?_, h⟩, rfl, fun k hk _ => hk⟩
    intro y hy
    rcases mem_cons.mp hy with rfl | hy
    · exact not_le.mp hgap
    · exact (not_le.mp hgap).trans (x.ordered.trans (hx y hy))

/-! ## The two ways to add -/

theorem stands_appendRange {last : MutationRange ps} (h : Canonical ranges)
    (hmax : ranges.length ≤ maxRanges) (hlast : ranges.getLast? = some last)
    (hstart : last.start ≤ r.start) :
    Stands (appendRange ranges last r) (rangeBytes ranges ∪ Set.Ico r.start r.stop) := by
  obtain ⟨init, rfl⟩ := List.getLast?_eq_some_iff.mp hlast
  obtain ⟨hinit, -, hbefore⟩ := pairwise_append.mp h
  unfold appendRange
  split
  · rename_i htouch
    have hjoin : (last.join r).start = last.start := min_eq_left hstart
    refine ⟨?_, ?_, ?_⟩
    · rw [dropLast_concat]
      refine pairwise_append.mpr ⟨hinit, pairwise_singleton _ _, ?_⟩
      intro a ha b hb
      rw [mem_singleton.mp hb, hjoin]
      exact hbefore a ha last (mem_singleton_self last)
    · simpa using hmax
    · simp only [dropLast_concat, rangeBytes, covered_append, covered_singleton,
        join_Ico htouch (hstart.trans r.ordered.le), Set.union_assoc]
  have hgrown : Canonical ((init ++ [last]) ++ [r]) := by
    refine pairwise_append.mpr ⟨h, pairwise_singleton _ _, ?_⟩
    intro a ha b hb
    rw [mem_singleton.mp hb]
    rcases mem_append.mp ha with ha | ha
    · have := hbefore a ha last (mem_singleton_self last)
      omega
    · rw [mem_singleton.mp ha]
      omega
  have hbytes : rangeBytes ((init ++ [last]) ++ [r]) =
      rangeBytes (init ++ [last]) ∪ Set.Ico r.start r.stop := by
    rw [rangeBytes, covered_append, covered_singleton]
  rw [← hbytes]
  exact stands_grown hgrown (by simp) hmax

theorem stands_insertRange (h : Canonical ranges) (hmax : ranges.length ≤ maxRanges) :
    Stands (insertRange ranges r) (rangeBytes ranges ∪ Set.Ico r.start r.stop) := by
  unfold insertRange
  set before := ranges.takeWhile fun x => decide (x.stop < r.start)
  set rest := ranges.dropWhile fun x => decide (x.stop < r.start) with hrest
  have hsplit : before ++ rest = ranges := takeWhile_append_dropWhile
  rw [← hsplit] at h hmax ⊢
  obtain ⟨hb, hr, hcross⟩ := pairwise_append.mp h
  have hlow : ∀ x ∈ before, x.stop < r.start := fun x hx => by
    simpa using mem_takeWhile_imp hx
  -- the first range that stays behind reaches `r`, and so do the ones after it
  have htouch : ∀ x ∈ rest, r.start ≤ x.stop := by
    cases hcase : rest with
    | nil => nofun
    | cons y ys =>
      have hy : r.start ≤ y.stop := by
        have := List.head?_dropWhile_not
          (fun x : MutationRange ps => decide (x.stop < r.start)) ranges
        rw [← hrest, hcase] at this
        simpa using this
      rw [hcase] at hr
      intro x hx
      rcases mem_cons.mp hx with rfl | hx
      · exact hy
      · have := (pairwise_cons.mp hr).1 x hx
        have := x.ordered
        omega
  obtain ⟨hcanon, hbytes, hstart⟩ := absorb_spec hr htouch
  obtain ⟨hsub, hsame⟩ := length_absorb_le r rest
  have hgrown : Canonical (before ++ (absorb r rest).1 :: (absorb r rest).2) := by
    refine pairwise_append.mpr ⟨hb, hcanon, ?_⟩
    intro a ha b hbmem
    rcases mem_cons.mp hbmem with rfl | hbmem
    · exact hstart _ (hlow a ha) fun x hx => hcross a ha x hx
    · exact hcross a ha b (hsub.subset hbmem)
  have hall : rangeBytes (before ++ (absorb r rest).1 :: (absorb r rest).2) =
      rangeBytes (before ++ rest) ∪ Set.Ico r.start r.stop := by
    rw [rangeBytes, covered_append]
    change _ ∪ rangeBytes _ = _
    rw [hbytes]
    simp only [rangeBytes, covered_append, covered_cons, Set.union_assoc,
      Set.union_comm (Set.Ico r.start r.stop)]
  rw [← hall]
  simp only
  split
  · refine ⟨hgrown, ?_, rfl⟩
    rw [length_append] at hmax ⊢
    rw [length_cons]
    omega
  · rename_i hlong
    have heq := hsame (le_antisymm hsub.length_le (not_lt.mp hlong))
    rw [heq] at hgrown ⊢
    exact stands_grown hgrown (by simp [Nat.add_assoc]) hmax

/-! ## Sequences of ranges -/

/-- The asserts of `add_range`. -/
def Accepted (ps : PageSize) (range : Nat × Nat) : Prop :=
  range.1 < range.2 ∧ range.2 ≤ ps.bytes ∧ 8 ≤ range.1

def addRanges (ps : PageSize) (added : List (Nat × Nat)) : Except Fault (PageMutation ps) :=
  added.foldlM (fun m range => m.addRange range.1 range.2) new

def addedBytes (added : List (Nat × Nat)) : Set Nat := covered Prod.fst Prod.snd added

theorem addRange_error {m : PageMutation ps} {range : Nat × Nat} (h : ¬ Accepted ps range) :
    m.addRange range.1 range.2 = .error .panic :=
  dif_neg h

theorem addRange_full {m : PageMutation ps} {range : Nat × Nat} (h : Accepted ps range)
    (hfull : m.fullImage = true) : m.addRange range.1 range.2 = .ok m :=
  (dif_pos h).trans (if_pos hfull)

theorem stands_addRange {m : PageMutation ps} {S : Set Nat} {range : Nat × Nat}
    (h : Accepted ps range) (hm : Stands m S) (hfull : m.fullImage = false) :
    ∃ m', m.addRange range.1 range.2 = .ok m' ∧ Stands m' (S ∪ Set.Ico range.1 range.2) := by
  obtain ⟨hcanon, hmax, rfl⟩ : Canonical m.ranges ∧ m.ranges.length ≤ maxRanges ∧
      rangeBytes m.ranges = S := by simpa [Stands, hfull] using hm
  rw [addRange, dif_pos (show _ ∧ _ from h)]
  simp only [hfull, Bool.false_eq_true, if_false]
  split
  · rename_i hnil
    rw [List.getLast?_eq_none_iff.mp hnil]
    refine ⟨_, rfl, pairwise_singleton _ _, Nat.le_of_ble_eq_true rfl, ?_⟩
    simp only [rangeBytes, covered_singleton, covered_nil, Set.empty_union]
  · rename_i last hlast
    split
    · rename_i hstart
      exact ⟨_, rfl, stands_appendRange hcanon hmax hlast hstart⟩
    · exact ⟨_, rfl, stands_insertRange hcanon hmax⟩

/-- What holds after the ranges `added`: the mutation stands for their bytes, or for
the bytes of the first of them, at which it became the full image. -/
theorem addRanges_stands {added : List (Nat × Nat)} (h : ∀ range ∈ added, Accepted ps range) :
    ∃ m, addRanges ps added = .ok m ∧ ∃ n, Stands m (addedBytes (added.take n)) ∧
      (m.fullImage = false → added.length ≤ n) := by
  induction added using reverseRecOn with
  | nil =>
    refine ⟨new, rfl, 0, ⟨.nil, Nat.zero_le _, ?_⟩, fun _ => le_rfl⟩
    exact covered_nil.trans covered_nil.symm
  | append_singleton added range ih =>
    obtain ⟨m, hm, n, hn, hall⟩ := ih fun x hx => h x (mem_append_left _ hx)
    have hrange := h range (mem_append_right _ (mem_singleton_self range))
    have hstep : addRanges ps (added ++ [range]) = m.addRange range.1 range.2 := by
      unfold addRanges at hm ⊢
      rw [foldlM_append, hm]
      exact bind_pure (m.addRange range.1 range.2)
    rw [hstep]
    cases hfull : m.fullImage with
    | true =>
      refine ⟨m, addRange_full hrange hfull, min n added.length, ?_, ?_⟩
      · rwa [take_append_of_le_length (min_le_right ..), ← take_take, take_length]
      · exact fun hf => absurd (hf.symm.trans hfull) nofun
    | false =>
      have hle := hall hfull
      rw [take_of_length_le hle] at hn
      obtain ⟨m', hm', hs⟩ := stands_addRange hrange hn hfull
      refine ⟨m', hm', (added ++ [range]).length, ?_, fun _ => le_rfl⟩
      rw [take_length, addedBytes, covered_append, covered_singleton]
      exact hs

/-- For every sequence of ranges: unless a range fails the asserts, the result is the
full image, and then at some point the bytes added had more components than there is
room for, or it lists the components of the bytes added, in order. -/
theorem addRanges_canonical (ps : PageSize) (added : List (Nat × Nat)) :
    ((∃ m, addRanges ps added = .ok m) ↔ ∀ range ∈ added, Accepted ps range) ∧
      ∀ m, addRanges ps added = .ok m → (m.fullImage = true ∧ m.ranges = [] ∧
          ∃ n, maxRanges < (componentStarts (addedBytes (added.take n))).ncard) ∨
        (m.fullImage = false ∧ m.ranges.length ≤ maxRanges ∧
          m.ranges.Pairwise (fun a b => a.stop < b.start) ∧
          ∀ i, (∃ r ∈ m.ranges, r.Covers i) ↔ ∃ range ∈ added, range.1 ≤ i ∧ i < range.2) := by
  have hiff : (∃ m, addRanges ps added = .ok m) ↔ ∀ range ∈ added, Accepted ps range := by
    refine ⟨?_, fun h => (addRanges_stands h).imp fun m hm => hm.1⟩
    rintro ⟨m, hm⟩
    unfold addRanges at hm
    generalize new = m₀ at hm
    induction added generalizing m₀ with
    | nil => nofun
    | cons range rest ih =>
      rw [foldlM_cons] at hm
      by_cases hrange : Accepted ps range
      · cases hstep : m₀.addRange range.1 range.2 with
        | error e =>
          rw [hstep] at hm
          cases hm
        | ok m₁ =>
          rw [hstep] at hm
          exact forall_mem_cons.mpr ⟨hrange, ih m₁ hm⟩
      · rw [addRange_error hrange] at hm
        cases hm
  refine ⟨hiff, fun m hm => ?_⟩
  obtain ⟨m', hm', n, hn, hall⟩ := addRanges_stands (hiff.mp ⟨m, hm⟩)
  obtain rfl : m' = m := Except.ok.inj (hm'.symm.trans hm)
  unfold Stands at hn
  split at hn
  · rename_i hfull
    exact .inl ⟨hfull, hn.1, n, hn.2⟩
  · rename_i hfull
    obtain ⟨hcanon, hmax, hbytes⟩ := hn
    rw [take_of_length_le (hall (Bool.eq_false_iff.mpr hfull))] at hbytes
    refine .inr ⟨Bool.eq_false_iff.mpr hfull, hmax, hcanon, fun i => ?_⟩
    exact Set.ext_iff.mp hbytes i

end Pagebox.Storage.PageMutation
