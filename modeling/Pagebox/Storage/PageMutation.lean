import Pagebox.Storage.SlottedLayout
import Pagebox.Wal.PagePatch

/-!
# Which bytes an operation reports as changed

`PageMutation` of `storage/src/buffer_pool.rs`: up to eight ranges that are kept in
order and joined where they touch, or the whole page.  The slotted-page operations
that report their changes add ranges computed beside the writes; together these cover
every byte that changed.
-/

namespace Pagebox.Storage

open Pagebox.Base Pagebox.Wal SlottedPage List

variable {ps : PageSize}

structure MutationRange (ps : PageSize) where
  start : Nat
  stop : Nat
  behind : 8 ≤ start
  ordered : start < stop
  inside : stop ≤ ps.bytes
  deriving DecidableEq

namespace MutationRange

def Covers (r : MutationRange ps) (i : Nat) : Prop := r.start ≤ i ∧ i < r.stop

def join (a b : MutationRange ps) : MutationRange ps where
  start := min a.start b.start
  stop := max a.stop b.stop
  behind := le_min a.behind b.behind
  ordered := (min_le_left ..).trans_lt (a.ordered.trans_le (le_max_left ..))
  inside := max_le a.inside b.inside

theorem covers_join_left {a b : MutationRange ps} {i : Nat} (h : a.Covers i) :
    (a.join b).Covers i :=
  ⟨(min_le_left ..).trans h.1, h.2.trans_le (le_max_left ..)⟩

theorem covers_join_right {a b : MutationRange ps} {i : Nat} (h : b.Covers i) :
    (a.join b).Covers i :=
  ⟨(min_le_right ..).trans h.1, h.2.trans_le (le_max_right ..)⟩

end MutationRange

structure PageMutation (ps : PageSize) where
  ranges : List (MutationRange ps)
  fullImage : Bool
  deriving DecidableEq

namespace PageMutation

def maxRanges : Nat := 8

def new : PageMutation ps := ⟨[], false⟩

def full : PageMutation ps := ⟨[], true⟩

/-- The second loop of `add_range`: ranges that start before the new one ends are
joined to it. -/
def absorb (r : MutationRange ps) :
    List (MutationRange ps) → MutationRange ps × List (MutationRange ps)
  | [] => (r, [])
  | x :: rest => if x.start ≤ r.stop then absorb (r.join x) rest else (r, x :: rest)

/-- `add_range` of a range that starts before the last one does. -/
def insertRange (ranges : List (MutationRange ps)) (r : MutationRange ps) : PageMutation ps :=
  let before := ranges.takeWhile fun x => x.stop < r.start
  let rest := ranges.dropWhile fun x => x.stop < r.start
  let (joined, after) := absorb r rest
  if after.length < rest.length then ⟨before ++ joined :: after, false⟩
  else if ranges.length = maxRanges then full
  else ⟨before ++ r :: rest, false⟩

/-- `add_range` of a range that starts where the last one does or behind. -/
def appendRange (ranges : List (MutationRange ps)) (last r : MutationRange ps) : PageMutation ps :=
  if r.start ≤ last.stop then ⟨ranges.dropLast ++ [last.join r], false⟩
  else if ranges.length = maxRanges then full
  else ⟨ranges ++ [r], false⟩

def addRange (m : PageMutation ps) (start stop : Nat) : Except Fault (PageMutation ps) :=
  if h : start < stop ∧ stop ≤ ps.bytes ∧ 8 ≤ start then
    let r : MutationRange ps := ⟨start, stop, h.2.2, h.1, h.2.1⟩
    if m.fullImage then .ok m
    else
      match m.ranges.getLast? with
      | none => .ok ⟨[r], false⟩
      | some last =>
        if last.start ≤ start then .ok (appendRange m.ranges last r)
        else .ok (insertRange m.ranges r)
  else .error .panic

def Covers (m : PageMutation ps) (i : Nat) : Prop := m.fullImage = true ∨ ∃ r ∈ m.ranges, r.Covers i

/-- The bytes of the new page over the old one, on the ranges of the mutation. -/
def copyOver (m : PageMutation ps) (old new : Page ps) : Page ps :=
  if m.fullImage then new
  else applyRanges old (m.ranges.map fun r => (r.start, new.slice r.start r.stop))

/-! ## Ranges are only ever added -/

theorem covers_absorb (r : MutationRange ps) (ranges : List (MutationRange ps)) {i : Nat}
    (h : r.Covers i ∨ ∃ x ∈ ranges, x.Covers i) :
    (absorb r ranges).1.Covers i ∨ ∃ x ∈ (absorb r ranges).2, x.Covers i := by
  induction ranges generalizing r with
  | nil => exact h
  | cons x rest ih =>
    unfold absorb
    split
    · refine ih (r.join x) ?_
      rcases h with hr | ⟨y, hy, hi⟩
      · exact .inl (MutationRange.covers_join_left hr)
      · rcases mem_cons.mp hy with rfl | hy
        · exact .inl (MutationRange.covers_join_right hi)
        · exact .inr ⟨y, hy, hi⟩
    · exact h

theorem covers_insertRange (ranges : List (MutationRange ps)) (r : MutationRange ps) {i : Nat}
    (h : r.Covers i ∨ ∃ x ∈ ranges, x.Covers i) : (insertRange ranges r).Covers i := by
  have hsplit : ranges.takeWhile (fun x => decide (x.stop < r.start)) ++
      ranges.dropWhile (fun x => decide (x.stop < r.start)) = ranges := takeWhile_append_dropWhile
  have hparts : (∃ x ∈ ranges.takeWhile fun x => decide (x.stop < r.start), x.Covers i) ∨
      r.Covers i ∨ ∃ x ∈ ranges.dropWhile fun x => decide (x.stop < r.start), x.Covers i := by
    rcases h with hr | ⟨x, hx, hi⟩
    · exact .inr (.inl hr)
    · rw [← hsplit] at hx
      rcases mem_append.mp hx with hx | hx
      · exact .inl ⟨x, hx, hi⟩
      · exact .inr (.inr ⟨x, hx, hi⟩)
  unfold insertRange
  simp only
  split
  · refine .inr ?_
    rcases hparts with ⟨x, hx, hi⟩ | hrest
    · exact ⟨x, by simp [hx], hi⟩
    · rcases covers_absorb r _ hrest with hi | ⟨x, hx, hi⟩
      · exact ⟨_, by simp, hi⟩
      · exact ⟨x, by simp [hx], hi⟩
  split
  · exact .inl rfl
  · refine .inr ?_
    rcases hparts with ⟨x, hx, hi⟩ | hi | ⟨x, hx, hi⟩
    · exact ⟨x, by simp [hx], hi⟩
    · exact ⟨r, by simp, hi⟩
    · exact ⟨x, by simp [hx], hi⟩

theorem covers_appendRange {ranges : List (MutationRange ps)} {last : MutationRange ps}
    (hlast : ranges.getLast? = some last) (r : MutationRange ps) {i : Nat}
    (h : r.Covers i ∨ ∃ x ∈ ranges, x.Covers i) : (appendRange ranges last r).Covers i := by
  obtain ⟨init, rfl⟩ := List.getLast?_eq_some_iff.mp hlast
  unfold appendRange
  split
  · refine .inr ?_
    rcases h with hi | ⟨x, hx, hi⟩
    · exact ⟨last.join r, by simp, MutationRange.covers_join_right hi⟩
    · rcases mem_append.mp hx with hx | hx
      · exact ⟨x, by simp [hx], hi⟩
      · rw [mem_singleton.mp hx] at hi
        exact ⟨last.join r, by simp, MutationRange.covers_join_left hi⟩
  split
  · exact .inl rfl
  · refine .inr ?_
    rcases h with hi | ⟨x, hx, hi⟩
    · exact ⟨r, by simp, hi⟩
    · exact ⟨x, mem_append_left _ hx, hi⟩

/-- A range that was added is covered, and nothing is forgotten. -/
theorem covers_addRange {m m' : PageMutation ps} {start stop : Nat}
    (h : m.addRange start stop = .ok m') :
    8 ≤ start ∧ stop ≤ ps.bytes ∧ ∀ i, m.Covers i ∨ (start ≤ i ∧ i < stop) → m'.Covers i := by
  unfold addRange at h
  split at h
  · rename_i hrange
    refine ⟨hrange.2.2, hrange.2.1, fun i hi => ?_⟩
    split at h
    · rename_i hfull
      cases h
      exact .inl hfull
    rename_i hfull
    have hparts : (⟨start, stop, hrange.2.2, hrange.1, hrange.2.1⟩ : MutationRange ps).Covers i ∨
        ∃ x ∈ m.ranges, x.Covers i := by
      rcases hi with (hi | hi) | hi
      · exact absurd hi hfull
      · exact .inr hi
      · exact .inl hi
    split at h
    · rename_i hnil
      cases h
      rw [List.getLast?_eq_none_iff.mp hnil] at hparts
      exact .inr ⟨_, mem_singleton_self _, hparts.resolve_right nofun⟩
    rename_i last hlast
    split at h
    · cases h
      exact covers_appendRange hlast _ hparts
    · cases h
      exact covers_insertRange _ _ hparts
  · cases h

/-- Copying the reported bytes gives the new page when all changes are reported and
the page LSN did not change. -/
theorem copyOver_eq {m : PageMutation ps} {old new : Page ps}
    (h : ∀ i : Nat, old.bytes[i]? ≠ new.bytes[i]? → m.Covers i) : m.copyOver old new = new := by
  unfold copyOver
  split
  · rfl
  rename_i hfull
  refine applyRanges_eq ?_ ?_
  · intro range hrange
    obtain ⟨r, -, rfl⟩ := mem_map.mp hrange
    exact carries_slice new r.inside r.ordered.le
  intro i hi
  obtain ⟨r, hr, hlow, hhigh⟩ := (h i hi).resolve_left hfull
  refine ⟨_, mem_map_of_mem hr, hlow, ?_⟩
  have hlen : (new.slice r.start r.stop).length = r.stop - r.start := Page.length_slice r.inside
  simp only [hlen]
  omega

end PageMutation

end Pagebox.Storage
