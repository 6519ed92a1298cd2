import Pagebox.Base.Scan
import Pagebox.Btree.History

/-!
# Range scans

`scan_range_until` on a tree that nobody changes meanwhile: it looks for one leaf and
follows the right links from there, so that what it delivers is one pass over the
entries of this leaf and of all leaves behind it.
-/

namespace Pagebox.Btree

open Pagebox.Base List

variable {κ ν : Type}

inductive Bound (κ : Type)
  | unbounded
  | included (key : κ)
  | excluded (key : κ)

namespace Bound

variable [LinearOrder κ]

/-- The test of the upper bound. -/
def admits : Bound κ → κ → Bool
  | unbounded, _ => true
  | included limit, key => key ≤ limit
  | excluded limit, key => key < limit

/-- The empty key is the least one. -/
def startKey [OrderBot κ] : Bound κ → κ
  | unbounded => ⊥
  | included key | excluded key => key

/-- Where a scan from this lower bound starts in its first leaf. -/
def startPos (entries : List (κ × ν)) : Bound κ → Nat
  | unbounded => 0
  | included key => (Node.lowerBound entries key).1
  | excluded key =>
    let (pos, exact) := Node.lowerBound entries key
    if exact then pos + 1 else pos

/-- One round of the inner loop.  The callback `f` sees what it got so far; its refusal
ends the scan, and so does a key behind the upper bound. -/
def offer (upper : Bound κ) (f : List (κ × ν) → Bool) (seen : List (κ × ν)) (entry : κ × ν) :
    List (κ × ν) × Option (List (κ × ν)) :=
  if upper.admits entry.1 then
    ([entry], if f (seen ++ [entry]) then some (seen ++ [entry]) else none)
  else ([], none)

end Bound

namespace BTree

variable [LinearOrder κ] (t : BTree κ ν) (upper : Bound κ) (f : List (κ × ν) → Bool)

/-- The loop over the leaves; `none` while it has not ended. -/
def scanLeaves : Nat → Nat → List (κ × ν) → List (κ × ν) → Option (List (κ × ν))
  | 0, _, _, _ => none
  | fuel + 1, leaf, entries, seen =>
    match scan (upper.offer f) seen entries with
    | (out, none) => some out
    | (out, some seen) =>
      if t.rightPid leaf = 0 then some out
      else (scanLeaves fuel (t.rightPid leaf) (t.entries (t.rightPid leaf)) seen).map (out ++ ·)

def scanRangeUntil [OrderBot κ] (fuel : Nat) (lower : Bound κ) : Option (List (κ × ν)) :=
  let leaf := t.findLeaf lower.startKey
  t.scanLeaves upper f fuel leaf ((t.entries leaf).drop (lower.startPos (t.entries leaf))) []

end BTree

section

variable [LinearOrder κ] {t : BTree κ ν} {upper : Bound κ} {f : List (κ × ν) → Bool} {fuel : Nat}

/-- Along linked leaves the loop is a pass over all their entries. -/
theorem Linked.scanLeaves {leaf prev : Nat} {after : List Nat} (h : Linked t prev (leaf :: after) 0)
    (hzero : 0 ∉ after) (hfuel : after.length < fuel) (entries seen : List (κ × ν)) :
    t.scanLeaves upper f fuel leaf entries seen =
      some (scan (upper.offer f) seen (entries ++ after.flatMap t.entries)).1 := by
  induction after generalizing leaf prev fuel entries seen with
  | nil =>
    obtain ⟨fuel, rfl⟩ := Nat.exists_eq_add_one.mpr hfuel
    rw [flatMap_nil, append_nil, BTree.scanLeaves]
    cases scan (upper.offer f) seen entries with
    | mk out state =>
      cases state with
      | none => rfl
      | some seen' => exact if_pos h.2.1
  | cons q after ih =>
    obtain ⟨fuel, rfl⟩ := Nat.exists_eq_add_one.mpr (Nat.zero_lt_of_lt hfuel)
    obtain ⟨-, hright, hafter⟩ := h
    rw [mem_cons, not_or] at hzero
    rw [flatMap_cons, BTree.scanLeaves, hright, headD_cons]
    cases hscan : scan (upper.offer f) seen entries with
    | mk out state =>
      cases state with
      | none => rw [scan_append_of_none hscan]
      | some seen' =>
        rw [scan_append_of_some hscan]
        simp only [if_neg (Ne.symm hzero.1), ih hafter hzero.2 (Nat.lt_of_succ_lt_succ hfuel),
          Option.map_some]

/-- After every history a scan ends and delivers, in order and up to the first refusal
or key out of range, the entries of its first leaf from the start position on and all
entries of the leaves to the right. -/
theorem scanRangeUntil_delivers [OrderBot κ] {F : Format κ ν} {root : Nat} (hroot : 0 < root)
    (h : Reach (BTree.step F) anyStep (BTree.new root) t) (lower : Bound κ)
    (hfuel : t.next ≤ fuel) : ∃ before leaf after, t.atDepth t.height = before ++ leaf :: after ∧
      leaf = t.findLeaf lower.startKey ∧
      t.scanRangeUntil upper f fuel lower = some (scan (upper.offer f) []
        ((t.entries leaf).drop (lower.startPos (t.entries leaf)) ++
        after.flatMap t.entries)).1 := by
  obtain ⟨lv, hshape⟩ := exists_wellShaped hroot h
  obtain ⟨before, after, hlv⟩ := append_of_mem (hshape.findLeaf lower.startKey)
  have hlinked := hshape.linked
  have hzero : 0 ∉ lv 0 := fun hmem => (hshape.shaped.bounds 0 (Nat.zero_le _) 0 hmem).1.ne rfl
  have hlen := hshape.shaped.length_leaves_lt
  refine ⟨before, _, after, ?_, rfl, ?_⟩
  · rw [BTree.atDepth, hshape.shaped.atDepth_eq le_rfl, Nat.sub_self, hlv]
  · rw [hlv] at hlinked hzero hlen
    simp only [mem_append, mem_cons, not_or] at hzero
    simp only [length_append, length_cons] at hlen
    exact ((linked_append _ _ _ _).mp hlinked).2.scanLeaves hzero.2.2 (by omega) _ _

end

/-- Two leaves, and a scan from a key of the first one. -/
theorem scanRangeUntil_delivers_split : ∃ t : BTree Nat Nat, t.height = 1 ∧
    ∃ before leaf after, t.atDepth t.height = before ++ leaf :: after ∧
      leaf = t.findLeaf (Bound.excluded 20).startKey ∧
      t.scanRangeUntil (.included 30) (fun _ => true) t.next (.excluded 20) =
        some (scan ((Bound.included 30).offer fun _ => true) []
          ((t.entries leaf).drop ((Bound.excluded 20).startPos (t.entries leaf)) ++
            after.flatMap t.entries)).1 := by
  let F : Format Nat Nat := ⟨.k4, fun _ => 8, fun value => value⟩
  let call (key : Nat) : Call Nat Nat := ⟨.insert key 1000, fun _ => false, 5⟩
  have hrun : ((exec (BTree.step F) (BTree.new 1) ([10, 20, 30, 40].map call)).any fun t =>
      decide (t.height = 1)) = true := by decide +kernel
  obtain ⟨t, hexec, ht⟩ := (Option.any_eq_true _ _).mp hrun
  exact ⟨t, of_decide_eq_true ht,
    scanRangeUntil_delivers (by decide) (Reach.of_exec_any hexec) (.excluded 20) le_rfl⟩

end Pagebox.Btree
