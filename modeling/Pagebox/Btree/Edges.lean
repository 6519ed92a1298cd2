import Mathlib.Data.List.InsertIdx
import Pagebox.Btree.Merges

/-!
# The edges of one inner node

What publishing a split, unlinking a merged page, halving a node and merging two
nodes do to the list of edges.  Positions are cut out of the lists of slots, so
that every change of a node reads as a change in the middle of a list.
-/

namespace Pagebox.Btree

open List

variable {κ ν : Type}

namespace Node

@[simp] theorem children_inner (slots : List (κ × Nat)) (upper : Nat) :
    (Node.inner slots upper : Node κ ν).children = slots.map Prod.snd ++ [upper] := rfl

def isLeaf : Node κ ν → Bool
  | .leaf _ _ _ => true
  | _ => false

theorem exists_leaf {node : Node κ ν} (h : node.isLeaf) :
    ∃ entries left right, node = .leaf entries left right := by
  match node with
  | .leaf entries left right => exact ⟨entries, left, right, rfl⟩
  | .blank => cases h
  | .inner slots upper => cases h

theorem exists_inner {node : Node κ ν} (h : node.children ≠ []) :
    ∃ slots upper, node = .inner slots upper := by
  match node with
  | .leaf entries left right => exact absurd rfl h
  | .blank => exact absurd rfl h
  | .inner slots upper => exact ⟨slots, upper, rfl⟩

end Node

/-! ## Positions in the middle of a list -/

section

variable {α : Type}

theorem exists_split_of_lt {l : List α} {i : Nat} (h : i < l.length) :
    ∃ before a after, l = before ++ a :: after ∧ before.length = i := by
  refine ⟨l.take i, l[i], l.drop (i + 1), ?_, length_take_of_le h.le⟩
  rw [getElem_cons_drop, take_append_drop]

theorem insertIdx_middle (before after : List α) (a : α) :
    (before ++ after).insertIdx before.length a = before ++ a :: after := by
  induction before with
  | nil => rfl
  | cons b before ih => simp [ih]

theorem eraseIdx_middle (before after : List α) (a : α) :
    (before ++ a :: after).eraseIdx before.length = before ++ after := by
  rw [eraseIdx_append_of_length_le le_rfl, Nat.sub_self, eraseIdx_cons_zero]

theorem getElem?_middle (before after : List α) (a : α) :
    (before ++ a :: after)[before.length]? = some a := by
  rw [List.getElem?_append_right le_rfl, Nat.sub_self, List.getElem?_cons_zero]

theorem modify_middle (before after : List α) (a : α) (f : α → α) :
    (before ++ a :: after).modify before.length f = before ++ f a :: after := by
  induction before with
  | nil => rfl
  | cons b before ih => simpa using ih

end

/-! ## The edge to a child -/

/-- The node at an edge: a slot with its key, or the upper edge. -/
theorem childEdge_cases {slots : List (κ × Nat)} {upper child pos : Nat}
    (h : childEdge slots upper child = some pos) :
    (∃ before key after, slots = before ++ (key, child) :: after ∧ before.length = pos) ∨
      (upper = child ∧ pos = slots.length) := by
  unfold childEdge at h
  split at h
  · rename_i hfind
    cases h
    obtain ⟨hlt, hkey, -⟩ := List.findIdx?_eq_some_iff_getElem.mp hfind
    obtain ⟨before, slot, after, rfl, rfl⟩ := exists_split_of_lt hlt
    refine .inl ⟨before, slot.1, after, ?_, rfl⟩
    have hchild : slot.2 = child := by simpa using hkey
    rw [← hchild]
  · split at h
    · rename_i hupper
      cases h
      exact .inr ⟨hupper, rfl⟩
    · cases h

theorem childEdge_mem {slots : List (κ × Nat)} {upper child pos : Nat}
    (h : childEdge slots upper child = some pos) : child ∈ slots.map Prod.snd ++ [upper] := by
  rcases childEdge_cases h with ⟨before, key, after, rfl, -⟩ | ⟨rfl, -⟩ <;> simp

theorem childEdge_lt {slots : List (κ × Nat)} {upper child pos : Nat}
    (h : childEdge slots upper child = some pos) :
    pos < (slots.map Prod.snd ++ [upper]).length := by
  rcases childEdge_cases h with ⟨before, key, after, rfl, rfl⟩ | ⟨rfl, rfl⟩ <;> simp

/-- A published split puts the edge of the right page behind the one of the left. -/
theorem children_applySplit {slots : List (κ × Nat)} {upper pos left : Nat}
    (h : childEdge slots upper left = some pos) (sep : κ) (right : Nat) :
    ∃ E G, slots.map Prod.snd ++ [upper] = E ++ left :: G ∧
      (applySplit slots upper pos sep left right : Node κ ν).children = E ++
      left :: right :: G := by
  rcases childEdge_cases h with ⟨before, key, after, rfl, rfl⟩ | ⟨rfl, rfl⟩
  · refine ⟨before.map Prod.snd, after.map Prod.snd ++ [upper], by simp, ?_⟩
    rw [applySplit, if_pos (by simp), setChild, modify_middle, insertIdx_middle]
    simp
  · refine ⟨slots.map Prod.snd, [], by simp, ?_⟩
    have hend := insertIdx_middle slots [] (sep, upper)
    rw [append_nil] at hend
    rw [applySplit, if_neg (by omega), hend]
    simp

/-- Halving a node divides its edges. -/
theorem children_halve {slots : List (κ × Nat)} {m : Nat} {sep : κ} {child : Nat}
    (h : slots[m]? = some (sep, child)) (upper : Nat) :
    (Node.inner (slots.take m) child : Node κ ν).children ++
      (Node.inner (slots.drop (m + 1)) upper : Node κ ν).children =
        slots.map Prod.snd ++ [upper] := by
  obtain ⟨hlt, hget⟩ := List.getElem?_eq_some_iff.mp h
  obtain ⟨before, slot, after, rfl, rfl⟩ := exists_split_of_lt hlt
  rw [getElem?_middle] at h
  cases h
  simp

variable {F : Format κ ν}

theorem setSeparatorKey_eq_ok {slots slots' : List (κ × Nat)} {pos : Nat} {key : κ}
    (h : setSeparatorKey F slots pos key = .ok slots') :
    ∃ before old child after, slots = before ++ (old, child) :: after ∧ before.length = pos ∧
      F.canInsertSeparator (before ++ after) key ∧ slots' = before ++ (key, child) :: after := by
  unfold setSeparatorKey at h
  split at h
  · cases h
  rename_i slot hslot
  split at h
  · rename_i hfits
    obtain ⟨hlt, -⟩ := List.getElem?_eq_some_iff.mp hslot
    obtain ⟨before, slot', after, rfl, rfl⟩ := exists_split_of_lt hlt
    rw [getElem?_middle] at hslot
    cases hslot
    rw [eraseIdx_middle] at hfits
    rw [eraseIdx_middle, insertIdx_middle] at h
    cases h
    exact ⟨before, slot.1, slot.2, after, rfl, rfl, hfits, rfl⟩
  · cases h

/-- After a merge the edge behind the merged page is gone. -/
theorem children_unlinkMerged {slots : List (κ × Nat)} {upper pos p q : Nat} {key : Option κ}
    {node : Node κ ν} {E G : List Nat} (hE : E.length = pos)
    (hchildren : slots.map Prod.snd ++ [upper] = E ++ p :: q :: G)
    (h : unlinkMerged F slots upper pos p key = .ok node) :
    node.children = E ++ p :: G := by
  have hpos : pos < slots.length := by
    have hlen := congrArg List.length hchildren
    simp only [length_append, length_map, length_cons, length_nil] at hlen
    omega
  obtain ⟨before, slot, after, rfl, rfl⟩ := exists_split_of_lt hpos
  rw [map_append, map_cons, append_assoc, cons_append] at hchildren
  obtain ⟨hE', hrest⟩ := append_inj hchildren (by simp [hE])
  obtain ⟨hp, hrest⟩ := List.cons.inj hrest
  unfold unlinkMerged at h
  split at h
  · rename_i hlast
    cases h
    obtain rfl : after = [] := by
      rw [← length_eq_zero_iff]
      simp only [length_append, length_cons] at hlast
      omega
    obtain rfl : G = [] := by simpa using (List.cons.inj hrest).2.symm
    rw [eraseIdx_middle]
    simp [hE']
  rename_i hlast
  obtain ⟨next, after, rfl⟩ := exists_cons_of_ne_nil (l := after) fun hnil => by
    rw [hnil] at hlast
    simp at hlast
  have herase : ∀ slot : κ × Nat, (before ++ slot :: next :: after).eraseIdx (before.length + 1) =
      before ++ slot :: after := by
    intro slot
    simpa using eraseIdx_middle (before ++ [slot]) after next
  have hG : after.map Prod.snd ++ [upper] = G := (List.cons.inj hrest).2
  split at h
  · cases h
    rw [herase]
    simp [hE', hp, hG]
  simp only [bind, Except.bind] at h
  split at h
  · cases h
  rename_i slots' hset
  cases h
  obtain ⟨before', old, child, after', hslots, hlen, -, rfl⟩ := setSeparatorKey_eq_ok hset
  obtain ⟨rfl, htail⟩ := append_inj hslots hlen.symm
  obtain ⟨rfl, rfl⟩ := List.cons.inj htail
  rw [herase]
  simp only at hp
  simp [hE', hp, hG]

end Pagebox.Btree
