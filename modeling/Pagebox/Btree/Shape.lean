import Pagebox.Base.Levels
import Pagebox.Btree.Edges

/-!
# The shape of the tree

The pages of a tree by level, the chain of its leaves, and the counters.  `Shaped`
is the invariant between the separate page writes of a structural change: a page
that was split off and has no edge yet is named by `pend`.  The links of the leaves
are kept apart in `Linked`, since a merge writes one of them last.
-/

namespace Pagebox.Btree

open Pagebox.Base Function List

variable {κ ν : Type}

/-- The leaves are linked in this order, between the neighbours `prev` and `next`. -/
def Linked (t : BTree κ ν) : Nat → List Nat → Nat → Prop
  | _, [], _ => True
  | prev, p :: rest, next =>
    t.leftPid p = prev ∧ t.rightPid p = rest.headD next ∧ Linked t p rest next

structure Shaped (t : BTree κ ν) (lv : Nat → List Nat) (pend : Nat → Option (Nat × Nat)) : Prop
    extends Leveled t.children t.root t.height lv pend where
  leaves : ∀ p ∈ lv 0, (t.pages p).isLeaf
  bounds : ∀ i ≤ t.height, ∀ p ∈ lv i, 0 < p ∧ p < t.next
  count : t.reachablePages = size t.height lv

section

variable {t t' : BTree κ ν}

theorem linked_append (prev next : Nat) (l l' : List Nat) : Linked t prev (l ++ l') next ↔
      Linked t prev l (l'.headD next) ∧ Linked t (l.getLastD prev) l' next := by
  induction l generalizing prev with
  | nil => simp [Linked]
  | cons p rest ih =>
    simp only [cons_append, Linked, ih, and_assoc, getLastD_cons]
    cases rest <;> simp

theorem Linked.congr {prev next : Nat} {l : List Nat} (h : Linked t prev l next)
    (hsame : ∀ p ∈ l, t'.leftPid p = t.leftPid p ∧ t'.rightPid p = t.rightPid p) :
    Linked t' prev l next := by
  induction l generalizing prev with
  | nil => trivial
  | cons p rest ih =>
    obtain ⟨hleft, hright, hrest⟩ := h
    obtain ⟨hleft', hright'⟩ := hsame p (by simp)
    exact ⟨hleft'.trans hleft, hright'.trans hright, ih hrest fun q hq => hsame q (by simp [hq])⟩

theorem Linked.of_pages {prev next : Nat} {l : List Nat} (h : Linked t prev l next)
    (hsame : ∀ p ∈ l, t'.pages p = t.pages p) : Linked t' prev l next :=
  h.congr fun p hp => by simp only [BTree.leftPid, BTree.rightPid, hsame p hp, and_self]

end

namespace BTree

variable {t : BTree κ ν} {pid : Nat}

theorem children_write (node : Node κ ν) :
    (t.write pid node).children = update t.children pid node.children := by
  funext p
  by_cases hp : p = pid
  · subst hp
    simp [children, write]
  · simp [children, write, update_of_ne hp]

theorem pages_write_of_ne {p : Nat} (hp : p ≠ pid) (node : Node κ ν) :
    (t.write pid node).pages p = t.pages p :=
  update_of_ne hp ..

@[simp] theorem pages_write_self (node : Node κ ν) : (t.write pid node).pages pid = node :=
  update_self ..

section

variable (leaf left : Nat)

@[simp] theorem updateLeafLeftSibling_height :
    (t.updateLeafLeftSibling leaf left).height = t.height := by
  unfold updateLeafLeftSibling
  split
  · rfl
  · split <;> rfl

end

theorem exists_inner_of_children {p : Nat} (h : t.children p ≠ []) :
    ∃ slots upper, t.pages p = .inner slots upper :=
  Node.exists_inner h

theorem slots_of_inner {slots : List (κ × Nat)} {upper : Nat}
    (h : t.pages pid = .inner slots upper) :
    t.slots pid = slots := by rw [BTree.slots, h]

theorem upper_of_inner {slots : List (κ × Nat)} {upper : Nat}
    (h : t.pages pid = .inner slots upper) :
    t.upper pid = upper := by rw [BTree.upper, h]

theorem children_of_inner {slots : List (κ × Nat)} {upper : Nat}
    (h : t.pages pid = .inner slots upper) : t.children pid = slots.map Prod.snd ++ [upper] := by
  rw [BTree.children, h, Node.children_inner]

end BTree

namespace Shaped

variable {t t' : BTree κ ν} {lv : Nat → List Nat} {pend : Nat → Option (Nat × Nat)}

/-- Only keys, entries and links changed. -/
theorem of_children (h : Shaped t lv pend) (hchildren : t'.children = t.children)
    (hleaves : ∀ p ∈ lv 0, (t'.pages p).isLeaf) (hroot : t'.root = t.root)
    (hheight : t'.height = t.height) (hreachable : t'.reachablePages = t.reachablePages)
    (hnext : t'.next = t.next) : Shaped t' lv pend := by
  refine { toLeveled := ?_, leaves := hleaves, bounds := ?_, count := ?_ }
  · rw [hchildren, hroot, hheight]
    exact h.toLeveled
  · rw [hheight, hnext]
    exact h.bounds
  · rw [hreachable, hheight]
    exact h.count

section

variable (h : Shaped t lv pend)

include h

theorem fresh {p : Nat} (hp : t.next ≤ p) : ∀ j ≤ t.height, p ∉ lv j :=
  fun j hj hmem => absurd (h.bounds j hj p hmem).2 (by omega)

theorem lt_next {i p : Nat} (hi : i ≤ t.height) (hp : p ∈ lv i) : p < t.next :=
  (h.bounds i hi p hp).2

theorem exists_leaf {p : Nat} (hp : p ∈ lv 0) :
    ∃ entries left right, t.pages p = .leaf entries left right :=
  Node.exists_leaf (h.leaves p hp)

theorem exists_inner {i p : Nat} (hi : i < t.height) (hp : p ∈ lv (i + 1)) :
    ∃ slots upper, t.pages p = .inner slots upper :=
  BTree.exists_inner_of_children (h.inner i hi p hp)

theorem write_leaf {p : Nat} (hp : p ∈ lv 0) {node : Node κ ν} (hnode : node.isLeaf) :
    Shaped (t.write p node) lv pend := by
  obtain ⟨entries, left, right, rfl⟩ := Node.exists_leaf hnode
  refine h.of_children ?_ ?_ rfl rfl rfl rfl
  · rw [BTree.children_write]
    exact update_eq_self_iff.mpr (h.leaf p hp).symm
  intro q hq
  by_cases hqp : q = p
  · rw [hqp, BTree.pages_write_self]
    rfl
  · rw [BTree.pages_write_of_ne hqp]
    exact h.leaves q hq

theorem write_inner {i p : Nat} (hi : i < t.height) (hp : p ∈ lv (i + 1)) {node : Node κ ν}
    (hnode : node.children = t.children p) : Shaped (t.write p node) lv pend := by
  refine h.of_children ?_ ?_ rfl rfl rfl rfl
  · rw [BTree.children_write]
    exact update_eq_self_iff.mpr hnode
  · intro q hq
    rw [BTree.pages_write_of_ne (h.ne_of_level (Nat.zero_le _) hi hq hp (by omega))]
    exact h.leaves q hq

theorem setEntries {p : Nat} (hp : p ∈ lv 0) (entries : List (κ × ν)) :
    Shaped (t.setEntries p entries) lv pend :=
  h.write_leaf hp rfl

theorem updateLeafLeftSibling {p : Nat} (hp : p = 0 ∨ p ∈ lv 0) (left : Nat) :
    Shaped (t.updateLeafLeftSibling p left) lv pend := by
  unfold BTree.updateLeafLeftSibling
  split
  · exact h
  · rename_i hzero
    have hleaf := hp.resolve_left hzero
    obtain ⟨entries, left', right, hpage⟩ := h.exists_leaf hleaf
    rw [hpage]
    exact h.write_leaf hleaf rfl

/-! ## The structural changes -/

theorem splitPage {i p : Nat} {A B : List Nat} (hi : i < t.height) (hlv : lv i = A ++ p :: B)
    (hpend : pend i = none) {left right : Node κ ν}
    (hparts : left.children ++ right.children = t.children p)
    (hne : 0 < i → left.children ≠ [] ∧ right.children ≠ [])
    (hleaf : i = 0 → left.isLeaf ∧ right.isLeaf) :
    Shaped (t.splitPage p left right) (update lv i (A ++ p :: t.next :: B))
      (update pend i (some (p, t.next))) := by
  have hp : p ∈ lv i := by simp [hlv]
  have hpn : p ≠ t.next := (h.lt_next hi.le hp).ne
  have hself : (t.splitPage p left right).children p = left.children := by
    simp [BTree.children, BTree.splitPage]
  have hnew : (t.splitPage p left right).children t.next = right.children := by
    simp [BTree.children, BTree.splitPage, update_of_ne hpn.symm]
  have hsame : ∀ x, x ≠ p → x ≠ t.next → (t.splitPage p left right).pages x = t.pages x := by
    intro x hxp hxn
    simp [BTree.splitPage, update_of_ne hxp, update_of_ne hxn]
  refine { toLeveled := ?_, leaves := ?_, bounds := ?_, count := ?_ }
  · refine h.toLeveled.split hi hlv hpend (h.fresh le_rfl) ?_ ?_ ?_
    · intro x hxp hxn
      simp only [BTree.children, hsame x hxp hxn]
    · rw [hself, hnew, hparts]
    · rw [hself, hnew]
      exact hne
  · intro x hx
    by_cases hxp : x = p
    · subst hxp
      have hzero : i = 0 := by
        by_contra hzero
        rw [update_of_ne (Ne.symm hzero)] at hx
        exact hzero (h.apart i 0 x hi.le (Nat.zero_le _) hp hx)
      simpa [BTree.splitPage] using (hleaf hzero).1
    by_cases hxn : x = t.next
    · subst hxn
      have hzero : i = 0 := by
        by_contra hzero
        rw [update_of_ne (Ne.symm hzero)] at hx
        exact h.fresh le_rfl 0 (Nat.zero_le _) hx
      simpa [BTree.splitPage, update_of_ne hxp] using (hleaf hzero).2
    rw [hsame x hxp hxn]
    refine h.leaves x ?_
    by_cases hzero : 0 = i
    · rw [← hzero, update_self] at hx
      rw [hzero, hlv]
      simpa [hxn] using hx
    · rwa [update_of_ne hzero] at hx
  · intro j hj x hx
    simp only [BTree.splitPage]
    have hold : x = t.next ∨ x ∈ lv j := by
      by_cases hji : j = i
      · rw [hji, update_self] at hx
        rw [hji, hlv]
        simp only [mem_append, mem_cons] at hx ⊢
        tauto
      · rw [update_of_ne hji] at hx
        exact .inr hx
    rcases hold with rfl | hold
    · have := h.lt_next hi.le hp
      omega
    · have := h.bounds j hj x hold
      omega
  have hsize := size_update lv (A ++ p :: t.next :: B) hi.le
  rw [hlv] at hsize
  simp only [length_append, length_cons] at hsize
  have hcount := h.count
  change t.reachablePages + 1 = size t.height _
  omega

theorem splitStableRoot {sep : κ} {left right : Node κ ν}
    (hparts : left.children ++ right.children = t.children t.root)
    (hne : 0 < t.height → left.children ≠ [] ∧ right.children ≠ [])
    (hleaf : t.height = 0 → left.isLeaf ∧ right.isLeaf) :
    Shaped (t.splitStableRoot sep left right)
      (update (update lv t.height [t.next + 1, t.next]) (t.height + 1) [t.root])
      pend := by
  have hroot := h.lt_next le_rfl h.root_mem
  have hrn : t.root ≠ t.next := hroot.ne
  have hrn1 : t.root ≠ t.next + 1 := by omega
  have hpages : ∀ x, x ≠ t.root → x ≠ t.next + 1 → x ≠ t.next →
      (t.splitStableRoot sep left right).pages x = t.pages x := by
    intro x hxr hxl hxn
    simp [BTree.splitStableRoot, update_of_ne hxr, update_of_ne hxl, update_of_ne hxn]
  have hleft : (t.splitStableRoot sep left right).pages (t.next + 1) = left := by
    simp [BTree.splitStableRoot, update_of_ne hrn1.symm]
  have hright : (t.splitStableRoot sep left right).pages t.next = right := by
    simp [BTree.splitStableRoot, update_of_ne hrn.symm]
  refine { toLeveled := ?_, leaves := ?_, bounds := ?_, count := ?_ }
  · refine h.toLeveled.grow (by omega) (h.fresh (by omega)) (h.fresh le_rfl) ?_ ?_ ?_ ?_
    · intro x hxr hxl hxn
      simp only [BTree.children, hpages x hxr hxl hxn]
    · simp [BTree.children, BTree.splitStableRoot]
    · simp only [BTree.children, hleft, hright]
      exact hparts
    · simp only [BTree.children, hleft, hright]
      exact hne
  · intro x hx
    rw [update_of_ne (by omega)] at hx
    by_cases hzero : 0 = t.height
    · rw [← hzero, update_self] at hx
      obtain ⟨hl, hr⟩ := hleaf hzero.symm
      rcases mem_pair.mp hx with rfl | rfl
      · rw [hleft]
        exact hl
      · rw [hright]
        exact hr
    · rw [update_of_ne hzero] at hx
      have hlt := h.lt_next (Nat.zero_le _) hx
      rw [hpages x (h.ne_root (by omega) hx) (by omega) (by omega)]
      exact h.leaves x hx
  · intro j hj x hx
    change 0 < x ∧ x < t.next + 2
    change j ≤ t.height + 1 at hj
    by_cases hjtop : j = t.height + 1
    · rw [hjtop, update_self, mem_singleton] at hx
      have := h.bounds _ le_rfl _ h.root_mem
      omega
    rw [update_of_ne hjtop] at hx
    by_cases hjh : j = t.height
    · rw [hjh, update_self] at hx
      rcases mem_pair.mp hx with rfl | rfl <;> omega
    · rw [update_of_ne hjh] at hx
      have := h.bounds j (by omega) x hx
      omega
  · change t.reachablePages + 2 = size (t.height + 1) _
    rw [h.toLeveled.size_grow, ← h.count]

theorem link {i p q r : Nat} {E G : List Nat} {node : Node κ ν} (hi : i < t.height)
    (hpend : pend i = some (p, q)) (hr : r ∈ lv (i + 1)) (hchild : t.children r = E ++ p :: G)
    (hnode : node.children = E ++ p :: q :: G) :
    Shaped (t.write r node) lv (update pend i none) := by
  refine { toLeveled := ?_, leaves := ?_, bounds := h.bounds, count := h.count }
  · refine h.toLeveled.link hi hpend hr hchild ?_ ?_
    · intro x hx
      rw [BTree.children_write, update_of_ne hx]
    · rw [BTree.children_write, update_self, hnode]
  · intro x hx
    rw [BTree.pages_write_of_ne (h.ne_of_level (Nat.zero_le _) hi hx hr (by omega))]
    exact h.leaves x hx

theorem merge {i p q r : Nat} {E G : List Nat} {left parent : Node κ ν} (hi : i < t.height)
    (hpend : pend i = none) (hr : r ∈ lv (i + 1)) (hchild : t.children r = E ++ p :: q :: G)
    (hparent : parent.children = E ++ p :: G) (hleft : left.children = t.children p ++ t.children q)
    (hleaf : i = 0 → left.isLeaf) :
    ∃ A B, lv i = A ++ p :: q :: B ∧
      Shaped ((t.write p left).unlink r parent) (update lv i (A ++ p :: B)) pend := by
  have hp : p ∈ lv i :=
    (h.edges i hi).subset (mem_flatMap.mpr ⟨r, hr, by rw [hchild]; simp⟩)
  have hrp : r ≠ p := h.ne_of_level hi hi.le hr hp (by omega)
  have hchildren : ((t.write p left).unlink r parent).children =
      update (update t.children p left.children) r parent.children := by
    rw [← BTree.children_write, ← BTree.children_write]
    rfl
  have hsame : ∀ x, x ≠ r → x ≠ p →
      ((t.write p left).unlink r parent).children x = t.children x := by
    intro x hxr hxp
    rw [hchildren, update_of_ne hxr, update_of_ne hxp]
  obtain ⟨A, B, hlv, hleveled⟩ := h.toLeveled.merge hi hpend hr hchild hsame
    (by rw [hchildren, update_self, hparent])
    (by rw [hchildren, update_of_ne hrp.symm, update_self, hleft])
  have hsub : ∀ j, ∀ x ∈ update lv i (A ++ p :: B) j, x ∈ lv j := by
    intro j x hx
    by_cases hji : j = i
    · rw [hji, update_self] at hx
      rw [hji, hlv]
      simp only [mem_append, mem_cons] at hx ⊢
      tauto
    · rwa [update_of_ne hji] at hx
  refine ⟨A, B, hlv, { toLeveled := hleveled, leaves := ?_, bounds := ?_, count := ?_ }⟩
  · intro x hx
    have hx0 := hsub 0 x hx
    have hxr : x ≠ r := h.ne_of_level (Nat.zero_le _) hi hx0 hr (by omega)
    change ((t.write p left).write r parent).pages x |>.isLeaf
    rw [BTree.pages_write_of_ne hxr]
    by_cases hxp : x = p
    · rw [hxp, BTree.pages_write_self]
      exact hleaf (h.apart i 0 p hi.le (Nat.zero_le _) hp (hxp ▸ hx0))
    · rw [BTree.pages_write_of_ne hxp]
      exact h.leaves x hx0
  · intro j hj x hx
    exact h.bounds j hj x (hsub j x hx)
  have hsize := size_update lv (A ++ p :: B) hi.le
  rw [hlv] at hsize
  simp only [length_append, length_cons] at hsize
  have hcount := h.count
  change t.reachablePages - 1 = size t.height _
  omega

theorem collapse {k p : Nat} (hk : t.height = k + 1) (hpend : pend k = none)
    (hroot : t.children t.root = [p]) :
    lv k = [p] ∧ Shaped (t.collapseEmptyRootToChild p) (update lv k [t.root]) pend := by
  have hchildren : (t.collapseEmptyRootToChild p).children =
      update t.children t.root (t.children p) := by
    rw [BTree.children, ← BTree.children_write]
    rfl
  have hsame : ∀ x, x ≠ t.root → (t.collapseEmptyRootToChild p).children x = t.children x := by
    intro x hx
    rw [hchildren, update_of_ne hx]
  obtain ⟨hlvk, hleveled⟩ := h.toLeveled.shrink hk hpend hroot hsame
    (by rw [hchildren, update_self])
  have hheight : (t.collapseEmptyRootToChild p).height = k := by
    change t.height - 1 = k
    omega
  refine ⟨hlvk, { toLeveled := ?_, leaves := ?_, bounds := ?_, count := ?_ }⟩
  · rw [hheight]
    exact hleveled
  · intro x hx
    change ((t.write t.root (t.pages p)).pages x).isLeaf
    by_cases hzero : 0 = k
    · rw [← hzero, update_self, mem_singleton] at hx
      rw [hx, BTree.pages_write_self]
      refine h.leaves p ?_
      rw [hzero, hlvk]
      exact mem_singleton_self p
    · rw [update_of_ne hzero] at hx
      rw [BTree.pages_write_of_ne (h.ne_root (by omega) hx)]
      exact h.leaves x hx
  · intro j hj x hx
    by_cases hjk : j = k
    · rw [hjk, update_self, mem_singleton] at hx
      rw [hx]
      exact h.bounds _ le_rfl _ h.root_mem
    · rw [update_of_ne hjk] at hx
      exact h.bounds j (by omega) x hx
  · have hsize := h.toLeveled.size_shrink hk hlvk
    have hcount := h.count
    rw [hheight]
    change t.reachablePages - 1 = _
    omega

end

end Shaped

end Pagebox.Btree
