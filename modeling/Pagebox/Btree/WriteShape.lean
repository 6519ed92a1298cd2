import Pagebox.Btree.Moves

/-!
# Writing calls keep the shape

`insert` and `upsert` lead from a tree of good shape to one: the descents end at a
leaf of the tree, a split of that leaf keeps the chain of leaves, and the publication
is a sequence of moves above the leaves.
-/

namespace Pagebox.Btree

open Pagebox.Base Function List

variable {κ ν : Type}

/-- The shape of a tree no call is working on. -/
structure WellShaped (t : BTree κ ν) (lv : Nat → List Nat) : Prop where
  shaped : Shaped t lv fun _ => none
  linked : Linked t 0 (lv 0) 0

section

variable {t : BTree κ ν} {lv : Nat → List Nat} {pend : Nat → Option (Nat × Nat)}

theorem Shaped.height_lt_next (h : Shaped t lv pend) : t.height < t.next := by
  have hhead : ∀ i ≤ t.height, (lv i).headD 0 ∈ lv i := by
    intro i hi
    obtain ⟨p, rest, hlv⟩ := exists_cons_of_ne_nil (h.level_ne_nil hi)
    simp [hlv]
  have hcard : (Finset.range (t.height + 1)).card ≤ (Finset.range t.next).card := by
    refine Finset.card_le_card_of_injOn (fun i => (lv i).headD 0) ?_ ?_
    · intro i hi
      have hi : i ≤ t.height := Nat.lt_succ_iff.mp (Finset.mem_range.mp hi)
      exact Finset.mem_coe.mpr (Finset.mem_range.mpr (h.lt_next hi (hhead i hi)))
    · intro i hi j hj heq
      have hi : i ≤ t.height := Nat.lt_succ_iff.mp (Finset.mem_range.mp hi)
      have hj : j ≤ t.height := Nat.lt_succ_iff.mp (Finset.mem_range.mp hj)
      simp only at heq
      exact h.apart i j _ hi hj (hhead i hi) (heq ▸ hhead j hj)
  rw [Finset.card_range, Finset.card_range] at hcard
  exact hcard

/-- The pages of a path, from the leaf up, are on the levels above the leaves. -/
def PathAt (lv : Nat → List Nat) (path : List Nat) : Prop :=
  ∀ j q, path[j]? = some q → q ∈ lv (j + 1)

theorem routeToChild_mem [LinearOrder κ] (slots : List (κ × Nat)) (upper : Nat) (key : κ) :
    Node.routeToChild slots upper key ∈ slots.map Prod.snd ++ [upper] := by
  unfold Node.routeToChild
  split
  · rename_i slot hslot
    exact mem_append_left _ (mem_map_of_mem (mem_of_getElem? hslot))
  · simp

variable [LinearOrder κ] {key : κ}

/-- A descent from level `k` meets one page of every level below. -/
theorem Shaped.descend (h : Shaped t lv pend) (key : κ) {k fuel pid : Nat} (hk : k ≤ t.height)
    (hpid : pid ∈ lv k) (hfuel : k ≤ fuel) (path : List Nat) :
    ∃ below leaf, t.descend key fuel pid path = (below ++ path, leaf) ∧ leaf ∈ lv 0 ∧
      below.length = k ∧ PathAt lv below := by
  induction k generalizing pid fuel path with
  | zero =>
    obtain ⟨entries, left, right, hpage⟩ := h.exists_leaf hpid
    refine ⟨[], pid, ?_, hpid, rfl, nofun⟩
    cases fuel with
    | zero => rfl
    | succ fuel => simp [BTree.descend, hpage]
  | succ k ih =>
    obtain ⟨fuel, rfl⟩ := Nat.exists_eq_add_one.mpr (Nat.zero_lt_of_lt hfuel)
    obtain ⟨slots, upper, hpage⟩ := h.exists_inner hk hpid
    have hroute := routeToChild_mem slots upper key
    rw [← BTree.children_of_inner hpage] at hroute
    have hchild := (h.edges k hk).subset (mem_flatMap.mpr ⟨pid, hpid, hroute⟩)
    obtain ⟨below, leaf, hdescend, hleaf, hlen, hbelow⟩ := ih (Nat.le_of_lt hk) hchild
      (Nat.le_of_succ_le_succ hfuel) (pid :: path)
    refine ⟨below ++ [pid], leaf, ?_, hleaf, by simp [hlen], ?_⟩
    · rw [BTree.descend, hpage]
      simpa using hdescend
    intro j q hq
    rcases Nat.lt_or_ge j below.length with hlt | hge
    · rw [List.getElem?_append_left hlt] at hq
      exact hbelow j q hq
    obtain ⟨hlt, -⟩ := List.getElem?_eq_some_iff.mp hq
    have hj : j = below.length := by
      simp only [length_append, length_cons, length_nil] at hlt
      omega
    rw [hj, getElem?_middle] at hq
    cases hq
    rw [hj, hlen]
    exact hpid

theorem Shaped.routed (h : Shaped t lv pend) (key : κ) :
    (t.routed key).2 ∈ lv 0 ∧ (t.routed key).1.length = t.height ∧ PathAt lv (t.routed key).1 := by
  obtain ⟨below, leaf, hdescend, hleaf, hlen, hpath⟩ :=
    h.descend key le_rfl h.root_mem h.height_lt_next.le []
  rw [BTree.routed, hdescend]
  exact ⟨hleaf, by simpa using hlen, by simpa using hpath⟩

omit [LinearOrder κ] in
theorem Linked.right_mem {prev p : Nat} {l : List Nat} (h : Linked t prev l 0) (hp : p ∈ l) :
    t.rightPid p = 0 ∨ t.rightPid p ∈ l := by
  induction l generalizing prev with
  | nil => cases hp
  | cons q rest ih =>
    obtain ⟨-, hright, hrest⟩ := h
    rcases mem_cons.mp hp with rfl | hp
    · rw [hright]
      cases rest with
      | nil => exact .inl rfl
      | cons r rest => simp
    · exact (ih hrest hp).imp id (mem_cons_of_mem q)

theorem WellShaped.chaseRight (h : WellShaped t lv) {fuel pid : Nat} (hpid : pid ∈ lv 0) :
    t.chaseRight key fuel pid ∈ lv 0 := by
  induction fuel generalizing pid with
  | zero => exact hpid
  | succ fuel ih =>
    unfold BTree.chaseRight
    split
    · rename_i hchase
      have hne : t.rightPid pid ≠ 0 := by
        simp only [Node.shouldChaseRight, Bool.and_eq_true, decide_eq_true_eq] at hchase
        exact hchase.1
      exact ih ((h.linked.right_mem hpid).resolve_left hne)
    · exact hpid

theorem WellShaped.findLeaf (h : WellShaped t lv) (key : κ) : t.findLeaf key ∈ lv 0 :=
  h.chaseRight (h.shaped.routed key).1

theorem WellShaped.findLeafForWrite (h : WellShaped t lv) {attempts leaf : Nat} {path : List Nat}
    (hfind : t.findLeafForWrite key attempts = some (path, leaf)) :
    leaf ∈ lv 0 ∧ path.length = t.height ∧ PathAt lv path := by
  obtain ⟨hleaf, hpath⟩ := h.shaped.routed key
  unfold BTree.findLeafForWrite at hfind
  split at hfind
  · cases hfind
    exact ⟨h.findLeaf key, hpath⟩
  · simp only [BTree.findLeafWithPath] at hfind
    split at hfind
    · cases hfind
    · cases hfind
      exact ⟨hleaf, hpath⟩

omit [LinearOrder κ] in
theorem PathAt.owns {s : Stage κ ν} {path : List Nat} (hpath : PathAt s.lv path)
    (hlen : path.length = s.tree.height) : ∀ q ∈ path, s.Owns q := by
  intro q hq
  obtain ⟨j, hj, hget⟩ := mem_iff_getElem.mp hq
  exact ⟨j + 1, by omega, hpath j q (by rw [List.getElem?_eq_getElem hj, hget])⟩

end

/-! ## Splits of a leaf -/

section

variable {t : BTree κ ν} {lv : Nat → List Nat}

theorem BTree.leftPid_of_leaf {pid left right : Nat} {entries : List (κ × ν)}
    (h : t.pages pid = .leaf entries left right) : t.leftPid pid = left := by
  rw [BTree.leftPid, h]

theorem BTree.rightPid_of_leaf {pid left right : Nat} {entries : List (κ × ν)}
    (h : t.pages pid = .leaf entries left right) : t.rightPid pid = right := by
  rw [BTree.rightPid, h]

theorem BTree.entries_of_leaf {pid left right : Nat} {entries : List (κ × ν)}
    (h : t.pages pid = .leaf entries left right) : t.entries pid = entries := by
  rw [BTree.entries, h]

/-- The new left link of a page changes nothing else. -/
theorem BTree.updateLeafLeftSibling_links (pid left x : Nat) :
    (x ≠ pid → (t.updateLeafLeftSibling pid left).leftPid x = t.leftPid x) ∧
      (t.updateLeafLeftSibling pid left).rightPid x = t.rightPid x ∧
      (t.updateLeafLeftSibling pid left).entries x = t.entries x := by
  unfold BTree.updateLeafLeftSibling
  split
  · exact ⟨fun _ => rfl, rfl, rfl⟩
  · by_cases hx : x = pid
    · subst hx
      cases hpage : t.pages x <;> simp [BTree.rightPid, BTree.entries, hpage]
    · cases t.pages pid <;>
        simp [BTree.leftPid, BTree.rightPid, BTree.entries, BTree.pages_write_of_ne hx]

theorem BTree.leftPid_updateLeafLeftSibling {pid left : Nat} (hpid : pid ≠ 0)
    (hleaf : (t.pages pid).isLeaf) : (t.updateLeafLeftSibling pid left).leftPid pid = left := by
  obtain ⟨entries, left', right, hpage⟩ := Node.exists_leaf hleaf
  simp [BTree.updateLeafLeftSibling, if_neg hpid, hpage, BTree.leftPid]

/-- Two chains are joined by the last left link. -/
theorem Linked.relink {p prev : Nat} {before after : List Nat}
    (hbefore : Linked t 0 (before ++ [p]) (after.headD 0)) (hafter : Linked t prev after 0)
    (hnodup : (before ++ p :: after).Nodup) (hzero : 0 ∉ after)
    (hleaf : ∀ x ∈ after, (t.pages x).isLeaf) :
    Linked (t.updateLeafLeftSibling (after.headD 0) p) 0 (before ++ p :: after) 0 := by
  cases after with
  | nil =>
    exact hbefore
  | cons r rest =>
    have hlinks := fun x => BTree.updateLeafLeftSibling_links (t := t) r p x
    have hnodup' : (before ++ [p] ++ r :: rest).Nodup := by simpa using hnodup
    obtain ⟨-, hr, hcross⟩ := nodup_append.mp hnodup'
    have hjoined : Linked (t.updateLeafLeftSibling r p) 0 (before ++ [p] ++ r :: rest) 0 := by
      rw [linked_append]
      refine ⟨hbefore.congr fun x hx => ?_, ?_, ?_, ?_⟩
      · exact ⟨(hlinks x).1 (hcross x hx r (by simp)), (hlinks x).2.1⟩
      · rw [BTree.leftPid_updateLeafLeftSibling (fun h => hzero (by simp [h])) (hleaf r (by simp))]
        simp
      · exact (hlinks r).2.1.trans hafter.2.1
      · refine hafter.2.2.congr fun x hx => ⟨(hlinks x).1 ?_, (hlinks x).2.1⟩
        exact fun h => (nodup_cons.mp hr).1 (h ▸ hx)
    simpa using hjoined

def Stage.rest (t : BTree κ ν) (lv : Nat → List Nat) : Stage κ ν :=
  ⟨t, lv, fun _ => none, fun _ => none⟩

def Stage.splitLeaf (t : BTree κ ν) (lv : Nat → List Nat) (p : Nat) (before after : List Nat)
    (s : LeafSplit κ ν) : Stage κ ν :=
  (rest t lv).splitOff ((t.splitPage p (.leaf s.left (t.leftPid p) t.next)
    (.leaf s.right p (t.rightPid p))).updateLeafLeftSibling (t.rightPid p) t.next) 0 p before after
    s.sep

@[simp] theorem Stage.splitLeaf_lv_zero (p : Nat) (before after : List Nat) (s : LeafSplit κ ν) :
    (Stage.splitLeaf t lv p before after s).lv 0 = before ++ p :: t.next :: after := by
  simp [Stage.splitLeaf, Stage.splitOff, Stage.rest]

namespace WellShaped

variable (h : WellShaped t lv)

include h

theorem splitLeaf_stage {p : Nat} {before after : List Nat} (hlv : lv 0 = before ++ p :: after)
    (hroot : p ≠ t.root) (s : LeafSplit κ ν) :
    (Stage.splitLeaf t lv p before after s).Shaped ∧
      Linked (Stage.splitLeaf t lv p before after s).tree 0 (before ++ p :: t.next :: after) 0 ∧
      ∀ x, (Stage.splitLeaf t lv p before after s).tree.entries x =
        if x = p then s.left else if x = t.next then s.right else t.entries x := by
  have hp : p ∈ lv 0 := by simp [hlv]
  have hlt := h.shaped.lt_height (Nat.zero_le _) hp hroot
  have hpn : p ≠ t.next := (h.shaped.lt_next (Nat.zero_le _) hp).ne
  have hright := h.linked.right_mem hp
  have hshaped : Shaped (t.splitPage p (.leaf s.left (t.leftPid p) t.next)
      (.leaf s.right p (t.rightPid p))) (update lv 0 (before ++ p :: t.next :: after))
      (update (fun _ => none) 0 (some (p, t.next))) :=
    h.shaped.splitPage hlt hlv rfl (by rw [h.shaped.leaf p hp]; rfl) (fun hpos => by omega)
      fun _ => ⟨rfl, rfl⟩
  have hnodup : (before ++ p :: t.next :: after).Nodup := by
    simpa using hshaped.nodup 0 (Nat.zero_le _)
  generalize ht₁ : t.splitPage p (.leaf s.left (t.leftPid p) t.next)
    (.leaf s.right p (t.rightPid p)) = t₁ at hshaped
  have hpage : t₁.pages p = .leaf s.left (t.leftPid p) t.next := by
    rw [← ht₁]
    simp [BTree.splitPage]
  have hpage' : t₁.pages t.next = .leaf s.right p (t.rightPid p) := by
    rw [← ht₁]
    simp [BTree.splitPage, update_of_ne hpn.symm]
  have hother : ∀ x, x ≠ p → x ≠ t.next → t₁.pages x = t.pages x := by
    intro x hxp hxn
    rw [← ht₁]
    simp [BTree.splitPage, update_of_ne hxp, update_of_ne hxn]
  have hright' : t.rightPid p = 0 ∨
      t.rightPid p ∈ update lv 0 (before ++ p :: t.next :: after) 0 := by
    refine hright.imp id fun hmem => ?_
    rw [hlv] at hmem
    rw [update_self]
    simp only [mem_append, mem_cons] at hmem ⊢
    tauto
  have htree : (Stage.splitLeaf t lv p before after s).tree =
      t₁.updateLeafLeftSibling (t.rightPid p) t.next := by rw [← ht₁]; rfl
  refine ⟨?_, ?_, ?_⟩
  · change Shaped (Stage.splitLeaf t lv p before after s).tree _ _
    rw [htree]
    exact hshaped.updateLeafLeftSibling hright' t.next
  · have hlinked := h.linked
    rw [hlv, linked_append] at hlinked
    obtain ⟨hbefore, hleft, hrightp, hafter⟩ := hlinked
    have hnodup' : (before ++ [p] ++ t.next :: after).Nodup := by simpa using hnodup
    obtain ⟨hfirst, hsecond, hcross⟩ := nodup_append.mp hnodup'
    have hmem : ∀ x ∈ after, x ∈ update lv 0 (before ++ p :: t.next :: after) 0 := by
      intro x hx
      simp [hx]
    have hjoined : Linked t₁ 0 (before ++ [p, t.next]) (after.headD 0) := by
      rw [linked_append]
      refine ⟨hbefore.of_pages fun x hx => hother x ?_ ?_, ?_, ?_, ?_, ?_, trivial⟩
      · exact fun heq => (nodup_append.mp hfirst).2.2 x hx p (by simp) heq
      · exact hcross x (by simp [hx]) t.next (by simp)
      · rw [BTree.leftPid_of_leaf hpage, hleft]
      · rw [BTree.rightPid_of_leaf hpage]
        rfl
      · rw [BTree.leftPid_of_leaf hpage']
      · rw [BTree.rightPid_of_leaf hpage', hrightp]
        rfl
    have hrest : Linked t₁ p after 0 := by
      refine hafter.of_pages fun x hx => hother x ?_ ?_
      · exact fun heq => hcross p (by simp) x (by simp [hx]) heq.symm
      · exact fun heq => (nodup_cons.mp hsecond).1 (heq ▸ hx)
    rw [htree, hrightp]
    have hall := Linked.relink (t := t₁) (p := t.next) (by simpa using hjoined) hrest
      hnodup'
      (fun hmem0 => absurd (hshaped.bounds 0 (Nat.zero_le _) 0 (hmem 0 hmem0)).1 (Nat.lt_irrefl 0))
      fun x hx => hshaped.leaves x (hmem x hx)
    simpa using hall
  intro x
  rw [htree, (BTree.updateLeafLeftSibling_links ..).2.2]
  by_cases hxp : x = p
  · rw [if_pos hxp, hxp, BTree.entries_of_leaf hpage]
  · rw [if_neg hxp]
    by_cases hxn : x = t.next
    · rw [if_pos hxn, hxn, BTree.entries_of_leaf hpage']
    · rw [if_neg hxn, BTree.entries, hother x hxp hxn, BTree.entries]

theorem splitRootLeaf (hroot : t.root ∈ lv 0) (sep : κ) (left right : List (κ × ν)) :
    t.rightPid t.root = 0 ∧ WellShaped (t.splitStableRoot sep (.leaf left (t.leftPid t.root) t.next)
        (.leaf right (t.next + 1) (t.rightPid t.root)))
        (update (update lv 0 [t.next + 1, t.next]) 1 [t.root]) := by
  have hheight : t.height = 0 :=
    h.shaped.apart _ _ _ le_rfl (Nat.zero_le _) h.shaped.root_mem hroot
  have hlv : lv 0 = [t.root] := hheight ▸ h.shaped.top
  have hlinked := h.linked
  rw [hlv] at hlinked
  obtain ⟨hleft, hright, -⟩ := hlinked
  refine ⟨hright, ?_, ?_⟩
  · have hshaped : Shaped (t.splitStableRoot sep (.leaf left (t.leftPid t.root) t.next)
        (.leaf right (t.next + 1) (t.rightPid t.root))) _ _ :=
      h.shaped.splitStableRoot (by rw [h.shaped.leaf _ hroot]; rfl) (fun hpos => by omega)
        fun _ => ⟨rfl, rfl⟩
    rwa [hheight] at hshaped
  have hlt := h.shaped.lt_next (Nat.zero_le _) hroot
  have hn1 : t.next + 1 ≠ t.root := by omega
  refine ⟨?_, ?_, ?_, ?_, trivial⟩
  · simpa [BTree.leftPid, BTree.splitStableRoot, update_of_ne hn1] using hleft
  · simp [BTree.rightPid, BTree.splitStableRoot, update_of_ne hn1]
  · simp [BTree.leftPid, BTree.splitStableRoot, update_of_ne hlt.ne']
  · simpa [BTree.rightPid, BTree.splitStableRoot, update_of_ne hlt.ne'] using hright

theorem setEntries {p : Nat} (hp : p ∈ lv 0) (entries : List (κ × ν)) :
    WellShaped (t.setEntries p entries) lv := by
  refine ⟨h.shaped.setEntries hp entries, h.linked.congr fun x _ => ?_⟩
  by_cases hx : x = p
  · subst hx
    simp [BTree.setEntries, BTree.leftPid, BTree.rightPid]
  · simp [BTree.setEntries, BTree.leftPid, BTree.rightPid, BTree.pages_write_of_ne hx]

section

variable [LinearOrder κ] {F : Format κ ν} {resident : Nat → Bool} {depth p : Nat} {path : List Nat}
  {pending : κ × ν} {t' : BTree κ ν} {installed : Bool}

/-- How a split of a leaf ends: in a new root, or with a publication that is a
sequence of moves above the leaves. -/
theorem splitLeaf_cases (hp : p ∈ lv 0) (hlen : path.length = t.height) (hpath : PathAt lv path)
    (hsplit : BTree.splitLeaf F resident depth t p path pending = .ok (t', installed)) :
    ∃ s, splitEntries F pending (t.entries p) = .ok s ∧ installed = s.installed ∧
      ((p = t.root ∧ F.canInsertSeparator [] s.sep ∧
          t' = t.splitStableRoot s.sep (.leaf s.left (t.leftPid t.root) t.next)
            (.leaf s.right (t.next + 1) (t.rightPid t.root))) ∨
        (p ≠ t.root ∧ ∃ before after s', lv 0 = before ++ p :: after ∧
          Moves F 0 (Stage.splitLeaf t lv p before after s) s' ∧ s'.tree = t' ∧
            s'.pend = fun _ => none)) := by
  obtain ⟨entries, left, right, hpage⟩ := h.shaped.exists_leaf hp
  unfold BTree.splitLeaf at hsplit
  simp only [hpage, bind, Except.bind] at hsplit
  rw [BTree.entries_of_leaf hpage]
  split at hsplit
  · cases hsplit
  rename_i s hs
  refine ⟨s, hs, ?_⟩
  split at hsplit
  · rename_i hroot
    subst hroot
    split at hsplit
    · rename_i hfits
      cases hsplit
      refine ⟨rfl, .inl ⟨rfl, hfits, ?_⟩⟩
      have hright := (h.splitRootLeaf hp s.sep s.left s.right).1
      rw [BTree.rightPid_of_leaf hpage] at hright
      rw [BTree.leftPid_of_leaf hpage, BTree.rightPid_of_leaf hpage, hright,
        BTree.updateLeafLeftSibling, if_pos rfl]
    · cases hsplit
  rename_i hroot
  split at hsplit
  · cases hsplit
  rename_i t'' hpublish
  cases hsplit
  obtain ⟨before, after, hlv⟩ := append_of_mem hp
  have hlt := h.shaped.lt_height (Nat.zero_le _) hp hroot
  have hstage := (h.splitLeaf_stage hlv hroot s).1
  have hwaiting : Waiting (Stage.splitLeaf t lv p before after s) 0 p t.next s.sep path :=
    .of_splitOff (s := Stage.rest t lv) hlt hstage (BTree.updateLeafLeftSibling_height ..) hlv
      (fun _ _ => rfl) (hpath.owns hlen)
  rw [← BTree.leftPid_of_leaf hpage, ← BTree.rightPid_of_leaf hpage] at hpublish
  obtain ⟨s', htree, hmoves, hpend, -⟩ := publishLeafSplitToParent_moves
    (splitInner_moves F resident depth) hwaiting hpublish
  refine ⟨rfl, .inr ⟨hroot, before, after, s', hlv, hmoves, htree, ?_⟩⟩
  rw [hpend]
  exact (update_idem ..).trans (update_eq_self_iff.mpr rfl)

omit h [LinearOrder κ] in
/-- The chain of leaves does not change in moves above it. -/
theorem of_moves {s s' : Stage κ ν} (hs : s.Shaped) (hlinked : Linked s.tree 0 (s.lv 0) 0)
    (hmoves : Moves F 0 s s') (hpend : s'.pend = fun _ => none) : WellShaped s'.tree s'.lv := by
  obtain ⟨hs', hframe⟩ := hmoves.shaped hs
  refine ⟨hpend ▸ hs', ?_⟩
  rw [hframe.lv 0 le_rfl]
  exact hlinked.of_pages (hframe.pages 0 le_rfl)

theorem splitLeaf (hp : p ∈ lv 0) (hlen : path.length = t.height) (hpath : PathAt lv path)
    (hsplit : BTree.splitLeaf F resident depth t p path pending = .ok (t', installed)) :
    ∃ lv', WellShaped t' lv' := by
  obtain ⟨s, -, -, hcase⟩ := h.splitLeaf_cases hp hlen hpath hsplit
  rcases hcase with ⟨rfl, -, rfl⟩ | ⟨hroot, before, after, s', hlv, hmoves, rfl, hpend⟩
  · exact ⟨_, (h.splitRootLeaf hp s.sep s.left s.right).2⟩
  · obtain ⟨hstage, hlinked, -⟩ := h.splitLeaf_stage hlv hroot s
    refine ⟨_, of_moves hstage ?_ hmoves hpend⟩
    exact hlinked

end

end WellShaped

theorem writeLoop_wellShaped [LinearOrder κ] {F : Format κ ν} {resident : Nat → Bool}
    {tryLeaf : List (κ × ν) → Option (List (κ × ν) × Bool)} {pending : κ × ν} {fuel attempts : Nat}
    {t' : BTree κ ν} {result : Bool} (h : WellShaped t lv)
    (hwrite : BTree.writeLoop F resident tryLeaf pending fuel attempts t = .ok (t', result)) :
    ∃ lv', WellShaped t' lv' := by
  induction fuel generalizing t lv attempts with
  | zero => cases hwrite
  | succ fuel ih =>
    unfold BTree.writeLoop at hwrite
    split at hwrite
    · cases hwrite
      exact ⟨lv, h.setEntries (h.findLeaf pending.1) _⟩
    split at hwrite
    · exact ih h hwrite
    rename_i path leaf hfind
    obtain ⟨hleaf, hlen, hpath⟩ := h.findLeafForWrite hfind
    split at hwrite
    · cases hwrite
      exact ⟨lv, h.setEntries hleaf _⟩
    simp only [bind, Except.bind] at hwrite
    split at hwrite
    · cases hwrite
    rename_i outcome hsplit
    obtain ⟨lv', h'⟩ := h.splitLeaf hleaf hlen hpath hsplit
    split at hwrite
    · cases hwrite
      exact ⟨lv', h'⟩
    · exact ih h' hwrite

end

end Pagebox.Btree
