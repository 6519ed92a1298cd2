import Pagebox.Btree.WriteShape

/-!
# Removals keep the shape

A merge takes one page out of its level and out of its parent; a merge of inner
pages follows the path upwards and leaves the levels below alone.  The left link
behind a merged leaf is written after all of this.
-/

namespace Pagebox.Btree

open Pagebox.Base Function List

variable {κ ν : Type} {F : Format κ ν}

/-! ## Choosing a pair -/

theorem mergeChoice_spec {resident : Nat → Bool} {children : List Nat} {fits : Nat → Bool}
    {pos i : Nat} (hpos : pos < children.length)
    (h : mergeChoice resident children fits pos = some i) :
    i + 1 < children.length ∧ fits i ∧ (i = pos ∨ i + 1 = pos) := by
  have hleft : ∀ {j : Nat}, (if 0 < pos ∧ resident (children.getD (pos - 1) 0) ∧ fits (pos - 1) then
      some (pos - 1) else none) = some j → j + 1 < children.length ∧ fits j ∧
        (j = pos ∨ j + 1 = pos) := by
    intro j hj
    split at hj
    · rename_i hcond
      cases hj
      exact ⟨by omega, hcond.2.2, by omega⟩
    · cases hj
  simp only [mergeChoice] at h
  split at h
  · rename_i hlt
    split at h
    · split at h
      · rename_i hfits
        cases h
        exact ⟨hlt, hfits, .inl rfl⟩
      · exact hleft h
    · cases h
  · exact hleft h

theorem exists_pair {l : List Nat} {i : Nat} (h : i + 1 < l.length) :
    ∃ before after, l = before ++ l.getD i 0 :: l.getD (i + 1) 0 :: after ∧ before.length = i := by
  obtain ⟨before, a, rest, rfl, rfl⟩ := exists_split_of_lt (Nat.lt_of_succ_lt h)
  obtain ⟨b, after, rfl⟩ := exists_cons_of_ne_nil (l := rest) (by
    rintro rfl
    simp at h)
  refine ⟨before, after, ?_, rfl⟩
  simp [List.getD_eq_getElem?_getD]

structure Untouched (k : Nat) (t : BTree κ ν) (lv : Nat → List Nat) (t' : BTree κ ν)
    (lv' : Nat → List Nat) : Prop where
  root : t'.root = t.root
  levels : ∀ j ≤ k, lv' j = lv j
  pages : ∀ j ≤ k, ∀ q ∈ lv j, t'.pages q = t.pages q

namespace Untouched

variable {k : Nat} {t t' t'' : BTree κ ν} {lv lv' lv'' : Nat → List Nat}

theorem refl : Untouched k t lv t lv := ⟨rfl, fun _ _ => rfl, fun _ _ _ _ => rfl⟩

theorem mono {k' : Nat} (hk : k' ≤ k) (h : Untouched k t lv t' lv') : Untouched k' t lv t' lv' :=
  ⟨h.root, fun j hj => h.levels j (hj.trans hk), fun j hj => h.pages j (hj.trans hk)⟩

theorem trans (h : Untouched k t lv t' lv') (h' : Untouched k t' lv' t'' lv'') :
    Untouched k t lv t'' lv'' where
  root := h'.root.trans h.root
  levels j hj := (h'.levels j hj).trans (h.levels j hj)
  pages j hj q hq := (h'.pages j hj q (h.levels j hj ▸ hq)).trans (h.pages j hj q hq)

end Untouched

section

variable {t : BTree κ ν} {lv : Nat → List Nat}

theorem BTree.unlinkMerged_ok {parent pos : Nat} {slots : List (κ × Nat)} {upper : Nat}
    {key : Option κ} {node : Node κ ν} (hpage : t.pages parent = .inner slots upper)
    (hpos : pos + 1 < (t.children parent).length)
    (h : unlinkMerged F (t.slots parent) (t.upper parent) pos (t.child parent pos) key = .ok node) :
    ∃ E G, t.children parent = E ++ t.child parent pos :: t.child parent (pos + 1) :: G ∧
      E.length = pos ∧ node.children = E ++ t.child parent pos :: G := by
  obtain ⟨E, G, hchildren, hE⟩ := exists_pair hpos
  refine ⟨E, G, hchildren, hE, ?_⟩
  rw [BTree.slots_of_inner hpage, BTree.upper_of_inner hpage] at h
  exact children_unlinkMerged hE ((BTree.children_of_inner hpage).symm.trans hchildren) h

theorem Shaped.mergeInnerAt (h : Shaped t lv fun _ => none) {k parent pos : Nat}
    (hk : k + 1 < t.height) (hparent : parent ∈ lv (k + 2))
    (hpos : pos + 1 < (t.children parent).length) {t' : BTree κ ν}
    (hmerge : BTree.mergeInnerAt F t parent pos = .ok t') :
    ∃ A B, lv (k + 1) = A ++ t.child parent pos :: t.child parent (pos + 1) :: B ∧
      Shaped t' (update lv (k + 1) (A ++ t.child parent pos :: B)) (fun _ => none) ∧
      Untouched k t lv t' (update lv (k + 1) (A ++ t.child parent pos :: B)) ∧
      t'.height = t.height ∧ t.child parent pos ∈ t'.children parent := by
  obtain ⟨slots, upper, hpage⟩ := h.exists_inner hk hparent
  unfold BTree.mergeInnerAt at hmerge
  split at hmerge
  · cases hmerge
  rename_i slot hslot
  simp only [bind, Except.bind] at hmerge
  split at hmerge
  · cases hmerge
  rename_i node hunlink
  cases hmerge
  obtain ⟨E, G, hchildren, -, hnode⟩ := BTree.unlinkMerged_ok hpage hpos hunlink
  have hmem : ∀ c ∈ t.children parent, c ∈ lv (k + 1) := fun c hc =>
    (h.edges (k + 1) hk).subset (mem_flatMap.mpr ⟨parent, hparent, hc⟩)
  have hleft := hmem (t.child parent pos) (by rw [hchildren]; simp)
  have hright := hmem (t.child parent (pos + 1)) (by rw [hchildren]; simp)
  obtain ⟨lslots, lupper, hlpage⟩ := h.exists_inner (Nat.lt_of_succ_lt hk) hleft
  obtain ⟨rslots, rupper, hrpage⟩ := h.exists_inner (Nat.lt_of_succ_lt hk) hright
  have hmerged : (Node.inner (mergedSlots (t.slots (t.child parent pos))
      (t.upper (t.child parent pos)) slot.1 (t.slots (t.child parent (pos + 1))))
      (t.upper (t.child parent (pos + 1))) : Node κ ν).children =
      t.children (t.child parent pos) ++ t.children (t.child parent (pos + 1)) := by
    rw [BTree.slots_of_inner hlpage, BTree.upper_of_inner hlpage,
      BTree.slots_of_inner hrpage, BTree.upper_of_inner hrpage,
      BTree.children_of_inner hlpage, BTree.children_of_inner hrpage]
    simp [mergedSlots]
  obtain ⟨A, B, hlv, hshaped⟩ := h.merge hk rfl hparent hchildren hnode hmerged
    fun hzero => absurd hzero (Nat.succ_ne_zero k)
  refine ⟨A, B, hlv, hshaped, ⟨rfl, fun j hj => update_of_ne (by omega) _ _, ?_⟩, rfl, ?_⟩
  · intro j hj q hq
    change ((t.mergeInnerPair parent pos slot.1).write parent node).pages q = t.pages q
    rw [BTree.pages_write_of_ne (h.ne_of_level (by omega) hk hq hparent (by omega)),
      BTree.mergeInnerPair,
      BTree.pages_write_of_ne (h.ne_of_level (by omega) (by omega) hq hleft (by omega))]
  · change _ ∈ ((t.mergeInnerPair parent pos slot.1).write parent node).children parent
    rw [BTree.children_write, update_self, hnode]
    simp

theorem Shaped.children_of_slots_nil {pend : Nat → Option (Nat × Nat)} (h : Shaped t lv pend)
    {i p c : Nat} (hi : i < t.height) (hp : p ∈ lv (i + 1)) (hslots : t.slots p = [])
    (hc : c ∈ t.children p) : t.children p = [c] := by
  obtain ⟨slots, upper, hpage⟩ := h.exists_inner hi hp
  rw [BTree.slots_of_inner hpage] at hslots
  rw [BTree.children_of_inner hpage, hslots] at hc ⊢
  have heq : c = upper := by simpa using hc
  rw [heq]
  rfl

theorem Shaped.childEdge_lt {pend : Nat → Option (Nat × Nat)} (h : Shaped t lv pend)
    {i p c pos : Nat} (hi : i < t.height) (hp : p ∈ lv (i + 1))
    (hedge : childEdge (t.slots p) (t.upper p) c = some pos) : pos < (t.children p).length := by
  obtain ⟨slots, upper, hpage⟩ := h.exists_inner hi hp
  rw [BTree.slots_of_inner hpage, BTree.upper_of_inner hpage] at hedge
  rw [BTree.children_of_inner hpage]
  exact Btree.childEdge_lt hedge

/-- The pages of a path are on consecutive levels, from `k` up. -/
def PathFrom (lv : Nat → List Nat) (k : Nat) (path : List Nat) : Prop :=
  ∀ j q, path[j]? = some q → q ∈ lv (j + k)

theorem PathFrom.tail {k parent : Nat} {path : List Nat} (h : PathFrom lv k (parent :: path)) :
    PathFrom lv (k + 1) path := by
  intro j q hq
  have hmem := h (j + 1) q (by simpa using hq)
  rwa [show j + 1 + k = j + (k + 1) by omega] at hmem

theorem PathFrom.update {k i : Nat} {path : List Nat} (h : PathFrom lv k path) (hi : i < k)
    (l : List Nat) : PathFrom (update lv i l) k path := by
  intro j q hq
  rw [update_of_ne (by omega)]
  exact h j q hq

/-- Merging inner pages along the path changes nothing at level `k` or below. -/
theorem Shaped.tryMergeInnerWithPath (h : Shaped t lv fun _ => none) {resident : Nat → Bool}
    {k node : Nat} {path : List Nat} (hpath : PathFrom lv (k + 2) path)
    (hlen : k + 1 + path.length ≤ t.height) {t' : BTree κ ν}
    (hmerge : BTree.tryMergeInnerWithPath F resident path t node = .ok t') :
    ∃ lv', Shaped t' lv' (fun _ => none) ∧ Untouched k t lv t' lv' := by
  induction path generalizing t lv k node with
  | nil =>
    cases hmerge
    exact ⟨lv, h, .refl⟩
  | cons parent path ih =>
    have hparent : parent ∈ lv (k + 2) := by simpa using hpath 0 parent rfl
    simp only [length_cons] at hlen
    unfold BTree.tryMergeInnerWithPath at hmerge
    split at hmerge
    · cases hmerge
      exact ⟨lv, h, .refl⟩
    rename_i pos hedge
    have hpos := h.childEdge_lt (by omega) hparent hedge
    split at hmerge
    · cases hmerge
      exact ⟨lv, h, .refl⟩
    rename_i i hchoice
    obtain ⟨hi, -, -⟩ := mergeChoice_spec hpos hchoice
    simp only [bind, Except.bind] at hmerge
    split at hmerge
    · cases hmerge
    rename_i t₁ hat
    obtain ⟨A, B, hlv, h₁, hkept, hheight, hmem⟩ := h.mergeInnerAt (by omega) hparent hi hat
    have hparent₁ : parent ∈ update lv (k + 1) (A ++ t.child parent i :: B) (k + 2) := by
      rwa [update_of_ne (by omega)]
    split at hmerge
    · rename_i hroot
      split at hmerge
      · rename_i hslots
        cases hmerge
        have htop : k + 2 = t.height := h.apart _ _ parent (by omega) le_rfl hparent
          (hroot ▸ h.root_mem)
        have hchildren := h₁.children_of_slots_nil (by omega) hparent₁ hslots hmem
        have honly : t₁.children t₁.root = [t.child parent i] := by
          rwa [hkept.root, ← hroot]
        obtain ⟨-, h₂⟩ := h₁.collapse (k := k + 1) (by omega) rfl honly
        refine ⟨_, h₂, hkept.trans ⟨rfl, ?_, ?_⟩⟩
        · exact fun j hj => update_of_ne (by omega) _ _
        · intro j hj q hq
          exact BTree.pages_write_of_ne (h₁.ne_root (by omega) hq) _
      · cases hmerge
        exact ⟨_, h₁, hkept⟩
    split at hmerge
    · obtain ⟨lv', h', hkept'⟩ := ih h₁ (k := k + 1) (hpath.tail.update (by omega) _)
        (by omega) hmerge
      exact ⟨lv', h', hkept.trans (hkept'.mono (Nat.le_succ k))⟩
    · cases hmerge
      exact ⟨_, h₁, hkept⟩

/-! ## Merging two leaves -/

/-- Two leaves were merged into `p`, and the left link behind them is not written. -/
structure Halfway (t : BTree κ ν) (lv : Nat → List Nat) (p prev : Nat) (before after : List Nat) :
    Prop where
  shaped : Shaped t lv fun _ => none
  level : lv 0 = before ++ p :: after
  front : Linked t 0 (before ++ [p]) (after.headD 0)
  back : Linked t prev after 0

theorem Halfway.relink {p prev : Nat} {before after : List Nat}
    (h : Halfway t lv p prev before after) :
    WellShaped (t.updateLeafLeftSibling (after.headD 0) p) lv := by
  have hmem : ∀ x ∈ after, x ∈ lv 0 := fun x hx => by simp [h.level, hx]
  have hsucc : after.headD 0 = 0 ∨ after.headD 0 ∈ lv 0 := by
    cases after with
    | nil => exact .inl rfl
    | cons r rest => exact .inr (hmem r (by simp))
  refine ⟨h.shaped.updateLeafLeftSibling hsucc p, ?_⟩
  rw [h.level]
  refine h.front.relink h.back (h.level ▸ h.shaped.nodup 0 (Nat.zero_le _)) ?_
    fun x hx => h.shaped.leaves x (hmem x hx)
  exact fun hzero => absurd (h.shaped.bounds 0 (Nat.zero_le _) 0 (hmem 0 hzero)).1 (Nat.lt_irrefl 0)

theorem Halfway.of_untouched {p prev : Nat} {before after : List Nat}
    (h : Halfway t lv p prev before after) {t' : BTree κ ν} {lv' : Nat → List Nat}
    (hshaped : Shaped t' lv' fun _ => none) (hkept : Untouched 0 t lv t' lv') :
    Halfway t' lv' p prev before after where
  shaped := hshaped
  level := (hkept.levels 0 le_rfl).trans h.level
  front := h.front.of_pages fun x hx => hkept.pages 0 le_rfl x (by
    rw [h.level]
    simp only [mem_append, mem_cons, not_mem_nil, or_false] at hx ⊢
    tauto)
  back := h.back.of_pages fun x hx => hkept.pages 0 le_rfl x (by simp [h.level, hx])

theorem Halfway.collapse {p prev : Nat} {before after : List Nat}
    (h : Halfway t lv p prev before after) (hheight : t.height = 1)
    (hroot : t.children t.root = [p]) :
    after = [] ∧ WellShaped (t.collapseEmptyRootToChild p) (update lv 0 [t.root]) := by
  obtain ⟨hlv, hshaped⟩ := h.shaped.collapse (k := 0) hheight rfl hroot
  rw [h.level] at hlv
  have hshort : before = [] ∧ after = [] := by
    have hlen := congrArg List.length hlv
    simp only [length_append, length_cons, length_nil] at hlen
    exact ⟨length_eq_zero_iff.mp (by omega), length_eq_zero_iff.mp (by omega)⟩
  obtain ⟨rfl, rfl⟩ := hshort
  refine ⟨rfl, hshaped, ?_⟩
  obtain ⟨hleft, hright, -⟩ := h.front
  have hpage : (t.collapseEmptyRootToChild p).pages t.root = t.pages p := BTree.pages_write_self _
  exact ⟨by rw [BTree.leftPid, hpage]; exact hleft, by rw [BTree.rightPid, hpage]; exact hright,
    trivial⟩

theorem WellShaped.mergeLeafAt (h : WellShaped t lv) {parent pos : Nat} (hheight : 0 < t.height)
    (hparent : parent ∈ lv 1) (hpos : pos + 1 < (t.children parent).length) {t' : BTree κ ν}
    (hmerge : BTree.mergeLeafAt F t parent pos = .ok t') :
    ∃ A B, lv 0 = A ++ t.child parent pos :: t.child parent (pos + 1) :: B ∧
      Halfway t' (update lv 0 (A ++ t.child parent pos :: B)) (t.child parent pos)
        (t.child parent (pos + 1)) A B ∧
      t.rightPid (t.child parent (pos + 1)) = B.headD 0 ∧
      t'.root = t.root ∧ t'.height = t.height ∧ t.child parent pos ∈ t'.children parent := by
  obtain ⟨slots, upper, hpage⟩ := h.shaped.exists_inner hheight hparent
  simp only [BTree.mergeLeafAt, bind, Except.bind] at hmerge
  split at hmerge
  · cases hmerge
  rename_i node hunlink
  cases hmerge
  obtain ⟨E, G, hchildren, -, hnode⟩ := BTree.unlinkMerged_ok hpage hpos hunlink
  have hmem : ∀ c ∈ t.children parent, c ∈ lv 0 := fun c hc =>
    (h.shaped.edges 0 hheight).subset (mem_flatMap.mpr ⟨parent, hparent, hc⟩)
  generalize hp : t.child parent pos = p at *
  generalize hq : t.child parent (pos + 1) = q at *
  have hpmem := hmem p (by rw [hchildren]; simp)
  have hqmem := hmem q (by rw [hchildren]; simp)
  have hmerged : (Node.leaf (t.entries p ++ t.entries q) (t.leftPid p) (t.rightPid q)).children =
      t.children p ++ t.children q := by
    rw [h.shaped.leaf p hpmem, h.shaped.leaf q hqmem]
    rfl
  obtain ⟨A, B, hlv, hshaped⟩ := h.shaped.merge hheight rfl hparent hchildren hnode hmerged
    fun _ => rfl
  have hlinked := h.linked
  rw [hlv, linked_append] at hlinked
  obtain ⟨hfront, hleft, -, -, hright, hback⟩ := hlinked
  have hnodup := h.shaped.nodup 0 (Nat.zero_le _)
  rw [hlv] at hnodup
  obtain ⟨-, hpq, hcross⟩ := nodup_append.mp hnodup
  have hpages : ((t.mergeLeafPair parent pos).unlink parent node).pages =
      ((t.write p (.leaf (t.entries p ++ t.entries q) (t.leftPid p) (t.rightPid q))).write parent
        node).pages := by rw [BTree.mergeLeafPair, hp, hq]; rfl
  have hother : ∀ x ∈ lv 0, x ≠ p →
      ((t.mergeLeafPair parent pos).unlink parent node).pages x = t.pages x := by
    intro x hx hxp
    rw [hpages, BTree.pages_write_of_ne (h.shaped.ne_of_level (Nat.zero_le _) hheight hx hparent
      (by omega)), BTree.pages_write_of_ne hxp]
  have hself : ((t.mergeLeafPair parent pos).unlink parent node).pages p =
      .leaf (t.entries p ++ t.entries q) (t.leftPid p) (t.rightPid q) := by
    rw [hpages, BTree.pages_write_of_ne (h.shaped.ne_of_level (Nat.zero_le _) hheight hpmem hparent
      (by omega)), BTree.pages_write_self]
  refine ⟨A, B, hlv, ⟨?_, update_self .., ?_, ?_⟩, hright, rfl, rfl, ?_⟩
  · rw [BTree.mergeLeafPair, hp, hq]
    exact hshaped
  · rw [linked_append]
    refine ⟨hfront.of_pages fun x hx => hother x (by simp [hlv, hx]) ?_, ?_, ?_, trivial⟩
    · exact fun heq => hcross x hx p (by simp) heq
    · rw [BTree.leftPid_of_leaf hself, hleft]
    · rw [BTree.rightPid_of_leaf hself, hright]
      rfl
  · refine hback.of_pages fun x hx => hother x (by simp [hlv, hx]) ?_
    exact fun heq => (nodup_cons.mp hpq).1 (by simp [← heq, hx])
  · change _ ∈ ((t.mergeLeafPair parent pos).write parent node).children parent
    rw [BTree.children_write, update_self, hnode]
    simp

/-! ## The whole removal -/

variable [LinearOrder κ] {resident : Nat → Bool}

theorem WellShaped.tryMergeLeafWithPath (h : WellShaped t lv) {leaf : Nat} {path : List Nat}
    (hpath : PathAt lv path) (hlen : path.length = t.height) {t' : BTree κ ν} {merged : Bool}
    (hmerge : BTree.tryMergeLeafWithPath F resident path t leaf = .ok (t', merged)) :
    (∃ lv', WellShaped t' lv') ∧ (merged = false → t' = t) := by
  cases path with
  | nil =>
    cases hmerge
    exact ⟨⟨lv, h⟩, fun _ => rfl⟩
  | cons parent path =>
    have hparent : parent ∈ lv 1 := hpath 0 parent rfl
    simp only [length_cons] at hlen
    unfold BTree.tryMergeLeafWithPath at hmerge
    simp only at hmerge
    split at hmerge
    · cases hmerge
      exact ⟨⟨lv, h⟩, fun _ => rfl⟩
    rename_i pos hedge
    have hpos := h.shaped.childEdge_lt (by omega) hparent hedge
    split at hmerge
    · cases hmerge
      exact ⟨⟨lv, h⟩, fun _ => rfl⟩
    rename_i i hchoice
    obtain ⟨hi, -, -⟩ := mergeChoice_spec hpos hchoice
    simp only [bind, Except.bind] at hmerge
    split at hmerge
    · cases hmerge
    rename_i t₁ hat
    obtain ⟨A, B, hlv, hhalf, hright, hroot₁, hheight, hmem⟩ :=
      h.mergeLeafAt (by omega) hparent hi hat
    have hparent₁ : parent ∈ update lv 0 (A ++ t.child parent i :: B) 1 := by
      rwa [update_of_ne (by omega)]
    rw [hright] at hmerge
    split at hmerge
    · rename_i hroot
      split at hmerge
      · rename_i hslots
        cases hmerge
        refine ⟨?_, nofun⟩
        have htop : 1 = t.height := h.shaped.apart _ _ parent (by omega) le_rfl hparent
          (hroot ▸ h.shaped.root_mem)
        have hchildren := hhalf.shaped.children_of_slots_nil (by omega) hparent₁ hslots hmem
        have honly : t₁.children t₁.root = [t.child parent i] := by rwa [hroot₁, ← hroot]
        obtain ⟨rfl, hshaped⟩ := hhalf.collapse (by omega) honly
        exact ⟨_, hshaped⟩
      · cases hmerge
        exact ⟨⟨_, hhalf.relink⟩, nofun⟩
    split at hmerge
    · split at hmerge
      · cases hmerge
      rename_i t₂ hinner
      cases hmerge
      have hpath' : PathFrom lv 1 (parent :: path) := hpath
      obtain ⟨lv₂, h₂, hkept⟩ := hhalf.shaped.tryMergeInnerWithPath (k := 0)
        (hpath'.tail.update (by omega) _) (by omega) hinner
      exact ⟨⟨lv₂, (hhalf.of_untouched h₂ hkept).relink⟩, nofun⟩
    · cases hmerge
      exact ⟨⟨_, hhalf.relink⟩, nofun⟩

omit [LinearOrder κ] in
theorem WellShaped.setSeparator (h : WellShaped t lv) {i parent pos : Nat} {key : κ}
    (hi : i < t.height) (hparent : parent ∈ lv (i + 1)) {slots : List (κ × Nat)}
    (hset : setSeparatorKey F (t.slots parent) pos key = .ok slots) :
    WellShaped (t.write parent (.inner slots (t.upper parent))) lv := by
  obtain ⟨slots', upper, hpage⟩ := h.shaped.exists_inner hi hparent
  have hedges : slots.map Prod.snd = (t.slots parent).map Prod.snd := by
    obtain ⟨before, old, child, after, hslots, -, -, rfl⟩ := setSeparatorKey_eq_ok hset
    simp [hslots]
  refine ⟨h.shaped.write_inner hi hparent ?_, h.linked.of_pages fun x hx => ?_⟩
  · rw [Node.children_inner, hedges, BTree.children_of_inner hpage, BTree.slots_of_inner hpage,
      BTree.upper_of_inner hpage]
  · exact BTree.pages_write_of_ne (h.shaped.ne_of_level (Nat.zero_le _) hi hx hparent (by omega)) _

theorem WellShaped.repairSeparatorsAfterDelete (h : WellShaped t lv) {newMax : Option κ}
    {k child : Nat}
    {path : List Nat} (hpath : PathFrom lv (k + 1) path) (hlen : k + path.length ≤ t.height)
    {t' : BTree κ ν}
    (hrepair : BTree.repairSeparatorsAfterDelete F newMax path t child = .ok t') :
    WellShaped t' lv := by
  induction path generalizing k child with
  | nil =>
    cases hrepair
    exact h
  | cons parent path ih =>
    have hparent : parent ∈ lv (k + 1) := by simpa using hpath 0 parent rfl
    simp only [length_cons] at hlen
    unfold BTree.repairSeparatorsAfterDelete at hrepair
    split at hrepair
    · cases hrepair
      exact h
    split at hrepair
    · split at hrepair
      · cases hrepair
        exact h
      simp only [bind, Except.bind] at hrepair
      split at hrepair
      · cases hrepair
      · rename_i hset
        cases hrepair
        exact h.setSeparator (by omega) hparent hset
    · cases hrepair
      exact h
    · exact ih hpath.tail (by omega) hrepair

theorem WellShaped.rebalanceDeletePath (h : WellShaped t lv) {leaf : Nat} {path : List Nat}
    (hpath : PathAt lv path) (hlen : path.length = t.height) {wasMax : Bool} {newMax : Option κ}
    {t' : BTree κ ν}
    (hrebalance : BTree.rebalanceDeletePath F resident path t leaf wasMax newMax = .ok t') :
    ∃ lv', WellShaped t' lv' := by
  have hfrom : PathFrom lv 1 path := hpath
  unfold BTree.rebalanceDeletePath at hrebalance
  split at hrebalance
  · simp only [bind, Except.bind] at hrebalance
    split at hrebalance
    · cases hrebalance
    rename_i outcome hmerge
    obtain ⟨hshape, hsame⟩ := h.tryMergeLeafWithPath hpath hlen hmerge
    split at hrebalance
    · rename_i hcond
      -- nothing was merged, and the path has lost the parent of the leaf
      rw [hsame (by simpa using (Bool.and_eq_true_iff.mp hcond).2)] at hrebalance
      cases path with
      | nil =>
        cases hrebalance
        exact ⟨lv, h⟩
      | cons parent path =>
        simp only [length_cons] at hlen
        exact ⟨lv, h.repairSeparatorsAfterDelete (k := 1) hfrom.tail (by omega) hrebalance⟩
    · cases hrebalance
      exact hshape
  · split at hrebalance
    · exact ⟨lv, h.repairSeparatorsAfterDelete (k := 0) hfrom (by omega) hrebalance⟩
    · cases hrebalance
      exact ⟨lv, h⟩

theorem WellShaped.removeFrom (h : WellShaped t lv) {key : κ} {leaf : Nat} {path : List Nat}
    (hleaf : leaf ∈ lv 0) (hpath : PathAt lv path) (hlen : path.length = t.height)
    {t' : BTree κ ν} {found : Bool}
    (hremove : BTree.removeFrom F resident t key path leaf = .ok (t', found)) :
    ∃ lv', WellShaped t' lv' := by
  simp only [BTree.removeFrom] at hremove
  split at hremove
  · simp only [bind, Except.bind] at hremove
    split at hremove
    · cases hremove
    · rename_i t₁ hrebalance
      cases hremove
      exact (h.setEntries hleaf _).rebalanceDeletePath hpath hlen hrebalance
  · cases hremove
    exact ⟨lv, h⟩

theorem WellShaped.findLeafForRemove (h : WellShaped t lv) {key : κ} {leaf : Nat} {path : List Nat}
    (hfind : (t.findLeafWithPath key).getD (t.findLeafWithPathFallback key) = (path, leaf)) :
    leaf ∈ lv 0 ∧ PathAt lv path ∧ path.length = t.height := by
  obtain ⟨hleaf, hlen, hpath⟩ := h.shaped.routed key
  unfold BTree.findLeafWithPath at hfind
  simp only at hfind
  split at hfind
  · cases hfind
    exact ⟨h.findLeaf key, hpath, hlen⟩
  · cases hfind
    exact ⟨hleaf, hpath, hlen⟩

theorem WellShaped.remove (h : WellShaped t lv) {key : κ} {t' : BTree κ ν} {found : Bool}
    (hremove : BTree.remove F resident t key = .ok (t', found)) : ∃ lv', WellShaped t' lv' := by
  obtain ⟨hleaf, hpath, hlen⟩ := h.findLeafForRemove rfl
  exact h.removeFrom hleaf hpath hlen hremove

end

end Pagebox.Btree
