import Mathlib.Algebra.BigOperators.Group.Finset.Basic
import Mathlib.Data.List.Nodup
import Mathlib.Logic.Function.Basic

/-!
# Trees by levels

A tree all of whose leaves have the same depth is given by its levels, from the
leaves at level 0 up to the root, and the children of every node.  The children of
the nodes of one level, in order, are the nodes of the level below.  While a node is
being split its new right half is on its level already but has no edge yet; `pend`
says for each level which node waits for one, and behind which node it stands.

The lemmas say what splitting a node, linking the waiting half, merging two
neighbours, and growing or shrinking at the root do to the levels.  Nothing here
names a component.
-/

namespace Pagebox.Base

open Function List

variable {α : Type}

/-- The edges into a level reach its nodes, except for one that waits behind its
left neighbour. -/
def Covers (edges nodes : List α) : Option (α × α) → Prop
  | none => edges = nodes
  | some (p, q) => ∃ before after, edges = before ++ p :: after ∧ nodes = before ++ p :: q :: after

theorem Covers.subset {edges nodes : List α} {c : Option (α × α)} (h : Covers edges nodes c) :
    edges ⊆ nodes := by
  match c with
  | none => exact h ▸ List.Subset.refl _
  | some (p, q) =>
    obtain ⟨before, after, rfl, rfl⟩ := h
    intro x hx
    simp only [mem_append, mem_cons] at hx ⊢
    tauto

theorem Covers.nodup {edges nodes : List α} {c : Option (α × α)} (h : Covers edges nodes c)
    (hnodup : nodes.Nodup) : edges.Nodup := by
  match c with
  | none => exact h ▸ hnodup
  | some (p, q) =>
    obtain ⟨before, after, rfl, rfl⟩ := h
    exact hnodup.sublist (List.Sublist.append_left (.cons_cons p (sublist_cons_self q after)) _)

/-- A tree given by its levels.  A node has children exactly if it is not on level 0. -/
structure Leveled (children : α → List α) (root : α) (height : Nat) (lv : Nat → List α)
    (pend : Nat → Option (α × α)) : Prop where
  top : lv height = [root]
  settled : ∀ i, height ≤ i → pend i = none
  edges : ∀ i < height, Covers ((lv (i + 1)).flatMap children) (lv i) (pend i)
  leaf : ∀ p ∈ lv 0, children p = []
  inner : ∀ i < height, ∀ p ∈ lv (i + 1), children p ≠ []
  apart : ∀ i j p, i ≤ height → j ≤ height → p ∈ lv i → p ∈ lv j → i = j
  nodup : ∀ i ≤ height, (lv i).Nodup

/-- The number of nodes. -/
def size (height : Nat) (lv : Nat → List α) : Nat :=
  ∑ i ∈ Finset.range (height + 1), (lv i).length

theorem size_update {height i : Nat} (lv : Nat → List α) (l : List α) (hi : i ≤ height) :
    size height (update lv i l) + (lv i).length = size height lv + l.length := by
  have hmem : i ∈ Finset.range (height + 1) := Finset.mem_range.mpr (Nat.lt_succ_of_le hi)
  have hrest : ∑ j ∈ (Finset.range (height + 1)).erase i, (update lv i l j).length =
      ∑ j ∈ (Finset.range (height + 1)).erase i, (lv j).length :=
    Finset.sum_congr rfl fun j hj => by
      rw [update_of_ne (Finset.ne_of_mem_erase hj)]
  unfold size
  rw [← Finset.add_sum_erase _ _ hmem, ← Finset.add_sum_erase _ (fun j => (lv j).length) hmem,
    hrest, update_self]
  omega

section

variable {f g : α → List α} {l C D : List α} {r : α}

theorem flatMap_change (hsplit : l = C ++ r :: D) (hnodup : l.Nodup)
    (hsame : ∀ x ∈ l, x ≠ r → g x = f x) :
    l.flatMap g = C.flatMap f ++ (g r ++ D.flatMap f) := by
  subst hsplit
  obtain ⟨-, hrD, hCD⟩ := nodup_append.mp hnodup
  have hC : C.flatMap g = C.flatMap f := flatMap_congr fun x hx =>
    hsame x (by simp [hx]) fun heq => hCD x hx r (by simp) heq
  have hD : D.flatMap g = D.flatMap f := flatMap_congr fun x hx =>
    hsame x (by simp [hx]) fun heq => (nodup_cons.mp hrD).1 (heq ▸ hx)
  rw [flatMap_append, flatMap_cons, hC, hD]

theorem append_cons_unique {A B A' B' : List α} {p : α} (hnodup : (A ++ p :: B).Nodup)
    (h : A ++ p :: B = A' ++ p :: B') : A = A' ∧ B = B' := by
  obtain ⟨-, hpB, hAB⟩ := nodup_append.mp hnodup
  have hA : p ∉ A := fun hp => hAB p hp p (by simp) rfl
  obtain ⟨hleft, -, hright⟩ :=
    (append_cons_inj_of_notMem hA (nodup_cons.mp hpB).1).mp h
  exact ⟨hleft, hright⟩

end

namespace Leveled

variable {children : α → List α} {root : α} {height : Nat} {lv : Nat → List α}
  {pend : Nat → Option (α × α)} (h : Leveled children root height lv pend)

include h

theorem root_mem : root ∈ lv height := by rw [h.top]; exact mem_singleton_self root

theorem child_mem {j : Nat} {p c : α} (hj : j ≤ height) (hp : p ∈ lv j) (hc : c ∈ children p) :
    ∃ i, j = i + 1 ∧ i < height ∧ c ∈ lv i := by
  cases j with
  | zero => rw [h.leaf p hp] at hc; cases hc
  | succ i => exact ⟨i, rfl, hj, (h.edges i hj).subset (mem_flatMap.mpr ⟨p, hp, hc⟩)⟩

theorem parent_mem {i j : Nat} {p c : α} (hj : j ≤ height) (hp : p ∈ lv j) (hc : c ∈ children p)
    (hi : i ≤ height) (hci : c ∈ lv i) : j = i + 1 ∧ i < height := by
  obtain ⟨k, rfl, hk, hck⟩ := h.child_mem hj hp hc
  have hik := h.apart i k c hi hk.le hci hck
  exact ⟨by rw [hik], hik ▸ hk⟩

theorem ne_root {i : Nat} {p : α} (hi : i < height) (hp : p ∈ lv i) : p ≠ root := by
  rintro rfl
  exact hi.ne (h.apart i height p hi.le le_rfl hp h.root_mem)

theorem lt_height {i : Nat} {p : α} (hi : i ≤ height) (hp : p ∈ lv i) (hne : p ≠ root) :
    i < height := by
  refine lt_of_le_of_ne hi fun heq => hne ?_
  rw [heq, h.top] at hp
  exact mem_singleton.mp hp

theorem ne_of_level {i j : Nat} {p q : α} (hi : i ≤ height) (hj : j ≤ height) (hp : p ∈ lv i)
    (hq : q ∈ lv j) (hij : i ≠ j) : p ≠ q := by
  rintro rfl
  exact hij (h.apart i j p hi hj hp hq)

theorem level_ne_nil {i : Nat} (hi : i ≤ height) : lv i ≠ [] := by
  induction hk : height - i generalizing i with
  | zero =>
    obtain rfl : i = height := by omega
    rw [h.top]
    exact cons_ne_nil _ _
  | succ k ih =>
    have hlt : i < height := by omega
    obtain ⟨p, hp⟩ := exists_mem_of_ne_nil _ (ih hlt (by omega))
    obtain ⟨c, hc⟩ := exists_mem_of_ne_nil _ (h.inner i hlt p hp)
    exact ne_nil_of_mem ((h.edges i hlt).subset (mem_flatMap.mpr ⟨p, hp, hc⟩))

/-- One level is replaced, and the edges into it and out of it change accordingly. -/
theorem at_level {i : Nat} (hi : i < height) {children' : α → List α} {l : List α}
    {c : Option (α × α)} (hnodup : l.Nodup)
    (hnew : ∀ p ∈ l, p ∉ lv i → ∀ j ≤ height, p ∉ lv j)
    (hleaf : i = 0 → ∀ p ∈ l, children' p = []) (hinner : 0 < i → ∀ p ∈ l, children' p ≠ [])
    (hother : ∀ j ≤ height, j ≠ i → j ≠ i + 1 → ∀ p ∈ lv j, children' p = children p)
    (hparents : ∀ p ∈ lv (i + 1), children' p ≠ [])
    (hbelow : 0 < i → l.flatMap children' = (lv i).flatMap children)
    (habove : Covers ((lv (i + 1)).flatMap children') l c) :
    Leveled children' root height (update lv i l) (update pend i c) where
  top := by rw [update_of_ne hi.ne']; exact h.top
  settled j hj := by rw [update_of_ne (by omega)]; exact h.settled j hj
  edges j hj := by
    by_cases hji : j = i
    · subst hji
      rw [update_of_ne (by omega), update_self, update_self]
      exact habove
    rw [update_of_ne hji, update_of_ne hji]
    by_cases hj1 : j + 1 = i
    · subst hj1
      rw [update_self, hbelow (Nat.succ_pos j)]
      exact h.edges j hj
    · rw [update_of_ne hj1, flatMap_congr (hother (j + 1) hj hj1 fun heq => hji (by omega))]
      exact h.edges j hj
  leaf p hp := by
    by_cases hzero : 0 = i
    · rw [← hzero, update_self] at hp
      exact hleaf hzero.symm p hp
    · rw [update_of_ne hzero] at hp
      rw [hother 0 (Nat.zero_le _) hzero (by omega) p hp]
      exact h.leaf p hp
  inner j hj p hp := by
    by_cases hj1 : j + 1 = i
    · rw [hj1, update_self] at hp
      exact hinner (by omega) p hp
    · rw [update_of_ne hj1] at hp
      by_cases hji : j = i
      · exact hparents p (hji ▸ hp)
      · rw [hother (j + 1) hj hj1 (by omega) p hp]
        exact h.inner j hj p hp
  apart j k p hj hk hpj hpk := by
    by_cases hji : j = i
    · by_cases hki : k = i
      · rw [hji, hki]
      · rw [hji, update_self] at hpj
        rw [update_of_ne hki] at hpk
        by_cases hold : p ∈ lv i
        · exact absurd (h.apart i k p hi.le hk hold hpk) (by omega)
        · exact absurd hpk (hnew p hpj hold k hk)
    rw [update_of_ne hji] at hpj
    by_cases hki : k = i
    · rw [hki, update_self] at hpk
      by_cases hold : p ∈ lv i
      · exact absurd (h.apart j i p hj hi.le hpj hold) hji
      · exact absurd hpj (hnew p hpk hold j hj)
    · rw [update_of_ne hki] at hpk
      exact h.apart j k p hj hk hpj hpk
  nodup j hj := by
    by_cases hji : j = i
    · rw [hji, update_self]
      exact hnodup
    · rw [update_of_ne hji]
      exact h.nodup j hj

/-- A node is split: its children are divided among it and a new node behind it. -/
theorem split {i : Nat} {p q : α} {A B : List α} (hi : i < height) (hlv : lv i = A ++ p :: B)
    (hpend : pend i = none) (hq : ∀ j ≤ height, q ∉ lv j) {children' : α → List α}
    (hsame : ∀ x, x ≠ p → x ≠ q → children' x = children x)
    (hparts : children' p ++ children' q = children p)
    (hne : 0 < i → children' p ≠ [] ∧ children' q ≠ []) :
    Leveled children' root height (update lv i (A ++ p :: q :: B))
      (update pend i (some (p, q))) := by
  have hpi : p ∈ lv i := by simp [hlv]
  have hnodup := h.nodup i hi.le
  rw [hlv] at hnodup
  have hdiff : ∀ j ≤ height, j ≠ i → ∀ x ∈ lv j, children' x = children x := by
    intro j hj hji x hx
    refine hsame x (h.ne_of_level hj hi.le hx hpi hji) ?_
    rintro rfl
    exact hq j hj hx
  have hmem : ∀ x ∈ A ++ p :: q :: B, x = p ∨ x = q ∨ (x ∈ lv i ∧ children' x = children x) := by
    intro x hx
    by_cases hxp : x = p
    · exact .inl hxp
    · by_cases hxq : x = q
      · exact .inr (.inl hxq)
      · refine .inr (.inr ⟨?_, hsame x hxp hxq⟩)
        rw [hlv]
        simpa [hxp, hxq] using hx
  refine h.at_level hi ?_ ?_ ?_ ?_ (fun j hj hji _ => hdiff j hj hji) ?_ ?_ ?_
  · have hqi := hq i hi.le
    rw [hlv] at hqi
    have hperm : (A ++ p :: q :: B).Perm (q :: (A ++ p :: B)) := by
      rw [append_cons A p (q :: B), append_cons A p B]
      exact perm_middle
    exact hperm.nodup_iff.mpr (nodup_cons.mpr ⟨hqi, hnodup⟩)
  · intro x hx hxi j hj
    rcases hmem x hx with rfl | rfl | ⟨hold, -⟩
    · exact absurd hpi hxi
    · exact hq j hj
    · exact absurd hold hxi
  · rintro rfl x hx
    have hnil : children' p = [] ∧ children' q = [] := by
      rw [h.leaf p hpi] at hparts
      exact append_eq_nil_iff.mp hparts
    rcases hmem x hx with rfl | rfl | ⟨hold, heq⟩
    · exact hnil.1
    · exact hnil.2
    · rw [heq]
      exact h.leaf x hold
  · intro hpos x hx
    obtain ⟨k, rfl⟩ := Nat.exists_eq_add_one.mpr hpos
    rcases hmem x hx with rfl | rfl | ⟨hold, heq⟩
    · exact (hne hpos).1
    · exact (hne hpos).2
    · rw [heq]
      exact h.inner k (Nat.lt_of_succ_lt hi) x hold
  · intro x hx
    rw [hdiff (i + 1) hi (by omega) x hx]
    exact h.inner i hi x hx
  · intro _
    have hrest : ∀ x ∈ A ++ B, children' x = children x := by
      intro x hx
      refine hsame x ?_ ?_
      · rintro rfl
        exact (nodup_middle.mp hnodup).notMem hx
      · rintro rfl
        exact hq i hi.le (by rw [hlv]; simp only [mem_append, mem_cons] at hx ⊢; tauto)
    have hA := flatMap_congr fun x hx => hrest x (mem_append_left B hx)
    have hB := flatMap_congr fun x hx => hrest x (mem_append_right A hx)
    simp only [hlv, flatMap_append, flatMap_cons, hA, hB, ← hparts, append_assoc]
  · have hedges := h.edges i hi
    rw [hpend, hlv, ← flatMap_congr (hdiff (i + 1) hi (by omega))] at hedges
    exact ⟨A, B, hedges, rfl⟩

/-- The waiting node gets its edge, behind the edge of its left neighbour. -/
theorem link {i : Nat} {p q r : α} {E G : List α} (hi : i < height)
    (hpend : pend i = some (p, q)) (hr : r ∈ lv (i + 1)) (hchild : children r = E ++ p :: G)
    {children' : α → List α} (hsame : ∀ x, x ≠ r → children' x = children x)
    (hr' : children' r = E ++ p :: q :: G) :
    Leveled children' root height lv (update pend i none) := by
  have hdiff : ∀ j ≤ height, j ≠ i + 1 → ∀ x ∈ lv j, children' x = children x :=
    fun j hj hji x hx => hsame x (h.ne_of_level hj hi hx hr hji)
  have hlevel : ∀ x ∈ lv i, children' x = children x := hdiff i hi.le (by omega)
  have hresult := h.at_level hi (c := none) (h.nodup i hi.le) (fun x hx hxi => absurd hx hxi)
    (fun hzero x hx => by rw [hlevel x hx]; exact h.leaf x (hzero ▸ hx)) ?_
    (fun j hj _ hji => hdiff j hj hji) ?_ (fun _ => flatMap_congr hlevel) ?_
  · rwa [update_eq_self] at hresult
  · intro hpos x hx
    obtain ⟨k, rfl⟩ := Nat.exists_eq_add_one.mpr hpos
    rw [hlevel x hx]
    exact h.inner k (Nat.lt_of_succ_lt hi) x hx
  · intro x hx
    by_cases hxr : x = r
    · rw [hxr, hr']
      simp
    · rw [hsame x hxr]
      exact h.inner i hi x hx
  have hedges := h.edges i hi
  have hnodup := hedges.nodup (h.nodup i hi.le)
  rw [hpend] at hedges
  obtain ⟨before, after, hbefore, hnodes⟩ := hedges
  obtain ⟨C, D, hsplit⟩ := append_of_mem hr
  have hold : (lv (i + 1)).flatMap children = C.flatMap children ++ E ++
      p :: (G ++ D.flatMap children) := by
    rw [hsplit, flatMap_append, flatMap_cons, hchild]
    simp
  rw [hbefore] at hold hnodup
  obtain ⟨rfl, rfl⟩ := append_cons_unique hnodup hold
  rw [Covers, flatMap_change hsplit (h.nodup _ hi) fun x _ hx => hsame x hx, hr', hnodes]
  simp

/-- Two neighbours under one parent are merged into the left one. -/
theorem merge {i : Nat} {p q r : α} {E G : List α} (hi : i < height) (hpend : pend i = none)
    (hr : r ∈ lv (i + 1)) (hchild : children r = E ++ p :: q :: G) {children' : α → List α}
    (hsame : ∀ x, x ≠ r → x ≠ p → children' x = children x) (hr' : children' r = E ++ p :: G)
    (hp' : children' p = children p ++ children q) :
    ∃ A B, lv i = A ++ p :: q :: B ∧
      Leveled children' root height (update lv i (A ++ p :: B)) pend := by
  have hedges := h.edges i hi
  rw [hpend] at hedges
  obtain ⟨C, D, hsplit⟩ := append_of_mem hr
  have hlv : lv i = C.flatMap children ++ E ++ p :: q :: (G ++ D.flatMap children) := by
    rw [← hedges, hsplit, flatMap_append, flatMap_cons, hchild]
    simp
  refine ⟨_, _, hlv, ?_⟩
  have hnodup := h.nodup i hi.le
  have hpi : p ∈ lv i := by rw [hlv]; simp
  have hdiff : ∀ j ≤ height, j ≠ i → j ≠ i + 1 → ∀ x ∈ lv j, children' x = children x :=
    fun j hj hji hji' x hx =>
      hsame x (h.ne_of_level hj hi hx hr hji') (h.ne_of_level hj hi.le hx hpi hji)
  have habove : (lv (i + 1)).flatMap children' =
      C.flatMap children ++ E ++ p :: (G ++ D.flatMap children) := by
    rw [flatMap_change hsplit (h.nodup _ hi) fun x hx hxr =>
      hsame x hxr (h.ne_of_level hi hi.le hx hpi (by omega)), hr']
    simp
  rw [hlv] at hnodup
  generalize hA : C.flatMap children ++ E = A at hlv hnodup habove ⊢
  generalize hB : G ++ D.flatMap children = B at hlv hnodup habove ⊢
  have hsub : List.Sublist (A ++ p :: B) (A ++ p :: q :: B) :=
    List.Sublist.append_left (.cons_cons p (sublist_cons_self q B)) A
  have hmem : ∀ x ∈ A ++ p :: B, x = p ∨ (x ∈ lv i ∧ children' x = children x) := by
    intro x hx
    by_cases hxp : x = p
    · exact .inl hxp
    · have hxi : x ∈ lv i := hlv ▸ hsub.subset hx
      exact .inr ⟨hxi, hsame x (h.ne_of_level hi.le hi hxi hr (by omega)) hxp⟩
  have hresult := h.at_level hi (c := none) (hnodup.sublist hsub)
    (fun x hx hxi => absurd (hlv ▸ hsub.subset hx) hxi) ?_ ?_ hdiff ?_ ?_ habove
  · have hsettled : update pend i none = pend := update_eq_self_iff.mpr hpend.symm
    rwa [hsettled] at hresult
  · rintro rfl x hx
    rcases hmem x hx with rfl | ⟨hold, heq⟩
    · rw [hp', h.leaf _ hpi, h.leaf q (by rw [hlv]; simp), append_nil]
    · rw [heq]
      exact h.leaf x hold
  · intro hpos x hx
    obtain ⟨k, rfl⟩ := Nat.exists_eq_add_one.mpr hpos
    rcases hmem x hx with rfl | ⟨hold, heq⟩
    · rw [hp']
      exact append_ne_nil_of_left_ne_nil (h.inner k (Nat.lt_of_succ_lt hi) _ hpi) _
    · rw [heq]
      exact h.inner k (Nat.lt_of_succ_lt hi) x hold
  · intro x hx
    by_cases hxr : x = r
    · rw [hxr, hr']
      simp
    · rw [hsame x hxr (h.ne_of_level hi hi.le hx hpi (by omega))]
      exact h.inner i hi x hx
  intro _
  have hrest : ∀ x ∈ A ++ B, children' x = children x := by
    intro x hx
    have hxp : x ≠ p := by
      rintro rfl
      exact (nodup_middle.mp (hnodup.sublist hsub)).notMem hx
    rcases hmem x (by simp only [mem_append, mem_cons] at hx ⊢; tauto) with heq | heq
    · exact absurd heq hxp
    · exact heq.2
  have hA' := flatMap_congr fun x hx => hrest x (mem_append_left B hx)
  have hB' := flatMap_congr fun x hx => hrest x (mem_append_right A hx)
  simp only [hlv, flatMap_append, flatMap_cons, hA', hB', hp', append_assoc]

omit h in
/-- Where a node of the levels with a new root stood before. -/
theorem mem_grown {p q x : α} {j : Nat} (hj : j ≤ height + 1)
    (hx : x ∈ update (update lv height [p, q]) (height + 1) [root] j) :
    (j < height ∧ x ∈ lv j) ∨ (j = height ∧ (x = p ∨ x = q)) ∨ (j = height + 1 ∧ x = root) := by
  rcases Nat.lt_trichotomy j height with hlt | rfl | hgt
  · rw [update_of_ne (by omega), update_of_ne (by omega)] at hx
    exact .inl ⟨hlt, hx⟩
  · rw [update_of_ne (by omega), update_self] at hx
    exact .inr (.inl ⟨rfl, by simpa using hx⟩)
  · obtain rfl : j = height + 1 := by omega
    rw [update_self] at hx
    exact .inr (.inr ⟨rfl, mem_singleton.mp hx⟩)

/-- The two new nodes and the root are on levels of their own. -/
theorem grown_apart {p q x : α} (hp : ∀ j ≤ height, p ∉ lv j) (hq : ∀ j ≤ height, q ∉ lv j)
    {i j : Nat} (hi : i ≤ height + 1) (hj : j ≤ height + 1)
    (hxi : x ∈ update (update lv height [p, q]) (height + 1) [root] i)
    (hxj : x ∈ update (update lv height [p, q]) (height + 1) [root] j) : i = j := by
  have hnew : ∀ k < height, x ∈ lv k → x ≠ p ∧ x ≠ q ∧ x ≠ root := by
    intro k hk hx
    refine ⟨?_, ?_, h.ne_root hk hx⟩
    · rintro rfl
      exact hp k hk.le hx
    · rintro rfl
      exact hq k hk.le hx
  have hroot : ¬(root = p ∨ root = q) := by
    rintro (rfl | rfl)
    · exact hp height le_rfl h.root_mem
    · exact hq height le_rfl h.root_mem
  rcases mem_grown hi hxi with ⟨hilt, hiold⟩ | ⟨rfl, hxpq⟩ | ⟨rfl, rfl⟩ <;>
    rcases mem_grown hj hxj with ⟨hjlt, hjold⟩ | ⟨rfl, hxpq'⟩ | ⟨rfl, hroot'⟩
  · exact h.apart i j x hilt.le hjlt.le hiold hjold
  · exact absurd hxpq' (not_or.mpr ⟨(hnew i hilt hiold).1, (hnew i hilt hiold).2.1⟩)
  · exact absurd hroot' (hnew i hilt hiold).2.2
  · exact absurd hxpq (not_or.mpr ⟨(hnew j hjlt hjold).1, (hnew j hjlt hjold).2.1⟩)
  · rfl
  · exact absurd (hroot' ▸ hxpq) hroot
  · exact absurd rfl (hnew j hjlt hjold).2.2
  · exact absurd hxpq' hroot
  · rfl

/-- The root is split: its children go to two new nodes, which become its own. -/
theorem grow {p q : α} (hpq : p ≠ q) (hp : ∀ j ≤ height, p ∉ lv j) (hq : ∀ j ≤ height, q ∉ lv j)
    {children' : α → List α} (hsame : ∀ x, x ≠ root → x ≠ p → x ≠ q → children' x = children x)
    (hroot : children' root = [p, q]) (hparts : children' p ++ children' q = children root)
    (hne : 0 < height → children' p ≠ [] ∧ children' q ≠ []) :
    Leveled children' root (height + 1)
      (update (update lv height [p, q]) (height + 1) [root]) pend := by
  have hother : ∀ j < height, ∀ x ∈ lv j, children' x = children x := by
    intro j hj x hx
    refine hsame x (h.ne_root hj hx) ?_ ?_
    · rintro rfl
      exact hp j hj.le hx
    · rintro rfl
      exact hq j hj.le hx
  have hlow : ∀ j < height, update (update lv height [p, q]) (height + 1) [root] j
      = lv j := by
    intro j hj
    rw [update_of_ne (by omega), update_of_ne (by omega)]
  have hmid : update (update lv height [p, q]) (height + 1) [root] height = [p, q] := by
    rw [update_of_ne (by omega), update_self]
  have htop : update (update lv height [p, q]) (height + 1) [root] (height + 1) = [root] :=
    update_self ..
  exact {
    top := htop
    settled := fun i hi => h.settled i (by omega)
    edges := by
      intro i hi
      rcases Nat.lt_succ_iff_lt_or_eq.mp hi with hlt | rfl
      · have hedges := h.edges i hlt
        have hnext : i + 1 < height ∨ i + 1 = height := by omega
        rcases hnext with hnext | hnext
        · rw [hlow _ hnext, hlow i hlt, flatMap_congr (hother _ hnext)]
          exact hedges
        · rw [hnext, hmid, hlow i hlt]
          rw [hnext, h.top] at hedges
          simpa [hparts] using hedges
      · rw [htop, hmid, h.settled i le_rfl]
        simp [Covers, hroot]
    leaf := by
      intro x hx
      rcases mem_grown (Nat.zero_le _) hx with ⟨hlt, hold⟩ | ⟨hzero, hxpq⟩ | ⟨hzero, -⟩
      · rw [hother 0 hlt x hold]
        exact h.leaf x hold
      · have hnil := h.leaf root (hzero ▸ h.root_mem)
        rw [← hparts, append_eq_nil_iff] at hnil
        rcases hxpq with rfl | rfl
        · exact hnil.1
        · exact hnil.2
      · omega
    inner := by
      intro i hi x hx
      rcases mem_grown hi hx with ⟨hlt, hold⟩ | ⟨heq, hxpq⟩ | ⟨-, rfl⟩
      · rw [hother _ hlt x hold]
        exact h.inner i (Nat.lt_of_succ_lt hlt) x hold
      · rcases hxpq with rfl | rfl
        · exact (hne (by omega)).1
        · exact (hne (by omega)).2
      · rw [hroot]
        simp
    apart := fun _ _ _ hi hj hxi hxj => h.grown_apart hp hq hi hj hxi hxj
    nodup := by
      intro i hi
      rcases Nat.lt_trichotomy i height with hlt | rfl | hgt
      · rw [hlow i hlt]
        exact h.nodup i hlt.le
      · rw [hmid]
        simpa using hpq
      · obtain rfl : i = height + 1 := by omega
        rw [htop]
        simp }

/-- A root with one child takes its place. -/
theorem shrink {k : Nat} {p : α} (hk : height = k + 1) (hpend : pend k = none)
    (hroot : children root = [p]) {children' : α → List α}
    (hsame : ∀ x, x ≠ root → children' x = children x) (hroot' : children' root = children p) :
    lv k = [p] ∧ Leveled children' root k (update lv k [root]) pend := by
  subst hk
  have hlvk : lv k = [p] := by
    have hedges := h.edges k (Nat.lt_succ_self k)
    rw [hpend, h.top] at hedges
    simpa [Covers, hroot] using hedges.symm
  have hpk : p ∈ lv k := by rw [hlvk]; exact mem_singleton_self p
  have hlow : ∀ j < k, update lv k [root] j = lv j :=
    fun j hj => update_of_ne hj.ne _ _
  have hother : ∀ j < k, ∀ x ∈ lv j, children' x = children x :=
    fun j hj x hx => hsame x (h.ne_root (hj.trans (Nat.lt_succ_self k)) hx)
  refine ⟨hlvk, ?_⟩
  exact {
    top := update_self ..
    settled := by
      intro i hi
      rcases Nat.lt_or_eq_of_le hi with hlt | rfl
      · exact h.settled i hlt
      · exact hpend
    edges := by
      intro i hi
      have hedges := h.edges i (hi.trans (Nat.lt_succ_self k))
      rw [hlow i hi]
      have hnext : i + 1 < k ∨ i + 1 = k := by omega
      rcases hnext with hnext | hnext
      · rw [hlow _ hnext, flatMap_congr (hother _ hnext)]
        exact hedges
      · rw [hnext, update_self]
        rw [hnext, hlvk] at hedges
        simpa [hroot'] using hedges
    leaf := by
      intro x hx
      rcases Nat.eq_zero_or_pos k with rfl | hpos
      · rw [update_self, mem_singleton] at hx
        rw [hx, hroot']
        exact h.leaf p hpk
      · rw [hlow 0 hpos] at hx
        rw [hother 0 hpos x hx]
        exact h.leaf x hx
    inner := by
      intro i hi x hx
      have hnext : i + 1 < k ∨ i + 1 = k := by omega
      rcases hnext with hnext | hnext
      · rw [hlow _ hnext] at hx
        rw [hother _ hnext x hx]
        exact h.inner i (hi.trans (Nat.lt_succ_self k)) x hx
      · rw [hnext, update_self, mem_singleton] at hx
        rw [hx, hroot']
        exact h.inner i (hi.trans (Nat.lt_succ_self k)) p (hnext ▸ hpk)
    apart := by
      intro i j x hi hj hxi hxj
      by_cases hik : i = k <;> by_cases hjk : j = k
      · rw [hik, hjk]
      · rw [hik, update_self, mem_singleton] at hxi
        rw [update_of_ne hjk] at hxj
        exact absurd hxi (h.ne_root (Nat.lt_succ_of_le hj) hxj)
      · rw [hjk, update_self, mem_singleton] at hxj
        rw [update_of_ne hik] at hxi
        exact absurd hxj (h.ne_root (Nat.lt_succ_of_le hi) hxi)
      · rw [update_of_ne hik] at hxi
        rw [update_of_ne hjk] at hxj
        exact h.apart i j x (Nat.le_succ_of_le hi) (Nat.le_succ_of_le hj) hxi hxj
    nodup := by
      intro i hi
      by_cases hik : i = k
      · rw [hik, update_self]
        simp
      · rw [update_of_ne hik]
        exact h.nodup i (Nat.le_succ_of_le hi) }

omit h in
theorem size_succ (height : Nat) (lv : Nat → List α) :
    size (height + 1) lv = size height lv + (lv (height + 1)).length :=
  Finset.sum_range_succ _ _

theorem size_grow {p q : α} :
    size (height + 1) (update (update lv height [p, q]) (height + 1) [root]) =
      size height lv + 2 := by
  have hold := size_update lv [p, q] (le_refl height)
  have hsame : size height (update (update lv height [p, q]) (height + 1) [root]) =
      size height (update lv height [p, q]) :=
    Finset.sum_congr rfl fun i hi => by
      rw [update_of_ne (Finset.mem_range.mp hi).ne]
  rw [size_succ, update_self, hsame]
  rw [h.top] at hold
  omega

theorem size_shrink {k : Nat} {p : α} (hk : height = k + 1) (hlvk : lv k = [p]) :
    size k (update lv k [root]) + 1 = size height lv := by
  have hold := size_update lv [root] (le_refl k)
  subst hk
  rw [size_succ, h.top]
  rw [hlvk] at hold
  omega

end Leveled

/-! ## The same tree from the root down -/

/-- The nodes `d` edges below the root, in order. -/
def atDepth (children : α → List α) (root : α) : Nat → List α
  | 0 => [root]
  | d + 1 => (atDepth children root d).flatMap children

namespace Leveled

variable {children : α → List α} {root : α} {height : Nat} {lv : Nat → List α}
  (h : Leveled children root height lv fun _ => none)

include h

theorem atDepth_eq {d : Nat} (hd : d ≤ height) : atDepth children root d = lv (height - d) := by
  induction d with
  | zero => exact h.top.symm
  | succ d ih =>
    have hedges := h.edges (height - (d + 1)) (by omega)
    rw [atDepth, ih (Nat.le_of_succ_le hd), show height - d = height - (d + 1) + 1 by omega]
    exact hedges

theorem atDepth_eq_nil {d : Nat} (hd : height < d) : atDepth children root d = [] := by
  induction d with
  | zero => omega
  | succ d ih =>
    rw [atDepth, flatMap_eq_nil_iff]
    rcases Nat.lt_or_ge height d with hlt | hge
    · rw [ih hlt]
      exact nofun
    · obtain rfl : d = height := by omega
      rw [h.atDepth_eq le_rfl, Nat.sub_self]
      exact h.leaf

theorem mem_atDepth {d : Nat} {p : α} :
    p ∈ atDepth children root d ↔ d ≤ height ∧ p ∈ lv (height - d) := by
  rcases Nat.lt_or_ge height d with hlt | hge
  · simp [h.atDepth_eq_nil hlt, Nat.not_le.mpr hlt]
  · rw [h.atDepth_eq hge]
    exact (and_iff_right hge).symm

theorem exists_depth_iff {p : α} : (∃ d, p ∈ atDepth children root d) ↔ ∃ i ≤ height, p ∈ lv i := by
  constructor
  · rintro ⟨d, hd⟩
    exact ⟨height - d, Nat.sub_le .., (h.mem_atDepth.mp hd).2⟩
  · rintro ⟨i, hi, hp⟩
    refine ⟨height - i, h.mem_atDepth.mpr ⟨Nat.sub_le .., ?_⟩⟩
    rwa [show height - (height - i) = i by omega]

theorem edge_unique {i j m n : Nat} {p q c : α} (hi : i ≤ height) (hj : j ≤ height)
    (hp : p ∈ lv i) (hq : q ∈ lv j) (hpc : (children p)[m]? = some c)
    (hqc : (children q)[n]? = some c) : p = q ∧ m = n := by
  have hcp := mem_of_getElem? hpc
  have hcq := mem_of_getElem? hqc
  obtain ⟨k, rfl, hk, hck⟩ := h.child_mem hi hp hcp
  obtain ⟨rfl, -⟩ := h.parent_mem hj hq hcq hk.le hck
  have hnodup := (h.edges k hk).nodup (h.nodup k hk.le)
  obtain ⟨hlists, hdisjoint⟩ := nodup_flatMap.mp hnodup
  have hsymm : Std.Symm (onFun List.Disjoint children) := ⟨fun _ _ hab => hab.symm⟩
  have hpq : p = q := by
    by_contra hne
    exact hdisjoint.forall hp hq hne hcp hcq
  subst hpq
  exact ⟨rfl, (List.getElem?_inj (List.getElem?_eq_some_iff.mp hpc).1 (hlists p hp)).mp
    (hpc.trans hqc.symm)⟩

theorem card_nodes [DecidableEq α] :
    ((Finset.range (height + 1)).biUnion fun i => (lv i).toFinset).card = size height lv := by
  rw [Finset.card_biUnion, size]
  · refine Finset.sum_congr rfl fun i hi => ?_
    exact toFinset_card_of_nodup (h.nodup i (Nat.lt_succ_iff.mp (Finset.mem_range.mp hi)))
  · intro i hi j hj hij
    refine disjoint_toFinset_iff_disjoint.mpr fun p hp hp' => ?_
    exact hij (h.apart i j p (Nat.lt_succ_iff.mp (Finset.mem_range.mp hi))
      (Nat.lt_succ_iff.mp (Finset.mem_range.mp hj)) hp hp')

end Leveled

end Pagebox.Base
