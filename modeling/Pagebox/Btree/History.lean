import Mathlib.Data.Finset.Sort
import Pagebox.Base.Runs
import Pagebox.Btree.RemoveShape

/-!
# Histories of a tree

The calls of one thread on a tree made by `BTree::new`, and the shape every tree of
such a history has: uniform depth, one edge to every page, leaves chained in order
in both directions, and a page counter that agrees with `owned_page_ids`.
-/

namespace Pagebox.Btree

open Pagebox.Base List

variable {κ ν : Type}

inductive Op (κ ν : Type)
  | insert (key : κ) (value : ν)
  | upsert (key : κ) (value : ν)
  | remove (key : κ)

/-- A call, the pages that are resident when it looks for one, and the steps it is
watched for. -/
structure Call (κ ν : Type) where
  op : Op κ ν
  resident : Nat → Bool
  fuel : Nat

namespace BTree

/-- The tree after a call that returned. -/
def step [LinearOrder κ] (F : Format κ ν) (t : BTree κ ν) (call : Call κ ν) : Option (BTree κ ν) :=
  match call.op with
  | .insert key value => (insert F call.resident call.fuel t key value).toOption.map Prod.fst
  | .upsert key value => (upsert F call.resident call.fuel t key value).toOption.map Prod.fst
  | .remove key => (remove F call.resident t key).toOption.map Prod.fst

/-- The loop of `owned_page_ids` over its stack; `none` while it has not ended. -/
def ownedLoop (t : BTree κ ν) : Nat → List Nat → Finset Nat → Option (Finset Nat)
  | 0, _, _ => none
  | _ + 1, [], seen => some seen
  | fuel + 1, pid :: stack, seen =>
    if pid = 0 ∨ pid ∈ seen then ownedLoop t fuel stack seen
    else ownedLoop t fuel (((t.children pid).filter fun c => c ≠ 0).reverse ++ stack)
      (Insert.insert pid seen)

def ownedPageIds (t : BTree κ ν) (fuel : Nat) : Option (List Nat) :=
  (t.ownedLoop fuel [t.root] ∅).map fun seen => seen.sort (· ≤ ·)

def atDepth (t : BTree κ ν) (d : Nat) : List Nat := Base.atDepth t.children t.root d

def leftmostFrom (t : BTree κ ν) : Nat → Nat → Nat
  | 0, pid => pid
  | fuel + 1, pid =>
    match t.children pid with
    | [] => pid
    | child :: _ => leftmostFrom t fuel child

def leftmostLeaf (t : BTree κ ν) : Nat := t.leftmostFrom t.next t.root

def rightChain (t : BTree κ ν) : Nat → Nat → List Nat
  | 0, _ => []
  | fuel + 1, pid => if pid = 0 then [] else pid :: rightChain t fuel (t.rightPid pid)

/-- The shape of a tree as its readers see it. -/
structure WellFormed (t : BTree κ ν) : Prop where
  /-- All leaves are at depth `height`. -/
  depth : ∀ d, ∀ p ∈ t.atDepth d, (t.pages p).isLeaf ↔ d = t.height
  /-- There is one edge to every page but the root. -/
  parent : ∀ d, ∀ p ∈ t.atDepth d, p ≠ t.root →
    ∃! edge : Nat × Nat, (∃ d', edge.1 ∈ t.atDepth d') ∧ (t.children edge.1)[edge.2]? = some p
  /-- The right links run through the leaves in the order of the edges, and end. -/
  chain : ∀ fuel, t.next ≤ fuel → t.rightChain fuel t.leftmostLeaf = t.atDepth t.height
  right : ∀ p ∈ t.atDepth t.height, t.rightPid p ≠ 0 →
    t.rightPid p ∈ t.atDepth t.height ∧ t.leftPid (t.rightPid p) = p
  left : ∀ p ∈ t.atDepth t.height, t.leftPid p ≠ 0 →
    t.leftPid p ∈ t.atDepth t.height ∧ t.rightPid (t.leftPid p) = p
  /-- The search for owned pages ends and finds as many pages as are counted. -/
  count : ∃ pids, (∀ fuel, t.next < fuel → t.ownedPageIds fuel = some pids) ∧
    (∀ p, p ∈ pids ↔ ∃ d, p ∈ t.atDepth d) ∧ pids.length = t.reachablePages

end BTree

/-! ## The calls keep the shape -/

section

variable {t t' : BTree κ ν} {lv : Nat → List Nat}

theorem wellShaped_new {root : Nat} (hroot : 0 < root) :
    WellShaped (BTree.new root : BTree κ ν) fun i => if i = 0 then [root] else [] := by
  have hpage : (BTree.new root : BTree κ ν).pages root = .leaf [] 0 0 := by
    simp [BTree.new, Node.init]
  have hlevel : ∀ i ≤ (BTree.new root : BTree κ ν).height, i = 0 := fun i hi => Nat.le_zero.mp hi
  refine ⟨{ toLeveled := ?_, leaves := ?_, bounds := ?_, count := rfl }, ?_⟩
  · refine
      { top := rfl
        settled := fun _ _ => rfl
        edges := fun i hi => absurd hi (Nat.not_lt_zero i)
        leaf := ?_
        inner := fun i hi => absurd hi (Nat.not_lt_zero i)
        apart := fun i j p hi hj _ _ => (hlevel i hi).trans (hlevel j hj).symm
        nodup := ?_ }
    · intro p hp
      obtain rfl : p = root := mem_singleton.mp hp
      rw [BTree.children, hpage]
      rfl
    · intro i hi
      rw [hlevel i hi]
      exact nodup_singleton root
  · intro p hp
    obtain rfl : p = root := mem_singleton.mp hp
    rw [hpage]
    rfl
  · intro i hi p hp
    rw [hlevel i hi] at hp
    obtain rfl : p = root := mem_singleton.mp hp
    exact ⟨hroot, Nat.lt_succ_self p⟩
  · exact ⟨BTree.leftPid_of_leaf hpage, BTree.rightPid_of_leaf hpage, trivial⟩

theorem WellShaped.step [LinearOrder κ] {F : Format κ ν} (h : WellShaped t lv) {call : Call κ ν}
    (hstep : t.step F call = some t') : ∃ lv', WellShaped t' lv' := by
  have hreturn : ∀ {r : Except Stop (BTree κ ν × Bool)}, r.toOption.map Prod.fst = some t' →
      ∃ result, r = .ok (t', result) := by
    intro r hr
    cases r with
    | error e => cases hr
    | ok v =>
      cases hr
      exact ⟨v.2, rfl⟩
  unfold BTree.step at hstep
  split at hstep
  · obtain ⟨result, hinsert⟩ := hreturn hstep
    exact writeLoop_wellShaped h hinsert
  · obtain ⟨result, hupsert⟩ := hreturn hstep
    exact writeLoop_wellShaped h hupsert
  · obtain ⟨result, hremove⟩ := hreturn hstep
    exact h.remove hremove

theorem exists_wellShaped [LinearOrder κ] {F : Format κ ν} {root : Nat} (hroot : 0 < root)
    (h : Reach (BTree.step F) anyStep (BTree.new root) t) : ∃ lv, WellShaped t lv :=
  h.invariant (I := fun t => ∃ lv, WellShaped t lv) ⟨_, wellShaped_new hroot⟩
    fun _ _ _ ⟨_, hs⟩ _ hstep => hs.step hstep

end

/-! ## What the levels say to a reader -/

section

variable {t : BTree κ ν} {lv : Nat → List Nat}

theorem Linked.rightChain {prev : Nat} {l : List Nat} (h : Linked t prev l 0) (hzero : 0 ∉ l)
    {fuel : Nat} (hfuel : l.length < fuel) : t.rightChain fuel (l.headD 0) = l := by
  induction l generalizing prev fuel with
  | nil =>
    obtain ⟨fuel, rfl⟩ := Nat.exists_eq_add_one.mpr hfuel
    rfl
  | cons p rest ih =>
    obtain ⟨fuel, rfl⟩ := Nat.exists_eq_add_one.mpr (Nat.zero_lt_of_lt hfuel)
    obtain ⟨-, hright, hrest⟩ := h
    have hp : p ≠ 0 := fun hp => hzero (by simp [hp])
    rw [headD_cons, BTree.rightChain, if_neg hp, hright,
      ih hrest (fun hmem => hzero (by simp [hmem])) (Nat.lt_of_succ_lt_succ hfuel)]

theorem Linked.left_of_right {prev p : Nat} {l : List Nat} (h : Linked t prev l 0) (hp : p ∈ l)
    (hright : t.rightPid p ≠ 0) : t.rightPid p ∈ l ∧ t.leftPid (t.rightPid p) = p := by
  obtain ⟨before, after, rfl⟩ := append_of_mem hp
  obtain ⟨-, -, hnext, hafter⟩ := (linked_append _ _ _ _).mp h
  cases after with
  | nil => exact absurd hnext hright
  | cons q rest =>
    rw [hnext]
    exact ⟨by simp, hafter.1⟩

theorem Linked.right_of_left {p : Nat} {l : List Nat} (h : Linked t 0 l 0) (hp : p ∈ l)
    (hleft : t.leftPid p ≠ 0) : t.leftPid p ∈ l ∧ t.rightPid (t.leftPid p) = p := by
  obtain ⟨before, after, rfl⟩ := append_of_mem hp
  obtain ⟨hbefore, hprev, -, -⟩ := (linked_append _ _ _ _).mp h
  rcases eq_nil_or_concat before with rfl | ⟨init, q, rfl⟩
  · exact absurd hprev hleft
  · rw [concat_eq_append] at *
    obtain ⟨-, -, hright, -⟩ := (linked_append _ _ _ _).mp hbefore
    have hq : t.leftPid p = q := by simpa using hprev
    rw [hq]
    exact ⟨by simp, by simpa using hright⟩

/-- Always down the first edge ends at the first leaf. -/
theorem Shaped.leftmostFrom (h : Shaped t lv fun _ => none) {k fuel p : Nat} (hk : k ≤ t.height)
    (hp : (lv k).head? = some p) (hfuel : k ≤ fuel) :
    (lv 0).head? = some (t.leftmostFrom fuel p) := by
  induction k generalizing fuel p with
  | zero =>
    have hleaf := h.leaf p (mem_of_mem_head? hp)
    cases fuel with
    | zero => exact hp
    | succ fuel =>
      rw [BTree.leftmostFrom, hleaf]
      exact hp
  | succ k ih =>
    obtain ⟨fuel, rfl⟩ := Nat.exists_eq_add_one.mpr (Nat.zero_lt_of_lt hfuel)
    obtain ⟨rest, hlevel⟩ := List.head?_eq_some_iff.mp hp
    obtain ⟨child, others, hchildren⟩ :=
      exists_cons_of_ne_nil (h.inner k hk p (mem_of_mem_head? hp))
    have hedges : (lv (k + 1)).flatMap t.children = lv k := h.edges k hk
    rw [BTree.leftmostFrom, hchildren]
    refine ih (Nat.le_of_succ_le hk) ?_ (Nat.le_of_succ_le_succ hfuel)
    rw [← hedges, hlevel, flatMap_cons, hchildren]
    rfl

/-! ### `owned_page_ids` -/

/-- What holds of the stack and the pages seen: nothing is on the stack twice or was
seen before, and a page is known exactly if it is the root or its parent was seen. -/
structure Gathering (t : BTree κ ν) (lv : Nat → List Nat) (stack : List Nat) (seen : Finset Nat) :
    Prop where
  stack_nodup : stack.Nodup
  fresh : ∀ p ∈ stack, p ∉ seen
  owned : ∀ p, p ∈ stack ∨ p ∈ seen → ∃ i ≤ t.height, p ∈ lv i
  parent : ∀ p, p ∈ stack ∨ p ∈ seen → p = t.root ∨ ∃ q ∈ seen, p ∈ t.children q
  root : t.root ∈ stack ∨ t.root ∈ seen
  closed : ∀ q ∈ seen, ∀ p ∈ t.children q, p ∈ stack ∨ p ∈ seen

def pagesOf (height : Nat) (lv : Nat → List Nat) : Finset Nat :=
  (Finset.range (height + 1)).biUnion fun i => (lv i).toFinset

theorem mem_pagesOf {height p : Nat} : p ∈ pagesOf height lv ↔ ∃ i ≤ height, p ∈ lv i := by
  simp only [pagesOf, Finset.mem_biUnion, Finset.mem_range, List.mem_toFinset, Nat.lt_add_one_iff]

theorem Gathering.visit (h : Shaped t lv fun _ => none) {pid : Nat} {stack : List Nat}
    {seen : Finset Nat} (hg : Gathering t lv (pid :: stack) seen) :
    Gathering t lv ((t.children pid).reverse ++ stack) (Insert.insert pid seen) := by
  obtain ⟨i, hi, hpid⟩ := hg.owned pid (.inl (by simp))
  have hnew : pid ∉ seen := hg.fresh pid (by simp)
  -- a child known before would have its parent among the pages seen
  have hunknown : ∀ c ∈ t.children pid, ¬(c ∈ pid :: stack ∨ c ∈ seen) := by
    intro c hc hknown
    obtain ⟨k, rfl, hk, hck⟩ := h.child_mem hi hpid hc
    rcases hg.parent c hknown with hroot | ⟨q, hq, hcq⟩
    · exact h.ne_root hk hck hroot
    · obtain ⟨j, hj, hqj⟩ := hg.owned q (.inr hq)
      obtain ⟨m, hm⟩ := mem_iff_getElem?.mp hc
      obtain ⟨n, hn⟩ := mem_iff_getElem?.mp hcq
      exact hnew ((h.edge_unique hi hj hpid hqj hm hn).1 ▸ hq)
  obtain ⟨hpidstack, hstack⟩ := nodup_cons.mp hg.stack_nodup
  refine
    { stack_nodup := ?_
      fresh := ?_
      owned := ?_
      parent := ?_
      root := ?_
      closed := ?_ }
  · refine nodup_append.mpr ⟨nodup_reverse.mpr ?_, hstack, ?_⟩
    · rw [List.nodup_iff_getElem?_ne_getElem?]
      intro m n hmn hn heq
      have hm : (t.children pid)[m]? = some (t.children pid)[m] :=
        List.getElem?_eq_getElem (by omega)
      exact hmn.ne (h.edge_unique hi hi hpid hpid hm (heq ▸ hm)).2
    · rintro c hc d hd rfl
      exact hunknown c (mem_reverse.mp hc) (.inl (by simp [hd]))
  · intro p hp hmem
    rcases mem_append.mp hp with hc | hold
    · have hc := mem_reverse.mp hc
      rcases Finset.mem_insert.mp hmem with rfl | hseen
      · exact hunknown p hc (.inl (by simp))
      · exact hunknown p hc (.inr hseen)
    · rcases Finset.mem_insert.mp hmem with rfl | hseen
      · exact hpidstack hold
      · exact hg.fresh p (by simp [hold]) hseen
  · intro p hp
    simp only [mem_append, mem_reverse, Finset.mem_insert] at hp
    rcases hp with (hc | hp) | (rfl | hp)
    · obtain ⟨k, -, hk, hck⟩ := h.child_mem hi hpid hc
      exact ⟨k, hk.le, hck⟩
    · exact hg.owned p (.inl (by simp [hp]))
    · exact ⟨i, hi, hpid⟩
    · exact hg.owned p (.inr hp)
  · intro p hp
    simp only [mem_append, mem_reverse, Finset.mem_insert] at hp
    have hold : p ∈ pid :: stack ∨ p ∈ seen →
        p = t.root ∨ ∃ q ∈ Insert.insert pid seen, p ∈ t.children q := fun hp =>
      (hg.parent p hp).imp id fun ⟨q, hq, hpq⟩ => ⟨q, Finset.mem_insert_of_mem hq, hpq⟩
    rcases hp with (hc | hp) | (rfl | hp)
    · exact .inr ⟨pid, Finset.mem_insert_self .., hc⟩
    · exact hold (.inl (by simp [hp]))
    · exact hold (.inl (by simp))
    · exact hold (.inr hp)
  · rcases hg.root with hroot | hroot
    · rcases mem_cons.mp hroot with hroot | hroot
      · exact .inr (by simp [hroot])
      · exact .inl (by simp [hroot])
    · exact .inr (by simp [hroot])
  intro q hq c hc
  rcases Finset.mem_insert.mp hq with rfl | hq
  · exact .inl (by simp [hc])
  · rcases hg.closed q hq c hc with hknown | hknown
    · rcases mem_cons.mp hknown with rfl | hknown
      · exact .inr (Finset.mem_insert_self ..)
      · exact .inl (by simp [hknown])
    · exact .inr (Finset.mem_insert_of_mem hknown)

theorem Gathering.seen_eq (h : Shaped t lv fun _ => none) {seen : Finset Nat}
    (hg : Gathering t lv [] seen) : seen = pagesOf t.height lv := by
  have hknown : ∀ {p}, p ∈ [] ∨ p ∈ seen → p ∈ seen := fun hp => hp.resolve_left (by simp)
  -- from the root down every level was seen
  have hlevels : ∀ k ≤ t.height, ∀ p ∈ lv (t.height - k), p ∈ seen := by
    intro k
    induction k with
    | zero =>
      intro _ p hp
      rw [Nat.sub_zero, h.top, mem_singleton] at hp
      exact hp ▸ hknown hg.root
    | succ k ih =>
      intro hk p hp
      have hedges : (lv (t.height - (k + 1) + 1)).flatMap t.children = lv (t.height - (k + 1)) :=
        h.edges _ (by omega)
      rw [← hedges, show t.height - (k + 1) + 1 = t.height - k by omega] at hp
      obtain ⟨q, hq, hpq⟩ := mem_flatMap.mp hp
      exact hknown (hg.closed q (ih (by omega) q hq) p hpq)
  ext p
  rw [mem_pagesOf]
  constructor
  · exact fun hp => hg.owned p (.inr hp)
  · rintro ⟨i, hi, hp⟩
    refine hlevels (t.height - i) (Nat.sub_le ..) p ?_
    rwa [show t.height - (t.height - i) = i by omega]

theorem Gathering.ownedLoop (h : Shaped t lv fun _ => none) {stack : List Nat} {seen : Finset Nat}
    (hg : Gathering t lv stack seen) {fuel : Nat}
    (hfuel : (pagesOf t.height lv).card < fuel + seen.card) :
    t.ownedLoop fuel stack seen = some (pagesOf t.height lv) := by
  have hsub : seen ⊆ pagesOf t.height lv := fun p hp => mem_pagesOf.mpr (hg.owned p (.inr hp))
  induction fuel generalizing stack seen with
  | zero =>
    have := Finset.card_le_card hsub
    omega
  | succ fuel ih =>
    cases stack with
    | nil => rw [BTree.ownedLoop, hg.seen_eq h]
    | cons pid stack =>
      obtain ⟨i, hi, hpid⟩ := hg.owned pid (.inl (by simp))
      have hnew : pid ∉ seen := hg.fresh pid (by simp)
      have hzero : pid ≠ 0 := (h.bounds i hi pid hpid).1.ne'
      have hchildren : (t.children pid).filter (fun c => c ≠ 0) = t.children pid := by
        refine filter_eq_self.mpr fun c hc => ?_
        obtain ⟨k, -, hk, hck⟩ := h.child_mem hi hpid hc
        simpa using (h.bounds k hk.le c hck).1.ne'
      rw [BTree.ownedLoop, if_neg (by simp [hzero, hnew]), hchildren]
      have hg' := hg.visit h
      refine ih hg' ?_ fun p hp => mem_pagesOf.mpr (hg'.owned p (.inr hp))
      rw [Finset.card_insert_of_notMem hnew]
      omega

theorem Shaped.card_pagesOf_lt (h : Shaped t lv fun _ => none) :
    (pagesOf t.height lv).card < t.next := by
  have hnext : 0 < t.next := Nat.zero_lt_of_lt (h.lt_next le_rfl h.root_mem)
  have hbound : pagesOf t.height lv ⊆ (Finset.range t.next).erase 0 := by
    intro p hp
    obtain ⟨i, hi, hmem⟩ := mem_pagesOf.mp hp
    obtain ⟨hpos, hlt⟩ := h.bounds i hi p hmem
    exact Finset.mem_erase.mpr ⟨hpos.ne', Finset.mem_range.mpr hlt⟩
  have hcard := Finset.card_le_card hbound
  rw [Finset.card_erase_of_mem (Finset.mem_range.mpr hnext), Finset.card_range] at hcard
  omega

theorem Shaped.length_leaves_lt (h : Shaped t lv fun _ => none) : (lv 0).length < t.next := by
  refine lt_of_le_of_lt ?_ h.card_pagesOf_lt
  rw [← toFinset_card_of_nodup (h.nodup 0 (Nat.zero_le _))]
  exact Finset.card_le_card fun p hp => mem_pagesOf.mpr ⟨0, Nat.zero_le _, mem_toFinset.mp hp⟩

theorem Shaped.ownedPageIds (h : Shaped t lv fun _ => none) {fuel : Nat} (hfuel : t.next < fuel) :
    t.ownedPageIds fuel = some ((pagesOf t.height lv).sort (· ≤ ·)) := by
  have hstart : Gathering t lv [t.root] ∅ :=
    { stack_nodup := nodup_singleton _
      fresh := fun _ _ => Finset.notMem_empty _
      owned := fun p hp => ⟨t.height, le_rfl, by
        rw [h.top]
        simpa using hp⟩
      parent := fun p hp => .inl (by simpa using hp)
      root := .inl (mem_singleton_self _)
      closed := fun q hq => absurd hq (Finset.notMem_empty q) }
  have hcard := h.card_pagesOf_lt
  rw [BTree.ownedPageIds, hstart.ownedLoop h (by rw [Finset.card_empty]; omega)]
  rfl

/-- The shape as readers see it follows from the levels. -/
theorem WellShaped.wellFormed (h : WellShaped t lv) : t.WellFormed := by
  have hshaped := h.shaped
  have hleaves : t.atDepth t.height = lv 0 := by
    rw [BTree.atDepth, hshaped.atDepth_eq le_rfl, Nat.sub_self]
  have hzero : 0 ∉ lv 0 := fun hmem =>
    absurd (hshaped.bounds 0 (Nat.zero_le _) 0 hmem).1 (Nat.lt_irrefl 0)
  refine
    { depth := ?_
      parent := ?_
      chain := ?_
      right := ?_
      left := ?_
      count := ?_ }
  · intro d p hp
    obtain ⟨hd, hp⟩ := hshaped.mem_atDepth.mp hp
    constructor
    · intro hleaf
      by_contra hne
      refine hshaped.inner (t.height - (d + 1)) (by omega) p ?_ ?_
      · rwa [show t.height - (d + 1) + 1 = t.height - d by omega]
      · obtain ⟨entries, left, right, hpage⟩ := Node.exists_leaf hleaf
        rw [BTree.children, hpage]
        rfl
    · rintro rfl
      rw [Nat.sub_self] at hp
      exact hshaped.leaves p hp
  · intro d p hp hroot
    obtain ⟨hd, hp⟩ := hshaped.mem_atDepth.mp hp
    have hlt := hshaped.lt_height (Nat.sub_le ..) hp hroot
    have hedges : (lv (t.height - d + 1)).flatMap t.children = lv (t.height - d) :=
      hshaped.edges _ hlt
    obtain ⟨q, hq, hpq⟩ := mem_flatMap.mp (hedges ▸ hp)
    obtain ⟨pos, hpos⟩ := mem_iff_getElem?.mp hpq
    refine ⟨(q, pos), ⟨hshaped.exists_depth_iff.mpr ⟨_, hlt, hq⟩, hpos⟩, ?_⟩
    rintro ⟨q', pos'⟩ ⟨hq', hpos'⟩
    obtain ⟨j, hj, hq'⟩ := hshaped.exists_depth_iff.mp hq'
    obtain ⟨rfl, rfl⟩ := hshaped.edge_unique hj hlt hq' hq hpos' hpos
    rfl
  · intro fuel hfuel
    have hfirst := hshaped.leftmostFrom le_rfl (by rw [hshaped.top]; rfl) hshaped.height_lt_next.le
    have hhead : (lv 0).headD 0 = t.leftmostLeaf := by
      rw [List.headD_eq_head?_getD, hfirst]
      rfl
    have hlen := hshaped.length_leaves_lt
    rw [hleaves, ← hhead]
    exact h.linked.rightChain hzero (by omega)
  · rw [hleaves]
    exact fun p hp hright => h.linked.left_of_right hp hright
  · rw [hleaves]
    exact fun p hp hleft => h.linked.right_of_left hp hleft
  · refine ⟨_, fun fuel hfuel => hshaped.ownedPageIds hfuel, fun p => ?_, ?_⟩
    · rw [Finset.mem_sort, mem_pagesOf]
      exact hshaped.exists_depth_iff.symm
    · rw [Finset.length_sort, hshaped.count]
      exact hshaped.card_nodes

/-- After every call of every history that returned, the tree is well formed. -/
theorem wellFormed_of_history [LinearOrder κ] {F : Format κ ν} {root : Nat} (hroot : 0 < root)
    (h : Reach (BTree.step F) anyStep (BTree.new root) t) : t.WellFormed := by
  obtain ⟨lv, hshape⟩ := exists_wellShaped hroot h
  exact hshape.wellFormed

end

/-- Four entries of which three fit a leaf: the root is split, and then a removal
leaves its underfull leaf alone because no other page is resident. -/
theorem wellFormed_of_history_after_split :
    ∃ t : BTree Nat Nat, t.height = 1 ∧ t.reachablePages = 3 ∧ t.WellFormed := by
  let F : Format Nat Nat := ⟨.k4, fun _ => 8, fun value => value⟩
  let call (op : Op Nat Nat) : Call Nat Nat := ⟨op, fun _ => false, 5⟩
  have hrun : ((exec (BTree.step F) (BTree.new 1) [call (.insert 10 1000), call (.insert 20 1000),
      call (.upsert 30 1000), call (.insert 40 1000), call (.remove 10)]).any fun t =>
        decide (t.height = 1 ∧ t.reachablePages = 3)) = true := by decide +kernel
  obtain ⟨t, hexec, ht⟩ := (Option.any_eq_true _ _).mp hrun
  obtain ⟨hheight, hpages⟩ := of_decide_eq_true ht
  exact ⟨t, hheight, hpages, wellFormed_of_history (by decide) (Reach.of_exec_any hexec)⟩

end Pagebox.Btree
