import Mathlib.Logic.Relation
import Pagebox.Btree.Shape

/-!
# The page changes of a publication

Publishing a separator changes inner pages in three ways only: an inner page is
split and its right half waits for an edge, the root is split, or a waiting page gets
its edge.  `Move` says once when each of these happens and what it does; that the
publication is a sequence of moves is proved here, by following its recursion, and
every property of its result is then an induction over moves.
-/

namespace Pagebox.Btree

open Pagebox.Base Function

variable {κ ν : Type}

/-- A tree between two page writes: its pages by level, the pages that wait for an
edge, and the separators they wait with. -/
structure Stage (κ ν : Type) where
  tree : BTree κ ν
  lv : Nat → List Nat
  pend : Nat → Option (Nat × Nat)
  sep : Nat → Option κ

namespace Stage

variable (s : Stage κ ν)

def Shaped : Prop := Btree.Shaped s.tree s.lv s.pend

def Owns (pid : Nat) : Prop := ∃ j ≤ s.tree.height, pid ∈ s.lv j

/-- The page handed out next stands behind `p` and waits; the pages are those of `t`. -/
def splitOff (t : BTree κ ν) (i p : Nat) (before after : List Nat) (sep : κ) : Stage κ ν where
  tree := t
  lv := update s.lv i (before ++ p :: s.tree.next :: after)
  pend := update s.pend i (some (p, s.tree.next))
  sep := update s.sep i (some sep)

def splitPage (i p : Nat) (before after : List Nat) (left right : Node κ ν)
    (sep : κ) : Stage κ ν :=
  s.splitOff (s.tree.splitPage p left right) i p before after sep

def splitRoot (left right : Node κ ν) (sep : κ) : Stage κ ν where
  tree := s.tree.splitStableRoot sep left right
  lv := update (update s.lv s.tree.height [s.tree.next + 1, s.tree.next])
    (s.tree.height + 1) [s.tree.root]
  pend := s.pend
  sep := s.sep

def link (i r : Nat) (node : Node κ ν) : Stage κ ν where
  tree := s.tree.write r node
  lv := s.lv
  pend := update s.pend i none
  sep := update s.sep i none

end Stage

/-- One change of a publication at level `k` or above. -/
inductive Move (F : Format κ ν) (k : Nat) : Stage κ ν → Stage κ ν → Prop
  | split {s : Stage κ ν} {i p : Nat} {before after : List Nat} {slots : List (κ × Nat)}
      {upper child : Nat} {sep : κ} (hk : k < i) (hi : i < s.tree.height)
      (hlv : s.lv i = before ++ p :: after) (hpend : s.pend i = none)
      (hpage : s.tree.pages p = .inner slots upper) (hcount : 2 ≤ slots.length)
      (hmid : slots[slots.length / 2]? = some (sep, child)) :
      Move F k s (s.splitPage i p before after (.inner (slots.take (slots.length / 2)) child)
        (.inner (slots.drop (slots.length / 2 + 1)) upper) sep)
  | grow {s : Stage κ ν} {slots : List (κ × Nat)} {upper child : Nat} {sep : κ}
      (hk : k < s.tree.height) (hpage : s.tree.pages s.tree.root = .inner slots upper)
      (hcount : 2 ≤ slots.length) (hmid : slots[slots.length / 2]? = some (sep, child))
      (hfits : F.canInsertSeparator [] sep) :
      Move F k s (s.splitRoot (.inner (slots.take (slots.length / 2)) child)
        (.inner (slots.drop (slots.length / 2 + 1)) upper) sep)
  | link {s : Stage κ ν} {i p q r pos upper : Nat} {slots : List (κ × Nat)} {sep : κ}
      (hk : k ≤ i) (hi : i < s.tree.height) (hpend : s.pend i = some (p, q))
      (hsep : s.sep i = some sep) (hr : r ∈ s.lv (i + 1))
      (hpage : s.tree.pages r = .inner slots upper) (hedge : childEdge slots upper p = some pos)
      (hfits : F.canInsertSeparator slots sep) :
      Move F k s (s.link i r (applySplit slots upper pos sep p q))

def Moves (F : Format κ ν) (k : Nat) : Stage κ ν → Stage κ ν → Prop :=
  Relation.ReflTransGen (Move F k)

structure Frame (k : Nat) (s s' : Stage κ ν) : Prop where
  root : s'.tree.root = s.tree.root
  height : s.tree.height ≤ s'.tree.height
  lv : ∀ j ≤ k, s'.lv j = s.lv j
  pages : ∀ j ≤ k, ∀ q ∈ s.lv j, s'.tree.pages q = s.tree.pages q
  kept : ∀ q, s.Owns q → s'.Owns q

namespace Frame

variable {k : Nat} {s s' s'' : Stage κ ν}

theorem refl : Frame k s s := ⟨rfl, le_rfl, fun _ _ => rfl, fun _ _ _ _ => rfl, fun _ h => h⟩

theorem trans (h : Frame k s s') (h' : Frame k s' s'') : Frame k s s'' where
  root := h'.root.trans h.root
  height := h.height.trans h'.height
  lv j hj := (h'.lv j hj).trans (h.lv j hj)
  pages j hj q hq := (h'.pages j hj q (h.lv j hj ▸ hq)).trans (h.pages j hj q hq)
  kept q hq := h'.kept q (h.kept q hq)

end Frame

variable {F : Format κ ν}

theorem Move.mono {k k' : Nat} (hk : k' ≤ k) {s s' : Stage κ ν} (h : Move F k s s') :
    Move F k' s s' := by
  cases h with
  | split hki hi hlv hpend hpage hcount hmid =>
    exact .split (by omega) hi hlv hpend hpage hcount hmid
  | grow hki hpage hcount hmid hfits => exact .grow (by omega) hpage hcount hmid hfits
  | link hki hi hpend hsep hr hpage hedge hfits =>
    exact .link (by omega) hi hpend hsep hr hpage hedge hfits

theorem Moves.mono {k k' : Nat} (hk : k' ≤ k) {s s' : Stage κ ν} (h : Moves F k s s') :
    Moves F k' s s' := by
  induction h with
  | refl => exact .refl
  | tail _ hmove ih => exact .tail ih (hmove.mono hk)

theorem Move.shaped {k : Nat} {s s' : Stage κ ν} (h : Move F k s s') (hs : s.Shaped) :
    s'.Shaped := by
  cases h with
  | @split i p before after slots upper child sep hk hi hlv hpend hpage hcount hmid =>
    refine Btree.Shaped.splitPage hs hi hlv hpend ?_ (fun _ => by simp) fun hzero => by omega
    rw [children_halve hmid, BTree.children_of_inner hpage]
  | @grow slots upper child sep hk hpage hcount hmid hfits =>
    refine Btree.Shaped.splitStableRoot hs ?_ (fun _ => by simp) fun hzero => by omega
    rw [children_halve hmid, BTree.children_of_inner hpage]
  | @link i p q r pos upper slots sep hk hi hpend hsep hr hpage hedge hfits =>
    obtain ⟨E, G, hchildren, hnode⟩ := children_applySplit (ν := ν) hedge sep q
    exact Btree.Shaped.link hs hi hpend hr (by rw [BTree.children_of_inner hpage, hchildren]) hnode

theorem Move.frame {k : Nat} {s s' : Stage κ ν} (h : Move F k s s') (hs : s.Shaped) :
    Frame k s s' := by
  cases h with
  | @split i p before after slots upper child sep hk hi hlv hpend hpage hcount hmid =>
    have hp : p ∈ s.lv i := by simp [hlv]
    refine ⟨rfl, le_rfl, fun j hj => update_of_ne (by omega) _ _, ?_, ?_⟩
    · intro j hj q hq
      have hqp : q ≠ p := hs.ne_of_level (by omega) hi.le hq hp (by omega)
      have hqn : q ≠ s.tree.next := (hs.lt_next (i := j) (by omega) hq).ne
      simp [Stage.splitPage, Stage.splitOff, BTree.splitPage, update_of_ne hqp, update_of_ne hqn]
    rintro q ⟨j, hj, hq⟩
    refine ⟨j, hj, ?_⟩
    by_cases hji : j = i
    · rw [hji, hlv] at hq
      simp only [Stage.splitPage, Stage.splitOff, hji, update_self, List.mem_append,
        List.mem_cons] at hq ⊢
      tauto
    · simpa only [Stage.splitPage, Stage.splitOff, update_of_ne hji] using hq
  | @grow slots upper child sep hk hpage hcount hmid hfits =>
    refine ⟨rfl, Nat.le_succ _, ?_, ?_, ?_⟩
    · intro j hj
      simp only [Stage.splitRoot]
      rw [update_of_ne (by omega), update_of_ne (by omega)]
    · intro j hj q hq
      have hlt := hs.lt_next (i := j) (by omega) hq
      have hqr : q ≠ s.tree.root := hs.ne_root (i := j) (by omega) hq
      simp [Stage.splitRoot, BTree.splitStableRoot, update_of_ne hqr,
        update_of_ne (show q ≠ s.tree.next + 1 by omega), update_of_ne hlt.ne]
    rintro q ⟨j, hj, hq⟩
    by_cases hjh : j = s.tree.height
    · rw [hjh, hs.top, List.mem_singleton] at hq
      refine ⟨s.tree.height + 1, le_rfl, ?_⟩
      simp [Stage.splitRoot, hq]
    · refine ⟨j, Nat.le_succ_of_le hj, ?_⟩
      simp only [Stage.splitRoot]
      rwa [update_of_ne (by omega), update_of_ne hjh]
  | @link i p q r pos upper slots sep hk hi hpend hsep hr hpage hedge hfits =>
    refine ⟨rfl, le_rfl, fun _ _ => rfl, ?_, fun _ h => h⟩
    intro j hj x hx
    exact BTree.pages_write_of_ne (hs.ne_of_level (by omega) hi hx hr (by omega)) _

theorem Moves.shaped {k : Nat} {s s' : Stage κ ν} (h : Moves F k s s') (hs : s.Shaped) :
    s'.Shaped ∧ Frame k s s' := by
  induction h with
  | refl => exact ⟨hs, .refl⟩
  | tail _ hmove ih => exact ⟨hmove.shaped ih.1, ih.2.trans (hmove.frame ih.1)⟩

/-! ## The parent of a page -/

theorem Stage.Shaped.owns_root {s : Stage κ ν} (hs : s.Shaped) : s.Owns s.tree.root :=
  ⟨s.tree.height, le_rfl, hs.root_mem⟩

theorem Stage.Shaped.owns_child {s : Stage κ ν} (hs : s.Shaped) {pid c : Nat} (hpid : s.Owns pid)
    (hc : c ∈ s.tree.children pid) : s.Owns c := by
  obtain ⟨j, hj, hmem⟩ := hpid
  obtain ⟨i, -, hi, hci⟩ := hs.child_mem hj hmem hc
  exact ⟨i, hi.le, hci⟩

theorem searchParent_owns {s : Stage κ ν} (hs : s.Shaped) {visit : Nat → Bool}
    {child fuel pid parent : Nat} (hpid : s.Owns pid)
    (h : s.tree.searchParent visit child fuel pid = some parent) : s.Owns parent := by
  induction fuel generalizing pid with
  | zero => cases h
  | succ fuel ih =>
    unfold BTree.searchParent at h
    split at h
    · split at h
      · cases h
        exact hpid
      · obtain ⟨c, hc, hfound⟩ := List.exists_of_findSome?_eq_some h
        exact ih (hs.owns_child hpid (List.mem_of_mem_filter hc)) hfound
    · cases h

theorem parentCandidate_owns {s : Stage κ ν} (hs : s.Shaped) {resident : Nat → Bool}
    {left parent : Nat} {path : List Nat} (hpath : ∀ q ∈ path, s.Owns q) {search : BTree.Search}
    (h : BTree.parentCandidate resident left path s.tree search = some parent) :
    s.Owns parent := by
  cases search with
  | path => exact hpath parent (List.mem_of_mem_head? h)
  | root =>
    cases h
    exact hs.owns_root
  | resident => exact searchParent_owns hs hs.owns_root h
  | all => exact searchParent_owns hs hs.owns_root h

/-- A split of inner pages above level `k` is a sequence of moves that leaves no page
waiting. -/
def SplitsByMoves (F : Format κ ν)
    (split : BTree κ ν → Nat → List Nat → Except Stop (BTree κ ν)) : Prop :=
  ∀ (k i p : Nat) (s : Stage κ ν) (path : List Nat) (t' : BTree κ ν), s.Shaped → k < i →
    i ≤ s.tree.height → p ∈ s.lv i → (∀ j, k < j → s.pend j = none) → (∀ q ∈ path, s.Owns q) →
    split s.tree p path = .ok t' →
    ∃ s' : Stage κ ν, s'.tree = t' ∧ Moves F k s s' ∧ s'.pend = s.pend ∧ ∀ j ≤ k, s'.sep j = s.sep j

section

variable {resident : Nat → Bool} {split : BTree κ ν → Nat → List Nat → Except Stop (BTree κ ν)}
  {sep : κ} {i p q : Nat} {path : List Nat}

/-- What remains of the waiting pages and separators when the one at level `i` got
its edge, and when not. -/
def Stage.After (s s' : Stage κ ν) (i : Nat) : Bool → Prop
  | true => s'.pend = update s.pend i none ∧ ∀ j < i, s'.sep j = s.sep j
  | false => s'.pend = s.pend ∧ ∀ j ≤ i, s'.sep j = s.sep j

theorem Stage.After.refl (s : Stage κ ν) (i : Nat) : s.After s i false := ⟨rfl, fun _ _ => rfl⟩

theorem Stage.After.trans {s s₁ s₂ : Stage κ ν} {i : Nat} {done : Bool} (h₁ : s.After s₁ i false)
    (h₂ : s₁.After s₂ i done) : s.After s₂ i done := by
  obtain ⟨hpend₁, hsep₁⟩ := h₁
  cases done with
  | true =>
    obtain ⟨hpend₂, hsep₂⟩ := h₂
    exact ⟨by rw [hpend₂, hpend₁], fun j hj => (hsep₂ j hj).trans (hsep₁ j hj.le)⟩
  | false =>
    obtain ⟨hpend₂, hsep₂⟩ := h₂
    exact ⟨hpend₂.trans hpend₁, fun j hj => (hsep₂ j hj).trans (hsep₁ j hj)⟩

theorem tryPublish_moves (hsplit : SplitsByMoves F split) {s : Stage κ ν} (hs : s.Shaped)
    (hi : i < s.tree.height) (hpend : s.pend i = some (p, q)) (hsep : s.sep i = some sep)
    (habove : ∀ j, i < j → s.pend j = none) (hp : p ∈ s.lv i) (hpath : ∀ x ∈ path, s.Owns x)
    {search : BTree.Search} {t' : BTree κ ν} {done : Bool}
    (h : BTree.tryPublish F resident split sep p q path s.tree search = .ok (t', done)) :
    ∃ s' : Stage κ ν, s'.tree = t' ∧ Moves F i s s' ∧ s.After s' i done := by
  unfold BTree.tryPublish at h
  split at h
  · cases h
    exact ⟨s, rfl, .refl, .refl s i⟩
  rename_i parent hparent
  have howns := parentCandidate_owns hs hpath hparent
  split at h
  · rename_i slots upper hpage
    split at h
    · cases h
      exact ⟨s, rfl, .refl, .refl s i⟩
    rename_i pos hedge
    obtain ⟨j, hj, hmem⟩ := howns
    have hchild : p ∈ s.tree.children parent := by
      rw [BTree.children_of_inner hpage]
      exact childEdge_mem hedge
    obtain ⟨rfl, -⟩ := hs.parent_mem hj hmem hchild hi.le hp
    split at h
    · rename_i hfits
      cases h
      exact ⟨s.link i parent (applySplit slots upper pos sep p q), rfl,
        .single (.link le_rfl hi hpend hsep hmem hpage hedge hfits), rfl,
        fun j hj => update_of_ne hj.ne _ _⟩
    simp only [bind, Except.bind] at h
    split at h
    · cases h
    rename_i t'' hresult
    cases h
    have hrest : ∀ x ∈ BTree.restOfPath path search, s.Owns x := by
      intro x hx
      cases search with
      | path => exact hpath x (List.mem_of_mem_tail hx)
      | root => cases hx
      | resident => cases hx
      | all => cases hx
    obtain ⟨s', rfl, hmoves, hpend', hsep'⟩ := hsplit i (i + 1) parent s _ t' hs
      (Nat.lt_succ_self i) hj hmem habove hrest hresult
    exact ⟨s', rfl, hmoves, hpend', hsep'⟩
  · cases h
    exact ⟨s, rfl, .refl, .refl s i⟩

structure Waiting (s : Stage κ ν) (i p q : Nat) (sep : κ) (path : List Nat) : Prop where
  shaped : s.Shaped
  lt : i < s.tree.height
  pend : s.pend i = some (p, q)
  sep : s.sep i = some sep
  above : ∀ j, i < j → s.pend j = none
  mem : p ∈ s.lv i
  path : ∀ x ∈ path, s.Owns x

theorem Waiting.after {s s' : Stage κ ν} (h : Waiting s i p q sep path) (hmoves : Moves F i s s')
    (hafter : s.After s' i false) : Waiting s' i p q sep path := by
  obtain ⟨hs', hframe⟩ := hmoves.shaped h.shaped
  obtain ⟨hpend, hsep⟩ := hafter
  exact {
    shaped := hs'
    lt := h.lt.trans_le hframe.height
    pend := hpend ▸ h.pend
    sep := (hsep i le_rfl).trans h.sep
    above := fun j hj => hpend ▸ h.above j hj
    mem := hframe.lv i le_rfl ▸ h.mem
    path := fun x hx => hframe.kept x (h.path x hx) }

theorem publishVia_moves (hsplit : SplitsByMoves F split) {s : Stage κ ν}
    (hs : Waiting s i p q sep path) {searches : List BTree.Search} {t' : BTree κ ν} {done : Bool}
    (h : BTree.publishVia F resident split sep p q path searches s.tree = .ok (t', done)) :
    ∃ s' : Stage κ ν, s'.tree = t' ∧ Moves F i s s' ∧ s.After s' i done := by
  induction searches generalizing s with
  | nil =>
    cases h
    exact ⟨s, rfl, .refl, .refl s i⟩
  | cons search rest ih =>
    simp only [BTree.publishVia, bind, Except.bind] at h
    split at h
    · cases h
    rename_i result htry
    obtain ⟨t₁, done₁⟩ := result
    obtain ⟨s₁, rfl, hmoves₁, hafter₁⟩ := tryPublish_moves hsplit hs.shaped hs.lt hs.pend hs.sep
      hs.above hs.mem hs.path htry
    cases done₁ with
    | true =>
      cases h
      exact ⟨s₁, rfl, hmoves₁, hafter₁⟩
    | false =>
      obtain ⟨s₂, htree, hmoves₂, hafter₂⟩ := ih (hs.after hmoves₁ hafter₁) h
      exact ⟨s₂, htree, hmoves₁.trans hmoves₂, hafter₁.trans hafter₂⟩

theorem publishLeafSplitToParent_moves (hsplit : SplitsByMoves F split) {s : Stage κ ν}
    (hs : Waiting s i p q sep path) {attempts : Nat} {searches : List BTree.Search}
    {t' : BTree κ ν}
    (h : BTree.publishLeafSplitToParent F resident split sep p q path attempts searches s.tree
      = .ok t') :
    ∃ s' : Stage κ ν, s'.tree = t' ∧ Moves F i s s' ∧ s.After s' i true := by
  induction attempts generalizing s searches with
  | zero => cases h
  | succ attempts ih =>
    simp only [BTree.publishLeafSplitToParent, bind, Except.bind] at h
    split at h
    · cases h
    rename_i result hvia
    obtain ⟨t₁, done₁⟩ := result
    obtain ⟨s₁, rfl, hmoves₁, hafter₁⟩ := publishVia_moves hsplit hs hvia
    cases done₁ with
    | true =>
      cases h
      exact ⟨s₁, rfl, hmoves₁, hafter₁⟩
    | false =>
      obtain ⟨s₂, htree, hmoves₂, hafter₂⟩ := ih (hs.after hmoves₁ hafter₁) h
      exact ⟨s₂, htree, hmoves₁.trans hmoves₂, hafter₁.trans hafter₂⟩

end

theorem Waiting.of_splitOff {s : Stage κ ν} {t : BTree κ ν} {i p : Nat} {before after : List Nat}
    {sep : κ} {path : List Nat} (hi : i < s.tree.height)
    (hs : (s.splitOff t i p before after sep).Shaped) (hheight : t.height = s.tree.height)
    (hlv : s.lv i = before ++ p :: after) (hpend : ∀ j, i < j → s.pend j = none)
    (hpath : ∀ x ∈ path, s.Owns x) :
    Waiting (s.splitOff t i p before after sep) i p s.tree.next sep path where
  shaped := hs
  lt := hheight ▸ hi
  pend := update_self ..
  sep := update_self ..
  above j hj := by
    simp only [Stage.splitOff]
    rw [update_of_ne hj.ne']
    exact hpend j hj
  mem := by simp [Stage.splitOff]
  path x hx := by
    obtain ⟨j, hj, hmem⟩ := hpath x hx
    refine ⟨j, hheight ▸ hj, ?_⟩
    simp only [Stage.splitOff]
    by_cases hji : j = i
    · rw [hji, hlv] at hmem
      rw [hji, update_self]
      simp only [List.mem_append, List.mem_cons] at hmem ⊢
      tauto
    · rwa [update_of_ne hji]

theorem splitInner_moves (F : Format κ ν) (resident : Nat → Bool) (depth : Nat) :
    SplitsByMoves F (BTree.splitInner F resident depth) := by
  induction depth with
  | zero => intro k i p s path t' _ _ _ _ _ _ h; cases h
  | succ depth ih =>
    intro k i p s path t' hs hk hi hp hpend hpath h
    obtain ⟨m, rfl⟩ := Nat.exists_eq_add_one.mpr (Nat.zero_lt_of_lt hk)
    obtain ⟨slots, upper, hpage⟩ := Btree.Shaped.exists_inner hs hi hp
    unfold BTree.splitInner at h
    simp only [hpage] at h
    split at h
    · cases h
      exact ⟨s, rfl, .refl, rfl, fun _ _ => rfl⟩
    rename_i sep child hmid
    split at h
    · cases h
      exact ⟨s, rfl, .refl, rfl, fun _ _ => rfl⟩
    split at h
    · rename_i hroot
      split at h
      · rename_i hfits
        cases h
        exact ⟨_, rfl, .single (.grow (hk.trans_le hi) (hroot ▸ hpage) (by omega) hmid hfits),
          rfl, fun _ _ => rfl⟩
      · cases h
    rename_i hroot
    have hlt := hs.lt_height hi hp hroot
    obtain ⟨before, after, hlv⟩ := List.append_of_mem hp
    have hnone := hpend (m + 1) hk
    have hmove : Move F k s _ := .split hk hlt hlv hnone hpage (by omega) hmid
    have hwaiting : Waiting _ (m + 1) p s.tree.next sep path :=
      .of_splitOff hlt (hmove.shaped hs) rfl hlv (fun j hj => hpend j (by omega)) hpath
    obtain ⟨s₂, htree, hmoves, hpend₂, hsep₂⟩ := publishLeafSplitToParent_moves ih hwaiting h
    refine ⟨s₂, htree, .head hmove (hmoves.mono hk.le), ?_, ?_⟩
    · exact hpend₂.trans ((update_idem ..).trans
        (update_eq_self_iff.mpr hnone.symm))
    · intro j hj
      exact (hsep₂ j (by omega)).trans (update_of_ne (by omega) _ _)

end Pagebox.Btree
