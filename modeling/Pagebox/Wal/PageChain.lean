import Pagebox.Wal.PageStores

/-!
# Chains of page versions

The records of one page form a chain from a base version: each record either
makes the version that its LSN stands for out of the version before it, or is
older than that version.  Recovery from any version of the chain ends in the last
one, because it skips what the version already contains.
-/

namespace Pagebox.Wal

open Pagebox.Base List

variable {ps : PageSize}

/-- `Chain after cur rs fin`: applying `rs` to the version `cur` gives `fin`;
`after lsn` is the page after the mutation with that LSN. -/
inductive Chain (after : Nat → Option (Page ps)) :
    Option (Page ps) → List (PageRecord ps) → Option (Page ps) → Prop
  | nil (cur : Option (Page ps)) : Chain after cur [] cur
  | stale {p : Page ps} {r : PageRecord ps} {rs : List (PageRecord ps)} {fin : Option (Page ps)}
      (hle : r.lsn ≤ p.lsn) (h : Chain after (some p) rs fin) : Chain after (some p) (r :: rs) fin
  | image {cur : Option (Page ps)} {page : Page ps} {lsn pid : Nat} {rs : List (PageRecord ps)}
      {fin : Option (Page ps)} (hnew : ∀ p, cur = some p → p.lsn < lsn)
      (hafter : after lsn = some page) (h : Chain after (some page) rs fin) :
      Chain after cur (⟨lsn, pid, .image page⟩ :: rs) fin
  | patch {p : Page ps} {ranges : List PatchRange} {lsn pid : Nat} {rs : List (PageRecord ps)}
      {fin : Option (Page ps)} (hnew : p.lsn < lsn)
      (hafter : after lsn = some (applyRanges p ranges))
      (h : Chain after (some (applyRanges p ranges)) rs fin) :
      Chain after (some p) (⟨lsn, pid, .patch ranges⟩ :: rs) fin

/-- Every version carries its LSN. -/
def CarriesLsn (after : Nat → Option (Page ps)) : Prop := ∀ lsn p, after lsn = some p → p.lsn = lsn

namespace Chain

variable {after after' : Nat → Option (Page ps)} {cur mid fin : Option (Page ps)}
  {rs rs' : List (PageRecord ps)}

theorem mono (hsub : ∀ lsn p, after lsn = some p → after' lsn = some p)
    (h : Chain after cur rs fin) : Chain after' cur rs fin := by
  induction h with
  | nil cur => exact .nil cur
  | stale hle _ ih => exact .stale hle ih
  | image hnew hafter _ ih => exact .image hnew (hsub _ _ hafter) ih
  | patch hnew hafter _ ih => exact .patch hnew (hsub _ _ hafter) ih

theorem append (h : Chain after cur rs mid) (h' : Chain after mid rs' fin) :
    Chain after cur (rs ++ rs') fin := by
  induction h with
  | nil cur => exact h'
  | stale hle _ ih => exact .stale hle (ih h')
  | image hnew hafter _ ih => exact .image hnew hafter (ih h')
  | patch hnew hafter _ ih => exact .patch hnew hafter (ih h')

theorem split (h : Chain after cur (rs ++ rs') fin) :
    ∃ mid, Chain after cur rs mid ∧ Chain after mid rs' fin := by
  induction rs generalizing cur with
  | nil => exact ⟨cur, .nil cur, h⟩
  | cons r rs ih =>
    cases h with
    | stale hle h =>
      obtain ⟨mid, h₁, h₂⟩ := ih h
      exact ⟨mid, .stale hle h₁, h₂⟩
    | image hnew hafter h =>
      obtain ⟨mid, h₁, h₂⟩ := ih h
      exact ⟨mid, .image hnew hafter h₁, h₂⟩
    | patch hnew hafter h =>
      obtain ⟨mid, h₁, h₂⟩ := ih h
      exact ⟨mid, .patch hnew hafter h₁, h₂⟩

theorem of_stale {p : Page ps} (h : ∀ r ∈ rs, r.lsn ≤ p.lsn) :
    Chain after (some p) rs (some p) := by
  induction rs with
  | nil => exact .nil _
  | cons r rs ih =>
    exact .stale (h r mem_cons_self) (ih fun x hx => h x (mem_cons_of_mem r hx))

theorem end_cases (h : Chain after cur rs fin) :
    fin = cur ∨ ∃ r ∈ rs, ∃ q, fin = some q ∧ after r.lsn = some q := by
  induction h with
  | nil cur => exact .inl rfl
  | stale _ _ ih =>
    rcases ih with hend | ⟨r, hr, q, hq, hafter⟩
    · exact .inl hend
    · exact .inr ⟨r, mem_cons_of_mem _ hr, q, hq, hafter⟩
  | image _ hafter _ ih =>
    rcases ih with hend | ⟨r, hr, q, hq, hafter'⟩
    · exact .inr ⟨_, mem_cons_self, _, hend, hafter⟩
    · exact .inr ⟨r, mem_cons_of_mem _ hr, q, hq, hafter'⟩
  | patch _ hafter _ ih =>
    rcases ih with hend | ⟨r, hr, q, hq, hafter'⟩
    · exact .inr ⟨_, mem_cons_self, _, hend, hafter⟩
    · exact .inr ⟨r, mem_cons_of_mem _ hr, q, hq, hafter'⟩

theorem base_le (hlsn : CarriesLsn after) (h : Chain after cur rs fin) :
    ∀ p, cur = some p → ∃ q, fin = some q ∧ p.lsn ≤ q.lsn := by
  induction h with
  | nil cur =>
    intro p hp
    exact ⟨p, hp, Nat.le_refl _⟩
  | stale _ _ ih => exact ih
  | image hnew hafter _ ih =>
    intro p hp
    obtain ⟨q, hq, hle⟩ := ih _ rfl
    have hlt := hnew p hp
    rw [hlsn _ _ hafter] at hle
    exact ⟨q, hq, by omega⟩
  | patch hnew hafter _ ih =>
    intro p hp
    cases hp
    obtain ⟨q, hq, hle⟩ := ih _ rfl
    rw [hlsn _ _ hafter] at hle
    exact ⟨q, hq, by omega⟩

theorem record_le (hlsn : CarriesLsn after) (h : Chain after cur rs fin) :
    ∀ r ∈ rs, ∃ q, fin = some q ∧ r.lsn ≤ q.lsn := by
  induction h with
  | nil => simp
  | stale hle h ih =>
    intro r hr
    rcases mem_cons.mp hr with rfl | hmem
    · obtain ⟨q, hq, hpq⟩ := h.base_le hlsn _ rfl
      exact ⟨q, hq, hle.trans hpq⟩
    · exact ih r hmem
  | image _ hafter h ih =>
    intro r hr
    rcases mem_cons.mp hr with rfl | hmem
    · obtain ⟨q, hq, hpq⟩ := h.base_le hlsn _ rfl
      exact ⟨q, hq, hlsn _ _ hafter ▸ hpq⟩
    · exact ih r hmem
  | patch _ hafter h ih =>
    intro r hr
    rcases mem_cons.mp hr with rfl | hmem
    · obtain ⟨q, hq, hpq⟩ := h.base_le hlsn _ rfl
      exact ⟨q, hq, hlsn _ _ hafter ▸ hpq⟩
    · exact ih r hmem

/-- Starting over from a later version ends in the same place. -/
theorem absorb {v : Page ps} (hlsn : CarriesLsn after) (h : Chain after cur rs (some v))
    (h' : Chain after (some v) rs' fin) : Chain after (some v) (rs ++ rs') fin := by
  apply append _ h'
  apply of_stale
  intro r hr
  obtain ⟨q, hq, hle⟩ := h.record_le hlsn r hr
  cases hq
  exact hle

/-- Replacing any record by a newer image of the page makes it the last version. -/
theorem overwrite {old : PageRecord ps} {page : Page ps} {lsn pid : Nat}
    (hlsn : CarriesLsn after) (h : Chain after cur (rs ++ old :: rs') fin)
    (hafter : after lsn = some page) (hcur : ∀ p, cur = some p → p.lsn < lsn)
    (hrs : ∀ r ∈ rs ++ old :: rs', r.lsn < lsn) :
    Chain after cur (rs ++ ⟨lsn, pid, .image page⟩ :: rs') (some page) := by
  obtain ⟨mid, hmid, -⟩ := h.split
  have hnew : ∀ p, mid = some p → p.lsn < lsn := by
    intro p hp
    rcases hmid.end_cases with hend | ⟨r, hr, q, hq, hr'⟩
    · exact hcur p (hend ▸ hp)
    · rw [hp] at hq
      cases hq
      rw [hlsn _ _ hr']
      exact hrs r (mem_append_left _ hr)
  apply hmid.append
  apply Chain.image hnew hafter
  apply of_stale
  intro r hr
  rw [hlsn _ _ hafter]
  exact (hrs r (mem_append_right _ (mem_cons_of_mem _ hr))).le

theorem unique {fin' : Option (Page ps)} (h : Chain after cur rs fin)
    (h' : Chain after cur rs fin') : fin = fin' := by
  induction h with
  | nil cur =>
    cases h'
    rfl
  | stale hle _ ih =>
    cases h' with
    | stale _ h' => exact ih h'
    | image hnew _ _ => exact absurd (hnew _ rfl) (Nat.not_lt.mpr hle)
    | patch hnew _ _ => exact absurd hnew (Nat.not_lt.mpr hle)
  | image hnew _ _ ih =>
    cases h' with
    | stale hle _ => exact absurd (hnew _ rfl) (Nat.not_lt.mpr hle)
    | image _ _ h' => exact ih h'
  | patch hnew _ _ ih =>
    cases h' with
    | stale hle _ => exact absurd hnew (Nat.not_lt.mpr hle)
    | patch _ _ h' => exact ih h'

theorem nil_of_none (hlsn : CarriesLsn after) (h : Chain after cur rs none) :
    rs = [] ∧ cur = none := by
  cases rs with
  | nil =>
    cases h
    exact ⟨rfl, rfl⟩
  | cons r rs =>
    obtain ⟨q, hq, -⟩ := h.record_le hlsn r mem_cons_self
    cases hq

/-- The end of a chain is the version with the largest LSN. -/
theorem end_eq_max (hlsn : CarriesLsn after) (h : Chain after cur rs fin)
    (hcur : ∀ p, cur = some p → ∀ r ∈ rs, p.lsn < r.lsn) :
    fin = match (rs.map (·.lsn)).max? with
      | some lsn => after lsn
      | none => cur := by
  cases hmax : (rs.map (·.lsn)).max? with
  | none =>
    rw [List.max?_eq_none_iff, map_eq_nil_iff] at hmax
    subst hmax
    cases h
    rfl
  | some lsn =>
    obtain ⟨hmem, hle⟩ := List.max?_eq_some_iff.mp hmax
    obtain ⟨r, hr, hrlsn⟩ := mem_map.mp hmem
    obtain ⟨q, hq, hrq⟩ := h.record_le hlsn r hr
    rcases h.end_cases with hend | ⟨r', hr', q', hq', hafter⟩
    · have := hcur q (hend ▸ hq) r hr
      omega
    rw [hq] at hq'
    cases hq'
    have hr'le : r'.lsn ≤ lsn := hle _ (mem_map_of_mem hr')
    have hqlsn := hlsn _ _ hafter
    have heq : r'.lsn = lsn := by omega
    rw [hq, ← heq]
    exact hafter.symm

end Chain

/-! ## Recovery of a page on disk -/

/-- Recovery of the version `cur` on disk will end in `fin`.  A page that was
allocated but never written may read as zeros, with LSN 0, instead of being
absent. -/
def Ready (after : Nat → Option (Page ps)) (cur : Option (Page ps)) (rs : List (PageRecord ps))
    (fin : Option (Page ps)) : Prop :=
  Chain after cur rs fin ∨ (Chain after none rs fin ∧ ∀ p, cur = some p → p.lsn = 0)

theorem lsn_zero (ps : PageSize) : (Page.zero ps).lsn = 0 := by
  cases ps <;> decide +kernel

namespace Ready

variable {after : Nat → Option (Page ps)} {cur fin : Option (Page ps)} {rs : List (PageRecord ps)}

theorem zero (h : Ready after none rs fin) : Ready after (some (.zero ps)) rs fin := by
  have hchain : Chain after none rs fin := h.elim id And.left
  refine .inr ⟨hchain, ?_⟩
  intro p hp
  cases hp
  exact lsn_zero ps

theorem getD_zero (h : Ready after cur rs fin) :
    Ready after (some (cur.getD (.zero ps))) rs fin := by
  cases cur with
  | none => exact h.zero
  | some p => exact h

theorem done {p : Page ps} (h : Ready after cur [] (some p)) : cur = some p := by
  rcases h with h | ⟨h, -⟩
  · cases h
    rfl
  · cases h

theorem image {page : Page ps} {lsn pid : Nat}
    (h : Ready after cur (⟨lsn, pid, .image page⟩ :: rs) fin)
    (hnew : ∀ p, cur = some p → p.lsn < lsn) : Ready after (some page) rs fin := by
  rcases h with h | ⟨h, -⟩
  · cases h with
    | stale hle _ => exact absurd (hnew _ rfl) (Nat.not_lt.mpr hle)
    | image _ _ h => exact .inl h
  · cases h with
    | image _ _ h => exact .inl h

theorem skip {p : Page ps} {r : PageRecord ps} (h : Ready after (some p) (r :: rs) fin)
    (hle : r.lsn ≤ p.lsn) (hpos : 0 < r.lsn) : Ready after (some p) rs fin := by
  rcases h with h | ⟨-, hzero⟩
  · cases h with
    | stale _ h => exact .inl h
    | image hnew _ _ => exact absurd (hnew _ rfl) (Nat.not_lt.mpr hle)
    | patch hnew _ _ => exact absurd hnew (Nat.not_lt.mpr hle)
  · have := hzero p rfl
    omega

/-- A patch that is applied finds the version it was made for. -/
theorem patch {ranges : List PatchRange} {lsn pid : Nat}
    (h : Ready after cur (⟨lsn, pid, .patch ranges⟩ :: rs) fin) :
    ∃ p, cur = some p ∧ (p.lsn < lsn → Ready after (some (applyRanges p ranges)) rs fin) := by
  rcases h with h | ⟨h, -⟩
  · cases h with
    | stale hle _ => exact ⟨_, rfl, fun hlt => absurd hlt (Nat.not_lt.mpr hle)⟩
    | patch _ _ h => exact ⟨_, rfl, fun _ => .inl h⟩
  · cases h

end Ready

/-! ## Recovery of a data file -/

def recordsOf (pid : Nat) (records : List (PageRecord ps)) : List (PageRecord ps) :=
  records.filter (·.pid = pid)

/-- Every page will be recovered to `fin`; pages beyond the known end have no
base version, so cutting the file does them no harm. -/
structure Recovering.Ready (after : Nat → Option (Page ps)) (fin : Nat → Option (Page ps))
    (records : List (PageRecord ps)) (d : Recovering (Page ps) (PageFile ps)) : Prop where
  next : d.currentNext = d.store.nextPageId
  page : ∀ pid, Wal.Ready after (d.store.pages pid) (recordsOf pid records) (fin pid)
  beyond : ∀ pid, d.currentNext ≤ pid → Chain after none (recordsOf pid records) (fin pid)

theorem recordsOf_cons_self (r : PageRecord ps) (records : List (PageRecord ps)) :
    recordsOf r.pid (r :: records) = r :: recordsOf r.pid records := by
  simp [recordsOf]

theorem recordsOf_cons_ne {pid : Nat} {r : PageRecord ps} (h : r.pid ≠ pid)
    (records : List (PageRecord ps)) :
    recordsOf pid (r :: records) = recordsOf pid records := by
  simp [recordsOf, h]

namespace Recovering.Ready

variable {after : Nat → Option (Page ps)} {fin : Nat → Option (Page ps)}
  {records : List (PageRecord ps)} {d : Recovering (Page ps) (PageFile ps)} {r : PageRecord ps}

/-- Writing the page of the first record, when the new version continues its
chain. -/
theorem writePage (h : d.Ready after fin (r :: records)) (hin : r.pid < d.currentNext)
    {page : Page ps} (hpage : Wal.Ready after (some page) (recordsOf r.pid records) (fin r.pid)) :
    (d.writePage (filePageStore ps) r.pid page).Ready after fin records := by
  refine ⟨h.next, ?_, ?_⟩
  · intro pid
    show Wal.Ready after (if pid = r.pid then _ else if pid < r.pid then _ else _) _ _
    by_cases hpid : pid = r.pid
    · rw [if_pos hpid, hpid]
      exact hpage
    have hold := h.page pid
    rw [recordsOf_cons_ne (Ne.symm hpid)] at hold
    rw [if_neg hpid]
    split
    · exact hold.getD_zero
    · exact hold
  · intro pid hpid
    have hpid : d.currentNext ≤ pid := hpid
    have hold := h.beyond pid hpid
    rw [recordsOf_cons_ne (by omega)] at hold
    exact hold

/-- Allocating a page beyond the end keeps every page recoverable. -/
theorem allocateFor (h : d.Ready after fin records) (pid : Nat) :
    (d.allocateFor (filePageStore ps) pid).Ready after fin records ∧
      pid < (d.allocateFor (filePageStore ps) pid).currentNext := by
  unfold Recovering.allocateFor
  split
  · rename_i hbeyond
    have halloc : d.store.nextPageId ≤ pid := h.next ▸ hbeyond
    simp only [filePageStore, PageFile.allocate, if_pos halloc]
    refine ⟨⟨rfl, ?_, ?_⟩, Nat.lt_succ_self pid⟩
    · intro q
      show Wal.Ready after (if q ≤ pid then _ else none) _ _
      split
      · exact (h.page q).getD_zero
      · exact .inl (h.beyond q (by omega))
    · intro q hq
      exact h.beyond q (hbeyond.trans (by simp only at hq; omega))
  · exact ⟨h, by omega⟩

theorem pageBuf (h : d.Ready after fin records) (page : Page ps) :
    ({ d with pageBuf := page } : Recovering (Page ps) (PageFile ps)).Ready after fin records :=
  ⟨h.next, h.page, h.beyond⟩

theorem skip (h : d.Ready after fin (r :: records)) (hin : r.pid < d.currentNext) {p : Page ps}
    (hp : d.store.pages r.pid = some p) (hle : r.lsn ≤ p.lsn) (hpos : 0 < r.lsn) :
    d.Ready after fin records := by
  refine ⟨h.next, ?_, ?_⟩
  · intro pid
    by_cases hpid : r.pid = pid
    · have hold := h.page r.pid
      rw [recordsOf_cons_self, hp] at hold
      rw [← hpid, hp]
      exact hold.skip hle hpos
    · have hold := h.page pid
      rw [recordsOf_cons_ne hpid] at hold
      exact hold
  · intro pid hpid
    have hold := h.beyond pid hpid
    rw [recordsOf_cons_ne (by omega)] at hold
    exact hold

theorem recoverPageImage {checkpointLsn lsn pid : Nat} {page : Page ps}
    (h : d.Ready after fin (⟨lsn, pid, .image page⟩ :: records)) (hckpt : checkpointLsn < lsn) :
    (d.recoverPageImage ⟨filePageStore ps, checkpointLsn, Page.lsn⟩ lsn pid
      (some page)).1.Ready after fin records := by
  unfold Recovering.recoverPageImage
  rw [if_neg (Nat.not_le.mpr hckpt)]
  simp only
  have himage : ∀ d' : Recovering (Page ps) (PageFile ps),
      d'.Ready after fin (⟨lsn, pid, .image page⟩ :: records) →
      (∀ p, d'.store.pages pid = some p → p.lsn < lsn) →
      Wal.Ready after (some page) (recordsOf pid records) (fin pid) := by
    intro d' hd' hnew
    have hown := hd'.page pid
    rw [recordsOf_cons_self ⟨lsn, pid, .image page⟩] at hown
    exact hown.image hnew
  split
  · rename_i hbeyond
    obtain ⟨halloc, hin⟩ := h.allocateFor pid
    refine halloc.writePage hin ?_
    have hchain := h.beyond pid hbeyond
    rw [recordsOf_cons_self ⟨lsn, pid, .image page⟩] at hchain
    cases hchain with
    | image _ _ hrest => exact .inl hrest
  rename_i hin
  have hin : pid < d.currentNext := Nat.not_le.mp hin
  split
  · rename_i habsent
    have habsent : d.store.pages pid = none := habsent
    exact h.writePage hin (himage d h (by simp [habsent]))
  rename_i onDisk hread
  split
  · rename_i hle
    exact (h.skip hin hread hle (by show 0 < lsn; omega)).pageBuf onDisk
  · rename_i hnew
    refine (h.pageBuf onDisk).writePage hin (himage _ (h.pageBuf onDisk) ?_)
    intro p hp
    have heq : onDisk = p := Option.some.inj (hread.symm.trans hp)
    exact heq ▸ Nat.not_le.mp hnew

theorem recoverPagePatch {checkpointLsn lsn pid : Nat} {ranges : List PatchRange}
    (h : d.Ready after fin (⟨lsn, pid, .patch ranges⟩ :: records)) (hckpt : checkpointLsn < lsn) :
    (d.recoverPagePatch ⟨filePageStore ps, checkpointLsn, Page.lsn⟩ lsn pid ranges).1.Ready
      after fin records := by
  obtain ⟨halloc, hin⟩ := h.allocateFor pid
  have hown := halloc.page pid
  rw [recordsOf_cons_self ⟨lsn, pid, .patch ranges⟩] at hown
  obtain ⟨p, hp, hpatch⟩ := hown.patch
  have hread : (filePageStore ps).readPage (d.allocateFor (filePageStore ps) pid).store pid =
      some p := hp
  unfold Recovering.recoverPagePatch
  rw [if_neg (Nat.not_le.mpr hckpt)]
  simp only [hread]
  split
  · rename_i hle
    exact (halloc.skip hin hp hle (by show 0 < lsn; omega)).pageBuf p
  · rename_i hnew
    exact (halloc.pageBuf (applyRanges p ranges)).writePage hin (hpatch (Nat.not_le.mp hnew))

theorem recoverRecord {checkpointLsn : Nat} (h : d.Ready after fin (r :: records))
    (hckpt : checkpointLsn < r.lsn) :
    (d.recoverRecord (filePageStore ps) checkpointLsn r).Ready after fin records := by
  obtain ⟨lsn, pid, change⟩ := r
  cases change with
  | image page => exact h.recoverPageImage hckpt
  | patch ranges => exact h.recoverPagePatch hckpt

/-- Applying all records brings every page to its last version. -/
theorem recover {checkpointLsn : Nat} (h : d.Ready after fin records)
    (hckpt : ∀ r ∈ records, checkpointLsn < r.lsn) :
    (records.foldl (Recovering.recoverRecord (filePageStore ps) checkpointLsn) d).Ready after fin
    [] := by
  induction records generalizing d with
  | nil => exact h
  | cons r records ih =>
    exact ih (h.recoverRecord (hckpt r mem_cons_self))
      fun x hx => hckpt x (mem_cons_of_mem r hx)

end Recovering.Ready

end Pagebox.Wal
