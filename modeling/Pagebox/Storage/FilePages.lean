import Mathlib.Logic.Function.Basic
import Pagebox.Base.Files
import Pagebox.Base.Runs
import Pagebox.Wal.RecoverPages

/-!
# The page file down to its bytes

`FilePageStore` of `storage/src/page_store.rs`: page `pid` is the range of one page
size at `pid` times the page size, with the header in place of page 0.  Writes may go to
any page; `allocate` keeps the number of the last allocated page in a counter of its own
and sets the length of the file from the page it is called for.
-/

namespace Pagebox.Storage

open Pagebox.Base Pagebox.Wal Function

variable {ps : PageSize}

/-- The file and the values that go into the header page. -/
structure FilePageStore (ps : PageSize) where
  file : Bytes
  pageCount : Nat
  checkpointLsn : Nat
  userMeta0 : Nat
  userMeta1 : Nat
  userMeta2 : Nat

def headerMagic : Nat := 0x424F5854

def headerVersion : Nat := 2

def buildHeader (ps : PageSize) (pageCount checkpointLsn userMeta0 userMeta1 userMeta2 : Nat) :
    Bytes :=
  padTo ps.bytes (leBytes 4 headerMagic ++ leBytes 2 headerVersion ++ leBytes 2 0 ++
    leBytes 8 pageCount ++ leBytes 8 checkpointLsn ++ leBytes 8 userMeta0 ++ leBytes 8 userMeta1 ++
    leBytes 8 userMeta2 ++ leBytes 4 ps.bytes)

theorem length_buildHeader (ps : PageSize)
    (pageCount checkpointLsn userMeta0 userMeta1 userMeta2 : Nat) :
    (buildHeader ps pageCount checkpointLsn userMeta0 userMeta1 userMeta2).length = ps.bytes := by
  have hle := PageSize.le_bytes ps
  refine length_padTo ?_
  simp only [List.length_append, length_leBytes]
  omega

namespace FilePageStore

/-- `page_offset`, a product of type `i64` that wraps; from `2 ^ 63` on it is negative. -/
def pageOffset (ps : PageSize) (pid : Nat) : Nat := pid * ps.bytes % 2 ^ 64

/-- The `new_end` of `allocate`, which wraps as well. -/
def newEnd (ps : PageSize) (pid : Nat) : Nat := (pageOffset ps pid + ps.bytes) % 2 ^ 64

/-- The offsets of the page do not wrap, and a file can hold it. -/
def InRange (ps : PageSize) (pid : Nat) : Prop := (pid + 1) * ps.bytes < 2 ^ 63

instance (ps : PageSize) (pid : Nat) : Decidable (InRange ps pid) :=
  inferInstanceAs (Decidable (_ < _))

def create (ps : PageSize) : FilePageStore ps := ⟨buildHeader ps 0 0 0 0 0, 0, 0, 0, 0, 0⟩

variable (s : FilePageStore ps)

/-- `read_page`; a page that the file does not hold in full is absent. -/
def readPage (pid : Nat) : Option Bytes :=
  pread s.file (pageOffset ps pid) ps.bytes

def writePage (pid : Nat) (page : Page ps) : FilePageStore ps :=
  { s with file := pwrite s.file (pageOffset ps pid) page.bytes }

def syncHeader : FilePageStore ps :=
  let header := buildHeader ps s.pageCount s.checkpointLsn s.userMeta0 s.userMeta1 s.userMeta2
  { s with file := pwrite s.file 0 header }

def allocate (pid : Nat) : FilePageStore ps :=
  if s.pageCount < pid then
    syncHeader { s with file := ftruncate s.file (newEnd ps pid), pageCount := pid }
  else s

/-- The page is allocated already, or the file ends with it or right before it: all
pages between the header and it are there, and none behind it. -/
def NextToEnd (pid : Nat) : Prop :=
  s.pageCount < pid →
    (pid ≤ 1 ∨ pid * ps.bytes ≤ s.file.length) ∧ s.file.length < (pid + 2) * ps.bytes

end FilePageStore

/-- A store with the pages that were written to it, as they were written last. -/
structure FilePages (ps : PageSize) where
  store : FilePageStore ps
  written : Nat → Option (Page ps)

namespace FilePages

open FilePageStore

inductive Action (ps : PageSize)
  | write (pid : Nat) (page : Page ps)
  | allocate (pid : Nat)

/-- No state when the call returns an error: an offset is negative or too large. -/
def step (s : FilePages ps) : Action ps → Option (FilePages ps)
  | .write pid page =>
    if pageOffset ps pid + ps.bytes < 2 ^ 63 then
      some ⟨s.store.writePage pid page, update s.written pid (some page)⟩
    else none
  | .allocate pid =>
    if s.store.pageCount < pid → newEnd ps pid < 2 ^ 63 then
      some { s with store := s.store.allocate pid }
    else none

theorem step_write (s : FilePages ps) {pid : Nat} (h : pageOffset ps pid + ps.bytes < 2 ^ 63)
    (page : Page ps) : s.step (.write pid page) =
      some ⟨s.store.writePage pid page, update s.written pid (some page)⟩ :=
  if_pos h

theorem step_allocate (s : FilePages ps) {pid : Nat} (h : newEnd ps pid < 2 ^ 63) :
    s.step (.allocate pid) = some { s with store := s.store.allocate pid } :=
  if_pos fun _ => h

/-- The header page is not written, a page is allocated at the end of the file, and no
offset wraps. -/
def safe (s : FilePages ps) : Action ps → Prop
  | .write pid _ => pid ≠ 0 ∧ InRange ps pid
  | .allocate pid => (s.store.pageCount < pid → InRange ps pid) ∧ s.store.NextToEnd pid

end FilePages

/-! ## What a call changes -/

namespace FilePageStore

variable {s : FilePageStore ps} {pid q : Nat}

theorem bytes_pos (ps : PageSize) : 0 < ps.bytes :=
  (by decide : 0 < 4096).trans_le (PageSize.le_bytes ps)

theorem pageOffset_eq (h : InRange ps pid) : pageOffset ps pid = pid * ps.bytes := by
  rw [InRange, Nat.succ_mul] at h
  exact Nat.mod_eq_of_lt (by omega)

theorem newEnd_eq (h : InRange ps pid) : newEnd ps pid = (pid + 1) * ps.bytes := by
  rw [newEnd, pageOffset_eq h, ← Nat.succ_mul]
  exact Nat.mod_eq_of_lt (h.trans (by decide))

theorem InRange.mono (h : InRange ps pid) (hle : q ≤ pid) : InRange ps q :=
  (Nat.mul_le_mul_right ps.bytes (Nat.succ_le_succ hle)).trans_lt h

/-- Pages at different offsets do not overlap, wrapped or not. -/
theorem pageOffset_disjoint (h : pageOffset ps q ≠ pageOffset ps pid) :
    pageOffset ps q + ps.bytes ≤ pageOffset ps pid ∨
      pageOffset ps pid + ps.bytes ≤ pageOffset ps q := by
  have hdvd : ∀ n, ps.bytes ∣ pageOffset ps n := fun n =>
    (Nat.dvd_mod_iff (by cases ps <;> decide)).mpr (Nat.dvd_mul_left _ n)
  obtain ⟨a, ha⟩ := hdvd q
  obtain ⟨b, hb⟩ := hdvd pid
  rw [ha, hb] at h ⊢
  rw [← Nat.mul_succ, ← Nat.mul_succ]
  rcases Nat.lt_or_gt_of_ne fun hab => h (congrArg _ hab) with hlt | hgt
  · exact .inl (Nat.mul_le_mul_left _ hlt)
  · exact .inr (Nat.mul_le_mul_left _ hgt)

theorem readPage_writePage_self (s : FilePageStore ps) (pid : Nat) (page : Page ps) :
    (s.writePage pid page).readPage pid = some page.bytes := by
  have hread : pread (pwrite s.file (pageOffset ps pid) page.bytes) (pageOffset ps pid)
      page.bytes.length = some page.bytes := pread_pwrite_self
  rwa [page.size] at hread

theorem readPage_writePage_of_ne {bytes : Bytes} (hne : pageOffset ps q ≠ pageOffset ps pid)
    (h : s.readPage q = some bytes) (page : Page ps) :
    (s.writePage pid page).readPage q = some bytes := by
  have hlen : pageOffset ps q + ps.bytes ≤ s.file.length :=
    pread_isSome.mp (by rw [← readPage, h]; rfl)
  rw [← h]
  exact pread_pwrite_of_disjoint hlen (by rw [page.size]; exact pageOffset_disjoint hne)

theorem length_allocate (h : s.pageCount < pid) (hpid : InRange ps pid) :
    (s.allocate pid).file.length = (pid + 1) * ps.bytes := by
  have hle : ps.bytes ≤ (pid + 1) * ps.bytes := Nat.le_mul_of_pos_left _ pid.succ_pos
  rw [allocate, if_pos h, syncHeader, length_pwrite, length_ftruncate, length_buildHeader,
    newEnd_eq hpid]
  omega

/-- Allocation keeps the pages before the end that it sets: the header that it writes is
not part of any page but page 0. -/
theorem readPage_allocate_of_le (h : s.pageCount < pid) (hpid : InRange ps pid) (hq : q ≠ 0)
    (hle : q ≤ pid) (hlen : (q + 1) * ps.bytes ≤ s.file.length) :
    (s.allocate pid).readPage q = s.readPage q := by
  have hend : (q + 1) * ps.bytes ≤ (pid + 1) * ps.bytes :=
    Nat.mul_le_mul_right _ (Nat.succ_le_succ hle)
  have hheader : ps.bytes ≤ q * ps.bytes := Nat.le_mul_of_pos_left _ (Nat.pos_of_ne_zero hq)
  rw [Nat.succ_mul] at hend hlen
  rw [allocate, if_pos h, readPage, readPage, syncHeader, newEnd_eq hpid,
    pageOffset_eq (hpid.mono hle)]
  calc pread (pwrite (ftruncate s.file ((pid + 1) * ps.bytes)) 0 _) (q * ps.bytes) ps.bytes
      = pread (ftruncate s.file ((pid + 1) * ps.bytes)) (q * ps.bytes) ps.bytes :=
        pread_pwrite_of_disjoint (by rw [length_ftruncate]; exact hend)
          (.inr (by rw [length_buildHeader, Nat.zero_add]; exact hheader))
    _ = pread s.file (q * ps.bytes) ps.bytes := pread_ftruncate hlen hend

theorem readPage_allocate_of_gt (h : s.pageCount < pid) (hpid : InRange ps pid)
    (hrange : InRange ps q) (hgt : pid < q) : (s.allocate pid).readPage q = none := by
  have hle : (pid + 1) * ps.bytes ≤ q * ps.bytes := Nat.mul_le_mul_right _ hgt
  have hpos := bytes_pos ps
  refine pread_eq_none ?_
  rw [length_allocate h hpid, pageOffset_eq hrange]
  omega

theorem readPage_isSome (hq : InRange ps q) :
    (s.readPage q).isSome ↔ (q + 1) * ps.bytes ≤ s.file.length := by
  rw [readPage, pread_isSome, pageOffset_eq hq, ← Nat.succ_mul]

/-- An allocation leaves all other pages alone exactly when it is next to the end. -/
theorem allocate_frames_iff (s : FilePageStore ps) (hpid : InRange ps (pid + 1)) :
    (∀ q, InRange ps q → q ≠ pid → q ≠ 0 → (s.allocate pid).readPage q = s.readPage q) ↔
      s.NextToEnd pid := by
  have hrange : InRange ps pid := hpid.mono (Nat.le_succ pid)
  by_cases hcount : s.pageCount < pid
  · constructor
    · intro h _
      constructor
      · by_contra hnot
        rw [not_or] at hnot
        -- page `pid - 1` appears with the new length
        have hprev : InRange ps (pid - 1) := hrange.mono (Nat.sub_le pid 1)
        have hsome : ((s.allocate pid).readPage (pid - 1)).isSome := by
          rw [readPage_isSome hprev, length_allocate hcount hrange]
          exact Nat.mul_le_mul_right _ (by omega)
        rw [h (pid - 1) hprev (by omega) (by omega), readPage_isSome hprev,
          Nat.sub_add_cancel (by omega)] at hsome
        exact hnot.2 hsome
      have hnext := h (pid + 1) hpid (Nat.succ_ne_self pid) (Nat.succ_ne_zero pid)
      rw [readPage_allocate_of_gt hcount hrange hpid (Nat.lt_succ_self pid)] at hnext
      refine Nat.lt_of_not_le fun hle => ?_
      have hsome := (readPage_isSome hpid).mpr hle
      rw [← hnext] at hsome
      cases hsome
    intro h q hq hne hzero
    obtain ⟨hbefore, hbehind⟩ := h hcount
    rcases Nat.lt_or_gt_of_ne hne with hlt | hgt
    · refine readPage_allocate_of_le hcount hrange hzero hlt.le ?_
      exact (Nat.mul_le_mul_right _ hlt).trans (hbefore.resolve_left (by omega))
    · rw [readPage_allocate_of_gt hcount hrange hq hgt]
      refine (pread_eq_none ?_).symm
      rw [pageOffset_eq hq, ← Nat.succ_mul]
      exact hbehind.trans_le (Nat.mul_le_mul_right _ (by omega))
  · refine ⟨fun _ h => absurd h hcount, fun _ q _ _ _ => ?_⟩
    rw [allocate, if_neg hcount]

end FilePageStore

open FilePageStore

def FilePages.Kept (s : FilePages ps) : Prop :=
  ∀ q page, s.written q = some page →
    q ≠ 0 ∧ InRange ps q ∧ s.store.readPage q = some page.bytes

theorem FilePages.Kept.step {s s' : FilePages ps} {act : FilePages.Action ps} (h : s.Kept)
    (hsafe : s.safe act) (hstep : s.step act = some s') : s'.Kept := by
  intro q page hwritten
  cases act with
  | write pid new =>
    obtain ⟨-, ⟨⟩⟩ := Option.ite_none_right_eq_some.mp hstep
    dsimp only at hwritten ⊢
    by_cases hq : q = pid
    · subst hq
      rw [update_self, Option.some.injEq] at hwritten
      subst hwritten
      exact ⟨hsafe.1, hsafe.2, s.store.readPage_writePage_self q new⟩
    · rw [update_of_ne hq] at hwritten
      obtain ⟨hzero, hrange, hread⟩ := h q page hwritten
      refine ⟨hzero, hrange, readPage_writePage_of_ne ?_ hread new⟩
      rw [pageOffset_eq hrange, pageOffset_eq hsafe.2]
      exact fun heq => hq (Nat.eq_of_mul_eq_mul_right (bytes_pos ps) heq)
  | allocate pid =>
    obtain ⟨-, ⟨⟩⟩ := Option.ite_none_right_eq_some.mp hstep
    obtain ⟨hzero, hrange, hread⟩ := h q page hwritten
    refine ⟨hzero, hrange, ?_⟩
    by_cases hcount : s.store.pageCount < pid
    · have hlen := (readPage_isSome hrange).mp (Option.isSome_of_eq_some hread)
      have hle : q ≤ pid := by
        have hlt := hlen.trans_lt (hsafe.2 hcount).2
        have := Nat.lt_of_mul_lt_mul_right hlt
        omega
      rw [readPage_allocate_of_le hcount (hsafe.1 hcount) hzero hle hlen, hread]
    · rw [FilePageStore.allocate, if_neg hcount, hread]

/-- In a run whose allocations are next to the end of the file and whose offsets do not
wrap, every page that was written reads as it was written last, and an allocation changes
no other page exactly when it is next to the end. -/
theorem written_pages_kept {s₀ s : FilePages ps} (hnew : ∀ q, s₀.written q = none)
    (hrun : Reach FilePages.step FilePages.safe s₀ s) :
    (∀ q page, s.written q = some page → s.store.readPage q = some page.bytes) ∧
      ∀ pid, InRange ps (pid + 1) →
        ((∀ q, InRange ps q → q ≠ pid → q ≠ 0 →
            (s.store.allocate pid).readPage q = s.store.readPage q) ↔
          s.store.NextToEnd pid) := by
  have hstart : s₀.Kept := by
    intro q page h
    rw [hnew q] at h
    cases h
  have hkept : s.Kept := hrun.invariant hstart fun _ _ _ ih hsafe hstep => ih.step hsafe hstep
  exact ⟨fun q page h => (hkept q page h).2.2, fun pid hpid => s.store.allocate_frames_iff hpid⟩

/-- Page 1 is allocated, then pages 1 and 2 are written, and page 3 is allocated behind
them. -/
theorem written_pages_kept_two : ∃ s : FilePages .k4, (s.written 1).isSome ∧ (s.written 2).isSome ∧
      ∀ q page, s.written q = some page → s.store.readPage q = some page.bytes := by
  have hlen : (FilePageStore.create .k4).file.length = 4096 := length_buildHeader ..
  have hsafe : FilePages.safe ⟨.create .k4, fun _ => none⟩ (.allocate 1) :=
    ⟨fun _ => by decide, fun _ => ⟨.inl le_rfl, by rw [hlen]; decide⟩⟩
  have hallocated : Reach FilePages.step FilePages.safe ⟨.create .k4, fun _ => none⟩ _ :=
    .tail (.allocate 1) .refl hsafe (FilePages.step_allocate _ (by decide))
  have hone := hallocated.tail (FilePages.Action.write 1 (.zero .k4))
    ⟨Nat.one_ne_zero, by decide⟩ (FilePages.step_write _ (by decide) _)
  have htwo := hone.tail (FilePages.Action.write 2 (.zero .k4))
    ⟨Nat.succ_ne_zero 1, by decide⟩ (FilePages.step_write _ (by decide) _)
  have hend : ((((FilePageStore.create .k4).allocate 1).writePage 1 (.zero .k4)).writePage 2
      (.zero .k4)).file.length = 3 * 4096 := by
    simp only [writePage, length_pwrite, Page.size]
    rw [length_allocate Nat.one_pos (by decide)]
    decide
  have hrun := htwo.tail (FilePages.Action.allocate 3)
    ⟨fun _ => by decide, fun _ => ⟨.inr hend.ge, by rw [hend]; decide⟩⟩
    (FilePages.step_allocate _ (by decide))
  exact ⟨_, rfl, rfl, (written_pages_kept (fun _ => rfl) hrun).1⟩

/-- Page 99 is written to a new store; allocating page 5 then cuts it off. -/
theorem allocate_loses_page :
    ∃ s s' : FilePages .k4, Reach FilePages.step anyStep ⟨.create .k4, fun _ => none⟩ s ∧
      s.store.readPage 99 = some (Page.zero .k4).bytes ∧
      s.step (.allocate 5) = some s' ∧ s'.written 99 = some (.zero .k4) ∧
      s'.store.readPage 99 = none := by
  refine ⟨_, _, .tail (.write 99 (.zero .k4)) .refl trivial (FilePages.step_write _ (by decide) _),
    readPage_writePage_self _ _ _, FilePages.step_allocate _ (by decide), rfl, ?_⟩
  exact readPage_allocate_of_gt (Nat.succ_pos 4) (by decide) (by decide) (by decide)

end Pagebox.Storage
