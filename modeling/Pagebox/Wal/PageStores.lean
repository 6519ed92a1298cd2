import Pagebox.Wal.PagePatch

/-!
# Recovery into a page store

`recover_page_image` and `recover_page_patch` of `wal/src/wal_impl.rs` over any
`RecoveryPageStore`, with the scratch buffer that all records share.  A store
answers `None` for a page it does not have and then leaves the buffer as it is.
`FilePageStore` and `InMemoryPageStore` are the two stores of the repository.

A file behaves as with ordinary `pread`, `pwrite` and `ftruncate`: a page beyond its
end is absent, and what lies between the old end and a page that is written or
allocated reads as zeros.
-/

namespace Pagebox.Wal

open Pagebox.Base

structure PageStore (π σ : Type) where
  readPage : σ → Nat → Option π
  writePage : σ → Nat → π → σ
  allocate : σ → Nat → σ
  nextPageId : σ → Nat

structure PageImageRecovery (π σ : Type) where
  store : PageStore π σ
  checkpointLsn : Nat
  readPageLsn : π → Nat

/-- The store with the local variables of `recover` that matter for it. -/
structure Recovering (π σ : Type) where
  store : σ
  currentNext : Nat
  pageBuf : π

inductive Outcome
  | ignored
  | skippedCheckpoint
  | skippedPageLsn
  | applied
  deriving DecidableEq

namespace Recovering

section Image

variable {π σ : Type} (st : PageStore π σ) (recovery : PageImageRecovery π σ)

def allocateFor (d : Recovering π σ) (pid : Nat) : Recovering π σ :=
  if d.currentNext ≤ pid then
    { d with
      store := st.allocate d.store pid
      currentNext := st.nextPageId (st.allocate d.store pid) }
  else d

def writePage (d : Recovering π σ) (pid : Nat) (page : π) : Recovering π σ :=
  { d with store := st.writePage d.store pid page }

/-- `recover_page_image`, where `data` may not have the size of a page; a page that had
to be allocated is not read. -/
def recoverPageImage (d : Recovering π σ) (lsn pid : Nat) (data : Option π) :
    Recovering π σ × Outcome :=
  if lsn ≤ recovery.checkpointLsn then (d, .skippedCheckpoint)
  else
    match data with
    | none => (d, .ignored)
    | some page =>
      if d.currentNext ≤ pid then
        ((d.allocateFor recovery.store pid).writePage recovery.store pid page, .applied)
      else
        match recovery.store.readPage d.store pid with
        | none => (d.writePage recovery.store pid page, .applied)
        | some onDisk =>
          let d := { d with pageBuf := onDisk }
          if lsn ≤ recovery.readPageLsn onDisk then (d, .skippedPageLsn)
          else (d.writePage recovery.store pid page, .applied)

end Image

section Patch

variable {ps : PageSize} {σ : Type} (st : PageStore (Page ps) σ)
  (recovery : PageImageRecovery (Page ps) σ)

def start (s : σ) : Recovering (Page ps) σ := ⟨s, st.nextPageId s, .zero ps⟩

/-- The end of `recover_page_patch`; an absent page leaves the buffer as the record
before left it. -/
def patchBuf (d : Recovering (Page ps) σ) (pid : Nat) (ranges : List PatchRange) :
    Recovering (Page ps) σ :=
  let page := applyRanges d.pageBuf ranges
  { d with pageBuf := page }.writePage st pid page

def recoverPagePatch (d : Recovering (Page ps) σ) (lsn pid : Nat) (ranges : List PatchRange) :
    Recovering (Page ps) σ × Outcome :=
  if lsn ≤ recovery.checkpointLsn then (d, .skippedCheckpoint)
  else
    let d := d.allocateFor recovery.store pid
    match recovery.store.readPage d.store pid with
    | none => (d.patchBuf recovery.store pid ranges, .applied)
    | some onDisk =>
      let d := { d with pageBuf := onDisk }
      if lsn ≤ recovery.readPageLsn onDisk then (d, .skippedPageLsn)
      else (d.patchBuf recovery.store pid ranges, .applied)

end Patch

end Recovering

/-! ## Page records -/

inductive Change (ps : PageSize)
  | image (page : Page ps)
  | patch (ranges : List PatchRange)
  deriving DecidableEq

structure PageRecord (ps : PageSize) where
  lsn : Nat
  pid : Nat
  change : Change ps
  deriving DecidableEq

section Records

variable {ps : PageSize} {σ : Type} (st : PageStore (Page ps) σ)

def Recovering.recoverRecord (checkpointLsn : Nat) (d : Recovering (Page ps) σ)
    (r : PageRecord ps) : Recovering (Page ps) σ :=
  match r.change with
  | .image page => (d.recoverPageImage ⟨st, checkpointLsn, Page.lsn⟩ r.lsn r.pid (some page)).1
  | .patch ranges => (d.recoverPagePatch ⟨st, checkpointLsn, Page.lsn⟩ r.lsn r.pid ranges).1

/-- A log of page records, in the order in which recovery applies them: file order for
one shard, LSN order for several. -/
def recoverLog (checkpointLsn : Nat) (s : σ) (log : List (PageRecord ps)) :
    Recovering (Page ps) σ :=
  log.foldl (Recovering.recoverRecord st checkpointLsn) (.start st s)

end Records

/-! ## The two stores -/

structure PageFile (ps : PageSize) where
  pages : Nat → Option (Page ps)
  nextPageId : Nat

namespace PageFile

variable {ps : PageSize}

def writePage (f : PageFile ps) (pid : Nat) (page : Page ps) : PageFile ps :=
  { f with pages := fun q =>
      if q = pid then some page
      else if q < pid then some ((f.pages q).getD (.zero ps))
      else f.pages q }

def allocate (f : PageFile ps) (pid : Nat) : PageFile ps :=
  if f.nextPageId ≤ pid then
    { pages := fun q => if q ≤ pid then some ((f.pages q).getD (.zero ps)) else none
      nextPageId := pid + 1 }
  else f

end PageFile

section Stores

variable {ps : PageSize}

def filePageStore (ps : PageSize) : PageStore (Page ps) (PageFile ps) where
  readPage f pid := f.pages pid
  writePage := PageFile.writePage
  allocate := PageFile.allocate
  nextPageId f := f.nextPageId

/-- `InMemoryPageStore`: the newest entry of a page counts. -/
structure MemoryPages (ps : PageSize) where
  entries : List (Nat × Page ps)

def MemoryPages.insert (s : MemoryPages ps) (pid : Nat) (page : Page ps) : MemoryPages ps :=
  ⟨(pid, page) :: s.entries⟩

def MemoryPages.nextPageId (s : MemoryPages ps) : Nat := (s.entries.map (·.1)).foldr max 0 + 1

end Stores

/-! ## What recovery relies on -/

section Laws

variable {ps : PageSize} {σ : Type}

/-- A page that is written or allocated is there.  Other pages keep what they have;
those the store did not have may read as zeros, and allocating a page may drop the
pages behind it, which `next_page_id` did not cover. -/
structure PageStore.Lawful (st : PageStore (Page ps) σ) : Prop where
  read_write : ∀ s p page, st.readPage (st.writePage s p page) p = some page
  read_write_ne : ∀ s p q page, q ≠ p → st.readPage (st.writePage s p page) q = st.readPage s q ∨
      (st.readPage s q = none ∧ st.readPage (st.writePage s p page) q = some (.zero ps))
  next_write : ∀ s p page, p < st.nextPageId s →
    st.nextPageId (st.writePage s p page) = st.nextPageId s
  read_allocate : ∀ s p, st.nextPageId s ≤ p →
    st.readPage (st.allocate s p) p = some ((st.readPage s p).getD (.zero ps))
  read_allocate_ne : ∀ s p q, st.nextPageId s ≤ p → q ≠ p →
    st.readPage (st.allocate s p) q = st.readPage s q ∨
      (st.readPage s q = none ∧ st.readPage (st.allocate s p) q = some (.zero ps)) ∨
      (p < q ∧ st.readPage (st.allocate s p) q = none)
  next_allocate : ∀ s p, st.nextPageId s ≤ p → st.nextPageId (st.allocate s p) = p + 1

end Laws

end Pagebox.Wal
