import Mathlib.Logic.Function.Basic
import Pagebox.Base.Runs
import Pagebox.Storage.Frame
import Pagebox.Wal.PageChain
import Pagebox.Wal.PageLog

/-!
# Logged pages

A buffer pool over a page store and a WAL with one shard, as one thread uses it:
every call is one step (`mark_dirty_raw`, `mark_dirty_ranges_raw`,
`try_flush_dirty_batch` on one page, `flush`, eviction and refault, page
creation), and so is each move of the WAL driver.

Pages are kept in the form in which they are logged and written back, with child
links as page ids.  A frame is found through its page id.  A call that would wait
for the driver is not enabled: the driver moves first.
-/

namespace Pagebox.Storage.LoggedPages

open Pagebox.Base Pagebox.Wal Function

def pageMutationMaxRanges : Nat := 8

/-- `PageMutation`: the changed ranges, or the marker for a full image. -/
structure PageMutation (ps : PageSize) where
  ranges : List (Nat × Nat)
  fullImage : Bool
  bounds : ∀ range ∈ ranges, 8 ≤ range.1 ∧ range.1 < range.2 ∧ range.2 ≤ ps.bytes
  count : ranges.length ≤ pageMutationMaxRanges

namespace PageMutation

variable {ps : PageSize}

def isEmpty (m : PageMutation ps) : Bool := m.ranges.isEmpty && !m.fullImage

/-- The mutation reports every byte that `new` changed in `old`, apart from the
page LSN. -/
def Covers (m : PageMutation ps) (old new : Page ps) : Prop :=
  m.fullImage = true ∨ ∀ i : Nat, 8 ≤ i → old.bytes[i]? ≠ new.bytes[i]? →
    ∃ range ∈ m.ranges, range.1 ≤ i ∧ i < range.2

/-- The ranges `mark_dirty_ranges_raw` logs: the page LSN and the reported ones. -/
def patchRanges (m : PageMutation ps) (lsn : Nat) (page : Page ps) : List PatchRange :=
  (0, leBytes 8 lsn) :: m.ranges.map fun range => (range.1, page.slice range.1 range.2)

end PageMutation

structure Frame (ps : PageSize) where
  core : FrameCore
  page : Page ps

variable {cfg : Config}

structure State (cfg : Config) where
  nextLsn : Nat
  shard : Shard
  frames : Nat → Option (Frame cfg.pageSize)
  /-- The pages that have a frame. -/
  resident : List Nat
  /-- The page store: what the last sync covers and what was written since, newest
  first. -/
  synced : Nat → Option (Page cfg.pageSize)
  written : Nat → List (Page cfg.pageSize)
  /-- The page store when the run started. -/
  initial : Nat → Option (Page cfg.pageSize)
  /-- The page a mutation left, by the LSN of the mutation. -/
  after : Nat → Option (Page cfg.pageSize)

def opened (cfg : Config) (initial : Nat → Option (Page cfg.pageSize)) (durableLsn nextLsn : Nat) :
    State cfg where
  nextLsn := nextLsn
  shard := Shard.new cfg durableLsn
  frames := fun _ => none
  resident := []
  synced := initial
  written := fun _ => []
  initial := initial
  after := fun _ => none

namespace State

variable (s : State cfg)

def stored (pid : Nat) : Option (Page cfg.pageSize) :=
  (s.written pid).head?.or (s.synced pid)

/-- The versions of a page that a crash may leave in the store. -/
def survivors (pid : Nat) : List (Option (Page cfg.pageSize)) :=
  s.synced pid :: (s.written pid).map some

def setFrame (pid : Nat) (frame : Option (Frame cfg.pageSize)) : State cfg :=
  { s with frames := update s.frames pid frame }

/-- The frame, the log and the ghost history after a mutation was logged at the
next LSN. -/
def logged (pid : Nat) (core : FrameCore) (page : Page cfg.pageSize)
    (shard : Shard) : State cfg :=
  { s.setFrame pid (some ⟨core.finishDirtyMark, page⟩) with
    nextLsn := (s.nextLsn + 1) % u64Limit
    shard := shard.publishAppended s.nextLsn
    after := update s.after s.nextLsn (some page) }

def create (pid : Nat) : Option (State cfg) :=
  if 0 < pid ∧ s.frames pid = none ∧ s.stored pid = none then
    some { s.setFrame pid (some ⟨⟨pid, 0, false, 0, false, .none⟩, .zero cfg.pageSize⟩) with
      resident := pid :: s.resident
      written := update s.written pid [.zero cfg.pageSize] }
  else none

/-- `append_full_page_image_with_lsn` at the next LSN, after the page was changed
to `page`: overwrite the image the frame has in the active buffer, or append.  A run
is not followed beyond an overwrite through a data page that reads as a meta page. -/
def appendFullPageImage (pid : Nat) (fr : Frame cfg.pageSize)
    (page : Page cfg.pageSize) : Option (State cfg) :=
  let page := page.writeLsn s.nextLsn
  let prev := fr.core.walRecord
  let overwrites := fr.core.dirty = true ∧ prev.epoch ≠ 0 ∧ prev.offset ≠ 0
  if overwrites ∧ s.shard.active.misreads cfg.pageSize prev.epoch prev.offset = true then none
  else
    let overwritten :=
      if overwrites then
        s.shard.active.overwritePageImage prev.epoch prev.offset s.nextLsn pid page.bytes
      else none
    match overwritten with
    | some active =>
      some (s.logged pid (fr.core.imageLogged s.nextLsn prev) page { s.shard with active })
    | none =>
      match s.shard.beginAppend cfg s.nextLsn (.pageImage pid page.bytes) with
      | some (shard, []) =>
        some (s.logged pid
          (fr.core.imageLogged s.nextLsn ⟨shard.active.epoch, shard.active.lastOffset⟩) page shard)
      | _ => none

def markDirty (pid : Nat) (page : Page cfg.pageSize) : Option (State cfg) := do
  let fr ← s.frames pid
  s.appendFullPageImage pid fr page

def markDirtyRanges (pid : Nat) (page : Page cfg.pageSize)
    (m : PageMutation cfg.pageSize) : Option (State cfg) :=
  if m.isEmpty then none
  else do
    let fr ← s.frames pid
    if m.fullImage = true ∨ fr.core.hasPageImageBase = false then s.appendFullPageImage pid fr page
    else
      let stamped := page.writeLsn s.nextLsn
      match encodePagePatchRangesPayload cfg.pageSize pid (m.patchRanges s.nextLsn stamped) with
      | none => s.appendFullPageImage pid fr page
      | some payload =>
        match s.shard.beginAppend cfg s.nextLsn (.logical logicalKindPagePatch payload) with
        | some (shard, []) =>
          some (s.logged pid (fr.core.patchLogged s.nextLsn) stamped shard)
        | _ => none

/-- The background cleaner writes a dirty page whose LSN is durable. -/
def clean (pid : Nat) : Option (State cfg) := do
  let fr ← s.frames pid
  if fr.core.dirty = true ∧ fr.core.pageLsn ≤ s.shard.durableLsn then
    some { s.setFrame pid (some { fr with core := fr.core.clearDirty }) with
      written := update s.written pid (fr.page :: s.written pid) }
  else none

def isDirty (pid : Nat) : Bool := (s.frames pid).any (·.core.dirty)

/-- `flush`, once the WAL flush at its start has returned: without dirty pages
the store is not synced. -/
def flush : Option (State cfg) :=
  let dirty := s.resident.filter s.isDirty
  if dirty.all fun pid => (s.frames pid).all (·.core.pageLsn ≤ s.shard.durableLsn) then
    if dirty.isEmpty then some s
    else some { s with
      synced := fun pid =>
        if pid ∈ dirty then (s.frames pid).map (·.page) else s.stored pid
      written := fun _ => []
      frames := fun pid =>
        if pid ∈ dirty then (s.frames pid).map fun fr => { fr with core := fr.core.clearDirty }
        else s.frames pid }
  else none

def evict (pid : Nat) : Option (State cfg) := do
  let fr ← s.frames pid
  if fr.core.dirty = false then
    some { s.setFrame pid none with resident := s.resident.erase pid }
  else none

/-- A page is read back into a frame that `core` describes before. -/
def fault (pid : Nat) (core : FrameCore) : Option (State cfg) :=
  if s.frames pid = none then do
    let page ← s.stored pid
    some { s.setFrame pid (some ⟨core.installLoaded pid page.lsn, page⟩) with
      resident := pid :: s.resident }
  else none

def onShard (f : Shard → Option Shard) : Option (State cfg) :=
  (f s.shard).map fun shard => { s with shard }

end State

inductive Action (cfg : Config)
  | create (pid : Nat)
  | markDirty (pid : Nat) (page : Page cfg.pageSize)
  | markDirtyRanges (pid : Nat) (page : Page cfg.pageSize) (m : PageMutation cfg.pageSize)
  | clean (pid : Nat)
  | flush
  | evict (pid : Nat)
  | fault (pid : Nat) (core : FrameCore)
  | sealActive
  | writeAndSync

def step (s : State cfg) : Action cfg → Option (State cfg)
  | .create pid => s.create pid
  | .markDirty pid page => s.markDirty pid page
  | .markDirtyRanges pid page m => s.markDirtyRanges pid page m
  | .clean pid => s.clean pid
  | .flush => s.flush
  | .evict pid => s.evict pid
  | .fault pid core => s.fault pid core
  | .sealActive => s.onShard Shard.sealActive
  | .writeAndSync => s.onShard Shard.writeAndSync

/-- What callers of `mark_dirty_ranges_raw` promise: the ranges cover every byte
they changed. -/
def Reported (s : State cfg) : Action cfg → Prop
  | .markDirtyRanges pid page m => ∀ fr, s.frames pid = some fr → m.Covers fr.page page
  | _ => True

def numberLimit : Nat := 2 ^ 48

/-- The LSN and the page id of a mutation are below a limit: LSNs do not wrap, and a data
page of the log that begins with one of them does not read as a meta page. -/
def Bounded (s : State cfg) : Action cfg → Prop
  | .markDirty pid _ | .markDirtyRanges pid _ _ => s.nextLsn < numberLimit ∧ pid < numberLimit
  | _ => True

/-! ## The page after its last durable record -/

namespace State

def durableLsns (s : State cfg) (pid : Nat) : List Nat :=
  (recordsOf pid (pageRecords cfg.pageSize s.shard.durableLog)).map (·.lsn)

def lastDurable (s : State cfg) (pid : Nat) : Option (Page cfg.pageSize) :=
  match (s.durableLsns pid).max? with
  | some lsn => s.after lsn
  | none => s.initial pid

end State

/-! ## What each step does -/

section Cases

variable {s s' : State cfg} {pid : Nat}

/-- The page image of a mutation is in the log at the next LSN: in the place of the
older image that the frame names, or at the end. -/
def ImageLogged (s : State cfg) (core : FrameCore) (pid : Nat) (page : Page cfg.pageSize)
    (shard : Shard) : Prop :=
  (∃ active, core.dirty = true ∧ core.walRecord.offset ≠ 0 ∧
      s.shard.active.overwritePageImage core.walRecord.epoch core.walRecord.offset s.nextLsn pid
        page.bytes = some active ∧ shard = { s.shard with active }) ∨
    s.shard.beginAppend cfg s.nextLsn (.pageImage pid page.bytes) = some (shard, [])

theorem appendFullPageImage_cases {fr : Frame cfg.pageSize} {page : Page cfg.pageSize}
    (h : s.appendFullPageImage pid fr page = some s') :
    ∃ record shard, ImageLogged s fr.core pid (page.writeLsn s.nextLsn) shard ∧
      s' = s.logged pid (fr.core.imageLogged s.nextLsn record) (page.writeLsn s.nextLsn) shard := by
  unfold State.appendFullPageImage at h
  simp only at h
  split at h
  · cases h
  split at h
  · rename_i active hover
    cases h
    split at hover
    · rename_i hprev
      exact ⟨_, _, .inl ⟨active, hprev.1, hprev.2.2, hover, rfl⟩, rfl⟩
    · cases hover
  · split at h
    · rename_i shard happ
      cases h
      exact ⟨_, shard, .inr happ, rfl⟩
    · cases h

/-- `mark_dirty_ranges_raw` logs a patch: the frame has an image as a base, and the
ranges can be encoded. -/
def State.logsPatch (s : State cfg) (pid : Nat) (page : Page cfg.pageSize)
    (m : PageMutation cfg.pageSize) : Bool :=
  !m.fullImage && (s.frames pid).any (·.core.hasPageImageBase) &&
    (encodePagePatchRangesPayload cfg.pageSize pid
      (m.patchRanges s.nextLsn (page.writeLsn s.nextLsn))).isSome

theorem markDirtyRanges_paths {page : Page cfg.pageSize} {m : PageMutation cfg.pageSize}
    (h : s.markDirtyRanges pid page m = some s') :
    ∃ fr, s.frames pid = some fr ∧
      ((s.logsPatch pid page m = false ∧ s.appendFullPageImage pid fr page = some s') ∨
        ∃ payload shard, m.fullImage = false ∧ fr.core.hasPageImageBase = true ∧
          encodePagePatchRangesPayload cfg.pageSize pid
            (m.patchRanges s.nextLsn (page.writeLsn s.nextLsn)) = some payload ∧
          s.shard.beginAppend cfg s.nextLsn (.logical logicalKindPagePatch payload) =
            some (shard, []) ∧
          s' = s.logged pid (fr.core.patchLogged s.nextLsn) (page.writeLsn s.nextLsn) shard) := by
  unfold State.markDirtyRanges at h
  split at h
  · cases h
  obtain ⟨fr, hfr, h⟩ := Option.bind_eq_some_iff.mp h
  refine ⟨fr, hfr, ?_⟩
  split at h
  · rename_i himage
    refine .inl ⟨?_, h⟩
    rcases himage with hfull | hbase
    · simp [State.logsPatch, hfull]
    · simp [State.logsPatch, hfr, hbase]
  rename_i hpatch
  simp only at h
  split at h
  · rename_i hnone
    exact .inl ⟨by simp [State.logsPatch, hnone], h⟩
  rename_i payload hpayload
  split at h
  · rename_i shard happ
    cases h
    obtain ⟨hfull, hbase⟩ := not_or.mp hpatch
    exact .inr ⟨payload, shard, by simpa using hfull, by simpa using hbase, hpayload, happ, rfl⟩
  · cases h

end Cases

end Pagebox.Storage.LoggedPages
