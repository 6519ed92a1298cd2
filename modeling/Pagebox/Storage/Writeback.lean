import Mathlib.Data.Fintype.Basic
import Mathlib.Logic.Function.Basic
import Pagebox.Base.Runs
import Pagebox.Storage.Frame
import Pagebox.Wal.System

/-!
# Writers, cleaners and flushes of a buffer pool

`n` threads work on the `m` frames of a pool over one page store: page writers
mutate a page under its exclusive latch and mark it dirty, cleaners run
`try_flush_dirty_batch_inner` in either mode, and flushes run `BufferPool::flush`.
Clean frames are evicted and their pages faulted in again.  A step is one section
under a latch, one page written to the store, or the return of one wait; a fault is
one step from free to resident.  The pool has a WAL, and no write to the store fails.

A page is its LSN, its child links and its other bytes.  A link to a resident
child is a frame (`hot`); `prepare_page_copy_for_writeback` turns it into the
child's page id.  Only the durable LSN of each WAL shard matters here.
-/

namespace Pagebox.Storage.Writeback

open Pagebox.Base Function Option

inductive Swip (m : Nat)
  | hot (frame : Fin m)
  | evicted (pid : Nat)
  deriving DecidableEq

def Swip.convert {m : Nat} (pidOf : Fin m → Nat) : Swip m → Swip m
  | .hot f => .evicted (pidOf f)
  | .evicted pid => .evicted pid

structure Page (m : Nat) (β : Type) where
  lsn : Nat
  links : List (Swip m)
  rest : β
  deriving DecidableEq

def Page.prepare {m : Nat} {β : Type} (pidOf : Fin m → Nat) (p : Page m β) : Page m β :=
  { p with links := p.links.map (Swip.convert pidOf) }

structure Frame (n m : Nat) (β : Type) where
  state : FrameState
  core : FrameCore
  page : Page m β
  /-- The threads that hold a pin; `pin_count` is the length. -/
  pins : List (Fin n)
  /-- The thread that holds the latch exclusively. -/
  latch : Option (Fin n)

inductive DirtyFlushMode
  | background
  | foreground
  deriving DecidableEq

/-- `DirtyPageCopy`: a claimed, pinned page and its copy. -/
structure DirtyPage (m : Nat) (β : Type) where
  frame : Fin m
  pid : Nat
  pageLsn : Nat
  dirtyGeneration : Nat
  copy : Page m β

/-- What a thread is doing.  Lists are split into what is left to do and what is
done. -/
inductive Pc (m : Nat) (β : Type)
  | idle
  /-- Holds the latch; `changed` means that the page differs from what was last
  marked dirty. -/
  | writer (f : Fin m) (changed : Bool)
  | collecting (mode : DirtyFlushMode) (batch : List (DirtyPage m β))
  | storing (todo done : List (DirtyPage m β))
  | finishing (todo done : List (DirtyPage m β))
  | releasing (todo : List (DirtyPage m β))
  | flushing (held : List (Fin m))
  | flushWaiting (held : List (Fin m)) (f : Fin m)
  | flushStoring (todo done : List (Fin m))
  | flushClearing (todo done : List (Fin m))
  | flushReleasing (todo : List (Fin m))

structure State (n m : Nat) (β : Type) where
  frames : Fin m → Frame n m β
  store : Nat → Page m β
  /-- `dirty_flush_inflight`. -/
  inflight : List Nat
  threads : Fin n → Pc m β
  nextLsn : Nat
  durableLsn : Nat → Nat
  /-- The version of each page that was last marked dirty, or first stored, with
  child links as page ids. -/
  latest : Nat → Page m β

structure Setup (n : Nat) where
  shardCount : Nat
  threadShard : Fin n → Nat

variable {n m : Nat} {β : Type}

namespace State

variable (s : State n m β)

def pidOf (f : Fin m) : Nat := (s.frames f).core.pid

def setFrame (f : Fin m) (fr : Frame n m β) : State n m β :=
  { s with frames := update s.frames f fr }

def setPc (t : Fin n) (pc : Pc m β) : State n m β :=
  { s with threads := update s.threads t pc }

def writePage (pid : Nat) (p : Page m β) : State n m β :=
  { s with store := update s.store pid p }

def opened (store : Nat → Page m β) (blank : β) (nextLsn : Nat)
    (durableLsn : Nat → Nat) : State n m β where
  frames := fun _ => ⟨.free, ⟨0, 0, false, 0, false, .none⟩, ⟨0, [], blank⟩, [], none⟩
  store := store
  inflight := []
  threads := fun _ => .idle
  nextLsn := nextLsn
  durableLsn := durableLsn
  latest := store

variable (su : Setup n)

/-- `is_lsn_durable`; also the test that lets `flush_at_least` return. -/
def isLsnDurable (s : State n m β) (lsn : Nat) : Bool :=
  lsn = 0 ∨ lsn ≤ s.durableLsn (Wal.shardIdxForLsn su.shardCount lsn)

/-- Pin a resident page and take its latch. -/
def lock (t : Fin n) (f : Fin m) : Option (State n m β) :=
  match s.threads t with
  | .idle =>
    let fr := s.frames f
    if fr.state = .resident ∧ fr.latch = none then
      some ((s.setFrame f { fr with latch := some t, pins := t :: fr.pins }).setPc t
        (.writer f false))
    else none
  | _ => none

/-- Overwrite the page; a link to a frame must lead to a frame in use. -/
def mutate (t : Fin n) (links : List (Swip m)) (rest : β) : Option (State n m β) :=
  match s.threads t with
  | .writer f _ =>
    if ∀ g, .hot g ∈ links → (s.frames g).state ≠ .free then
      let fr := s.frames f
      some ((s.setFrame f { fr with page := { fr.page with links := links, rest := rest } }).setPc
        t (.writer f true))
    else none
  | _ => none

def lsnFor (s : State n m β) (t : Fin n) : Nat :=
  if su.shardCount = 1 then s.nextLsn
  else Wal.alignLsnToShard s.nextLsn (su.threadShard t) su.shardCount

/-- `mark_dirty_raw` (`record` says where the image went) or the patch of
`mark_dirty_ranges_raw`. -/
def mark (s : State n m β) (t : Fin n) (record : Option Wal.BufferedWalRecord) :
    Option (State n m β) :=
  match s.threads t with
  | .writer f _ =>
    let fr := s.frames f
    let lsn := s.lsnFor su t
    let page := { fr.page with lsn := lsn }
    if record = none ∧ fr.core.hasPageImageBase = false then none
    else
      let core := match record with
        | some record => fr.core.imageLogged lsn record
        | none => fr.core.patchLogged lsn
      some { (s.setFrame f { fr with page := page, core := core.finishDirtyMark }).setPc t
          (.writer f false) with
        nextLsn := (lsn + 1) % u64Limit
        latest := update s.latest fr.core.pid (page.prepare s.pidOf) }
  | _ => none

def unlock (t : Fin n) : Option (State n m β) :=
  match s.threads t with
  | .writer f false =>
    let fr := s.frames f
    some ((s.setFrame f { fr with latch := none, pins := fr.pins.erase t }).setPc t .idle)
  | _ => none

/-- `try_copy_dirty_resident_page`, when it returns a copy. -/
def copyDirty (s : State n m β) (t : Fin n) (f : Fin m) : Option (State n m β) :=
  match s.threads t with
  | .collecting mode batch =>
    let fr := s.frames f
    if fr.state = .resident ∧ fr.core.dirty ∧ fr.latch = none ∧
        (mode = .background → s.isLsnDurable su fr.core.pageLsn) ∧
        fr.core.pid ∉ s.inflight then
      some { (s.setFrame f { fr with pins := t :: fr.pins }).setPc t
          (.collecting mode (batch ++ [⟨f, fr.core.pid, fr.core.pageLsn,
            fr.core.dirtyGeneration, fr.page.prepare s.pidOf⟩])) with
        inflight := fr.core.pid :: s.inflight }
    else none
  | _ => none

def maxLsn (batch : List (DirtyPage m β)) : Nat := (batch.map (·.pageLsn)).foldl max 0

/-- The end of the scan; in the foreground `flush_at_least(max_lsn)` has to
return first. -/
def endScan (s : State n m β) (t : Fin n) : Option (State n m β) :=
  match s.threads t with
  | .collecting mode batch =>
    if batch.isEmpty then some (s.setPc t .idle)
    else if mode = .background ∨ s.isLsnDurable su (maxLsn batch) then
      some (s.setPc t (.storing batch []))
    else none
  | _ => none

/-- `write_pages` stores its next page. -/
def storeNext (t : Fin n) : Option (State n m β) :=
  match s.threads t with
  | .storing (d :: todo) done =>
    some ((s.writePage d.pid d.copy).setPc t (.storing todo (done ++ [d])))
  | _ => none

def unchangedSinceCopy (d : DirtyPage m β) : Bool :=
  let fr := s.frames d.frame
  fr.state = .resident ∧ fr.core.pid = d.pid ∧ fr.core.dirty ∧
    fr.core.dirtyGeneration = d.dirtyGeneration

/-- Clear the dirty flag of the next page if it is still the copied one. -/
def finishNext (t : Fin n) : Option (State n m β) :=
  match s.threads t with
  | .finishing (d :: todo) done =>
    let fr := s.frames d.frame
    if fr.latch ≠ none then none
    else if s.unchangedSinceCopy d then
      some ((s.setFrame d.frame { fr with core := fr.core.clearDirty }).setPc t
        (.finishing todo (done ++ [d])))
    else some (s.setPc t (.finishing todo (done ++ [d])))
  | _ => none

def releaseNext (t : Fin n) : Option (State n m β) :=
  match s.threads t with
  | .releasing (d :: todo) =>
    let fr := s.frames d.frame
    some { (s.setFrame d.frame { fr with pins := fr.pins.erase t }).setPc t
        (.releasing todo) with
      inflight := s.inflight.erase d.pid }
  | _ => none

/-- Latch a dirty frame. -/
def flushLock (t : Fin n) (f : Fin m) : Option (State n m β) :=
  match s.threads t with
  | .flushing held =>
    let fr := s.frames f
    if fr.state ≠ .free ∧ fr.core.dirty ∧ fr.latch = none then
      some ((s.setFrame f { fr with latch := some t }).setPc t (.flushWaiting held f))
    else none
  | _ => none

def flushDurable (s : State n m β) (t : Fin n) : Option (State n m β) :=
  match s.threads t with
  | .flushWaiting held f =>
    if s.isLsnDurable su (s.frames f).core.pageLsn then
      some (s.setPc t (.flushing (held ++ [f])))
    else none
  | _ => none

def endFlushScan (t : Fin n) : Option (State n m β) :=
  match s.threads t with
  | .flushing held => some (s.setPc t (if held.isEmpty then .idle else .flushStoring held []))
  | _ => none

/-- `write_pages_and_sync` stores its next page.  The latch is held, so the copy
taken before is the page. -/
def flushStoreNext (t : Fin n) : Option (State n m β) :=
  match s.threads t with
  | .flushStoring (f :: todo) done =>
    some ((s.writePage (s.pidOf f) ((s.frames f).page.prepare s.pidOf)).setPc t
      (.flushStoring todo (done ++ [f])))
  | _ => none

def flushClearNext (t : Fin n) : Option (State n m β) :=
  match s.threads t with
  | .flushClearing (f :: todo) done =>
    let fr := s.frames f
    some ((s.setFrame f { fr with core := fr.core.clearDirty }).setPc t
      (.flushClearing todo (done ++ [f])))
  | _ => none

def flushUnlatchNext (t : Fin n) : Option (State n m β) :=
  match s.threads t with
  | .flushReleasing (f :: todo) =>
    some ((s.setFrame f { s.frames f with latch := none }).setPc t (.flushReleasing todo))
  | _ => none

/-! ## Starting an operation, and going on to its next phase -/

def start (t : Fin n) (pc : Pc m β) : Option (State n m β) :=
  match s.threads t with
  | .idle => some (s.setPc t pc)
  | _ => none

/-- Nothing is left to do in the present phase. -/
def nextPhase (t : Fin n) : Option (State n m β) :=
  match s.threads t with
  | .storing [] done => some (s.setPc t (.finishing done []))
  | .finishing [] done => some (s.setPc t (.releasing done))
  | .releasing [] => some (s.setPc t .idle)
  | .flushStoring [] done => some (s.setPc t (.flushClearing done []))
  | .flushClearing [] done => some (s.setPc t (.flushReleasing done))
  | .flushReleasing [] => some (s.setPc t .idle)
  | _ => none

/-! ## Eviction and faults -/

/-- A resident clean frame without pins goes to `Evicting`. -/
def evictBegin (f : Fin m) : Option (State n m β) :=
  let fr := s.frames f
  if fr.state = .resident ∧ fr.pins = [] ∧ fr.latch = none ∧ fr.core.dirty = false then
    some (s.setFrame f { fr with state := .evicting })
  else none

def evictRevert (f : Fin m) : Option (State n m β) :=
  let fr := s.frames f
  if fr.state = .evicting then some (s.setFrame f { fr with state := .resident }) else none

/-- `can_free_evicting_frame` and `free_evicting_frame`; the parent's link to the
frame has been unswizzled. -/
def evictFinish (f : Fin m) : Option (State n m β) :=
  let fr := s.frames f
  if fr.state = .evicting ∧ fr.pins = [] ∧ fr.latch = none ∧ fr.core.dirty = false ∧
      ∀ g, (s.frames g).state ≠ .free → .hot f ∉ (s.frames g).page.links then
    some (s.setFrame f { fr with state := .free })
  else none

/-- Read a page into a free frame; the page table has no frame for it. -/
def load (f : Fin m) (pid : Nat) : Option (State n m β) :=
  let fr := s.frames f
  if fr.state = .free ∧ ∀ g, (s.frames g).state ≠ .free → s.pidOf g ≠ pid then
    some (s.setFrame f { fr with
      state := .resident
      page := s.store pid
      core := fr.core.installLoaded pid (s.store pid).lsn
      pins := [] })
  else none

/-- Replace the link at `i` of an unlatched parent: `swizzle` to a resident frame
of the same page, or back to the page id. -/
def setLink (f : Fin m) (i : Nat) (link : Swip m) : Option (State n m β) :=
  let fr := s.frames f
  if fr.state ≠ .free ∧ fr.latch = none ∧
      (fr.page.links[i]?).map (Swip.convert s.pidOf) = some (link.convert s.pidOf) ∧
      ∀ g, link = .hot g → (s.frames g).state ≠ .free then
    some (s.setFrame f { fr with page := { fr.page with links := fr.page.links.set i link } })
  else none

end State

inductive Action (n m : Nat) (β : Type)
  | lock (t : Fin n) (f : Fin m)
  | mutate (t : Fin n) (links : List (Swip m)) (rest : β)
  | mark (t : Fin n) (record : Option Wal.BufferedWalRecord)
  | unlock (t : Fin n)
  | startClean (t : Fin n) (mode : DirtyFlushMode)
  | copyDirty (t : Fin n) (f : Fin m)
  | endScan (t : Fin n)
  | storeNext (t : Fin n)
  | finishNext (t : Fin n)
  | releaseNext (t : Fin n)
  | startFlush (t : Fin n)
  | flushLock (t : Fin n) (f : Fin m)
  | flushDurable (t : Fin n)
  | endFlushScan (t : Fin n)
  | flushStoreNext (t : Fin n)
  | flushClearNext (t : Fin n)
  | flushUnlatchNext (t : Fin n)
  | nextPhase (t : Fin n)
  | evictBegin (f : Fin m)
  | evictRevert (f : Fin m)
  | evictFinish (f : Fin m)
  | load (f : Fin m) (pid : Nat)
  | setLink (f : Fin m) (i : Nat) (link : Swip m)
  | publishDurable (shard lsn : Nat)

def step (su : Setup n) (s : State n m β) : Action n m β → Option (State n m β)
  | .lock t f => s.lock t f
  | .mutate t links rest => s.mutate t links rest
  | .mark t record => s.mark su t record
  | .unlock t => s.unlock t
  | .startClean t mode => s.start t (.collecting mode [])
  | .copyDirty t f => s.copyDirty su t f
  | .endScan t => s.endScan su t
  | .storeNext t => s.storeNext t
  | .finishNext t => s.finishNext t
  | .releaseNext t => s.releaseNext t
  | .startFlush t => s.start t (.flushing [])
  | .flushLock t f => s.flushLock t f
  | .flushDurable t => s.flushDurable su t
  | .endFlushScan t => s.endFlushScan t
  | .flushStoreNext t => s.flushStoreNext t
  | .flushClearNext t => s.flushClearNext t
  | .flushUnlatchNext t => s.flushUnlatchNext t
  | .nextPhase t => s.nextPhase t
  | .evictBegin f => s.evictBegin f
  | .evictRevert f => s.evictRevert f
  | .evictFinish f => s.evictFinish f
  | .load f pid => s.load f pid
  | .setLink f i link => s.setLink f i link
  | .publishDurable shard lsn => some { s with
      durableLsn := update s.durableLsn shard (max (s.durableLsn shard) lsn) }

/-! ## What each step did -/

section Cases

variable {su : Setup n} {s s' : State n m β} {t : Fin n} {f : Fin m}

theorem lock_cases (h : s.lock t f = some s') :
    s.threads t = .idle ∧ (s.frames f).state = .resident ∧ (s.frames f).latch = none ∧
      s' = (s.setFrame f
        { s.frames f with latch := some t, pins := t :: (s.frames f).pins }).setPc t
        (.writer f false) := by
  unfold State.lock at h
  split at h
  · rename_i hpc
    obtain ⟨hguard, h⟩ := ite_none_right_eq_some.mp h
    cases h
    exact ⟨hpc, hguard.1, hguard.2, rfl⟩
  · cases h

theorem mutate_cases {links : List (Swip m)} {rest : β} (h : s.mutate t links rest = some s') :
    ∃ f changed, s.threads t = .writer f changed ∧
      (∀ g, .hot g ∈ links → (s.frames g).state ≠ .free) ∧
      s' = (s.setFrame f { s.frames f with
        page := { (s.frames f).page with links := links, rest := rest } }).setPc t
          (.writer f true) := by
  unfold State.mutate at h
  split at h
  · rename_i f changed hpc
    obtain ⟨hlinks, h⟩ := ite_none_right_eq_some.mp h
    cases h
    exact ⟨f, changed, hpc, hlinks, rfl⟩
  · cases h

theorem mark_cases {record : Option Wal.BufferedWalRecord} (h : s.mark su t record = some s') :
    ∃ f changed core, s.threads t = .writer f changed ∧
      core.pid = s.pidOf f ∧ core.pageLsn = s.lsnFor su t ∧ core.dirty = true ∧
      core.dirtyGeneration = ((s.frames f).core.dirtyGeneration + 1) % u64Limit ∧
      s' = { (s.setFrame f { s.frames f with
          page := { (s.frames f).page with lsn := s.lsnFor su t }, core := core }).setPc t
            (.writer f false) with
        nextLsn := (s.lsnFor su t + 1) % u64Limit
        latest := update s.latest (s.pidOf f)
          (Page.prepare s.pidOf { (s.frames f).page with lsn := s.lsnFor su t }) } := by
  unfold State.mark at h
  split at h
  · rename_i f changed hpc
    obtain ⟨-, h⟩ := ite_none_left_eq_some.mp h
    cases h
    refine ⟨f, changed, _, hpc, ?_, ?_, rfl, ?_, rfl⟩ <;> cases record <;> rfl
  · cases h

theorem unlock_cases (h : s.unlock t = some s') : ∃ f, s.threads t = .writer f false ∧
      s' = (s.setFrame f { s.frames f with
        latch := none, pins := (s.frames f).pins.erase t }).setPc t .idle := by
  unfold State.unlock at h
  split at h
  · rename_i f hpc
    cases h
    exact ⟨f, hpc, rfl⟩
  · cases h

theorem copyDirty_cases (h : s.copyDirty su t f = some s') :
    ∃ mode batch, s.threads t = .collecting mode batch ∧
      ((s.frames f).state = .resident ∧ (s.frames f).core.dirty ∧ (s.frames f).latch = none ∧
        (mode = .background → s.isLsnDurable su (s.frames f).core.pageLsn) ∧
        (s.frames f).core.pid ∉ s.inflight) ∧
      s' = { (s.setFrame f { s.frames f with pins := t :: (s.frames f).pins }).setPc t
          (.collecting mode (batch ++ [⟨f, s.pidOf f, (s.frames f).core.pageLsn,
            (s.frames f).core.dirtyGeneration, (s.frames f).page.prepare s.pidOf⟩])) with
        inflight := s.pidOf f :: s.inflight } := by
  unfold State.copyDirty at h
  split at h
  · rename_i mode batch hpc
    obtain ⟨hguard, h⟩ := ite_none_right_eq_some.mp h
    cases h
    exact ⟨mode, batch, hpc, hguard, rfl⟩
  · cases h

theorem endScan_cases (h : s.endScan su t = some s') :
    ∃ mode batch, s.threads t = .collecting mode batch ∧ ((batch = [] ∧ s' = s.setPc t .idle) ∨
        ((mode = .background ∨ s.isLsnDurable su (State.maxLsn batch)) ∧
          s' = s.setPc t (.storing batch []))) := by
  unfold State.endScan at h
  split at h
  · rename_i mode batch hpc
    refine ⟨mode, batch, hpc, ?_⟩
    split at h
    · rename_i hempty
      cases h
      exact .inl ⟨List.isEmpty_iff.mp hempty, rfl⟩
    · obtain ⟨hwait, h⟩ := ite_none_right_eq_some.mp h
      cases h
      exact .inr ⟨hwait, rfl⟩
  · cases h

theorem storeNext_cases (h : s.storeNext t = some s') :
    ∃ d todo done, s.threads t = .storing (d :: todo) done ∧
      s' = (s.writePage d.pid d.copy).setPc t (.storing todo (done ++ [d])) := by
  unfold State.storeNext at h
  split at h
  · rename_i d todo done hpc
    cases h
    exact ⟨d, todo, done, hpc, rfl⟩
  · cases h

theorem finishNext_cases (h : s.finishNext t = some s') :
    ∃ d todo done, s.threads t = .finishing (d :: todo) done ∧ (s.frames d.frame).latch = none ∧
      ((s.unchangedSinceCopy d = true ∧ s' = (s.setFrame d.frame { s.frames d.frame with
          core := (s.frames d.frame).core.clearDirty }).setPc t (.finishing todo (done ++ [d]))) ∨
        s' = s.setPc t (.finishing todo (done ++ [d]))) := by
  unfold State.finishNext at h
  split at h
  · rename_i d todo done hpc
    obtain ⟨hlatch, h⟩ := ite_none_left_eq_some.mp h
    refine ⟨d, todo, done, hpc, not_not.mp hlatch, ?_⟩
    split at h
    · rename_i hsame
      cases h
      exact .inl ⟨hsame, rfl⟩
    · cases h
      exact .inr rfl
  · cases h

theorem releaseNext_cases (h : s.releaseNext t = some s') :
    ∃ d todo, s.threads t = .releasing (d :: todo) ∧
      s' = { (s.setFrame d.frame { s.frames d.frame with
          pins := (s.frames d.frame).pins.erase t }).setPc t (.releasing todo) with
        inflight := s.inflight.erase d.pid } := by
  unfold State.releaseNext at h
  split at h
  · rename_i d todo hpc
    cases h
    exact ⟨d, todo, hpc, rfl⟩
  · cases h

theorem flushLock_cases (h : s.flushLock t f = some s') : ∃ held, s.threads t = .flushing held ∧
      ((s.frames f).state ≠ .free ∧ (s.frames f).core.dirty ∧ (s.frames f).latch = none) ∧
      s' = (s.setFrame f { s.frames f with latch := some t }).setPc t (.flushWaiting held f) := by
  unfold State.flushLock at h
  split at h
  · rename_i held hpc
    obtain ⟨hguard, h⟩ := ite_none_right_eq_some.mp h
    cases h
    exact ⟨held, hpc, hguard, rfl⟩
  · cases h

theorem flushDurable_cases (h : s.flushDurable su t = some s') :
    ∃ held f, s.threads t = .flushWaiting held f ∧
      s.isLsnDurable su (s.frames f).core.pageLsn = true ∧
      s' = s.setPc t (.flushing (held ++ [f])) := by
  unfold State.flushDurable at h
  split at h
  · rename_i held f hpc
    obtain ⟨hdurable, h⟩ := ite_none_right_eq_some.mp h
    cases h
    exact ⟨held, f, hpc, hdurable, rfl⟩
  · cases h

theorem endFlushScan_cases (h : s.endFlushScan t = some s') : ∃ held, s.threads t = .flushing held ∧
      ((held = [] ∧ s' = s.setPc t .idle) ∨ s' = s.setPc t (.flushStoring held [])) := by
  unfold State.endFlushScan at h
  split at h
  · rename_i held hpc
    refine ⟨held, hpc, ?_⟩
    cases h
    split
    · rename_i hempty
      exact .inl ⟨List.isEmpty_iff.mp hempty, rfl⟩
    · exact .inr rfl
  · cases h

theorem flushStoreNext_cases (h : s.flushStoreNext t = some s') :
    ∃ f todo done, s.threads t = .flushStoring (f :: todo) done ∧
      s' = (s.writePage (s.pidOf f) ((s.frames f).page.prepare s.pidOf)).setPc t
        (.flushStoring todo (done ++ [f])) := by
  unfold State.flushStoreNext at h
  split at h
  · rename_i f todo done hpc
    cases h
    exact ⟨f, todo, done, hpc, rfl⟩
  · cases h

theorem flushClearNext_cases (h : s.flushClearNext t = some s') :
    ∃ f todo done, s.threads t = .flushClearing (f :: todo) done ∧
      s' = (s.setFrame f { s.frames f with core := (s.frames f).core.clearDirty }).setPc t
        (.flushClearing todo (done ++ [f])) := by
  unfold State.flushClearNext at h
  split at h
  · rename_i f todo done hpc
    cases h
    exact ⟨f, todo, done, hpc, rfl⟩
  · cases h

theorem flushUnlatchNext_cases (h : s.flushUnlatchNext t = some s') :
    ∃ f todo, s.threads t = .flushReleasing (f :: todo) ∧
      s' = (s.setFrame f { s.frames f with latch := none }).setPc t (.flushReleasing todo) := by
  unfold State.flushUnlatchNext at h
  split at h
  · rename_i f todo hpc
    cases h
    exact ⟨f, todo, hpc, rfl⟩
  · cases h

theorem start_cases {pc : Pc m β} (h : s.start t pc = some s') :
    s.threads t = .idle ∧ s' = s.setPc t pc := by
  unfold State.start at h
  split at h
  · rename_i hpc
    cases h
    exact ⟨hpc, rfl⟩
  · cases h

end Cases

end Pagebox.Storage.Writeback
