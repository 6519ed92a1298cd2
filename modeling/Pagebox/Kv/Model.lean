import Pagebox.Base.WriteCache
import Pagebox.Storage.Writeback

/-!
# The key-value store: checkpoints, crashes and reopening

`KvStore` over a buffer pool, a data file and a WAL: the page writers, cleaners and
flushes of the pool, the steps of `checkpoint` and of `finish_mutation`, a crash
at any point and the steps of `open_with` after it.

The data file is its pages and the checkpoint LSN of its header, both behind the
cache of the file: a write survives a crash for certain once an `fsync` that began
after it has returned.  A record of the log is a page and the version its mutation
left; that patches rebuild that version is the subject of page recovery.  A crash
is a power failure: what it leaves is durable.  The user-meta slots of the header
are left out.
-/

namespace Pagebox.Kv

open Pagebox.Base Pagebox.Storage Function

structure Record (m : Nat) (β : Type) where
  pid : Nat
  page : Writeback.Page m β
  deriving DecidableEq

def Record.lsn {m : Nat} {β : Type} (r : Record m β) : Nat := r.page.lsn

/-- `targets` is what `flush_targets` returned, by shard. -/
inductive Job
  | idle
  /-- In `finish_mutation`. -/
  | committing (targets : List Nat)
  /-- In `checkpoint`, with the LSN its `wal.flush` returned. -/
  | walFlushing (targets : List Nat)
  | walFlushed (lsn : Nat)
  | poolFlushing (lsn : Nat)
  | poolFlushed (lsn : Nat)
  | storeSyncing (lsn : Nat)
  | resetFlushing (lsn : Nat) (targets : List Nat)
  | resetting (lsn shard : Nat)
  deriving DecidableEq

def Job.checkpoint : Job → Bool
  | .idle | .committing _ => false
  | _ => true

/-- `sync_header_for` reads the checkpoint LSN and writes the header; `sync_for`
goes on with an `fsync`. -/
inductive SyncPc
  | idle
  | loaded (lsn : Nat)
  | written
  | syncing (pages header : Nat)
  | done
  deriving DecidableEq

inductive OpenOp (m : Nat) (β : Type)
  | write (r : Record m β)
  | writeHeader
  | fsync
  | setCheckpointLsn (lsn : Nat)
  | reset (shard : Nat)

structure Setup (n : Nat) (β : Type) where
  wal : Writeback.Setup n
  /-- The content of a frame that never held a page. -/
  blank : β

structure State (n m : Nat) (β : Type) where
  pool : Writeback.State n m β
  pages : WriteCache Nat (Writeback.Page m β)
  header : WriteCache Unit Nat
  /-- The checkpoint LSN in memory. -/
  checkpointLsn : Nat
  /-- The log since the last reset, newest first. -/
  log : List (Record m β)
  /-- Records cut off by resets; the truncation is not synced. -/
  cut : List (Record m β)
  appendedLsn : Nat → Nat
  job : Fin n → Job
  sync : Fin n → SyncPc
  /-- The next frame a flush looks at. -/
  scan : Fin n → Nat
  /-- The rest of `open_with`, unless it has returned. -/
  opening : Option (List (OpenOp m β))
  /-- The pages when `open_with` returned, and what was logged since, newest first. -/
  initial : Nat → Writeback.Page m β
  records : List (Record m β)
  /-- What each thread has logged since its last `finish_mutation`, and what was
  acknowledged. -/
  unacked : Fin n → List (Record m β)
  acked : List (Record m β)

variable {n m : Nat} {β : Type}

namespace State

variable (su : Setup n β)

def opened (pages : Nat → Writeback.Page m β) (checkpointLsn : Nat) : State n m β where
  pool := .opened pages su.blank (checkpointLsn + 1) fun _ => checkpointLsn
  pages := .stored pages
  header := .stored fun _ => checkpointLsn
  checkpointLsn := checkpointLsn
  log := []
  cut := []
  appendedLsn := fun _ => checkpointLsn
  job := fun _ => .idle
  sync := fun _ => .idle
  scan := fun _ => 0
  opening := none
  initial := pages
  records := []
  unacked := fun _ => []
  acked := []

def shardOf (r : Record m β) : Nat :=
  Wal.shardIdxForLsn su.wal.shardCount r.lsn

variable (s : State n m β)

/-- A thread starts an operation of the pool only outside a checkpoint; a flush
looks at every frame in order; the driver publishes what was appended. -/
def poolEnabled : Writeback.Action n m β → Bool
  | .lock t _ => s.job t = .idle
  | .startClean t _ => s.job t = .idle
  | .startFlush t => s.job t = .idle
  | .flushLock t f => f.val = s.scan t
  | .endFlushScan t => s.scan t = m ∧ s.sync t = .idle
  | .nextPhase t =>
    match s.pool.threads t with
    | .flushStoring [] _ => s.sync t = .done
    | _ => true
  | .publishDurable shard lsn => lsn ≤ s.appendedLsn shard
  | _ => true

def storedBy (pool : Writeback.State n m β) :
    Writeback.Action n m β → Option (Nat × Writeback.Page m β)
  | .storeNext t =>
    match pool.threads t with
    | .storing (d :: _) _ => some (d.pid, d.copy)
    | _ => none
  | .flushStoreNext t =>
    match pool.threads t with
    | .flushStoring (f :: _) _ => some (pool.pidOf f, (pool.frames f).page.prepare pool.pidOf)
    | _ => none
  | _ => none

def loggedBy (pool pool' : Writeback.State n m β) :
    Writeback.Action n m β → Option (Fin n × Record m β)
  | .mark t _ =>
    match pool.threads t with
    | .writer f _ => some (t, ⟨pool.pidOf f, pool'.latest (pool.pidOf f)⟩)
    | _ => none
  | _ => none

def store : Option (Nat × Writeback.Page m β) → State n m β
  | some (pid, page) => { s with pages := s.pages.write pid page }
  | none => s

def append (s : State n m β) : Option (Fin n × Record m β) → State n m β
  | some (t, r) =>
    { s with
      log := r :: s.log
      records := r :: s.records
      appendedLsn := update s.appendedLsn (shardOf su r)
        (max (s.appendedLsn (shardOf su r)) r.lsn)
      unacked := update s.unacked t (r :: s.unacked t) }
  | none => s

def moveScan : Writeback.Action n m β → State n m β
  | .startFlush t => { s with scan := update s.scan t 0 }
  | .flushLock t f => { s with scan := update s.scan t (f.val + 1) }
  | .nextPhase t =>
    match s.pool.threads t with
    | .flushStoring [] _ => { s with sync := update s.sync t .idle }
    | _ => s
  | _ => s

def poolStep (s : State n m β) (a : Writeback.Action n m β) : Option (State n m β) :=
  if s.poolEnabled a then
    (Writeback.step su.wal s.pool a).map fun pool =>
      { ((s.moveScan a).store (storedBy s.pool a)).append su (loggedBy s.pool pool a) with
        pool := pool }
  else none

def flushSkip (t : Fin n) : Option (State n m β) :=
  match s.pool.threads t with
  | .flushing _ =>
    if h : s.scan t < m then
      let fr := s.pool.frames ⟨s.scan t, h⟩
      if fr.state = .free ∨ fr.core.dirty = false then
        some { s with scan := update s.scan t (s.scan t + 1) }
      else none
    else none
  | _ => none

/-! ## Syncs of the data file -/

def setSync (t : Fin n) (pc : SyncPc) : State n m β :=
  { s with sync := update s.sync t pc }

/-- `sync_header_for` reads the checkpoint LSN. -/
def headerLoad (t : Fin n) : Option (State n m β) :=
  match s.sync t with
  | .idle => some (s.setSync t (.loaded s.checkpointLsn))
  | _ => none

def headerWrite (t : Fin n) : Option (State n m β) :=
  match s.sync t with
  | .loaded lsn => some { s.setSync t .written with header := s.header.write () lsn }
  | _ => none

/-- The end of a `sync_header_for` without an `fsync`, as in `allocate`. -/
def headerOnly (t : Fin n) : Option (State n m β) :=
  match s.sync t with
  | .written => some (s.setSync t .idle)
  | _ => none

def fsyncBegin (t : Fin n) : Option (State n m β) :=
  match s.sync t with
  | .written => some (s.setSync t (.syncing s.pages.issued s.header.issued))
  | _ => none

def fsyncEnd (t : Fin n) : Option (State n m β) :=
  match s.sync t with
  | .syncing pages header =>
    some { s.setSync t .done with pages := s.pages.sync pages, header := s.header.sync header }
  | _ => none

def flushTargets (s : State n m β) : List Nat :=
  (List.range su.wal.shardCount).map s.appendedLsn

/-- `flush` may return `lsn`: the targets are durable, and `lsn` is a durable LSN
seen while it waited. -/
def flushReturns (targets : List Nat) (lsn : Nat) : Bool :=
  (∀ x ∈ targets.zipIdx, x.1 ≤ s.pool.durableLsn x.2 ∧ x.1 ≤ lsn) ∧
    (lsn = 0 ∨ ∃ x ∈ targets.zipIdx, lsn ≤ s.pool.durableLsn x.2)

def resetShard (s : State n m β) (shard : Nat) : State n m β :=
  { s with
    log := s.log.filter fun r => shardOf su r ≠ shard
    cut := (s.log.filter fun r => shardOf su r = shard) ++ s.cut }

/-! ## Commits and checkpoints -/

def setJob (t : Fin n) (job : Job) : State n m β :=
  { s with job := update s.job t job }

def commitBegin (s : State n m β) (t : Fin n) : Option (State n m β) :=
  match s.job t, s.pool.threads t with
  | .idle, .idle => some (s.setJob t (.committing (s.flushTargets su)))
  | _, _ => none

def commitReturn (t : Fin n) (lsn : Nat) : Option (State n m β) :=
  match s.job t with
  | .committing targets =>
    if s.flushReturns targets lsn then
      some { s.setJob t .idle with
        acked := s.unacked t ++ s.acked
        unacked := update s.unacked t [] }
    else none
  | _ => none

def checkpointBegin (s : State n m β) (t : Fin n) : Option (State n m β) :=
  match s.job t, s.pool.threads t with
  | .idle, .idle => some (s.setJob t (.walFlushing (s.flushTargets su)))
  | _, _ => none

def walFlushReturn (t : Fin n) (lsn : Nat) : Option (State n m β) :=
  match s.job t with
  | .walFlushing targets =>
    if s.flushReturns targets lsn then some (s.setJob t (.walFlushed lsn)) else none
  | _ => none

def poolFlushBegin (t : Fin n) : Option (State n m β) :=
  match s.job t with
  | .walFlushed lsn =>
    (s.pool.start t (.flushing [])).map fun pool =>
      { s.setJob t (.poolFlushing lsn) with pool := pool, scan := update s.scan t 0 }
  | _ => none

def poolFlushReturn (t : Fin n) : Option (State n m β) :=
  match s.job t, s.pool.threads t with
  | .poolFlushing lsn, .idle => some (s.setJob t (.poolFlushed lsn))
  | _, _ => none

/-- `set_checkpoint_lsn`; `store.sync` follows. -/
def setCheckpointLsn (t : Fin n) : Option (State n m β) :=
  match s.job t, s.sync t with
  | .poolFlushed lsn, .idle => some { s.setJob t (.storeSyncing lsn) with checkpointLsn := lsn }
  | _, _ => none

/-- `store.sync` has returned; `wal.reset` calls `flush`. -/
def resetBegin (s : State n m β) (t : Fin n) : Option (State n m β) :=
  match s.job t, s.sync t with
  | .storeSyncing lsn, .done =>
    some ((s.setJob t (.resetFlushing lsn (s.flushTargets su))).setSync t .idle)
  | _, _ => none

def resetFlushReturn (t : Fin n) (flushed : Nat) : Option (State n m β) :=
  match s.job t with
  | .resetFlushing lsn targets =>
    if s.flushReturns targets flushed then some (s.setJob t (.resetting lsn 0)) else none
  | _ => none

def resetNext (s : State n m β) (t : Fin n) : Option (State n m β) :=
  match s.job t with
  | .resetting lsn shard =>
    if shard < su.wal.shardCount then
      some ((s.resetShard su shard).setJob t (.resetting lsn (shard + 1)))
    else some (s.setJob t .idle)
  | _ => none

/-! ## Crashes and reopening -/

def maxLsn (records : List (Record m β)) : Nat := (records.map Record.lsn).foldl max 0

/-- The records `recover_pages` writes, oldest first. -/
def replay (checkpointLsn : Nat) (pages : Nat → Writeback.Page m β) :
    List (Record m β) → List (Record m β)
  | [] => []
  | r :: rs =>
    if r.lsn ≤ checkpointLsn ∨ r.lsn ≤ (pages r.pid).lsn then replay checkpointLsn pages rs
    else r :: replay checkpointLsn (update pages r.pid r.page) rs

/-- `open_with` up to `advance_lsn_past`, on the files a crash left. -/
def openOps (pages : Nat → Writeback.Page m β) (checkpointLsn : Nat)
    (log : List (Record m β)) : List (OpenOp m β) :=
  let applied := replay checkpointLsn pages log.reverse
  applied.map .write ++ (if applied.isEmpty then [] else [.writeHeader, .fsync]) ++
    if checkpointLsn < maxLsn log then
      [.writeHeader, .fsync, .setCheckpointLsn (maxLsn log), .writeHeader, .fsync] ++
        (List.range su.wal.shardCount).map .reset
    else []

def shardLsns (log : List (Record m β)) (shard : Nat) : Nat :=
  maxLsn (log.filter fun r => shardOf su r = shard)

/-- A crash keeps the durable records, and of the other writes since the last sync
those whose flag is set. -/
def crash (s : State n m β) (keepPages keepHeader keepLog keepCut : List Bool) : State n m β :=
  let pages := s.pages.crash keepPages
  let checkpointLsn := s.header.crash keepHeader ()
  let log := survive (fun r => s.pool.isLsnDurable su.wal r.lsn) keepLog s.log ++
    survive (fun _ => false) keepCut s.cut
  { s with
    pool := .opened pages su.blank (maxLsn log + 1) (shardLsns su log)
    pages := .stored pages
    header := .stored fun _ => checkpointLsn
    checkpointLsn := checkpointLsn
    log := log
    cut := []
    appendedLsn := shardLsns su log
    job := fun _ => .idle
    sync := fun _ => .idle
    opening := some (openOps su pages checkpointLsn log)
    unacked := fun _ => [] }

def openStep (s : State n m β) : OpenOp m β → State n m β
  | .write r => { s with pages := s.pages.write r.pid r.page }
  | .writeHeader => { s with header := s.header.write () s.checkpointLsn }
  | .fsync =>
    { s with pages := s.pages.sync s.pages.issued, header := s.header.sync s.header.issued }
  | .setCheckpointLsn lsn => { s with checkpointLsn := lsn }
  | .reset shard => s.resetShard su shard

def openNext (s : State n m β) : Option (State n m β) :=
  match s.opening with
  | some (op :: ops) => some { s.openStep su op with opening := some ops }
  | _ => none

/-- `advance_lsn_past`, and a pool over the recovered pages. -/
def openReturn (s : State n m β) : Option (State n m β) :=
  match s.opening with
  | some [] =>
    some { s with
      pool := .opened s.pages.read su.blank (max s.pool.nextLsn (s.checkpointLsn + 1))
        fun shard => max (s.pool.durableLsn shard) s.checkpointLsn
      appendedLsn := fun shard => max (s.appendedLsn shard) s.checkpointLsn
      opening := none
      initial := s.pages.read
      records := []
      acked := [] }
  | _ => none

end State

inductive Action (n m : Nat) (β : Type)
  | pool (a : Writeback.Action n m β)
  | flushSkip (t : Fin n)
  | headerLoad (t : Fin n)
  | headerWrite (t : Fin n)
  | headerOnly (t : Fin n)
  | fsyncBegin (t : Fin n)
  | fsyncEnd (t : Fin n)
  | commitBegin (t : Fin n)
  | commitReturn (t : Fin n) (lsn : Nat)
  | checkpointBegin (t : Fin n)
  | walFlushReturn (t : Fin n) (lsn : Nat)
  | poolFlushBegin (t : Fin n)
  | poolFlushReturn (t : Fin n)
  | setCheckpointLsn (t : Fin n)
  | resetBegin (t : Fin n)
  | resetFlushReturn (t : Fin n) (lsn : Nat)
  | resetNext (t : Fin n)
  | crash (keepPages keepHeader keepLog keepCut : List Bool)
  | openNext
  | openReturn

def runStep (su : Setup n β) (s : State n m β) : Action n m β → Option (State n m β)
  | .pool a => s.poolStep su a
  | .flushSkip t => s.flushSkip t
  | .headerLoad t => s.headerLoad t
  | .headerWrite t => s.headerWrite t
  | .headerOnly t => s.headerOnly t
  | .fsyncBegin t => s.fsyncBegin t
  | .fsyncEnd t => s.fsyncEnd t
  | .commitBegin t => s.commitBegin su t
  | .commitReturn t lsn => s.commitReturn t lsn
  | .checkpointBegin t => s.checkpointBegin su t
  | .walFlushReturn t lsn => s.walFlushReturn t lsn
  | .poolFlushBegin t => s.poolFlushBegin t
  | .poolFlushReturn t => s.poolFlushReturn t
  | .setCheckpointLsn t => s.setCheckpointLsn t
  | .resetBegin t => s.resetBegin su t
  | .resetFlushReturn t lsn => s.resetFlushReturn t lsn
  | .resetNext t => s.resetNext su t
  | .crash _ _ _ _ | .openNext | .openReturn => none

def step (su : Setup n β) (s : State n m β) : Action n m β → Option (State n m β)
  | .crash keepPages keepHeader keepLog keepCut =>
    some (s.crash su keepPages keepHeader keepLog keepCut)
  | .openNext => s.openNext su
  | .openReturn => s.openReturn su
  | a => if s.opening.isNone then runStep su s a else none

end Pagebox.Kv
