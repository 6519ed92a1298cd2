import Mathlib.Logic.Function.Basic
import Pagebox.Base.Runs
import Pagebox.Wal.Shard

/-!
# Appenders, drivers and syncs of a whole WAL

Threads claim an LSN, append a record at it in the shard that owns the LSN, and
may wait for a spare buffer on the way; the driver of each shard seals, submits
and completes buffers, and syncs publish durable LSNs.  A step is one mutex
section or one atomic operation.

The steps of the driver are not tied to the requests that trigger them: it may
seal, submit or sync whenever the code could.  Waiting for durability changes no
shared state, so `flush_at_least`, `commit` and `is_lsn_durable` appear as the
tests on `durable_lsn` that let them return.  A failed exchange of `claim_lsn`
has no effect either, so a claim is its successful exchange.
-/

namespace Pagebox.Wal

open Pagebox.Base

def alignLsnToShard (lsn shardIdx shardCount : Nat) : Nat :=
  let lsn := max lsn 1
  lsn + (shardIdx + shardCount - (lsn - 1) % shardCount) % shardCount

def shardIdxForLsn (shardCount lsn : Nat) : Nat :=
  if shardCount = 1 then 0 else (lsn - 1) % shardCount

inductive Pc
  | idle
  | claimed (lsn : Nat)
  /-- Waiting for a spare buffer with slots still to append. -/
  | waiting (lsn : Nat) (payload : Payload) (remaining : List Slot)
  deriving DecidableEq

def Pc.lsn : Pc → Nat
  | .idle => 0
  | .claimed lsn => lsn
  | .waiting lsn _ _ => lsn

structure SyncBarrier where
  requestedLsn : Nat
  completedLsn : Nat
  inFlight : Bool
  deriving DecidableEq

structure Appended where
  lsn : Nat
  payload : Payload
  deriving DecidableEq

structure State where
  nextLsn : Nat
  shards : Nat → Shard
  barrier : SyncBarrier
  threads : Nat → Pc
  /-- The records whose append call has returned, oldest first. -/
  appended : List Appended

/-- The parameters of a run: the configuration, the number of shards and the
shard each thread was assigned on its first claim. -/
structure Setup where
  cfg : Config
  shardCount : Nat
  threadShard : Nat → Nat

namespace Setup

def ownerShard (su : Setup) (lsn : Nat) : Nat := shardIdxForLsn su.shardCount lsn

/-- A freshly opened WAL; `maxLsn i` is the last LSN found in the file of shard
`i`. -/
def opened (su : Setup) (maxLsn : Nat → Nat) (nextLsn : Nat) : State where
  nextLsn := nextLsn
  shards := fun i => Shard.new su.cfg (maxLsn i)
  barrier := ⟨0, 0, false⟩
  threads := fun _ => .idle
  appended := []

end Setup

namespace State

def setShard (s : State) (i : Nat) (sh : Shard) : State :=
  { s with shards := Function.update s.shards i sh }

def setPc (s : State) (t : Nat) (pc : Pc) : State :=
  { s with threads := Function.update s.threads t pc }

variable (su : Setup)

def lsnFor (s : State) (t : Nat) : Nat :=
  if su.shardCount = 1 then s.nextLsn
  else alignLsnToShard s.nextLsn (su.threadShard t) su.shardCount

def claim (s : State) (t : Nat) : Option State :=
  match s.threads t with
  | .idle =>
    some { s.setPc t (.claimed (s.lsnFor su t)) with
      nextLsn := (s.lsnFor su t + 1) % u64Limit }
  | _ => none

/-- The end of one mutex section of an append: the call returns, or waits. -/
def afterSection (s : State) (t lsn : Nat) (p : Payload) (sh : Shard)
    (remaining : List Slot) : State :=
  let i := su.ownerShard lsn
  if remaining = [] then
    { (s.setShard i (sh.publishAppended lsn)).setPc t .idle with
      appended := s.appended ++ [⟨lsn, p⟩] }
  else (s.setShard i sh).setPc t (.waiting lsn p remaining)

def append (s : State) (t : Nat) (p : Payload) : Option State :=
  match s.threads t with
  | .claimed lsn =>
    if p.Valid su.cfg.pageSize then do
      let (sh, remaining) ← (s.shards (su.ownerShard lsn)).beginAppend su.cfg lsn p
      some (s.afterSection su t lsn p sh remaining)
    else none
  | _ => none

def resume (s : State) (t : Nat) : Option State :=
  match s.threads t with
  | .waiting lsn p remaining => do
      let (sh, remaining) ← (s.shards (su.ownerShard lsn)).appendSlots su.cfg true remaining
      some (s.afterSection su t lsn p sh remaining)
  | _ => none

/-- Start a sync: the fdatasync syncer captures `written_lsn` under the lock and
covers what is on disk; io_uring submits one drained fsync for the shared
barrier, which covers what was submitted before. -/
def syncStart (s : State) (i : Nat) : Option State :=
  let sh := s.shards i
  if su.shardCount ≤ i then none else
  match su.cfg.backend, sh.sync with
  | .fdatasync, none =>
    some (s.setShard i { sh with
      sync := some ⟨sh.writtenLsn, Shard.placesWhere (·.phase.written) sh.sealedBuffers⟩ })
  | .ioUring, none =>
    let requested := max s.barrier.requestedLsn sh.writtenLsn
    if s.barrier.inFlight = false ∧ s.barrier.completedLsn < requested then
      some { s.setShard i { sh with
          sync := some ⟨requested, Shard.placesWhere (·.phase ≠ .pending) sh.sealedBuffers⟩ } with
        barrier := { s.barrier with requestedLsn := requested, inFlight := true } }
    else some { s with barrier := { s.barrier with requestedLsn := requested } }
  | _, _ => none

/-- A sync completes; a drained fsync starts only after the writes before it. -/
def syncDone (s : State) (i : Nat) : Option State :=
  let sh := s.shards i
  if su.shardCount ≤ i then none else
  match su.cfg.backend, sh.sync with
  | .fdatasync, some sync => some (s.setShard i (sh.finishSync sync))
  | .ioUring, some sync =>
    if sync.covers.all fun k => (sh.sealedBuffers[k]?).any (·.phase.written) then
      some { s.setShard i (sh.finishSync sync) with
        barrier := { s.barrier with
          completedLsn := max s.barrier.completedLsn sync.target
          inFlight := false } }
    else none
  | _, _ => none

def onShard (s : State) (i : Nat) (f : Shard → Option Shard) : Option State :=
  if su.shardCount ≤ i then none else (f (s.shards i)).map (s.setShard i)

end State

inductive Action
  | claim (t : Nat)
  | append (t : Nat) (payload : Payload)
  | resume (t : Nat)
  | sealActive (i : Nat)
  | submit (i : Nat)
  | diskWrite (i k : Nat)
  | complete (i k : Nat)
  | storeWritten (i lsn : Nat)
  | storeDurable (i lsn : Nat)
  | syncStart (i : Nat)
  | syncDone (i : Nat)

def step (su : Setup) (s : State) : Action → Option State
  | .claim t => s.claim su t
  | .append t p => s.append su t p
  | .resume t => s.resume su t
  | .sealActive i => s.onShard su i Shard.sealActive
  | .submit i => s.onShard su i (Shard.submit su.cfg)
  | .diskWrite i k => s.onShard su i (Shard.diskWrite su.cfg · k)
  | .complete i k => s.onShard su i (Shard.complete su.cfg · k)
  | .storeWritten i lsn => s.onShard su i (Shard.storeWritten · lsn)
  | .storeDurable i lsn => s.onShard su i (Shard.storeDurable · lsn)
  | .syncStart i => s.syncStart su i
  | .syncDone i => s.syncDone su i

section Steps

variable {su : Setup} {s s' : State}

theorem append_cases {t : Nat} {p : Payload} (h : s.append su t p = some s') :
    ∃ lsn sh rest, s.threads t = .claimed lsn ∧ p.Valid su.cfg.pageSize ∧
      (s.shards (su.ownerShard lsn)).beginAppend su.cfg lsn p = some (sh, rest) ∧
      s' = s.afterSection su t lsn p sh rest := by
  unfold State.append at h
  split at h
  · rename_i lsn hpc
    split at h
    · rename_i hvalid
      obtain ⟨⟨sh, rest⟩, happ, h⟩ := Option.bind_eq_some_iff.mp h
      cases h
      exact ⟨lsn, sh, rest, hpc, hvalid, happ, rfl⟩
    · cases h
  · cases h

theorem resume_cases {t : Nat} (h : s.resume su t = some s') :
    ∃ lsn p slots sh rest, s.threads t = .waiting lsn p slots ∧
      (s.shards (su.ownerShard lsn)).appendSlots su.cfg true slots = some (sh, rest) ∧
      s' = s.afterSection su t lsn p sh rest := by
  unfold State.resume at h
  split at h
  · rename_i lsn p slots hpc
    obtain ⟨⟨sh, rest⟩, happ, h⟩ := Option.bind_eq_some_iff.mp h
    cases h
    exact ⟨lsn, p, slots, sh, rest, hpc, happ, rfl⟩
  · cases h

theorem claim_cases {t : Nat} (h : s.claim su t = some s') :
    s.threads t = .idle ∧ s' = { s.setPc t (.claimed (s.lsnFor su t)) with
      nextLsn := (s.lsnFor su t + 1) % u64Limit } := by
  unfold State.claim at h
  split at h
  · rename_i hidle
    cases h
    exact ⟨hidle, rfl⟩
  · cases h

end Steps

/-- The test that lets `strict_flush_at_least`, and a strict `commit` with this
target, return. -/
def flushReturns (su : Setup) (s : State) (target : Nat) : Bool :=
  target ≤ (s.shards (su.ownerShard target)).durableLsn

def isLsnDurable (su : Setup) (s : State) (lsn : Nat) : Bool :=
  lsn = 0 ∨ lsn ≤ (s.shards (su.ownerShard lsn)).durableLsn

/-- A strict `commit` that took its targets in `s₁` returns in `s₂`. -/
def commitReturns (su : Setup) (s₁ s₂ : State) : Bool :=
  (List.range su.shardCount).all fun i =>
    (s₁.shards i).appendedLsn ≤ (s₂.shards i).durableLsn

end Pagebox.Wal
