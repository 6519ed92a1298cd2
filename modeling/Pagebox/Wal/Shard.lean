import Pagebox.Wal.Format

/-!
# One WAL shard

The append path and the driver of one shard (`WalInner` and `WalState` in
`wal/src/wal_impl.rs`).  Every function is one section of the shard's state
mutex or one atomic operation.

Buffer contents are kept newest first, so that appending is `cons`; `slots` gives
them in file order.  A sealed buffer keeps its place in the file, its contents
and how far it has got: waiting, handed to the backend, on disk, given back.
-/

namespace Pagebox.Wal

open Pagebox.Base

inductive Backend
  | fdatasync
  | pwritev2Dsync
  | ioUring
  deriving DecidableEq

def Backend.maxInFlightWrites : Backend → Nat
  | .fdatasync => 1
  | .pwritev2Dsync => 1
  | .ioUring => 32

structure Config where
  pageSize : PageSize
  bufferRecords : Nat
  backend : Backend

namespace Config

def capacity (cfg : Config) : Nat :=
  walBufferCapacityForRecords cfg.pageSize cfg.bufferRecords

def bufferCountLimit (cfg : Config) : Nat :=
  if 1 < cfg.backend.maxInFlightWrites then 3 else 2

end Config

structure PackedLogicalSlot where
  /-- `used` right after the packed data page was reserved. -/
  dataEnd : Nat
  len : Nat
  maxLsn : Nat
  deriving DecidableEq

structure WalBuffer where
  /-- Batches and their slots, newest first. -/
  batches : List (List Slot)
  epoch : Nat
  maxLsn : Nat
  openBatch : Bool
  packedLogical : Option PackedLogicalSlot
  deriving DecidableEq

namespace WalBuffer

def reset (epoch : Nat) : WalBuffer := ⟨[], epoch, 0, false, none⟩

/-- `used`: one meta page for each batch, one data page for each slot. -/
def used (ps : PageSize) (b : WalBuffer) : Nat :=
  (b.batches.map fun batch => (batch.length + 1) * ps.bytes).sum

def openBatchCount (b : WalBuffer) : Nat :=
  match b.openBatch, b.batches with
  | true, batch :: _ => batch.length
  | _, _ => 0

def slots (b : WalBuffer) : List Slot := b.batches.reverse.flatMap List.reverse

def needsNewBatch (ps : PageSize) (b : WalBuffer) : Bool :=
  !b.openBatch || b.openBatchCount = batchMaxRecords ps

def needed (ps : PageSize) (b : WalBuffer) : Nat :=
  if b.needsNewBatch ps then 2 * ps.bytes else ps.bytes

def fits (cfg : Config) (b : WalBuffer) : Bool :=
  b.used cfg.pageSize + b.needed cfg.pageSize ≤ cfg.capacity

/-- The end of `reserve_active_record_slot_locked`: start a batch when none is
open. -/
def openBatchIfNeeded (ps : PageSize) (b : WalBuffer) : WalBuffer :=
  if b.needsNewBatch ps then { b with batches := [] :: b.batches, openBatch := true } else b

/-- `finish_active_record_slot_locked`: only page images, packed pages and last
chunks raise `max_lsn`; a full batch is closed. -/
def finishSlot (ps : PageSize) (b : WalBuffer) (slot : Slot) : WalBuffer :=
  match b.batches with
  | [] => b
  | batch :: rest =>
    { b with
      batches := (slot :: batch) :: rest
      maxLsn :=
        if slot.entry.kind = .pageImage ∨ slot.entry.kind = .logicalPacked ∨ slot.entry.last
        then max b.maxLsn slot.entry.lsn else b.maxLsn
      openBatch := batch.length + 1 ≠ batchMaxRecords ps }

/-- Reserve a slot in a buffer with room and fill it. -/
def pushSlot (ps : PageSize) (b : WalBuffer) (slot : Slot) : WalBuffer :=
  (b.openBatchIfNeeded ps).finishSlot ps slot

/-- `try_append_packed_logical_locked`: add a record to the packed page that was
written last, when it has room. -/
def tryAppendPackedLogical (ps : PageSize) (b : WalBuffer) (r : LogicalRecord) : Option WalBuffer :=
  match b.packedLogical, b.batches with
  | some packed, (slot :: batch) :: rest =>
    let newLen := packed.len + packedLogicalEntryLen r.payload.length
    if b.used ps ≠ packed.dataEnd ∨ ps.bytes < newLen then none
    else
      let maxLsn := max packed.maxLsn r.lsn
      let slot : Slot :=
        ⟨.packedLogical maxLsn 0 newLen, writeAt slot.data packed.len (encodePackedLogicalEntry r)⟩
      some { b with
        batches := (slot :: batch) :: rest
        packedLogical := some { packed with len := newLen, maxLsn }
        maxLsn := max b.maxLsn maxLsn }
  | _, _ => none

end WalBuffer

/-! ## What an append call puts into the buffers -/

/-- The kinds reserved for variable-length page images and page patches. -/
def logicalKindPageImageBytes : Nat := 0x4258_5049_4D47_0001

def logicalKindPagePatch : Nat := 0x4258_5041_5443_0001

def chunkCount (ps : PageSize) (payloadLen : Nat) : Nat :=
  max ((payloadLen + logicalChunkMaxLen ps - 1) / logicalChunkMaxLen ps) 1

def imageSlot (ps : PageSize) (lsn pageId : Nat) (page : Bytes) : Slot :=
  ⟨.pageImage ps lsn pageId 0, page⟩

def packedSlot (ps : PageSize) (r : LogicalRecord) : Slot :=
  ⟨.packedLogical r.lsn 0 (packedLogicalEntryLen r.payload.length),
    padTo ps.bytes (encodePackedLogicalEntry r)⟩

def chunkSlot (ps : PageSize) (r : LogicalRecord) (chunks i : Nat) : Slot :=
  let chunk := (r.payload.drop (i * logicalChunkMaxLen ps)).take (logicalChunkMaxLen ps)
  ⟨.logicalChunk r.lsn r.kind 0 (i = 0) (i + 1 = chunks) chunk.length, padTo ps.bytes chunk⟩

def chunkSlots (ps : PageSize) (r : LogicalRecord) : List Slot :=
  (List.range (chunkCount ps r.payload.length)).map
    (chunkSlot ps r (chunkCount ps r.payload.length))

/-- `append_logical_record_with_lsn` packs a record that fits in a page. -/
def isPacked (ps : PageSize) (r : LogicalRecord) : Bool :=
  r.kind ≠ logicalKindPageImageBytes ∧ r.payload.length ≤ packedLogicalMaxPayloadLen ps

def encodePageImageBytesPayload (pageId : Nat) (page : Bytes) : Bytes :=
  leBytes 8 pageId ++ leBytes 8 page.length ++ page

/-- The handle that an image append returns: where the image sits in an active buffer. -/
structure BufferedWalRecord where
  epoch : Nat
  offset : Nat
  deriving DecidableEq

/-- The pair of zeros, for a page without a buffered image. -/
def BufferedWalRecord.none : BufferedWalRecord := ⟨0, 0⟩

/-- What the caller of an append hands over, at a claimed LSN. -/
inductive Payload
  | pageImage (pageId : Nat) (page : Bytes)
  | pageImageBytes (pageId : Nat) (page : Bytes)
  | logical (kind : Nat) (bytes : Bytes)
  deriving DecidableEq

/-- What a caller's arguments satisfy by their types and assertions: pages have
the page size, numbers are `u64`, and the reserved kind of page images is only
used by the page-image append. -/
def Payload.Valid (ps : PageSize) : Payload → Prop
  | .pageImage pageId page => pageId < u64Limit ∧ page.length = ps.bytes
  | .pageImageBytes pageId page => pageId < u64Limit ∧ page.length = ps.bytes
  | .logical kind bytes =>
    kind < u64Limit ∧ kind ≠ logicalKindPageImageBytes ∧ bytes.length < u64Limit

instance (ps : PageSize) (p : Payload) : Decidable (p.Valid ps) := by
  cases p <;> exact inferInstanceAs (Decidable (_ ∧ _))

/-- The slots an append fills, when it cannot join a packed page. -/
def Payload.slots (ps : PageSize) (lsn : Nat) : Payload → List Slot
  | .pageImage pageId page => [imageSlot ps lsn pageId page]
  | .pageImageBytes pageId page =>
    chunkSlots ps ⟨lsn, logicalKindPageImageBytes, encodePageImageBytesPayload pageId page⟩
  | .logical kind bytes =>
    if isPacked ps ⟨lsn, kind, bytes⟩ then [packedSlot ps ⟨lsn, kind, bytes⟩]
    else chunkSlots ps ⟨lsn, kind, bytes⟩

def Payload.packed (ps : PageSize) (lsn : Nat) : Payload → Option LogicalRecord
  | .logical kind bytes =>
    if isPacked ps ⟨lsn, kind, bytes⟩ then some ⟨lsn, kind, bytes⟩ else none
  | _ => none

inductive Phase
  | pending
  | inFlight
  | onDisk
  | returned
  deriving DecidableEq

def Phase.written : Phase → Bool
  | .pending => false
  | .inFlight => false
  | .onDisk => true
  | .returned => true

structure SealedBuffer where
  batches : List (List Slot)
  maxLsn : Nat
  phase : Phase
  /-- Covered by a completed sync. -/
  synced : Bool
  deriving DecidableEq

def SealedBuffer.slots (b : SealedBuffer) : List Slot :=
  b.batches.reverse.flatMap List.reverse

structure SubmittedWrite where
  maxLsn : Nat
  completed : Bool
  deriving DecidableEq

structure SubmittedWrites where
  entries : List SubmittedWrite
  highWaterLsn : Nat
  deriving DecidableEq

namespace SubmittedWrites

def push (w : SubmittedWrites) (maxLsn : Nat) : SubmittedWrites :=
  { w with entries := w.entries ++ [⟨maxLsn, false⟩] }

/-- Mark the first entry with this LSN that is not completed yet. -/
def mark (maxLsn : Nat) : List SubmittedWrite → Option (List SubmittedWrite)
  | [] => none
  | e :: es =>
    if e.maxLsn = maxLsn ∧ e.completed = false then some (⟨e.maxLsn, true⟩ :: es)
    else (mark maxLsn es).map (e :: ·)

/-- Pop the completed front entries, raising the high-water mark. -/
def popCompleted : List SubmittedWrite → Nat → SubmittedWrites
  | [], high => ⟨[], high⟩
  | e :: es, high =>
    if e.completed then popCompleted es (max high e.maxLsn) else ⟨e :: es, high⟩

/-- `complete`; `none` is the panic on an unknown completion. -/
def complete (w : SubmittedWrites) (maxLsn : Nat) : Option (SubmittedWrites × Option Nat) :=
  (mark maxLsn w.entries).map fun entries =>
    let w' := popCompleted entries w.highWaterLsn
    (w', if w.highWaterLsn < w'.highWaterLsn then some w'.highWaterLsn else none)

end SubmittedWrites

/-- A sync between its start and its completion: the LSN it will report and the
buffers, by their place in the file, that it makes durable. -/
structure SyncInFlight where
  target : Nat
  covers : List Nat
  deriving DecidableEq

structure Shard where
  active : WalBuffer
  spareBuffers : Nat
  /-- Counts on where the source's counter wraps. -/
  nextBufferEpoch : Nat
  /-- Every sealed buffer, in file order. -/
  sealedBuffers : List SealedBuffer
  submittedWrites : SubmittedWrites
  writesInProgress : Nat
  appendedLsn : Nat
  writtenLsn : Nat
  durableLsn : Nat
  /-- LSNs that `handle_completion` or a sync has computed and is about to
  publish in `written_lsn` and `durable_lsn`. -/
  publishWritten : List Nat
  publishDurable : List Nat
  sync : Option SyncInFlight

namespace Shard

/-- `WalInner::new` on a file whose records end at `maxLsn`. -/
def new (cfg : Config) (maxLsn : Nat) : Shard where
  active := WalBuffer.reset 1
  spareBuffers := cfg.bufferCountLimit - 1
  nextBufferEpoch := cfg.bufferCountLimit + 1
  sealedBuffers := []
  submittedWrites := ⟨[], maxLsn⟩
  writesInProgress := 0
  appendedLsn := maxLsn
  writtenLsn := maxLsn
  durableLsn := maxLsn
  publishWritten := []
  publishDurable := []
  sync := none

def clearPacked (sh : Shard) : Shard :=
  { sh with active := { sh.active with packedLogical := none } }

/-- `seal_active_buffer_locked`; `none` when no spare buffer can take over. -/
def sealActive (sh : Shard) : Option Shard :=
  if sh.active.batches = [] then some sh
  else if sh.spareBuffers = 0 then none
  else some { sh with
    active := WalBuffer.reset sh.nextBufferEpoch
    spareBuffers := sh.spareBuffers - 1
    nextBufferEpoch := sh.nextBufferEpoch + 1
    sealedBuffers := sh.sealedBuffers ++ [⟨sh.active.batches, sh.active.maxLsn, .pending, false⟩] }

def push (cfg : Config) (sh : Shard) (slot : Slot) : Shard :=
  let b := sh.active.pushSlot cfg.pageSize slot
  { sh with active := { b with
      packedLogical :=
        if slot.entry.kind = .logicalPacked then
          some ⟨b.used cfg.pageSize, slot.entry.len, slot.entry.lsn⟩
        else b.packedLogical } }

/-- The loop over the slots of one append call, up to its end or to the wait for
a spare buffer, which releases the mutex; returns the slots still to append.  A
call that was woken does not check for room again: it seals. -/
def appendSlots (cfg : Config) : Bool → List Slot → Shard → Option (Shard × List Slot)
  | _, [], sh => some (sh, [])
  | woken, slot :: rest, sh =>
    let sh := if woken then sh else sh.clearPacked
    if woken ∨ sh.active.fits cfg = false then
      if sh.spareBuffers = 0 then some (sh, slot :: rest)
      else do
        let sh ← sh.sealActive
        appendSlots cfg false rest (sh.push cfg slot)
    else appendSlots cfg false rest (sh.push cfg slot)

def publishAppended (sh : Shard) (lsn : Nat) : Shard :=
  { sh with appendedLsn := max sh.appendedLsn lsn }

/-- The first mutex section of an append call. -/
def beginAppend (cfg : Config) (sh : Shard) (lsn : Nat) (p : Payload) :
    Option (Shard × List Slot) :=
  match p.packed cfg.pageSize lsn with
  | some r =>
    match sh.active.tryAppendPackedLogical cfg.pageSize r with
    | some active => some ({ sh with active }, [])
    | none => appendSlots cfg false (p.slots cfg.pageSize lsn) sh
  | none => appendSlots cfg false (p.slots cfg.pageSize lsn) sh

def popPending : List SealedBuffer → Option (List SealedBuffer × Nat)
  | [] => none
  | b :: bs =>
    if b.phase = .pending then some ({ b with phase := .inFlight } :: bs, b.maxLsn)
    else (popPending bs).map fun (bs, maxLsn) => (b :: bs, maxLsn)

def submit (cfg : Config) (sh : Shard) : Option Shard :=
  if sh.writesInProgress < cfg.backend.maxInFlightWrites then
    (popPending sh.sealedBuffers).map fun (bs, maxLsn) =>
      { sh with
        sealedBuffers := bs
        submittedWrites := sh.submittedWrites.push maxLsn
        writesInProgress := sh.writesInProgress + 1 }
  else none

/-- Buffer `i` reaches the file; `pwritev2` with `RWF_DSYNC` also makes it
durable. -/
def diskWrite (cfg : Config) (sh : Shard) (i : Nat) : Option Shard :=
  match sh.sealedBuffers[i]? with
  | some b =>
    if b.phase = .inFlight then
      let b := { b with
        phase := .onDisk
        synced := b.synced || cfg.backend = .pwritev2Dsync }
      some { sh with sealedBuffers := sh.sealedBuffers.set i b }
    else none
  | none => none

/-- The mutex section of `handle_completion` for a `Written` completion. -/
def complete (cfg : Config) (sh : Shard) (i : Nat) : Option Shard :=
  match sh.sealedBuffers[i]? with
  | some b =>
    if b.phase = .onDisk then
      (sh.submittedWrites.complete b.maxLsn).map fun (w, contiguous) =>
        { sh with
          sealedBuffers := sh.sealedBuffers.set i ({ b with phase := .returned })
          submittedWrites := w
          spareBuffers := sh.spareBuffers + 1
          nextBufferEpoch := sh.nextBufferEpoch + 1
          writesInProgress := sh.writesInProgress - 1
          publishWritten := contiguous.toList ++ sh.publishWritten
          publishDurable :=
            (if cfg.backend = .pwritev2Dsync then [b.maxLsn] else []) ++ sh.publishDurable }
    else none
  | none => none

def storeWritten (sh : Shard) (lsn : Nat) : Option Shard :=
  if lsn ∈ sh.publishWritten then
    some { sh with
      writtenLsn := max sh.writtenLsn lsn
      publishWritten := sh.publishWritten.erase lsn }
  else none

def storeDurable (sh : Shard) (lsn : Nat) : Option Shard :=
  if lsn ∈ sh.publishDurable then
    some { sh with
      durableLsn := max sh.durableLsn lsn
      publishDurable := sh.publishDurable.erase lsn }
  else none

def placesWhere (test : SealedBuffer → Bool) (bs : List SealedBuffer) : List Nat :=
  (List.range bs.length).filter fun i => (bs[i]?).any test

def finishSync (sh : Shard) (s : SyncInFlight) : Shard :=
  { sh with
    sync := none
    sealedBuffers := sh.sealedBuffers.mapIdx fun i b =>
      if i ∈ s.covers then { b with synced := true } else b
    publishDurable := s.target :: sh.publishDurable }

end Shard

end Pagebox.Wal
