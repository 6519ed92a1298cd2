import Pagebox.Wal.FileScan

/-!
# Append buffers as bytes

The append path writes into one flat buffer (`WalBuffer` of `wal/src/wal_impl.rs`):
meta pages are initialised, entries and counts are written into them, and data
pages follow.  `Encodes` says that a flat buffer holds the batches of a structured
one; every operation on the flat buffer is matched by the operation on the batches.
-/

namespace Pagebox.Wal

open Pagebox.Base List

structure FlatPacked where
  metaStart : Nat
  slotIdx : Nat
  dataStart : Nat
  len : Nat
  maxLsn : Nat
  deriving DecidableEq

structure FlatBuffer where
  bytes : Bytes
  used : Nat
  epoch : Nat
  maxLsn : Nat
  openBatchMetaOffset : Option Nat
  openBatchCount : Nat
  packedLogical : Option FlatPacked
  deriving DecidableEq

structure Reserved where
  metaStart : Nat
  slotIdx : Nat
  dataStart : Nat
  deriving DecidableEq

/-- The outcome of an overwrite; the source panics when the data page that a
handle names lies outside the buffer. -/
inductive OverwriteResult (β : Type)
  | refused
  | done (b : β)
  | panics

namespace FlatBuffer

section Operations

variable (ps : PageSize)

def new (epoch capacity : Nat) : FlatBuffer := ⟨replicate capacity 0, 0, epoch, 0, none, 0, none⟩

variable (b : FlatBuffer)

/-- `reset`: the old bytes stay. -/
def reset (epoch : Nat) : FlatBuffer :=
  { b with
    used := 0
    epoch
    maxLsn := 0
    openBatchMetaOffset := none
    openBatchCount := 0
    packedLogical := none }

def page (start : Nat) : Bytes := (b.bytes.drop start).take ps.bytes

def setBytes (start : Nat) (bytes : Bytes) : FlatBuffer :=
  { b with bytes := writeAt b.bytes start bytes }

def needsNewBatch : Bool :=
  b.openBatchMetaOffset.isNone || b.openBatchCount = batchMaxRecords ps

/-- `reserve_active_record_slot_locked` in a buffer with room. -/
def reserve : FlatBuffer × Reserved :=
  let b :=
    if b.needsNewBatch ps then
      { b.setBytes b.used (initBatchMeta ps) with
        used := b.used + ps.bytes
        openBatchMetaOffset := some b.used
        openBatchCount := 0 }
    else b
  (b, ⟨b.openBatchMetaOffset.getD 0, b.openBatchCount, b.used⟩)

def finish (metaStart slotIdx : Nat) (entry : BatchEntry) : FlatBuffer :=
  let count := b.openBatchCount + 1
  { b.setBytes metaStart
      (setBatchMetaCount (writeBatchEntry (b.page ps metaStart) slotIdx entry.raw) count) with
    used := b.used + ps.bytes
    maxLsn :=
      if entry.kind = .pageImage ∨ entry.kind = .logicalPacked ∨ entry.last
      then max b.maxLsn entry.lsn else b.maxLsn
    openBatchMetaOffset := if count = batchMaxRecords ps then none else b.openBatchMetaOffset
    openBatchCount := if count = batchMaxRecords ps then 0 else count }

def push (slot : Slot) : FlatBuffer × Reserved :=
  let (b, r) := b.reserve ps
  ((b.setBytes r.dataStart slot.data).finish ps r.metaStart r.slotIdx slot.entry, r)

def clearPacked : FlatBuffer := { b with packedLogical := none }

def fits : Bool :=
  b.used + (if b.needsNewBatch ps then 2 * ps.bytes else ps.bytes) ≤ b.bytes.length

def pushRecord (slot : Slot) : FlatBuffer × Reserved :=
  let (b, r) := b.push ps slot
  ({ b with
    packedLogical :=
      if slot.entry.kind = .logicalPacked then
        some ⟨r.metaStart, r.slotIdx, r.dataStart, slot.entry.len, slot.entry.lsn⟩
      else b.packedLogical }, r)

def tryAppendPackedLogical (r : LogicalRecord) : Option FlatBuffer :=
  match b.packedLogical with
  | none => none
  | some slot =>
    let newLen := slot.len + packedLogicalEntryLen r.payload.length
    if b.used ≠ slot.dataStart + ps.bytes ∨ ps.bytes < newLen then none
    else
      let maxLsn := max slot.maxLsn r.lsn
      let b := b.setBytes (slot.dataStart + slot.len) (encodePackedLogicalEntry r)
      let b := b.setBytes slot.metaStart (writeBatchEntry (b.page ps slot.metaStart) slot.slotIdx
        (BatchEntry.packedLogical maxLsn 0 newLen).raw)
      some { b with
        packedLogical := some { slot with len := newLen, maxLsn }
        maxLsn := max b.maxLsn maxLsn }

def overwritePageImage (epoch offset lsn pid : Nat) (page : Bytes) : OverwriteResult FlatBuffer :=
  let (metaPage, slotIdx) := decodeRecordOffset offset
  let metaStart := metaPage * ps.bytes
  if b.epoch ≠ epoch ∨ b.used < metaStart + ps.bytes then .refused
  else
    match batchMetaCountUnchecked ps (b.page ps metaStart) with
    | none => .refused
    | some count =>
      let entry := readBatchEntry (b.page ps metaStart) slotIdx
      if count ≤ slotIdx ∨ entry.kind ≠ 1 ∨ entry.arg ≠ pid then .refused
      else
        let dataStart := metaStart + ps.bytes * (slotIdx + 1)
        if b.bytes.length < dataStart + ps.bytes then .panics
        else
          let b := b.setBytes metaStart
            (overwriteBatchEntryCrc (overwriteBatchEntryLsn (b.page ps metaStart) slotIdx lsn)
              slotIdx 0)
          .done { b.setBytes dataStart page with maxLsn := max b.maxLsn lsn }

/-- The checksum of an entry and its data page; the source panics on another
kind. -/
def entryCrc (crc : Bytes → Nat) (e : RawEntry) (data : Bytes) : Nat :=
  if e.kind = 1 then crc data else crc (data.take e.len)

/-- The loop of `finalize_buffer_records` over the batches of a buffer. -/
def finalizeRecords (crc : Bytes → Nat) : Nat → Bytes → Bytes
  | 0, _ => []
  | fuel + 1, bytes =>
    match batchMetaCountUnchecked ps (bytes.take ps.bytes) with
    | none => []
    | some count =>
      let filled := (List.range count).foldl (fun page idx =>
        overwriteBatchEntryCrc page idx
          (entryCrc crc (readBatchEntry page idx) (dataPage ps bytes idx))) (bytes.take ps.bytes)
      finalizeBatchMeta crc filled ++ (bytes.drop ps.bytes).take (count * ps.bytes) ++
        finalizeRecords crc fuel (bytes.drop ((count + 1) * ps.bytes))

def finalBytes (crc : Bytes → Nat) (b : FlatBuffer) : Bytes :=
  finalizeRecords ps crc b.used (b.bytes.take b.used)

end Operations

end FlatBuffer

theorem pushRecord_numbers (ps : PageSize) (fb : FlatBuffer) (slot : Slot) :
    let r := fb.pushRecord ps slot
    let new := fb.needsNewBatch ps
    r.1.epoch = fb.epoch ∧
      r.2.metaStart = (if new then fb.used else fb.openBatchMetaOffset.getD 0) ∧
      r.2.slotIdx = (if new then 0 else fb.openBatchCount) ∧
      r.1.used = fb.used + (if new then 2 * ps.bytes else ps.bytes) ∧
      r.1.openBatchMetaOffset = (if r.2.slotIdx + 1 = batchMaxRecords ps then none
        else if new then some fb.used else fb.openBatchMetaOffset) ∧
      r.1.openBatchCount =
        (if r.2.slotIdx + 1 = batchMaxRecords ps then 0 else r.2.slotIdx + 1) := by
  cases hnew : fb.needsNewBatch ps with
  | true =>
    simp [FlatBuffer.pushRecord, FlatBuffer.push, FlatBuffer.reserve, FlatBuffer.finish,
      FlatBuffer.setBytes, hnew]
    omega
  | false =>
    simp [FlatBuffer.pushRecord, FlatBuffer.push, FlatBuffer.reserve, FlatBuffer.finish,
      FlatBuffer.setBytes, hnew]

/-! ## What a flat buffer holds -/

def bufferBatch (ps : PageSize) (slots : List Slot) : Bytes :=
  metaPage ps 0 (slots.map Slot.entry) ++ slots.flatMap Slot.data

def bufferBytes (ps : PageSize) (batches : List (List Slot)) : Bytes :=
  batches.reverse.flatMap fun batch => bufferBatch ps batch.reverse

/-- The LSN of the entry is that of one of its records. -/
def Slot.Attained (slot : Slot) : Prop := ∃ piece ∈ slotPieces slot, piece.lsn = slot.entry.lsn

/-- A slot as the append path fills it. -/
structure SlotFilled (ps : PageSize) (slot : Slot) : Prop extends SlotOk ps slot where
  attained : slot.Attained

/-- The structured buffer can be written out: its batches are whole, and one that is
open has room. -/
structure BufferOk (ps : PageSize) (b : WalBuffer) : Prop where
  wf : BufferWf ps b
  batches : ∀ batch ∈ b.batches, BatchOk ps batch.reverse
  attained : ∀ batch ∈ b.batches, ∀ slot ∈ batch, slot.Attained
  openRoom : ∀ batch rest, b.openBatch = true → b.batches = batch :: rest →
    batch.length < batchMaxRecords ps
  packedLsn : ∀ packed slot batch rest, b.packedLogical = some packed →
    b.batches = (slot :: batch) :: rest → slot.entry.lsn = packed.maxLsn

/-- The flat buffer `fb` holds the batches of `b`. -/
structure Encodes (cfg : Config) (fb : FlatBuffer) (b : WalBuffer) : Prop where
  size : fb.bytes.length = cfg.capacity
  bytes : ∃ rest, fb.bytes = bufferBytes cfg.pageSize b.batches ++ rest
  used : fb.used = (bufferBytes cfg.pageSize b.batches).length
  epoch : fb.epoch = b.epoch
  maxLsn : fb.maxLsn = b.maxLsn
  openMeta : fb.openBatchMetaOffset =
    if b.openBatch then some (batchPages b.batches.tail * cfg.pageSize.bytes) else none
  openCount : fb.openBatchCount = b.openBatchCount
  packed : match fb.packedLogical, b.packedLogical with
    | none, none => True
    | some f, some p => f.metaStart = batchPages b.batches.tail * cfg.pageSize.bytes ∧
        f.slotIdx + 1 = (b.batches.headD []).length ∧
        f.dataStart + cfg.pageSize.bytes = p.dataEnd ∧ f.len = p.len ∧ f.maxLsn = p.maxLsn
    | _, _ => False

section Layout

variable {ps : PageSize}

theorem bufferBytes_cons (batch : List Slot) (rest : List (List Slot)) :
    bufferBytes ps (batch :: rest) = bufferBytes ps rest ++ bufferBatch ps batch.reverse := by
  simp [bufferBytes]

theorem length_bufferBatch {slots : List Slot} (hle : slots.length ≤ batchMaxRecords ps)
    (h : ∀ slot ∈ slots, slot.data.length = ps.bytes) :
    (bufferBatch ps slots).length = (slots.length + 1) * ps.bytes := by
  rw [bufferBatch, length_append, length_metaPage _ (by rw [length_map]; exact hle),
    length_flatMap_data h, Nat.succ_mul, Nat.add_comm]

theorem length_bufferBytes {batches : List (List Slot)}
    (h : ∀ batch ∈ batches, BatchOk ps batch.reverse) :
    (bufferBytes ps batches).length = batchPages batches * ps.bytes := by
  induction batches with
  | nil => simp [bufferBytes, batchPages]
  | cons batch rest ih =>
    have hok := h batch mem_cons_self
    rw [bufferBytes_cons, length_append, ih fun x hx => h x (mem_cons_of_mem batch hx),
      length_bufferBatch hok.le fun slot hslot => (hok.slots slot hslot).wf.size,
      length_reverse, batchPages, batchPages, map_cons, sum_cons, Nat.add_comm,
      ← Nat.add_mul]

theorem used_eq (b : WalBuffer) : b.used ps = batchPages b.batches * ps.bytes := by
  rw [WalBuffer.used, batchPages]
  induction b.batches with
  | nil => simp
  | cons batch rest ih =>
    rw [map_cons, sum_cons, ih, map_cons, sum_cons, ← Nat.add_mul]

theorem exists_split {bytes : Bytes} {n : Nat} (h : n ≤ bytes.length) :
    ∃ part rest, bytes = part ++ rest ∧ part.length = n :=
  ⟨bytes.take n, bytes.drop n, (take_append_drop n bytes).symm, length_take_of_le h⟩

end Layout

/-! ## Filling a slot -/

section Push

variable {cfg : Config} {fb : FlatBuffer} {b : WalBuffer} {slot : Slot}

theorem needsNewBatch_eq (h : Encodes cfg fb b) :
    fb.needsNewBatch cfg.pageSize = b.needsNewBatch cfg.pageSize := by
  rw [FlatBuffer.needsNewBatch, WalBuffer.needsNewBatch, h.openMeta, h.openCount]
  cases b.openBatch <;> rfl

theorem room_of_fits (h : Encodes cfg fb b) (hok : BufferOk cfg.pageSize b)
    (hfits : b.fits cfg = true) {rest : Bytes}
    (hrest : fb.bytes = bufferBytes cfg.pageSize b.batches ++ rest) :
    b.needed cfg.pageSize ≤ rest.length := by
  have hsize := h.size
  have hlen := length_bufferBytes hok.batches
  rw [WalBuffer.fits, decide_eq_true_eq, used_eq] at hfits
  rw [hrest, length_append] at hsize
  omega

/-- The batch that a record goes into, with its meta page in the buffer. -/
theorem reserve_spec (h : Encodes cfg fb b) (hok : BufferOk cfg.pageSize b)
    (hfits : b.fits cfg = true) :
    ∃ (batch : List Slot) (older : List (List Slot)) (rest : Bytes),
      (b.openBatchIfNeeded cfg.pageSize).batches = batch :: older ∧
      batch.length < batchMaxRecords cfg.pageSize ∧
      (∀ slot ∈ batch, SlotOk cfg.pageSize slot) ∧
      (∀ x ∈ older, BatchOk cfg.pageSize x.reverse) ∧
      cfg.pageSize.bytes ≤ rest.length ∧
      fb.reserve cfg.pageSize = ({ fb with
          bytes := bufferBytes cfg.pageSize older ++ bufferBatch cfg.pageSize batch.reverse ++ rest
          used := (batchPages older + (batch.length + 1)) * cfg.pageSize.bytes
          openBatchMetaOffset := some (batchPages older * cfg.pageSize.bytes)
          openBatchCount := batch.length },
        ⟨batchPages older * cfg.pageSize.bytes, batch.length,
          (batchPages older + (batch.length + 1)) * cfg.pageSize.bytes⟩) ∧
      (bufferBytes cfg.pageSize older ++ bufferBatch cfg.pageSize batch.reverse ++ rest).length =
        cfg.capacity := by
  obtain ⟨rest, hrest⟩ := h.bytes
  have hroom := room_of_fits h hok hfits hrest
  have hlen := length_bufferBytes hok.batches
  have hused := h.used
  rw [hlen] at hused
  have hsize := h.size
  have hneeds := needsNewBatch_eq h
  rw [FlatBuffer.reserve, hneeds]
  cases hnew : b.needsNewBatch cfg.pageSize with
  | true =>
    rw [WalBuffer.needed, if_pos hnew] at hroom
    obtain ⟨old, behind, rfl, hold⟩ := exists_split (n := cfg.pageSize.bytes)
      (show cfg.pageSize.bytes ≤ rest.length by omega)
    have hinit : (initBatchMeta cfg.pageSize).length = cfg.pageSize.bytes := by
      rw [← metaPage_nil, length_metaPage 0 (Nat.zero_le _)]
    have hbytes : writeAt fb.bytes fb.used (initBatchMeta cfg.pageSize) =
        bufferBytes cfg.pageSize b.batches ++ bufferBatch cfg.pageSize [].reverse ++ behind := by
      rw [hrest, hused, writeAt_middle hlen (by rw [hold, hinit]), bufferBatch, reverse_nil,
        map_nil, metaPage_nil, flatMap_nil, append_nil, append_assoc]
    refine ⟨[], b.batches, behind, ?_, batchMaxRecords_pos _, nofun, hok.batches, ?_, ?_, ?_⟩
    · rw [WalBuffer.openBatchIfNeeded, if_pos hnew]
    · rw [length_append, hold] at hroom
      omega
    · simp only [if_true, FlatBuffer.setBytes, hbytes, Option.getD_some, length_nil,
        Nat.zero_add, Nat.add_mul, Nat.one_mul]
      rw [hused]
    · rw [← hbytes, hrest, hused, writeAt_middle hlen (by rw [hold, hinit])]
      rw [hrest] at hsize
      simp only [length_append, hold, hinit] at hsize ⊢
      omega
  | false =>
    rw [WalBuffer.needed, hnew, if_neg Bool.false_ne_true] at hroom
    have hopen : b.openBatch = true := by
      rw [WalBuffer.needsNewBatch, Bool.or_eq_false_iff] at hnew
      simpa using hnew.1
    obtain ⟨batch, older, hbatches⟩ : ∃ batch older, b.batches = batch :: older := by
      cases hb : b.batches with
      | nil => exact absurd hb (hok.wf.batch hopen)
      | cons batch older => exact ⟨batch, older, rfl⟩
    have hbatchOk := hok.batches batch (hbatches ▸ mem_cons_self)
    have hcount : fb.openBatchCount = batch.length := by
      rw [h.openCount, WalBuffer.openBatchCount, hopen, hbatches]
    have hmeta : fb.openBatchMetaOffset = some (batchPages older * cfg.pageSize.bytes) := by
      rw [h.openMeta, if_pos hopen, hbatches]
      rfl
    have hpages : batchPages b.batches = batchPages older + (batch.length + 1) := by
      rw [hbatches, batchPages, batchPages, map_cons, sum_cons, Nat.add_comm]
    have hbytes : fb.bytes = bufferBytes cfg.pageSize older ++
        bufferBatch cfg.pageSize batch.reverse ++ rest := by
      rw [hrest, hbatches, bufferBytes_cons]
    refine ⟨batch, older, rest, ?_, hok.openRoom batch older hopen hbatches, ?_, ?_, hroom, ?_, ?_⟩
    · rw [WalBuffer.openBatchIfNeeded, hnew, if_neg Bool.false_ne_true, hbatches]
    · intro slot hslot
      exact hbatchOk.slots slot (mem_reverse.mpr hslot)
    · intro x hx
      exact hok.batches x (hbatches ▸ mem_cons_of_mem batch hx)
    · rw [hpages] at hused
      simp only [Bool.false_eq_true, if_false]
      refine Prod.ext ?_ ?_
      · cases fb
        simp only [FlatBuffer.mk.injEq]
        exact ⟨hbytes, hused, trivial, trivial, hmeta, hcount, trivial⟩
      · simp only [hmeta, Option.getD_some, hcount, hused]
    · rw [← hbytes, hsize]

theorem push_bytes (slot : Slot) {batch : List Slot} {older : List (List Slot)} {between : Bytes}
    (behind : Bytes)
    (hlt : batch.length < batchMaxRecords cfg.pageSize)
    (hslots : ∀ x ∈ batch, x.data.length = cfg.pageSize.bytes)
    (holder : ∀ x ∈ older, BatchOk cfg.pageSize x.reverse)
    (hbetween : between.length = cfg.pageSize.bytes)
    (hslot : slot.data.length = cfg.pageSize.bytes) :
    let bytes := bufferBytes cfg.pageSize older ++ bufferBatch cfg.pageSize batch.reverse ++
      (between ++ behind)
    let metaStart := batchPages older * cfg.pageSize.bytes
    let filled := writeAt bytes
      ((batchPages older + (batch.length + 1)) * cfg.pageSize.bytes) slot.data
    writeAt filled metaStart (setBatchMetaCount (writeBatchEntry
        ((filled.drop metaStart).take cfg.pageSize.bytes) batch.length slot.entry.raw)
          (batch.length + 1)) =
      bufferBytes cfg.pageSize ((slot :: batch) :: older) ++ behind := by
  intro bytes metaStart filled
  have hpagesLen : (bufferBytes cfg.pageSize older).length = metaStart := length_bufferBytes holder
  have hmetaLen : (metaPage cfg.pageSize 0 (batch.reverse.map Slot.entry)).length =
      cfg.pageSize.bytes := length_metaPage 0 (by simpa using hlt.le)
  have hnewLen : (metaPage cfg.pageSize 0 ((slot :: batch).reverse.map Slot.entry)).length =
      cfg.pageSize.bytes := length_metaPage 0 (by simpa using Nat.succ_le_of_lt hlt)
  have hreversed : ∀ x ∈ batch.reverse, x.data.length = cfg.pageSize.bytes := fun x hx =>
    hslots x (mem_reverse.mp hx)
  have hdataLen := length_flatMap_data hreversed
  rw [length_reverse] at hdataLen
  have hparts : ∀ part : Bytes, bufferBytes cfg.pageSize older ++
      bufferBatch cfg.pageSize batch.reverse ++ (part ++ behind) = bufferBytes cfg.pageSize older ++
          (metaPage cfg.pageSize 0 (batch.reverse.map Slot.entry) ++
            (batch.reverse.flatMap Slot.data ++ (part ++ behind))) := by
    intro part
    simp only [bufferBatch, append_assoc]
  have hfilled : filled = bufferBytes cfg.pageSize older ++
      bufferBatch cfg.pageSize batch.reverse ++ (slot.data ++ behind) := by
    refine writeAt_middle ?_ (by rw [hbetween, hslot])
    simp only [bufferBatch, length_append, hpagesLen, hmetaLen, hdataLen, metaStart, Nat.add_mul]
    omega
  have hpush : setBatchMetaCount (writeBatchEntry
      (metaPage cfg.pageSize 0 (batch.reverse.map Slot.entry)) batch.length slot.entry.raw)
        (batch.length + 1) =
      metaPage cfg.pageSize 0 ((slot :: batch).reverse.map Slot.entry) := by
    have hroom : (batch.reverse.map Slot.entry).length < batchMaxRecords cfg.pageSize := by
      simpa using hlt
    simpa using metaPage_push 0 slot.entry hroom
  rw [hfilled, hparts, drop_take_middle hpagesLen hmetaLen, hpush,
    writeAt_middle hpagesLen (by rw [hmetaLen, hnewLen])]
  rw [bufferBytes_cons, bufferBatch]
  simp only [reverse_cons, flatMap_append, flatMap_singleton, append_assoc]

theorem BufferOk.openBatch {ps : PageSize} (hok : BufferOk ps b) :
    ∃ (batch : List Slot) (older : List (List Slot)),
      (b.openBatchIfNeeded ps).batches = batch :: older ∧ batch.length < batchMaxRecords ps ∧
      (∀ slot ∈ batch, SlotOk ps slot) ∧ (∀ x ∈ older, BatchOk ps x.reverse) ∧
      ∀ x ∈ batch :: older, ∀ slot ∈ x, slot.Attained := by
  unfold WalBuffer.openBatchIfNeeded
  split
  · exact ⟨[], b.batches, rfl, batchMaxRecords_pos ps, nofun, hok.batches,
      forall_mem_cons.mpr ⟨nofun, hok.attained⟩⟩
  rename_i hnew
  have hopen : b.openBatch = true := by
    rw [WalBuffer.needsNewBatch, Bool.not_eq_true, Bool.or_eq_false_iff] at hnew
    simpa using hnew.1
  cases hbatches : b.batches with
  | nil => exact absurd hbatches (hok.wf.batch hopen)
  | cons batch older =>
    have hold := hok.batches
    rw [hbatches] at hold
    have hbatch := hold batch mem_cons_self
    exact ⟨batch, older, rfl, hok.openRoom batch older hopen hbatches,
      fun slot hslot => hbatch.slots slot (mem_reverse.mpr hslot),
      fun x hx => hold x (mem_cons_of_mem batch hx), hbatches ▸ hok.attained⟩

theorem BufferOk.pushSlot {ps : PageSize} (hok : BufferOk ps b) (hclosed : b.packedLogical = none)
    (hslot : SlotFilled ps slot) : BufferOk ps (b.pushSlot ps slot) := by
  obtain ⟨batch, older, hbatches, hlt, hslots, holder, hattained⟩ := hok.openBatch
  obtain ⟨-, -, -, hopenPacked⟩ := openBatchIfNeeded_spec hok.wf
  have hnewOk : ∀ x ∈ (slot :: batch) :: older, BatchOk ps x.reverse := by
    intro x hx
    rcases mem_cons.mp hx with rfl | hx
    · refine ⟨by simp, by simpa using Nat.succ_le_of_lt hlt, fun y hy => ?_⟩
      rcases mem_cons.mp (mem_reverse.mp hy) with rfl | hy
      · exact hslot.toSlotOk
      · exact hslots y hy
    · exact holder x hx
  rw [forall_mem_cons] at hattained
  rw [WalBuffer.pushSlot, WalBuffer.finishSlot, hbatches]
  refine ⟨⟨?_, fun _ => cons_ne_nil _ _, ?_⟩, hnewOk,
    forall_mem_cons.mpr ⟨forall_mem_cons.mpr ⟨hslot.attained, hattained.1⟩, hattained.2⟩, ?_, ?_⟩
  · intro x hx
    obtain ⟨y, hy, hxy⟩ := mem_flatMap.mp hx
    exact ((hnewOk y (mem_reverse.mp hy)).slots x hxy).wf
  · simp [hopenPacked, hclosed]
  · rintro x rest hopen ⟨⟩
    have hne : batch.length + 1 ≠ batchMaxRecords ps := by simpa using hopen
    rw [length_cons]
    omega
  · simp [hopenPacked, hclosed]

theorem push_spec (h : Encodes cfg fb b) (hok : BufferOk cfg.pageSize b)
    (hfits : b.fits cfg = true) (hflat : fb.packedLogical = none) (hclosed : b.packedLogical = none)
    (hslot : SlotFilled cfg.pageSize slot) :
    Encodes cfg (fb.push cfg.pageSize slot).1 (b.pushSlot cfg.pageSize slot) ∧
      BufferOk cfg.pageSize (b.pushSlot cfg.pageSize slot) ∧
      (fb.push cfg.pageSize slot).2.metaStart =
        batchPages (b.pushSlot cfg.pageSize slot).batches.tail * cfg.pageSize.bytes ∧
      (fb.push cfg.pageSize slot).2.slotIdx + 1 =
        ((b.pushSlot cfg.pageSize slot).batches.headD []).length ∧
      (fb.push cfg.pageSize slot).2.dataStart + cfg.pageSize.bytes =
        (fb.push cfg.pageSize slot).1.used := by
  obtain ⟨batch, older, rest, hbatches, hlt, hslots, holder, hroom, hreserve, hsize⟩ :=
    reserve_spec h hok hfits
  obtain ⟨between, behind, rfl, hbetween⟩ := exists_split hroom
  obtain ⟨-, -, hopenMax, hopenPacked⟩ := openBatchIfNeeded_spec hok.wf
  have hepoch : (b.openBatchIfNeeded cfg.pageSize).epoch = b.epoch := by
    unfold WalBuffer.openBatchIfNeeded
    split <;> rfl
  have hbytes := push_bytes slot behind hlt (fun x hx => (hslots x hx).wf.size) holder hbetween
    hslot.wf.size
  have hbuffer : b.pushSlot cfg.pageSize slot = {
      batches := (slot :: batch) :: older
      epoch := b.epoch
      maxLsn := if slot.entry.kind = .pageImage ∨ slot.entry.kind = .logicalPacked ∨ slot.entry.last
        then max b.maxLsn slot.entry.lsn else b.maxLsn
      openBatch := batch.length + 1 ≠ batchMaxRecords cfg.pageSize
      packedLogical := none } := by
    rw [WalBuffer.pushSlot, WalBuffer.finishSlot, hbatches]
    simp only [hopenMax, hopenPacked, hclosed, hepoch]
  have hpush : fb.push cfg.pageSize slot = (
      { bytes := bufferBytes cfg.pageSize ((slot :: batch) :: older) ++ behind
        used := (batchPages older + (batch.length + 1)) * cfg.pageSize.bytes + cfg.pageSize.bytes
        epoch := b.epoch
        maxLsn := if slot.entry.kind = .pageImage ∨ slot.entry.kind = .logicalPacked ∨
          slot.entry.last
          then max b.maxLsn slot.entry.lsn else b.maxLsn
        openBatchMetaOffset := if batch.length + 1 = batchMaxRecords cfg.pageSize then none
          else some (batchPages older * cfg.pageSize.bytes)
        openBatchCount := if batch.length + 1 = batchMaxRecords cfg.pageSize then 0
          else batch.length + 1
        packedLogical := none },
      ⟨batchPages older * cfg.pageSize.bytes, batch.length,
        (batchPages older + (batch.length + 1)) * cfg.pageSize.bytes⟩) := by
    rw [FlatBuffer.push, hreserve]
    simp only [FlatBuffer.finish, FlatBuffer.setBytes, FlatBuffer.page]
    rw [hbytes, h.epoch, h.maxLsn, hflat]
    rfl
  have hbufferOk := hok.pushSlot hclosed hslot
  have hnewOk : ∀ x ∈ (slot :: batch) :: older, BatchOk cfg.pageSize x.reverse := by
    have hnew := hbufferOk.batches
    rwa [hbuffer] at hnew
  have hlength := length_bufferBytes hnewOk
  have hpages : batchPages ((slot :: batch) :: older) =
      batchPages older + (batch.length + 1) + 1 := by
    simp only [batchPages, map_cons, sum_cons, length_cons]
    omega
  have hcapacity : (bufferBytes cfg.pageSize ((slot :: batch) :: older) ++ behind).length =
      cfg.capacity := by
    have hroom : batch.reverse.length ≤ batchMaxRecords cfg.pageSize := by simpa using hlt.le
    have hbatch := length_bufferBatch hroom fun x hx => (hslots x (mem_reverse.mp hx)).wf.size
    rw [← hsize]
    simp only [length_append, hlength, hpages, length_bufferBytes holder, hbatch, hbetween,
      length_reverse, Nat.add_mul]
    omega
  refine ⟨⟨?_, ?_, ?_, ?_, ?_, ?_, ?_, ?_⟩, hbufferOk, ?_, ?_, ?_⟩
  all_goals rw [hpush]
  · exact hcapacity
  · exact ⟨behind, by rw [hbuffer]⟩
  · rw [hbuffer, hlength, hpages, Nat.succ_mul]
  · rw [hbuffer]
  · rw [hbuffer]
  · rw [hbuffer]
    by_cases hfull : batch.length + 1 = batchMaxRecords cfg.pageSize <;> simp [hfull]
  · rw [hbuffer]
    by_cases hfull : batch.length + 1 = batchMaxRecords cfg.pageSize <;>
      simp [hfull, WalBuffer.openBatchCount]
  · rw [hbuffer]
    trivial
  · rw [hbuffer]
    rfl
  · rw [hbuffer]
    rfl

end Push

end Pagebox.Wal
