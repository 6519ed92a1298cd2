import Pagebox.Base.Bytes
import Pagebox.PageSize

/-!
# WAL record format

The batch entries and data pages of a shard file (`wal/src/format.rs` and the
record helpers of `wal/src/wal_impl.rs`).  A batch is a meta page with up to
`batchMaxRecords` entries followed by one data page per entry; `Slot` is an entry
with its data page.  The checksum is a parameter `crc`.
-/

namespace Pagebox.Wal

open Pagebox.Base

section Constants

variable (ps : PageSize)

def batchMetaHeaderSize : Nat := 16

def batchEntrySize : Nat := 28

def batchMaxRecords : Nat := (ps.bytes - batchMetaHeaderSize) / batchEntrySize

def logicalChunkMaxLen : Nat := ps.bytes

def packedLogicalEntryHeaderLen : Nat := 20

def packedLogicalMaxPayloadLen : Nat := ps.bytes - packedLogicalEntryHeaderLen

def walBatchBytes : Nat := (batchMaxRecords ps + 1) * ps.bytes

/-- The next power of two above one full batch. -/
def walBufCapacity : PageSize → Nat
  | .k4 => 2 ^ 20
  | .k64 => 2 ^ 28

example : ∀ ps ∈ [PageSize.k4, .k64],
    walBatchBytes ps ≤ walBufCapacity ps ∧ walBufCapacity ps < 2 * walBatchBytes ps := by
  decide

/-- `wal_buf_records` at the largest capacity. -/
def walBufRecords : Nat :=
  let fullBatches := walBufCapacity ps / walBatchBytes ps
  let remaining := walBufCapacity ps - fullBatches * walBatchBytes ps
  if remaining < 2 * ps.bytes then fullBatches * batchMaxRecords ps
  else fullBatches * batchMaxRecords ps +
    min ((remaining - ps.bytes) / ps.bytes) (batchMaxRecords ps)

/-- `wal_buffer_capacity_for_records`, in bytes. -/
def walBufferCapacityForRecords (records : Nat) : Nat :=
  let records := min (max records 1) (walBufRecords ps)
  (records + (records + batchMaxRecords ps - 1) / batchMaxRecords ps) * ps.bytes

end Constants

theorem batchMaxRecords_pos (ps : PageSize) : 0 < batchMaxRecords ps := by
  cases ps <;> decide

theorem two_pages_le_capacity (ps : PageSize) (records : Nat) :
    2 * ps.bytes ≤ walBufferCapacityForRecords ps records := by
  have hpos : 1 ≤ min (max records 1) (walBufRecords ps) := by
    have hbuf : 1 ≤ walBufRecords ps := by cases ps <;> decide
    omega
  have hbatch := batchMaxRecords_pos ps
  unfold walBufferCapacityForRecords
  generalize min (max records 1) (walBufRecords ps) = n at hpos
  have hceil : 1 ≤ (n + batchMaxRecords ps - 1) / batchMaxRecords ps := by
    rw [Nat.le_div_iff_mul_le hbatch]
    omega
  exact Nat.mul_le_mul_right _ (by omega)

inductive RecordKind
  | pageImage
  | logical
  | logicalPacked
  deriving DecidableEq

/-- `flags` holds `LOGICAL_FLAG_FIRST` and `LOGICAL_FLAG_LAST`. -/
structure BatchEntry where
  lsn : Nat
  arg : Nat
  crc : Nat
  len : Nat
  kind : RecordKind
  first : Bool
  last : Bool
  deriving DecidableEq

structure Slot where
  entry : BatchEntry
  data : Bytes
  deriving DecidableEq

namespace BatchEntry

def pageImage (ps : PageSize) (lsn pageId crc : Nat) : BatchEntry :=
  ⟨lsn, pageId, crc, ps.bytes, .pageImage, false, false⟩

def logicalChunk (lsn logicalKind crc : Nat) (first last : Bool) (len : Nat) : BatchEntry :=
  ⟨lsn, logicalKind, crc, len, .logical, first, last⟩

def packedLogical (maxLsn crc len : Nat) : BatchEntry :=
  ⟨maxLsn, 0, crc, len, .logicalPacked, false, false⟩

end BatchEntry

/-- The checksum `finalize_buffer_records` stores in the entry of a slot. -/
def slotCrc (crc : Bytes → Nat) (slot : Slot) : Nat :=
  match slot.entry.kind with
  | .pageImage => crc slot.data
  | .logical => crc (slot.data.take slot.entry.len)
  | .logicalPacked => crc (slot.data.take slot.entry.len)

def finalizeSlot (crc : Bytes → Nat) (slot : Slot) : Slot :=
  { slot with entry := { slot.entry with crc := slotCrc crc slot } }

/-- `validate_entry_data`: the payload of an entry whose data page is intact. -/
def validateEntryData (ps : PageSize) (crc : Bytes → Nat) (entry : BatchEntry) (data : Bytes) :
    Option Bytes :=
  match entry.kind with
  | .pageImage =>
    if entry.first || entry.last || data.length ≠ ps.bytes then none
    else if crc data = entry.crc then some data else none
  | .logical =>
    if logicalChunkMaxLen ps < entry.len ∨ data.length < entry.len then none
    else if crc (data.take entry.len) = entry.crc then some (data.take entry.len) else none
  | .logicalPacked =>
    if entry.first || entry.last || data.length < entry.len then none
    else if crc (data.take entry.len) = entry.crc then some (data.take entry.len) else none

/-! ## Packed logical records -/

/-- One record of a packed data page, or a reassembled logical record. -/
structure LogicalRecord where
  lsn : Nat
  kind : Nat
  payload : Bytes
  deriving DecidableEq

def packedLogicalEntryLen (payloadLen : Nat) : Nat := packedLogicalEntryHeaderLen + payloadLen

/-- The bytes `encode_packed_logical_entry` writes. -/
def encodePackedLogicalEntry (r : LogicalRecord) : Bytes :=
  leBytes 8 r.lsn ++ leBytes 8 r.kind ++ leBytes 4 r.payload.length ++ r.payload

/-- The loop of `for_each_packed_logical_record`, with the number of remaining
iterations as a bound; the flag is its return value. -/
def forEachPackedLogicalRecord : Nat → Bytes → List LogicalRecord × Bool
  | 0, payload => ([], payload.isEmpty)
  | fuel + 1, payload =>
    if payload.isEmpty then ([], true)
    else if payload.length < packedLogicalEntryHeaderLen then ([], false)
    else
      let lsn := leNat (payload.take 8)
      let kind := leNat ((payload.drop 8).take 8)
      let len := leNat ((payload.drop 16).take 4)
      let rest := payload.drop packedLogicalEntryHeaderLen
      if rest.length < len then ([], false)
      else
        let (records, ok) := forEachPackedLogicalRecord fuel (rest.drop len)
        (⟨lsn, kind, rest.take len⟩ :: records, ok)

/-- All records of a packed payload; each takes at least one byte. -/
def packedLogicalRecords (payload : Bytes) : List LogicalRecord × Bool :=
  forEachPackedLogicalRecord payload.length payload

/-- The numbers of a record fit the `u64` and `u32` fields of its header. -/
structure LogicalRecord.Encodable (r : LogicalRecord) : Prop where
  lsn : r.lsn < 2 ^ 64
  kind : r.kind < 2 ^ 64
  len : r.payload.length < 2 ^ 32

theorem length_encodePackedLogicalEntry (r : LogicalRecord) :
    (encodePackedLogicalEntry r).length = packedLogicalEntryLen r.payload.length := by
  simp [encodePackedLogicalEntry, packedLogicalEntryLen, packedLogicalEntryHeaderLen]
  omega

theorem forEachPackedLogicalRecord_cons {r : LogicalRecord} (h : r.Encodable) (fuel : Nat)
    (rest : Bytes) :
    forEachPackedLogicalRecord (fuel + 1) (encodePackedLogicalEntry r ++ rest) =
      (r :: (forEachPackedLogicalRecord fuel rest).1,
        (forEachPackedLogicalRecord fuel rest).2) := by
  have hlsn : leNat (leBytes 8 r.lsn) = r.lsn :=
    leNat_leBytes (by have := h.lsn; norm_num at this ⊢; omega)
  have hkind : leNat (leBytes 8 r.kind) = r.kind :=
    leNat_leBytes (by have := h.kind; norm_num at this ⊢; omega)
  have hlen : leNat (leBytes 4 r.payload.length) = r.payload.length :=
    leNat_leBytes (by have := h.len; norm_num at this ⊢; omega)
  have hbytes : encodePackedLogicalEntry r ++ rest =
      leBytes 8 r.lsn ++ (leBytes 8 r.kind ++ (leBytes 4 r.payload.length ++
        (r.payload ++ rest))) := by
    simp [encodePackedLogicalEntry]
  rw [hbytes, forEachPackedLogicalRecord]
  have hne : (leBytes 8 r.lsn ++ (leBytes 8 r.kind ++ (leBytes 4 r.payload.length ++
      (r.payload ++ rest)))).isEmpty = false := by
    simp [leBytes]
  have hlong : ¬(leBytes 8 r.lsn ++ (leBytes 8 r.kind ++ (leBytes 4 r.payload.length ++
      (r.payload ++ rest)))).length < packedLogicalEntryHeaderLen := by
    simp [packedLogicalEntryHeaderLen]
    omega
  simp only [hne, hlong, if_false, Bool.false_eq_true]
  simp [packedLogicalEntryHeaderLen, List.drop_append, hlsn, hkind, hlen, List.drop_eq_nil_of_le]

theorem length_le_flatMap_encode (rs : List LogicalRecord) :
    rs.length ≤ (rs.flatMap encodePackedLogicalEntry).length := by
  induction rs with
  | nil => simp
  | cons r rs ih =>
    simp only [List.flatMap_cons, List.length_append, List.length_cons,
      length_encodePackedLogicalEntry, packedLogicalEntryLen, packedLogicalEntryHeaderLen]
    omega

theorem forEachPackedLogicalRecord_flatMap {rs : List LogicalRecord}
    (h : ∀ r ∈ rs, r.Encodable) {fuel : Nat} (hfuel : rs.length ≤ fuel) :
    forEachPackedLogicalRecord fuel (rs.flatMap encodePackedLogicalEntry) = (rs, true) := by
  induction rs generalizing fuel with
  | nil => cases fuel <;> simp [forEachPackedLogicalRecord]
  | cons r rs ih =>
    obtain ⟨fuel, rfl⟩ : ∃ n, fuel = n + 1 := ⟨fuel - 1, by simp at hfuel; omega⟩
    have hrest := ih (fun x hx => h x (List.mem_cons_of_mem r hx))
      (by simpa using hfuel : rs.length ≤ fuel)
    rw [List.flatMap_cons, forEachPackedLogicalRecord_cons (h r List.mem_cons_self), hrest]

theorem packedLogicalRecords_flatMap {rs : List LogicalRecord}
    (h : ∀ r ∈ rs, r.Encodable) :
    packedLogicalRecords (rs.flatMap encodePackedLogicalEntry) = (rs, true) :=
  forEachPackedLogicalRecord_flatMap h (length_le_flatMap_encode rs)

end Pagebox.Wal
