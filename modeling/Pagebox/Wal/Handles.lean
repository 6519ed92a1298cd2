import Mathlib.Data.List.Nodup
import Pagebox.Base.Runs
import Pagebox.Wal.Appender

/-!
# Handles of page images

`append_page_image_with_lsn` returns a handle for the slot it filled, through which the
image can be overwritten while its buffer is active.  The handle packs the number of
the batch's meta page and the slot, with eight bits for the slot.  A run here is what
all threads together do with the active buffer of one shard, one section of the state
mutex after the other.
-/

namespace Pagebox.Wal

open Pagebox.Base List

/-- The active buffer of a shard and the places of the images appended so far.  Epochs
do not wrap, and those that completions take are left out. -/
structure ImagePlaces where
  active : FlatBuffer
  nextEpoch : Nat
  issued : List Appender.Place

namespace ImagePlaces

inductive Action
  /-- Fill slot `k` of a record; the slots of several records may come in any order. -/
  | append (lsn : Nat) (p : Payload) (k : Nat)
  | join (r : LogicalRecord)
  /-- Overwrite through the handle that was returned `i`-th. -/
  | overwrite (i lsn pid : Nat) (page : Bytes)
  /-- The buffer is sealed, and a spare one that holds these bytes takes its place. -/
  | renew (spare : Bytes)

variable (cfg : Config)

def start : ImagePlaces := ⟨FlatBuffer.new 1 cfg.capacity, 2, []⟩

def push (s : ImagePlaces) (slot : Slot) : ImagePlaces :=
  let (active, r) := s.active.clearPacked.pushRecord cfg.pageSize slot
  { s with
    active
    issued := s.issued ++ if slot.entry.kind = .pageImage then
        [⟨active.epoch, r.metaStart / cfg.pageSize.bytes, r.slotIdx⟩]
      else [] }

def step (s : ImagePlaces) : Action → Option ImagePlaces
  | .append lsn p k =>
    match (p.slots cfg.pageSize lsn)[k]? with
    | none => none
    | some slot =>
      if lsn < u64Limit ∧ p.Valid cfg.pageSize ∧
          (s.active.clearPacked.fits cfg.pageSize = true) then
        some (s.push cfg slot)
      else none
  | .join r => (s.active.tryAppendPackedLogical cfg.pageSize r).map fun active => { s with active }
  | .overwrite i lsn pid page =>
    match s.issued[i]? with
    | none => none
    | some place =>
      if page.length = cfg.pageSize.bytes then
        match s.active.overwritePageImage cfg.pageSize place.record.epoch place.record.offset
            lsn pid page with
        | .refused => some s
        | .done active => some { s with active }
        | .panics => none
      else none
  | .renew spare =>
    if spare.length = cfg.capacity then
      some { s with
        active := { s.active with bytes := spare }.reset s.nextEpoch
        nextEpoch := s.nextEpoch + 1 }
    else none

end ImagePlaces

/-- The bytes that belong to slot `j` of the batch at meta page `m`: its data page, and
the LSN and the checksum of its entry. -/
def SlotBytes (ps : PageSize) (m j x : Nat) : Prop :=
  ((m + j + 1) * ps.bytes ≤ x ∧ x < (m + j + 2) * ps.bytes) ∨
    (m * ps.bytes + batchEntryOffset j ≤ x ∧ x < m * ps.bytes + batchEntryOffset j + 8) ∨
    (m * ps.bytes + batchEntryOffset j + 16 ≤ x ∧ x < m * ps.bytes + batchEntryOffset j + 20)

/-- Every handle decodes to the place it was returned for, no two handles agree, and a
successful overwrite changes nothing but the slot of its handle. -/
structure ImagePlaces.Faithful (cfg : Config) (s : ImagePlaces) : Prop where
  decodes : ∀ place ∈ s.issued,
    decodeRecordOffset place.record.offset = (place.metaPage, place.slotIdx)
  distinct : (s.issued.map Appender.Place.record).Nodup
  frame : ∀ place ∈ s.issued, ∀ (lsn pid : Nat) (page : Bytes) (active : FlatBuffer),
    page.length = cfg.pageSize.bytes →
    s.active.overwritePageImage cfg.pageSize place.record.epoch place.record.offset lsn pid page =
      .done active →
    place.epoch = s.active.epoch ∧ (∀ x, ¬SlotBytes cfg.pageSize place.metaPage place.slotIdx x →
        active.bytes[x]? = s.active.bytes[x]?) ∧
      active = { s.active with bytes := active.bytes, maxLsn := max s.active.maxLsn lsn }

/-! ## What an overwrite writes -/

namespace FlatBuffer

variable {ps : PageSize} {b b' : FlatBuffer}

theorem length_page {start : Nat} (h : start + ps.bytes ≤ b.bytes.length) :
    (b.page ps start).length = ps.bytes := by
  rw [page, length_take, length_drop]
  omega

theorem getElem?_page {start i : Nat} (hi : i < ps.bytes) :
    (b.page ps start)[i]? = b.bytes[start + i]? := by
  rw [page, List.getElem?_take, if_pos hi, List.getElem?_drop]

theorem length_setBytes {start : Nat} {bytes : Bytes} (h : start + bytes.length ≤ b.bytes.length) :
    (b.setBytes start bytes).bytes.length = b.bytes.length :=
  length_writeAt h

theorem length_reserve (hroom : b.needsNewBatch ps = true → b.used + ps.bytes ≤ b.bytes.length) :
    (b.reserve ps).1.bytes.length = b.bytes.length := by
  have hinit : (initBatchMeta ps).length = ps.bytes := by
    rw [← metaPage_nil, length_metaPage 0 (Nat.zero_le _)]
  rw [reserve]
  split
  · rename_i hnew
    exact length_setBytes (by rw [hinit]; exact hroom hnew)
  · rfl

end FlatBuffer

theorem entry_fits {ps : PageSize} {j : Nat} (h : j < batchMaxRecords ps) :
    batchEntryOffset j + 28 ≤ ps.bytes := by
  have hfit := entries_fit (n := j + 1) h
  have hsize : batchEntrySize = 28 := rfl
  rw [Nat.succ_mul] at hfit
  rw [batchEntryOffset]
  omega

theorem batchMetaCountUnchecked_le {ps : PageSize} {page : Bytes} {count : Nat}
    (h : batchMetaCountUnchecked ps page = some count) : count ≤ batchMaxRecords ps := by
  unfold batchMetaCountUnchecked at h
  simp only at h
  split_ifs at h with h₁ h₂ h₃ h₄
  cases h
  omega

theorem getElem?_overwriteEntry {ps : PageSize} {page : Bytes} (hpage : page.length = ps.bytes)
    {j : Nat} (hj : j < batchMaxRecords ps) (lsn crc : Nat) :
    (overwriteBatchEntryCrc (overwriteBatchEntryLsn page j lsn) j crc).length = ps.bytes ∧
      ∀ i : Nat, ¬(batchEntryOffset j ≤ i ∧ i < batchEntryOffset j + 8) →
        ¬(batchEntryOffset j + 16 ≤ i ∧ i < batchEntryOffset j + 20) →
        (overwriteBatchEntryCrc (overwriteBatchEntryLsn page j lsn) j crc)[i]? = page[i]? := by
  have hfit := entry_fits hj
  have hlsn : batchEntryOffset j + (leBytes 8 lsn).length ≤ page.length := by
    rw [length_leBytes, hpage]
    omega
  have hlen : (overwriteBatchEntryLsn page j lsn).length = ps.bytes := by
    rw [overwriteBatchEntryLsn, length_writeAt hlsn, hpage]
  have hcrc : batchEntryOffset j + 16 + (leBytes 4 crc).length ≤
      (overwriteBatchEntryLsn page j lsn).length := by
    rw [length_leBytes, hlen]
    omega
  refine ⟨by rw [overwriteBatchEntryCrc, length_writeAt hcrc, hlen], fun i h₁ h₂ => ?_⟩
  rw [overwriteBatchEntryCrc, getElem?_writeAt hcrc, length_leBytes, if_neg (by omega),
    overwriteBatchEntryLsn, getElem?_writeAt hlsn, length_leBytes, if_neg h₁]

namespace FlatBuffer

variable {ps : PageSize} {b : FlatBuffer}

theorem length_finish {metaStart slotIdx : Nat} (hmeta : metaStart + ps.bytes ≤ b.bytes.length)
    (hslot : slotIdx < batchMaxRecords ps) (entry : BatchEntry) :
    (b.finish ps metaStart slotIdx entry).bytes.length = b.bytes.length := by
  have hfit := entry_fits hslot
  have hpage := length_page hmeta
  have hentry : (writeBatchEntry (b.page ps metaStart) slotIdx entry.raw).length = ps.bytes := by
    rw [writeBatchEntry, length_writeAt (by rw [length_rawBytes, hpage]; omega), hpage]
  have hcount : ∀ count,
      (setBatchMetaCount (writeBatchEntry (b.page ps metaStart) slotIdx entry.raw)
      count).length = ps.bytes := by
    intro count
    rw [setBatchMetaCount, length_writeAt (by rw [length_leBytes, hentry]; omega), hentry]
  exact length_setBytes (by rw [hcount]; exact hmeta)

theorem length_pushRecord {slot : Slot} (hdata : slot.data.length = ps.bytes)
    (hroom : b.needsNewBatch ps = true → b.used + ps.bytes ≤ b.bytes.length)
    (hslot : (b.pushRecord ps slot).2.slotIdx < batchMaxRecords ps)
    (hmeta : (b.pushRecord ps slot).2.metaStart + ps.bytes ≤ b.bytes.length)
    (hend : (b.pushRecord ps slot).2.dataStart + ps.bytes ≤ b.bytes.length) :
    (b.pushRecord ps slot).1.bytes.length = b.bytes.length := by
  have hreserve := length_reserve hroom
  have hset : ((b.reserve ps).1.setBytes (b.reserve ps).2.dataStart slot.data).bytes.length =
      b.bytes.length := by
    rw [length_setBytes (by rw [hreserve, hdata]; exact hend), hreserve]
  have hmeta' : (b.reserve ps).2.metaStart + ps.bytes ≤
      ((b.reserve ps).1.setBytes (b.reserve ps).2.dataStart slot.data).bytes.length := by
    rw [hset]
    exact hmeta
  exact (length_finish hmeta' hslot slot.entry).trans hset

end FlatBuffer

/-- What an overwrite through an offset does that decodes to slot `j` at meta page
`m`. -/
theorem overwritePageImage_frame {ps : PageSize} {b b' : FlatBuffer}
    {epoch offset lsn pid m j : Nat}
    {page : Bytes} (hused : b.used ≤ b.bytes.length) (hpage : page.length = ps.bytes)
    (hdecode : decodeRecordOffset offset = (m, j))
    (h : b.overwritePageImage ps epoch offset lsn pid page = .done b') :
    epoch = b.epoch ∧ b'.bytes.length = b.bytes.length ∧
      (∀ x, ¬SlotBytes ps m j x → b'.bytes[x]? = b.bytes[x]?) ∧
      b' = { b with bytes := b'.bytes, maxLsn := max b.maxLsn lsn } := by
  unfold FlatBuffer.overwritePageImage at h
  rw [hdecode] at h
  simp only at h
  split at h
  · cases h
  rename_i hactive
  split at h
  · cases h
  rename_i count hcount
  split at h
  · cases h
  rename_i hentry
  split at h
  · cases h
  rename_i hdata
  cases h
  have hj : j < batchMaxRecords ps :=
    (Nat.lt_of_not_le fun hle => hentry (.inl hle)).trans_le (batchMetaCountUnchecked_le hcount)
  have hmeta : m * ps.bytes + ps.bytes ≤ b.bytes.length := by omega
  obtain ⟨hlen, hframe⟩ := getElem?_overwriteEntry (FlatBuffer.length_page hmeta) hj lsn 0
  have hdataStart : m * ps.bytes + ps.bytes * (j + 1) = (m + j + 1) * ps.bytes := by ring
  have hdataEnd : (m + j + 2) * ps.bytes = (m + j + 1) * ps.bytes + ps.bytes := by ring
  rw [hdataStart] at hdata ⊢
  generalize overwriteBatchEntryCrc (overwriteBatchEntryLsn (b.page ps (m * ps.bytes)) j lsn)
    j 0 = new at hlen hframe
  have hfirst : m * ps.bytes + new.length ≤ b.bytes.length := by omega
  have hsecond : (m + j + 1) * ps.bytes + page.length ≤
      (b.setBytes (m * ps.bytes) new).bytes.length := by
    rw [FlatBuffer.length_setBytes hfirst]
    omega
  refine ⟨by_contra fun hne => hactive (.inl fun heq => hne heq.symm), ?_, ?_, rfl⟩
  · rw [FlatBuffer.length_setBytes hsecond, FlatBuffer.length_setBytes hfirst]
  intro x hx
  rw [SlotBytes, hdataEnd, not_or, not_or] at hx
  obtain ⟨hx₁, hx₂, hx₃⟩ := hx
  rw [FlatBuffer.setBytes]
  rw [getElem?_writeAt hsecond, if_neg (by omega), FlatBuffer.setBytes,
    getElem?_writeAt hfirst]
  split
  · rw [hframe (x - m * ps.bytes) (by omega) (by omega), FlatBuffer.getElem?_page (by omega)]
    congr 1
    omega
  · rfl

/-! ## Where the slots are -/

/-- What the numbers of a buffer satisfy: the used part ends behind the open batch and
inside the buffer. -/
structure FlatBuffer.InRange (cfg : Config) (b : FlatBuffer) : Prop where
  size : b.bytes.length = cfg.capacity
  pages : ∃ n, b.used = n * cfg.pageSize.bytes
  used : b.used ≤ cfg.capacity
  count : b.openBatchCount < batchMaxRecords cfg.pageSize
  openMeta : ∀ start, b.openBatchMetaOffset = some start →
    ∃ m, start = m * cfg.pageSize.bytes ∧ b.used = (m + b.openBatchCount + 1) * cfg.pageSize.bytes
  packed : ∀ p, b.packedLogical = some p →
    p.metaStart + cfg.pageSize.bytes ≤ b.used ∧ p.slotIdx < batchMaxRecords cfg.pageSize

namespace FlatBuffer.InRange

variable {cfg : Config} {b b' : FlatBuffer}

theorem empty {bytes : Bytes} (h : bytes.length = cfg.capacity) (epoch : Nat) :
    InRange cfg ⟨bytes, 0, epoch, 0, none, 0, none⟩ :=
  ⟨h, ⟨0, (Nat.zero_mul _).symm⟩, Nat.zero_le _, batchMaxRecords_pos _, nofun, nofun⟩

theorem clearPacked (h : InRange cfg b) : InRange cfg b.clearPacked :=
  ⟨h.size, h.pages, h.used, h.count, h.openMeta, nofun⟩

/-- The slot that is filled next: the batch it belongs to, its number there, and the
end of its data page, which is the end of the used part then. -/
theorem pushRecord (h : InRange cfg b) (hfits : b.fits cfg.pageSize = true)
    (hclosed : b.packedLogical = none)
    {slot : Slot} (hdata : slot.data.length = cfg.pageSize.bytes) :
    let r := b.pushRecord cfg.pageSize slot
    InRange cfg r.1 ∧ r.1.epoch = b.epoch ∧ r.2.slotIdx < batchMaxRecords cfg.pageSize ∧
      ∃ m, r.2.metaStart = m * cfg.pageSize.bytes ∧
        b.used ≤ (m + r.2.slotIdx + 1) * cfg.pageSize.bytes ∧
        r.1.used = (m + r.2.slotIdx + 2) * cfg.pageSize.bytes := by
  intro r
  obtain ⟨hepoch, hstart, hslot, hused, hmeta, hcount⟩ := pushRecord_numbers cfg.pageSize b slot
  have hmax := batchMaxRecords_pos cfg.pageSize
  have hroom : b.used + (if b.needsNewBatch cfg.pageSize then 2 * cfg.pageSize.bytes
      else cfg.pageSize.bytes) ≤ cfg.capacity := by
    rw [← h.size]
    exact of_decide_eq_true hfits
  -- the place of the slot
  have hplace : r.2.slotIdx < batchMaxRecords cfg.pageSize ∧
      ∃ m, r.2.metaStart = m * cfg.pageSize.bytes ∧
        b.used ≤ (m + r.2.slotIdx + 1) * cfg.pageSize.bytes ∧
        r.1.used = (m + r.2.slotIdx + 2) * cfg.pageSize.bytes := by
    cases hnew : b.needsNewBatch cfg.pageSize with
    | true =>
      simp only [hnew, if_true] at hstart hslot hused
      obtain ⟨n, hn⟩ := h.pages
      refine ⟨by rw [hslot]; exact hmax, n, by rw [hstart, hn], ?_, ?_⟩
      · rw [hslot, hn]
        exact Nat.mul_le_mul_right _ (by omega)
      · rw [hused, hslot, hn]
        ring
    | false =>
      simp only [hnew, Bool.false_eq_true, if_false] at hstart hslot hused
      cases hopen : b.openBatchMetaOffset with
      | none => simp [FlatBuffer.needsNewBatch, hopen] at hnew
      | some start =>
        obtain ⟨m, hm, hend⟩ := h.openMeta start hopen
        refine ⟨by rw [hslot]; exact h.count, m, by rw [hstart, hopen, Option.getD_some, hm], ?_,
          ?_⟩
        · rw [hslot, hend]
        · rw [hused, hslot, hend]
          ring
  obtain ⟨hidx, m, hm, hbefore, hend⟩ := hplace
  have hcap : r.1.used ≤ cfg.capacity := hused.le.trans hroom
  have hmetaEnd : r.2.metaStart + cfg.pageSize.bytes ≤ r.1.used := by
    rw [hm, hend, ← Nat.succ_mul]
    exact Nat.mul_le_mul_right _ (by omega)
  refine ⟨⟨?_, ⟨_, hend⟩, hcap, ?_, ?_, ?_⟩, hepoch, hidx, m, hm, hbefore, hend⟩
  · have hsize := h.size
    rw [FlatBuffer.length_pushRecord hdata ?_ hidx ?_ ?_, hsize]
    · intro hnew
      rw [hnew, if_pos rfl] at hroom
      omega
    · exact hsize ▸ hmetaEnd.trans hcap
    · exact hsize ▸ hcap
  · rw [hcount]
    split
    · exact hmax
    · have hlt : (b.pushRecord cfg.pageSize slot).2.slotIdx < batchMaxRecords cfg.pageSize := hidx
      omega
  · intro start hstart'
    rw [hmeta] at hstart'
    split at hstart'
    · cases hstart'
    rename_i hroomy
    have hsame : start = r.2.metaStart := by
      rw [show r.2.metaStart = _ from hstart]
      split at hstart'
      · rename_i hnew
        rw [if_pos hnew]
        exact (Option.some.inj hstart').symm
      · rename_i hnew
        rw [if_neg hnew, hstart', Option.getD_some]
    refine ⟨m, hsame.trans hm, ?_⟩
    rw [hend, hcount, if_neg hroomy]
    rfl
  intro p hp
  have hpacked : r.1.packedLogical = if slot.entry.kind = .logicalPacked then
      some ⟨r.2.metaStart, r.2.slotIdx, r.2.dataStart, slot.entry.len, slot.entry.lsn⟩
      else b.packedLogical := by
    show (if slot.entry.kind = .logicalPacked then _
        else (b.push cfg.pageSize slot).1.packedLogical) = _
    congr 1
    simp only [FlatBuffer.push, FlatBuffer.reserve, FlatBuffer.finish, FlatBuffer.setBytes]
    split <;> rfl
  rw [hpacked] at hp
  split at hp
  · cases hp
    exact ⟨hmetaEnd, hidx⟩
  · rw [hclosed] at hp
    cases hp

theorem tryAppendPackedLogical (h : InRange cfg b) {r : LogicalRecord}
    (hjoin : b.tryAppendPackedLogical cfg.pageSize r = some b') :
    InRange cfg b' ∧ b'.epoch = b.epoch ∧ b'.used = b.used := by
  unfold FlatBuffer.tryAppendPackedLogical at hjoin
  split at hjoin
  · cases hjoin
  rename_i slot hopen
  simp only at hjoin
  split at hjoin
  · cases hjoin
  obtain ⟨hmeta, hidx⟩ := h.packed slot hopen
  have hsize := h.size
  have hused := h.used
  have hlen := length_encodePackedLogicalEntry r
  have hfirst : slot.dataStart + slot.len + (encodePackedLogicalEntry r).length ≤
      b.bytes.length := by
    omega
  have hkept := FlatBuffer.length_setBytes hfirst
  set b₁ := b.setBytes (slot.dataStart + slot.len) (encodePackedLogicalEntry r)
  have hpage : (b₁.page cfg.pageSize slot.metaStart).length = cfg.pageSize.bytes :=
    FlatBuffer.length_page (by omega)
  have hentry : (writeBatchEntry (b₁.page cfg.pageSize slot.metaStart) slot.slotIdx
      (BatchEntry.packedLogical (max slot.maxLsn r.lsn) 0
        (slot.len + packedLogicalEntryLen r.payload.length)).raw).length = cfg.pageSize.bytes := by
    have hfit := entry_fits hidx
    rw [writeBatchEntry, length_writeAt (by rw [length_rawBytes, hpage]; omega), hpage]
  cases hjoin
  refine ⟨⟨?_, h.pages, h.used, h.count, h.openMeta, ?_⟩, rfl, rfl⟩
  · exact (FlatBuffer.length_setBytes (by rw [hentry]; omega)).trans (hkept.trans hsize)
  · rintro p ⟨⟩
    exact ⟨hmeta, hidx⟩

end FlatBuffer.InRange

namespace ImagePlaces

variable {cfg : Config} {s s' : ImagePlaces}

/-- The places handed out: each lies in the buffer, those of the active buffer in its
used part, and none was handed out twice. -/
structure Inv (cfg : Config) (s : ImagePlaces) : Prop where
  range : s.active.InRange cfg
  epoch : s.active.epoch < s.nextEpoch
  issued : ∀ place ∈ s.issued, place.epoch < s.nextEpoch ∧
    place.slotIdx < batchMaxRecords cfg.pageSize ∧
    (place.metaPage + place.slotIdx + 2) * cfg.pageSize.bytes ≤ cfg.capacity
  behind : ∀ place ∈ s.issued, place.epoch = s.active.epoch →
    (place.metaPage + place.slotIdx + 2) * cfg.pageSize.bytes ≤ s.active.used
  nodup : s.issued.Nodup

theorem Inv.start (cfg : Config) : Inv cfg (start cfg) :=
  ⟨.empty length_replicate 1, Nat.lt_succ_self 1, nofun, nofun, nodup_nil⟩

theorem Inv.rewrite (h : Inv cfg s) {active : FlatBuffer} (hrange : active.InRange cfg)
    (hepoch : active.epoch = s.active.epoch) (hused : active.used = s.active.used) :
    Inv cfg { s with active } :=
  ⟨hrange, hepoch ▸ h.epoch, h.issued,
    fun place hplace heq => hused ▸ h.behind place hplace (heq.trans hepoch), h.nodup⟩

theorem Inv.push (h : Inv cfg s) {slot : Slot} (hdata : slot.data.length = cfg.pageSize.bytes)
    (hfits : s.active.clearPacked.fits cfg.pageSize = true) : Inv cfg (s.push cfg slot) := by
  obtain ⟨hrange, hepoch, hidx, m, hm, hbefore, hend⟩ :=
    h.range.clearPacked.pushRecord hfits rfl hdata
  have hpos : 0 < cfg.pageSize.bytes := (by decide : 0 < 4096).trans_le (PageSize.le_bytes _)
  rw [ImagePlaces.push]
  generalize s.active.clearPacked.pushRecord cfg.pageSize slot = r at *
  have hused : s.active.used ≤ r.1.used :=
    hbefore.trans (hend ▸ Nat.mul_le_mul_right _ (Nat.le_succ _))
  have hnew : r.2.metaStart / cfg.pageSize.bytes = m := by rw [hm, Nat.mul_div_cancel _ hpos]
  dsimp only
  have hcases : ∀ place ∈ s.issued ++ (if slot.entry.kind = .pageImage then
      [(⟨r.1.epoch, r.2.metaStart / cfg.pageSize.bytes, r.2.slotIdx⟩ : Appender.Place)] else []),
      place ∈ s.issued ∨ place = ⟨r.1.epoch, m, r.2.slotIdx⟩ := by
    intro place hplace
    rw [hnew] at hplace
    rcases mem_append.mp hplace with hplace | hplace
    · exact .inl hplace
    · split at hplace
      · exact .inr (mem_singleton.mp hplace)
      · cases hplace
  refine ⟨hrange, hepoch ▸ h.epoch, fun place hplace => ?_, fun place hplace heq => ?_, ?_⟩
  · rcases hcases place hplace with hplace | rfl
    · exact h.issued place hplace
    · exact ⟨hepoch ▸ h.epoch, hidx, hend ▸ hrange.used⟩
  · rcases hcases place hplace with hplace | rfl
    · exact (h.behind place hplace (heq.trans hepoch)).trans hused
    · exact hend.ge
  rw [hnew]
  refine List.Nodup.append h.nodup ?_ ?_
  · split
    · exact nodup_singleton _
    · exact nodup_nil
  intro place hplace hin
  split at hin
  · obtain rfl := mem_singleton.mp hin
    -- the new slot lies behind all those of the buffer
    have hold : (m + r.2.slotIdx + 2) * cfg.pageSize.bytes ≤ s.active.used :=
      h.behind _ hplace hepoch
    have hlt : (m + r.2.slotIdx + 1) * cfg.pageSize.bytes <
        (m + r.2.slotIdx + 2) * cfg.pageSize.bytes := Nat.mul_lt_mul_of_pos_right (by omega) hpos
    exact absurd (hold.trans hbefore) (by omega)
  · cases hin

theorem Inv.step {act : Action} (h : Inv cfg s) (hstep : s.step cfg act = some s') :
    Inv cfg s' := by
  cases act with
  | append lsn p k =>
    rw [ImagePlaces.step] at hstep
    split at hstep
    · cases hstep
    rename_i slot hslot
    split at hstep
    · rename_i hvalid
      cases hstep
      have hmem := mem_of_getElem? hslot
      exact h.push ((p.slots_slotsOf hvalid.1 hvalid.2.1).wf slot hmem).size hvalid.2.2
    · cases hstep
  | join r =>
    obtain ⟨active, hjoin, rfl⟩ := Option.map_eq_some_iff.mp hstep
    obtain ⟨hrange, hepoch, hused⟩ := h.range.tryAppendPackedLogical hjoin
    exact h.rewrite hrange hepoch hused
  | overwrite i lsn pid page =>
    rw [ImagePlaces.step] at hstep
    split at hstep
    · cases hstep
    split at hstep
    · rename_i hpage
      split at hstep
      · cases hstep
        exact h
      · rename_i active hdone
        cases hstep
        obtain ⟨-, hlen, -, hsame⟩ := overwritePageImage_frame
          (h.range.used.trans h.range.size.ge) hpage rfl hdone
        have hrange : active.InRange cfg := by
          rw [hsame]
          exact ⟨hlen.trans h.range.size, h.range.pages, h.range.used, h.range.count,
            h.range.openMeta, h.range.packed⟩
        exact h.rewrite hrange (by rw [hsame]) (by rw [hsame])
      · cases hstep
    · cases hstep
  | renew spare =>
    rw [ImagePlaces.step] at hstep
    split at hstep
    · rename_i hsize
      cases hstep
      refine ⟨.empty hsize _, Nat.lt_succ_self _, fun place hplace => ?_,
        fun place hplace heq => ?_, h.nodup⟩
      · obtain ⟨hepoch, hrest⟩ := h.issued place hplace
        exact ⟨hepoch.trans (Nat.lt_succ_self _), hrest⟩
      · exact absurd heq (h.issued place hplace).1.ne
    · cases hstep

/-- With few enough slots in a batch, handles are faithful. -/
theorem Inv.faithful (h : Inv cfg s) (hslots : ∀ place ∈ s.issued, place.slotIdx < 256) :
    s.Faithful cfg where
  decodes place hplace := decode_encodeRecordOffset (hslots place hplace)
  distinct := by
    refine h.nodup.map_on fun p hp q hq hsame => ?_
    have hpair := congrArg (fun r => decodeRecordOffset r.offset) hsame
    simp only [Appender.Place.record, decode_encodeRecordOffset (hslots p hp),
      decode_encodeRecordOffset (hslots q hq), Prod.mk.injEq] at hpair
    cases p
    cases q
    simp only [Appender.Place.mk.injEq]
    exact ⟨congrArg BufferedWalRecord.epoch hsame, hpair.1, hpair.2⟩
  frame place hplace lsn pid page active hpage hdone := by
    obtain ⟨hepoch, -, hframe, hsame⟩ := overwritePageImage_frame
      (h.range.used.trans h.range.size.ge) hpage
        (decode_encodeRecordOffset (hslots place hplace)) hdone
    exact ⟨hepoch, hframe, hsame⟩

/-- In a batch of 4 KiB pages, and in a buffer of at most 256 records, no slot has a
number above 255. -/
theorem Inv.slotIdx_lt (h : Inv cfg s) (hcfg : cfg.pageSize = .k4 ∨ cfg.bufferRecords ≤ 256) :
    ∀ place ∈ s.issued, place.slotIdx < 256 := by
  intro place hplace
  obtain ⟨-, hmax, hcap⟩ := h.issued place hplace
  rw [Config.capacity] at hcap
  cases hps : cfg.pageSize with
  | k4 =>
    rw [hps] at hmax
    exact hmax.trans (by decide)
  | k64 =>
    rw [hps] at hcap hcfg
    have hrecords : cfg.bufferRecords ≤ 256 := hcfg.resolve_left PageSize.noConfusion
    have hbatch : batchMaxRecords .k64 = 2340 := by decide
    have hle := Nat.le_of_mul_le_mul_right hcap (by decide)
    rw [hbatch] at hle
    omega

end ImagePlaces

/-! ### A run of images in one batch -/

def imageAppends (n : Nat) : List ImagePlaces.Action :=
  replicate n (.append 1 (.pageImage 7 (replicate PageSize.k64.bytes 0)) 0)

/-- The images of the first batch take the slots from 0 on. -/
theorem exec_imageAppends {cfg : Config} (hps : cfg.pageSize = .k64) {n : Nat} (hn : n < 2340)
    (hcap : n * 65536 + 65536 ≤ cfg.capacity) :
    ∃ s, exec (ImagePlaces.step cfg) (.start cfg) (imageAppends n) = some s ∧ s.Inv cfg ∧
      s.active.epoch = 1 ∧ s.active.used = (if n = 0 then 0 else n * 65536 + 65536) ∧
      s.active.openBatchMetaOffset = (if n = 0 then none else some 0) ∧
      s.active.openBatchCount = n ∧ s.issued = (List.range n).map fun j => ⟨1, 0, j⟩ := by
  have hbytes : PageSize.k64.bytes = 65536 := rfl
  have hbatch : batchMaxRecords .k64 = 2340 := by decide
  induction n with
  | zero => exact ⟨_, rfl, .start cfg, rfl, rfl, rfl, rfl, rfl⟩
  | succ n ih =>
    rw [Nat.succ_mul] at hcap
    obtain ⟨s, hexec, hinv, hepoch, hused, hmeta, hcount, hissued⟩ := ih (by omega)
      (Nat.le_of_add_right_le hcap)
    set slot := imageSlot .k64 1 7 (replicate PageSize.k64.bytes 0)
    have hneeds : s.active.clearPacked.needsNewBatch .k64 = decide (n = 0) := by
      rw [FlatBuffer.needsNewBatch, FlatBuffer.clearPacked, hbatch, hmeta, hcount]
      by_cases hzero : n = 0
      · simp [hzero]
      · simp [hzero]
        omega
    have hfits : s.active.clearPacked.fits cfg.pageSize = true := by
      rw [FlatBuffer.fits, hps, hneeds, decide_eq_true_eq, hbytes]
      show s.active.used + _ ≤ s.active.bytes.length
      rw [hused, hinv.range.size]
      by_cases hzero : n = 0
      · simp only [hzero, decide_true, if_true] at hcap ⊢
        omega
      · simp only [hzero, decide_false, Bool.false_eq_true, if_false]
        omega
    obtain ⟨hepoch', hstart, hidx, hused', hmeta', hcount'⟩ :=
      pushRecord_numbers .k64 s.active.clearPacked slot
    have hdata : slot.data.length = cfg.pageSize.bytes := by
      rw [hps]
      exact length_replicate
    refine ⟨s.push cfg slot, ?_, hinv.push hdata hfits, ?_⟩
    · have hvalid : (Payload.pageImage 7 (replicate PageSize.k64.bytes 0)).Valid cfg.pageSize :=
        ⟨by decide, by rw [hps]; exact length_replicate⟩
      rw [imageAppends, replicate_succ', exec_append]
      rw [imageAppends] at hexec
      rw [hexec, Option.bind_some, exec, ImagePlaces.step]
      simp only [Payload.slots, List.getElem?_cons_zero, hps] at hvalid hfits ⊢
      rw [if_pos ⟨by decide, hvalid, hfits⟩]
      rfl
    rw [ImagePlaces.push, hps]
    dsimp only
    generalize s.active.clearPacked.pushRecord .k64 slot = r at *
    rw [hneeds] at hstart hidx hused' hmeta'
    have hopen : s.active.clearPacked.openBatchMetaOffset = if n = 0 then none else some 0 := hmeta
    have hcounted : s.active.clearPacked.openBatchCount = n := hcount
    have husedAs : s.active.clearPacked.used = if n = 0 then 0 else n * 65536 + 65536 := hused
    rw [hopen, husedAs] at hstart hmeta'
    rw [hcounted] at hidx
    rw [husedAs, hbytes] at hused'
    have hslotIdx : r.2.slotIdx = n := by
      rw [hidx]
      by_cases hzero : n = 0 <;> simp [hzero]
    have hmetaStart : r.2.metaStart = 0 := by
      rw [hstart]
      by_cases hzero : n = 0 <;> simp [hzero]
    rw [hslotIdx, hbatch, if_neg (by omega)] at hmeta' hcount'
    refine ⟨hepoch'.trans hepoch, ?_, ?_, hcount', ?_⟩
    · rw [hused', if_neg (Nat.succ_ne_zero n), Nat.succ_mul]
      by_cases hzero : n = 0
      · simp [hzero]
      · simp [hzero, Nat.succ_mul]
    · rw [hmeta', if_neg (Nat.succ_ne_zero n)]
      by_cases hzero : n = 0 <;> simp [hzero]
    · rw [hissued, hslotIdx, hmetaStart, range_succ, map_append, hepoch'.trans hepoch]
      rfl

/-- Image 257 of a batch gets the handle of slot 0 of the batch at meta page 1. -/
theorem slot256_issued {cfg : Config} (hps : cfg.pageSize = .k64)
    (hrecords : 257 ≤ cfg.bufferRecords) :
    ∃ s, Reach (ImagePlaces.step cfg) anyStep (.start cfg) s ∧ ⟨1, 0, 256⟩ ∈ s.issued := by
  have hbatch : batchMaxRecords .k64 = 2340 := by decide
  have hcap : 257 * 65536 + 65536 ≤ cfg.capacity := by
    rw [Config.capacity, hps, ← Nat.succ_mul]
    have hbuf : 257 ≤ walBufRecords .k64 := by decide
    refine Nat.mul_le_mul_right _ ?_
    rw [hbatch]
    omega
  obtain ⟨s, hexec, -, -, -, -, -, hissued⟩ := exec_imageAppends hps (n := 257) (by decide) hcap
  exact ⟨s, .of_exec_any hexec, hissued ▸ mem_map.mpr ⟨256, mem_range.mpr (by decide), rfl⟩⟩

/-- Handles are faithful in all runs exactly when no batch of a buffer can hold more
than 256 records. -/
theorem handles_faithful_iff (cfg : Config) :
    (∀ s, Reach (ImagePlaces.step cfg) anyStep (.start cfg) s → s.Faithful cfg) ↔
      cfg.pageSize = .k4 ∨ cfg.bufferRecords ≤ 256 := by
  constructor
  · intro h
    cases hps : cfg.pageSize with
    | k4 => exact .inl rfl
    | k64 =>
      refine .inr (Nat.le_of_not_lt fun hrecords => ?_)
      obtain ⟨s, hrun, hplace⟩ := slot256_issued hps hrecords
      exact absurd ((h s hrun).decodes _ hplace) (by decide)
  · intro hcfg s hrun
    have hinv : s.Inv cfg := hrun.invariant (.start cfg) fun _ _ _ hs _ hstep => hs.step hstep
    exact hinv.faithful (hinv.slotIdx_lt hcfg)

/-- In a buffer of 257 records of 64 KiB pages the last slot has a handle that names
the data page of slot 0 as a meta page. -/
theorem handle_names_other_slot :
    ∃ s, Reach (ImagePlaces.step ⟨.k64, 257, .fdatasync⟩) anyStep
      (.start ⟨.k64, 257, .fdatasync⟩) s ∧
      ∃ place ∈ s.issued, (place.metaPage, place.slotIdx) = (0, 256) ∧
        decodeRecordOffset place.record.offset = (1, 0) := by
  have hps : (⟨.k64, 257, .fdatasync⟩ : Config).pageSize = .k64 := rfl
  obtain ⟨s, hrun, hplace⟩ := slot256_issued hps le_rfl
  exact ⟨s, hrun, _, hplace, rfl, by decide⟩

end Pagebox.Wal
