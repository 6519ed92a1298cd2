import Pagebox.Wal.RoundTrip

/-!
# Opening a file with a torn tail

A shard file that was being written when the process ended holds whole batches and
then bytes that are no batch; the last record in its batches may have only its first
chunks.  Opening it keeps the batches, and what is appended afterwards is replayed
behind the records that were complete.
-/

namespace Pagebox.Wal

open Pagebox.Base List

/-- The pieces of a log and the records that are complete in it.  An append that was
cut off has left some first pieces of its record. -/
inductive LogPieces (ps : PageSize) : List Piece → List ReplayRecord → Prop
  | nil : LogPieces ps [] []
  | record {lsn : Nat} {p : Payload} {pieces : List Piece} {records : List ReplayRecord} :
      lsn < u64Limit → p.Valid ps → LogPieces ps pieces records →
      LogPieces ps (p.pieces ps lsn ++ pieces) (p.delivered lsn :: records)
  | abandoned {lsn : Nat} {p : Payload} {front rest pieces : List Piece}
    {records : List ReplayRecord} :
      lsn < u64Limit → p.Valid ps → p.pieces ps lsn = front ++ rest → rest ≠ [] →
      LogPieces ps pieces records → LogPieces ps (front ++ pieces) records

section Pieces

variable {ps : PageSize}

theorem scan_chunks_front {r : LogicalRecord} (hne : r.payload ≠ []) {front rest : List Piece}
    (h : (chunkSlots ps r).flatMap slotPieces = front ++ rest) (hrest : rest ≠ [])
    (part : Partial) :
    ∃ part', scan (replayPiece ps) part front = ([], some part') := by
  rw [flatMap_chunkSlots] at h
  generalize chunkCount ps r.payload.length = chunks at h
  have hlen := congrArg List.length h
  rw [length_map, length_range, length_append] at hlen
  have hpos := length_pos_of_ne_nil hrest
  have hfront : front = (List.range front.length).map (chunkPiece ps r chunks) := by
    have htake := congrArg (take front.length) h
    rw [take_left, ← map_take, take_range, Nat.min_eq_left (by omega)] at htake
    exact htake.symm
  cases hk : front.length with
  | zero =>
    rw [length_eq_zero_iff] at hk
    subst hk
    exact ⟨part, rfl⟩
  | succ k =>
    rw [hfront, hk]
    exact ⟨_, scan_first_chunks hne part k (by omega)⟩

theorem scan_front {lsn : Nat} {p : Payload} (hlsn : lsn < u64Limit) (hp : p.Valid ps)
    {front rest : List Piece} (h : p.pieces ps lsn = front ++ rest) (hrest : rest ≠ [])
    (part : Partial) :
    ∃ part', scan (replayPiece ps) part front = ([], some part') := by
  have hone : ∀ piece, p.pieces ps lsn = [piece] →
      ∃ part', scan (replayPiece ps) part front = ([], some part') := by
    intro piece hpiece
    rw [hpiece] at h
    rcases append_eq_singleton_iff.mp h.symm with ⟨rfl, -⟩ | ⟨-, rfl⟩
    · exact ⟨part, rfl⟩
    · exact absurd rfl hrest
  cases p with
  | pageImage pageId page =>
    exact hone (.image lsn pageId page) (by
      simp [Payload.pieces, Payload.slots, imageSlot, slotPieces, BatchEntry.pageImage])
  | pageImageBytes pageId page =>
    have hne : encodePageImageBytesPayload pageId page ≠ [] := by
      simp [encodePageImageBytesPayload, leBytes]
    exact scan_chunks_front (r := ⟨lsn, logicalKindPageImageBytes,
      encodePageImageBytesPayload pageId page⟩) hne h hrest part
  | logical kind bytes =>
    by_cases hpacked : isPacked ps ⟨lsn, kind, bytes⟩ = true
    · obtain ⟨hr, -⟩ := isPacked_encodable hlsn hp.1 hpacked
      refine hone (.packed ⟨lsn, kind, bytes⟩) ?_
      rw [Payload.pieces, Payload.slots, if_pos hpacked, flatMap_singleton,
        slotPieces_packedSlot ps hr]
    · have hne : bytes ≠ [] := by
        rintro rfl
        simp [isPacked, hp.2.1] at hpacked
      rw [Payload.pieces, Payload.slots, if_neg hpacked] at h
      exact scan_chunks_front (r := ⟨lsn, kind, bytes⟩) hne h hrest part

/-- A log delivers the records that are complete in it. -/
theorem scan_logPieces {pieces : List Piece} {records : List ReplayRecord}
    (h : LogPieces ps pieces records) (part : Partial) :
    ∃ part', scan (replayPiece ps) part pieces = (records, some part') := by
  induction h generalizing part with
  | nil => exact ⟨part, rfl⟩
  | record hlsn hp _ ih =>
    obtain ⟨part₁, hfirst⟩ := scan_payload hlsn hp part
    obtain ⟨part₂, hrest⟩ := ih part₁
    refine ⟨part₂, ?_⟩
    rw [scan_append_of_some hfirst, hrest]
    rfl
  | abandoned hlsn hp hsplit hne _ ih =>
    obtain ⟨part₁, hfront⟩ := scan_front hlsn hp hsplit hne part
    obtain ⟨part₂, hrest⟩ := ih part₁
    refine ⟨part₂, ?_⟩
    rw [scan_append_of_some hfront, hrest]
    rfl

end Pieces

/-- A well-formed shard file: a header and whole batches, with these records complete
in them. -/
structure WellFormedLog (ps : PageSize) (header : Bytes) (batches : List (List Slot))
    (records : List ReplayRecord) : Prop where
  headerLen : header.length = ps.bytes
  headerValid : validateWalHeader ps header = true
  batchesOk : ∀ slots ∈ batches, BatchOk ps slots
  pieces : LogPieces ps (batches.flatten.flatMap slotPieces) records

/-- Opening a well-formed file that is followed by bytes which do not start with a
batch keeps exactly its batches and replays exactly its complete records; what is
appended afterwards is replayed behind them. -/
theorem reopen_torn_file (cfg : Config) (crc : Bytes → UInt32) (directIo : Bool)
    {header tail : Bytes} {batches : List (List Slot)} {records : List ReplayRecord}
    (h : WellFormedLog cfg.pageSize header batches records)
    (htail : startsWithBatch cfg.pageSize (crcNat crc) tail = false) :
    ∃ o, openWalFile cfg.pageSize (crcNat crc) directIo
        (header ++ batches.flatMap (finalBatch cfg.pageSize (crcNat crc)) ++ tail) = some o ∧
      o.file.take o.fileOffset = header ++ batches.flatMap (finalBatch cfg.pageSize (crcNat crc)) ∧
      replayOpened cfg.pageSize (crcNat crc) o.file o.fileOffset = records ∧
      ∀ s, Reach (Session.step cfg (crcNat crc)) Session.slotFits (Session.start cfg o) s →
        replayOpened cfg.pageSize (crcNat crc) (s.wal.sealActive cfg (crcNat crc)).file
            (s.wal.sealActive cfg (crcNat crc)).fileOffset =
          records ++ s.log.map ExpectedRecord.delivered := by
  obtain ⟨o, hopen, hoffset, hfile, -⟩ := openWalFile_finalBatches (crcNat_lt crc) h.headerLen
    h.headerValid h.batchesOk htail directIo
  have hstart : (Session.start cfg o).Inv cfg (crcNat crc) header _ batches _ :=
    Session.Inv.start batches h.headerLen h.batchesOk hfile hoffset
  obtain ⟨part, hold⟩ := scan_logPieces h.pieces .empty
  refine ⟨o, hopen, ?_, ?_, ?_⟩
  · obtain ⟨n, hfile⟩ := hfile
    rw [hfile, hoffset, take_left]
  · have hreplay := hstart.replay rfl (crcNat_lt crc) hold
    rw [show (Session.start cfg o).log = [] from rfl, map_nil, append_nil] at hreplay
    exact hreplay
  · intro s hrun
    obtain ⟨sealed, b, hinv⟩ := hstart.run hrun
    obtain ⟨b', hflushed, hempty⟩ := hinv.sealActive
    exact hflushed.replay hempty (crcNat_lt crc) hold

/-- A packed record and the first of the two chunks of a longer one. -/
theorem wellFormedLog_cut {bytes : Bytes} (hlen : bytes.length = 5000) :
    WellFormedLog .k4 (buildWalHeader .k4 false)
      [[packedSlot .k4 ⟨1, 7, [5]⟩, chunkSlot .k4 ⟨2, 7, bytes⟩ 2 0]] [.logical 1 7 [5]] := by
  have hcount : chunkCount .k4 bytes.length = 2 := by
    rw [hlen]
    decide
  have hcut : chunkSlots .k4 ⟨2, 7, bytes⟩ =
      [chunkSlot .k4 ⟨2, 7, bytes⟩ 2 0, chunkSlot .k4 ⟨2, 7, bytes⟩ 2 1] := by
    rw [chunkSlots, hcount]
    rfl
  have hlong : isPacked .k4 ⟨2, 7, bytes⟩ = false := by
    rw [isPacked, hlen]
    exact decide_eq_false fun h => absurd h.2 (by decide)
  have hpieces : (Payload.logical 7 bytes).pieces .k4 2 =
      slotPieces (chunkSlot .k4 ⟨2, 7, bytes⟩ 2 0) ++
        slotPieces (chunkSlot .k4 ⟨2, 7, bytes⟩ 2 1) := by
    rw [Payload.pieces, Payload.slots, hlong, if_neg Bool.false_ne_true, hcut]
    simp
  have hsmall : (Payload.logical 7 [5]).pieces .k4 1 = slotPieces (packedSlot .k4 ⟨1, 7, [5]⟩) := by
    rw [Payload.pieces, Payload.slots, show isPacked .k4 ⟨1, 7, [5]⟩ = true by decide, if_pos rfl,
      flatMap_singleton]
  refine ⟨length_buildWalHeader _ _, validateWalHeader_build _ _, ?_, ?_⟩
  · intro slots hslots
    rw [mem_singleton.mp hslots]
    refine ⟨by simp, (show 2 ≤ batchMaxRecords .k4 by decide), fun slot hslot => ?_⟩
    rcases mem_cons.mp hslot with rfl | hslot
    · exact (packedSlot_ok (r := ⟨1, 7, [5]⟩) ⟨by decide, by decide, by decide⟩
        (by decide)).toSlotOk
    · refine (chunkSlots_ok .k4 (r := ⟨2, 7, bytes⟩) (show 2 < u64Limit by decide)
        (show 7 < u64Limit by decide) slot ?_).toSlotOk
      rw [hcut]
      exact mem_cons.mpr (.inl (mem_singleton.mp hslot))
  have hbytes : (Payload.logical 7 bytes).Valid .k4 := ⟨by decide, by decide, by rw [hlen]; decide⟩
  have hrest : slotPieces (chunkSlot .k4 ⟨2, 7, bytes⟩ 2 1) ≠ [] := by
    rw [slotPieces_chunkSlot]
    simp
  have hcutOff := LogPieces.abandoned (show 2 < u64Limit by decide) hbytes hpieces hrest .nil
  have hvalid : (Payload.logical 7 [5]).Valid .k4 := by decide
  have hall := LogPieces.record (show 1 < u64Limit by decide) hvalid hcutOff
  rw [hsmall, append_nil] at hall
  simpa [Payload.delivered] using hall

/-- One packed record and the first chunk of a record of 5000 bytes, followed by a part
of a page. -/
theorem reopen_torn_file_small : let cfg : Config := ⟨.k4, 8, .fdatasync⟩
    let batches := [[packedSlot .k4 ⟨1, 7, [5]⟩, chunkSlot .k4 ⟨2, 7, replicate 5000 1⟩ 2 0]]
    ∃ o, openWalFile .k4 (crcNat fun _ => 0) false
        (buildWalHeader .k4 false ++ batches.flatMap (finalBatch .k4 (crcNat fun _ => 0)) ++
          replicate 100 255) = some o ∧
      replayOpened .k4 (crcNat fun _ => 0) o.file o.fileOffset = [.logical 1 7 [5]] ∧
      ∀ s, Reach (Session.step cfg (crcNat fun _ => 0)) Session.slotFits (Session.start cfg o) s →
        replayOpened .k4 (crcNat fun _ => 0) (s.wal.sealActive cfg (crcNat fun _ => 0)).file
            (s.wal.sealActive cfg (crcNat fun _ => 0)).fileOffset =
          .logical 1 7 [5] :: s.log.map ExpectedRecord.delivered := by
  intro cfg batches
  have htail : startsWithBatch .k4 (crcNat fun _ => 0) (replicate 100 255) = false := by
    decide +kernel
  obtain ⟨o, hopen, -, hreplay, hall⟩ := reopen_torn_file cfg (fun _ => 0) false
    (wellFormedLog_cut length_replicate) htail
  exact ⟨o, hopen, hreplay, hall⟩

end Pagebox.Wal
