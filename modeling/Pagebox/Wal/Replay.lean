import Pagebox.Base.Scan
import Pagebox.Wal.Records

/-!
# Replaying a shard file

`replay_records` of `wal/src/wal_impl.rs`: the entries of all batches are checked
and read in file order, chunks of logical records are put together, and the scan
stops at the first entry it cannot use.
-/

namespace Pagebox.Wal

open Pagebox.Base List

inductive ReplayRecord
  | pageImage (lsn pageId : Nat) (data : Bytes)
  | logical (lsn kind : Nat) (payload : Bytes)
  deriving DecidableEq

def ReplayRecord.lsn : ReplayRecord → Nat
  | .pageImage lsn _ _ => lsn
  | .logical lsn _ _ => lsn

/-- `logical_lsn`, `logical_kind` and `logical_payload`: the record that is being
put together. -/
structure Partial where
  lsn : Nat
  kind : Nat
  payload : Bytes
  deriving DecidableEq

def Partial.empty : Partial := ⟨0, 0, []⟩

/-- Page images and packed pages drop an incomplete record. -/
def Partial.drop (part : Partial) : Partial :=
  if part.payload.isEmpty then part else .empty

variable (ps : PageSize)

def decodePageImageBytesPayload (payload : Bytes) : Option (Nat × Bytes) :=
  if payload.length < 16 then none
  else
    let pageId := leNat (payload.take 8)
    let pageLen := leNat ((payload.drop 8).take 8)
    let page := payload.drop 16
    if page.length ≠ pageLen ∨ pageLen ≠ ps.bytes then none else some (pageId, page)

def deliver (part : Partial) : List ReplayRecord × Option Partial :=
  if part.kind = logicalKindPageImageBytes then
    match decodePageImageBytesPayload ps part.payload with
    | none => ([], none)
    | some (pageId, page) => ([.pageImage part.lsn pageId page], some .empty)
  else ([.logical part.lsn part.kind part.payload], some .empty)

def replayChunk (part : Partial) (lsn kind : Nat) (first last : Bool)
    (payload : Bytes) : List ReplayRecord × Option Partial :=
  if first = false ∧ (part.payload.isEmpty ∨ lsn ≠ part.lsn ∨ kind ≠ part.kind) then ([], none)
  else
    let part : Partial := if first then ⟨lsn, kind, []⟩ else part
    let part := { part with payload := part.payload ++ payload }
    if last then deliver ps part else ([], some part)

/-- An entry that passed its check, with its payload. -/
inductive CheckedEntry
  | image (lsn pageId : Nat) (page : Bytes)
  | chunk (lsn kind : Nat) (first last : Bool) (payload : Bytes)
  | packed (lsn : Nat) (payload : Bytes)

/-- The loop body of `replay_records` on an entry, if it passes its check; no next state
is its early return. -/
def replayEntry (part : Partial) : Option CheckedEntry → List ReplayRecord × Option Partial
  | none => ([], none)
  | some (.image lsn pageId page) => ([.pageImage lsn pageId page], some part.drop)
  | some (.chunk lsn kind first last payload) => replayChunk ps part lsn kind first last payload
  | some (.packed _ payload) =>
    let (records, complete) := packedLogicalRecords payload
    (records.map fun r => .logical r.lsn r.kind r.payload,
      if complete then some part.drop else none)

def Slot.check (crc : Bytes → Nat) (slot : Slot) : Option CheckedEntry :=
  (validateEntryData ps crc slot.entry slot.data).map fun payload =>
    match slot.entry.kind with
    | .pageImage => .image slot.entry.lsn slot.entry.arg payload
    | .logical =>
      .chunk slot.entry.lsn slot.entry.arg slot.entry.first slot.entry.last payload
    | .logicalPacked => .packed slot.entry.lsn payload

def replaySlot (crc : Bytes → Nat) (part : Partial) (slot : Slot) :
    List ReplayRecord × Option Partial :=
  replayEntry ps part (slot.check ps crc)

def replayRecords (crc : Bytes → Nat) (file : List Slot) : List ReplayRecord :=
  (scan (replaySlot ps crc) .empty file).1

def replayPiece (part : Partial) : Piece → List ReplayRecord × Option Partial
  | .image lsn pageId page => ([.pageImage lsn pageId page], some part.drop)
  | .chunk lsn kind first last payload => replayChunk ps part lsn kind first last payload
  | .packed r => ([.logical r.lsn r.kind r.payload], some part.drop)

theorem Partial.drop_drop (part : Partial) : part.drop.drop = part.drop := by
  unfold Partial.drop
  split
  · rfl
  · rfl

/-- A slot as the append path writes it passes the check with its payload. -/
theorem validateEntryData_finalizeSlot {ps : PageSize} {slot : Slot} (h : SlotWf ps slot)
    (crc : Bytes → Nat) :
    validateEntryData ps crc (finalizeSlot crc slot).entry (finalizeSlot crc slot).data =
      some (if slot.entry.kind = .pageImage then slot.data
        else slot.data.take slot.entry.len) := by
  have hsize := h.size
  have hlen := h.len
  cases hkind : slot.entry.kind with
  | pageImage =>
    obtain ⟨hfirst, hlast⟩ := h.flags (by simp [hkind])
    simp [validateEntryData, finalizeSlot, slotCrc, hkind, hfirst, hlast, hsize]
  | logical =>
    have hroom : ¬(logicalChunkMaxLen ps < slot.entry.len ∨ slot.data.length < slot.entry.len) := by
      unfold logicalChunkMaxLen
      omega
    simp [validateEntryData, finalizeSlot, slotCrc, hkind, hroom]
  | logicalPacked =>
    obtain ⟨hfirst, hlast⟩ := h.flags (by simp [hkind])
    have hroom : ¬slot.data.length < slot.entry.len := by omega
    simp [validateEntryData, finalizeSlot, slotCrc, hkind, hfirst, hlast, hroom]

theorem check_finalizeSlot {ps : PageSize} {slot : Slot} (h : SlotWf ps slot) (crc : Bytes → Nat) :
    (finalizeSlot crc slot).check ps crc = some (match slot.entry.kind with
      | .pageImage => .image slot.entry.lsn slot.entry.arg slot.data
      | .logical => .chunk slot.entry.lsn slot.entry.arg slot.entry.first slot.entry.last
          (slot.data.take slot.entry.len)
      | .logicalPacked => .packed slot.entry.lsn (slot.data.take slot.entry.len)) := by
  rw [Slot.check, validateEntryData_finalizeSlot h crc, Option.map_some]
  cases hkind : slot.entry.kind <;> simp [finalizeSlot, hkind]

theorem scan_packed (part : Partial) (rs : List LogicalRecord) (hrs : rs ≠ []) :
    scan (replayPiece ps) part (rs.map .packed) =
      (rs.map (fun r => .logical r.lsn r.kind r.payload), some part.drop) := by
  induction rs generalizing part with
  | nil => exact absurd rfl hrs
  | cons r rs ih =>
    have hr : replayPiece ps part (.packed r) =
        ([.logical r.lsn r.kind r.payload], some part.drop) := rfl
    rw [map_cons, scan_cons_of_some hr]
    cases rs with
    | nil => rfl
    | cons r' rs =>
      rw [ih part.drop (by simp), Partial.drop_drop]
      rfl

/-- Replaying a written slot is replaying its pieces. -/
theorem replaySlot_finalizeSlot {ps : PageSize} {slot : Slot} (h : SlotWf ps slot)
    (crc : Bytes → Nat) (part : Partial) :
    replaySlot ps crc part (finalizeSlot crc slot) =
      scan (replayPiece ps) part (slotPieces slot) := by
  rw [replaySlot, check_finalizeSlot h crc]
  cases hkind : slot.entry.kind with
  | pageImage => simp [slotPieces, hkind, scan_singleton, replayPiece, replayEntry]
  | logical => simp [slotPieces, hkind, scan_singleton, replayPiece, replayEntry]
  | logicalPacked =>
    obtain ⟨rs, hne, hrs, hbytes⟩ := h.records hkind
    simp [slotPieces, hkind, hbytes, packedLogicalRecords_flatMap hrs, replayEntry,
      scan_packed ps part rs hne]

theorem replayRecords_finalized {ps : PageSize} (crc : Bytes → Nat) {slots : List Slot}
    (h : ∀ slot ∈ slots, SlotWf ps slot) :
    replayRecords ps crc (slots.map (finalizeSlot crc)) =
      (scan (replayPiece ps) .empty (slots.flatMap slotPieces)).1 := by
  unfold replayRecords
  have hstep : ∀ slot ∈ slots.map (finalizeSlot crc), ∀ part,
      replaySlot ps crc part slot = scan (replayPiece ps) part (slotPieces slot) := by
    intro slot hslot part
    obtain ⟨slot₀, hslot₀, rfl⟩ := mem_map.mp hslot
    rw [replaySlot_finalizeSlot (h slot₀ hslot₀)]
    rfl
  rw [scan_flatMap hstep, flatMap_map]
  rfl

/-! ## Putting a record together -/

section Chunks

variable {ps : PageSize} {r : LogicalRecord}

theorem le_chunkCount_mul (ps : PageSize) (len : Nat) :
    len ≤ chunkCount ps len * logicalChunkMaxLen ps := by
  have hpos : 0 < logicalChunkMaxLen ps := Nat.lt_of_lt_of_le (by decide) (PageSize.le_bytes ps)
  have hdiv : len ≤ (len + logicalChunkMaxLen ps - 1) / logicalChunkMaxLen ps *
      logicalChunkMaxLen ps := by
    have hmod := Nat.div_add_mod (len + logicalChunkMaxLen ps - 1) (logicalChunkMaxLen ps)
    have hlt := Nat.mod_lt (len + logicalChunkMaxLen ps - 1) hpos
    rw [Nat.mul_comm] at hmod
    omega
  exact hdiv.trans (Nat.mul_le_mul_right _ (Nat.le_max_left _ _))

def chunkPiece (ps : PageSize) (r : LogicalRecord) (chunks i : Nat) : Piece :=
  .chunk r.lsn r.kind (i = 0) (i + 1 = chunks)
    ((r.payload.drop (i * logicalChunkMaxLen ps)).take (logicalChunkMaxLen ps))

theorem flatMap_chunkSlots (ps : PageSize) (r : LogicalRecord) :
    (chunkSlots ps r).flatMap slotPieces = (List.range (chunkCount ps r.payload.length)).map
        (chunkPiece ps r (chunkCount ps r.payload.length)) := by
  unfold chunkSlots
  rw [flatMap_map]
  simp only [slotPieces_chunkSlot]
  exact map_eq_flatMap.symm

theorem replayPiece_chunkPiece (ps : PageSize) (hne : r.payload ≠ []) (part : Partial)
    (chunks i : Nat)
    (hpart : i ≠ 0 → part = ⟨r.lsn, r.kind, r.payload.take (i * logicalChunkMaxLen ps)⟩) :
    replayPiece ps part (chunkPiece ps r chunks i) = if i + 1 = chunks then
        deliver ps ⟨r.lsn, r.kind, r.payload.take ((i + 1) * logicalChunkMaxLen ps)⟩
      else ([], some ⟨r.lsn, r.kind, r.payload.take ((i + 1) * logicalChunkMaxLen ps)⟩) := by
  have hjoin : r.payload.take (i * logicalChunkMaxLen ps) ++
      (r.payload.drop (i * logicalChunkMaxLen ps)).take (logicalChunkMaxLen ps) =
        r.payload.take ((i + 1) * logicalChunkMaxLen ps) := by
    rw [Nat.succ_mul, take_add]
  by_cases hi : i = 0
  · subst hi
    simp [replayPiece, chunkPiece, replayChunk]
  have hpos : 0 < i * logicalChunkMaxLen ps :=
    Nat.mul_pos (by omega) (Nat.lt_of_lt_of_le (by decide) (PageSize.le_bytes ps))
  have htake : r.payload.take (i * logicalChunkMaxLen ps) ≠ [] := by
    rw [Ne, take_eq_nil_iff, not_or]
    exact ⟨hpos.ne', hne⟩
  rw [hpart hi]
  simp [replayPiece, chunkPiece, replayChunk, hi, htake, hjoin]

theorem scan_first_chunks (hne : r.payload ≠ []) (part : Partial) {chunks : Nat} (k : Nat)
    (hk : k + 1 < chunks) :
    scan (replayPiece ps) part ((List.range (k + 1)).map (chunkPiece ps r chunks)) =
      ([], some ⟨r.lsn, r.kind, r.payload.take ((k + 1) * logicalChunkMaxLen ps)⟩) := by
  induction k with
  | zero =>
    have hfirst := replayPiece_chunkPiece ps hne part chunks 0 (fun h => absurd rfl h)
    rw [if_neg (by omega)] at hfirst
    exact (scan_singleton _ _ _).trans hfirst
  | succ k ih =>
    have hlast := replayPiece_chunkPiece ps hne
      ⟨r.lsn, r.kind, r.payload.take ((k + 1) * logicalChunkMaxLen ps)⟩ chunks (k + 1)
      (fun _ => rfl)
    rw [if_neg (by omega)] at hlast
    rw [range_succ, map_append, map_singleton,
      scan_append_of_some (ih (by omega)), scan_singleton, hlast]
    rfl

/-- All chunks of a record deliver it, whatever came before. -/
theorem scan_chunks (hne : r.payload ≠ []) (part : Partial) :
    scan (replayPiece ps) part ((chunkSlots ps r).flatMap slotPieces) =
      deliver ps ⟨r.lsn, r.kind, r.payload⟩ := by
  rw [flatMap_chunkSlots]
  have hall := le_chunkCount_mul ps r.payload.length
  have hpos : 0 < chunkCount ps r.payload.length :=
    Nat.lt_of_lt_of_le Nat.one_pos (Nat.le_max_right _ _)
  generalize chunkCount ps r.payload.length = chunks at hall hpos
  obtain ⟨k, rfl⟩ : ∃ k, chunks = k + 1 := ⟨chunks - 1, by omega⟩
  have hwhole : r.payload.take ((k + 1) * logicalChunkMaxLen ps) = r.payload :=
    take_of_length_le hall
  rw [range_succ, map_append, map_singleton]
  cases k with
  | zero =>
    have hfirst := replayPiece_chunkPiece ps hne part 1 0 (fun h => absurd rfl h)
    rw [if_pos rfl, hwhole] at hfirst
    exact (scan_singleton _ _ _).trans hfirst
  | succ k =>
    have hlast := replayPiece_chunkPiece ps hne
      ⟨r.lsn, r.kind, r.payload.take ((k + 1) * logicalChunkMaxLen ps)⟩ (k + 1 + 1) (k + 1)
      (fun _ => rfl)
    rw [if_pos rfl, hwhole] at hlast
    rw [scan_append_of_some (scan_first_chunks hne part k (by omega)), scan_singleton, hlast]
    rfl

end Chunks

def Payload.delivered (lsn : Nat) : Payload → ReplayRecord
  | .pageImage pageId page => .pageImage lsn pageId page
  | .pageImageBytes pageId page => .pageImage lsn pageId page
  | .logical kind bytes => .logical lsn kind bytes

theorem decode_encodePageImageBytesPayload {ps : PageSize} {pageId : Nat} {page : Bytes}
    (hid : pageId < u64Limit) (hpage : page.length = ps.bytes) :
    decodePageImageBytesPayload ps (encodePageImageBytesPayload pageId page) =
      some (pageId, page) := by
  have hlen : page.length < 256 ^ 8 := by
    have := PageSize.bytes_le ps
    omega
  have hidBytes : leNat (leBytes 8 pageId) = pageId :=
    leNat_leBytes (by unfold u64Limit at hid; norm_num at hid ⊢; omega)
  have hlenBytes : leNat (leBytes 8 page.length) = page.length := leNat_leBytes hlen
  have hdrop : (leBytes 8 pageId ++ (leBytes 8 page.length ++ page)).drop 16 = page := by
    rw [← append_assoc]
    exact drop_left' (by simp)
  rw [hpage] at hlenBytes hdrop
  simp [decodePageImageBytesPayload, encodePageImageBytesPayload, hidBytes, hlenBytes, hpage, hdrop]
  omega

/-- The pieces of a record deliver it, whatever came before. -/
theorem scan_payload {ps : PageSize} {lsn : Nat} {p : Payload} (hlsn : lsn < u64Limit)
    (h : p.Valid ps) (part : Partial) :
    ∃ part', scan (replayPiece ps) part (p.pieces ps lsn) = ([p.delivered lsn], some part') := by
  cases p with
  | pageImage pageId page =>
    exact ⟨part.drop, by simp [Payload.pieces, Payload.slots, imageSlot, slotPieces,
      BatchEntry.pageImage, scan_singleton, replayPiece, Payload.delivered]⟩
  | pageImageBytes pageId page =>
    have hne : encodePageImageBytesPayload pageId page ≠ [] := by
      simp [encodePageImageBytesPayload, leBytes]
    refine ⟨.empty, ?_⟩
    rw [Payload.pieces, Payload.slots, scan_chunks hne]
    simp [deliver, decode_encodePageImageBytesPayload h.1 h.2, Payload.delivered]
  | logical kind bytes =>
    by_cases hpacked : isPacked ps ⟨lsn, kind, bytes⟩ = true
    · obtain ⟨hr, -⟩ := isPacked_encodable hlsn h.1 hpacked
      refine ⟨part.drop, ?_⟩
      rw [Payload.pieces, Payload.slots, if_pos hpacked, flatMap_singleton,
        slotPieces_packedSlot ps hr, scan_singleton]
      rfl
    have hne : bytes ≠ [] := by
      rintro rfl
      simp [isPacked, h.2.1] at hpacked
    refine ⟨.empty, ?_⟩
    rw [Payload.pieces, Payload.slots, if_neg hpacked, scan_chunks hne]
    simp [deliver, h.2.1, Payload.delivered]

end Pagebox.Wal
