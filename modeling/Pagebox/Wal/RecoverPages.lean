import Pagebox.Wal.PageStores
import Pagebox.Wal.Replay

/-!
# Recovering pages

The loops of `recover` and `recover_merged` of `wal/src/wal_impl.rs`, for whatever a
whole record makes them do, and `recover` for one shard: page records above the
checkpoint LSN are applied to the page store in log order, unless the page already has
their LSN.  `recover_merged` first collects the records of all shard files with
`replay_records`, sorts them by LSN and applies them afterwards.
-/

namespace Pagebox.Wal

open Pagebox.Base List

/-! ## The loops -/

/-- What recovery does with a whole record; `false` is an error, which is returned at
once. -/
structure RecordHandlers (ρ : Type) where
  recoverPageImage : ρ → Nat → Nat → Bytes → ρ × Bool
  recoverPagePatch : ρ → Nat → Nat → List PatchRange → ρ × Bool
  /-- A record of the caller. -/
  applyLogical : ρ → LogicalRecord → ρ × Bool

inductive Next
  | go (part : Partial)
  /-- `return Ok(report)` inside the loop. -/
  | stop
  /-- An error is returned. -/
  | fail
  deriving DecidableEq

/-- What the records did, and what the loops count for the report. -/
structure Progress (ρ : Type) where
  state : ρ
  recordsScanned : Nat
  maxLsn : Nat

def Progress.start {ρ : Type} (r : ρ) : Progress ρ := ⟨r, 0, 0⟩

def Progress.scanned {ρ : Type} (p : Progress ρ) (lsn : Nat) (r : ρ) : Progress ρ :=
  ⟨r, p.recordsScanned + 1, max p.maxLsn lsn⟩

/-- The LSN with which an entry counts for the maximum. -/
def CheckedEntry.countedLsn : CheckedEntry → Nat
  | .image lsn _ _ => lsn
  | .chunk lsn _ _ last _ => if last then lsn else 0
  | .packed lsn _ => lsn

/-- Go on with `part`, or return the error. -/
def goOn {ρ : Type} (part : Partial) (result : ρ × Bool) : ρ × Next :=
  (result.1, if result.2 then .go part else .fail)

namespace RecordHandlers

variable {ρ : Type} (ps : PageSize) (h : RecordHandlers ρ)

/-- `recover_logical_payload`; goes on with `part`. -/
def recoverLogicalPayload (r : ρ) (record : LogicalRecord) (part : Partial) : ρ × Next :=
  if record.kind = logicalKindPageImageBytes then
    match decodePageImageBytesPayload ps record.payload with
    | none => (r, .stop)
    | some (pid, data) => goOn part (h.recoverPageImage r record.lsn pid data)
  else if record.kind = logicalKindPagePatch then
    match decodePagePatchPayload ps record.payload with
    | none => (r, .stop)
    | some (pid, ranges) => goOn part (h.recoverPagePatch r record.lsn pid ranges)
  else goOn part (h.applyLogical r record)

def recoverPacked (part : Partial) : ρ → List LogicalRecord → ρ × Next
  | r, [] => (r, .go part)
  | r, record :: records =>
    match h.recoverLogicalPayload ps r record part with
    | (r, .go _) => recoverPacked part r records
    | ended => ended

def recoverChunk (r : ρ) (part : Partial) (lsn kind : Nat) (first last : Bool)
    (payload : Bytes) : ρ × Next :=
  if first = false ∧ (part.payload.isEmpty ∨ lsn ≠ part.lsn ∨ kind ≠ part.kind) then (r, .stop)
  else
    let part : Partial := if first then ⟨lsn, kind, []⟩ else part
    let part := { part with payload := part.payload ++ payload }
    if last then h.recoverLogicalPayload ps r ⟨part.lsn, part.kind, part.payload⟩ .empty
    else (r, .go part)

def recoverEntry (r : ρ) (part : Partial) : CheckedEntry → ρ × Next
  | .image lsn pid page => goOn part.drop (h.recoverPageImage r lsn pid page)
  | .chunk lsn kind first last payload => h.recoverChunk ps r part lsn kind first last payload
  | .packed _ payload =>
    let (records, complete) := packedLogicalRecords payload
    if complete then h.recoverPacked ps part.drop r records else (r, .stop)

/-- The loop of `recover` over the entries, where those that fail their check are `none`. -/
def recoverEntries : Progress ρ → Partial → List (Option CheckedEntry) → Progress ρ × Next
  | p, part, [] => (p, .go part)
  | p, _, none :: _ => (p, .stop)
  | p, part, some e :: es =>
    match h.recoverEntry ps p.state part e with
    | (r, .go part) => recoverEntries (p.scanned e.countedLsn r) part es
    | (r, next) => (p.scanned e.countedLsn r, next)

def recoverCollected (r : ρ) : ReplayRecord → ρ × Next
  | .pageImage lsn pid data => goOn .empty (h.recoverPageImage r lsn pid data)
  | .logical lsn kind payload => h.recoverLogicalPayload ps r ⟨lsn, kind, payload⟩ .empty

/-- The loop of `recover_merged` over the sorted records. -/
def recoverAllCollected : Progress ρ → List ReplayRecord → Progress ρ × Next
  | p, [] => (p, .go .empty)
  | p, record :: records =>
    match h.recoverCollected ps p.state record with
    | (r, .go _) => recoverAllCollected (p.scanned record.lsn r) records
    | (r, next) => (p.scanned record.lsn r, next)

end RecordHandlers

/-- `records.sort_by_key(lsn)`, a stable sort. -/
def sortByLsn (records : List ReplayRecord) : List ReplayRecord :=
  records.mergeSort fun a b => a.lsn ≤ b.lsn

/-! ## Recovery into a store whose calls succeed -/

structure RecoveryCounts where
  recordsApplied : Nat
  logicalRecordsDelivered : Nat
  skippedCheckpoint : Nat
  skippedPageLsn : Nat
  deriving DecidableEq

structure RecoveryReport extends RecoveryCounts where
  recordsScanned : Nat
  maxLsn : Nat
  deriving DecidableEq

namespace RecoveryCounts

def zero : RecoveryCounts := ⟨0, 0, 0, 0⟩

def count (c : RecoveryCounts) : Outcome → RecoveryCounts
  | .ignored => c
  | .skippedCheckpoint => { c with skippedCheckpoint := c.skippedCheckpoint + 1 }
  | .skippedPageLsn => { c with skippedPageLsn := c.skippedPageLsn + 1 }
  | .applied => { c with recordsApplied := c.recordsApplied + 1 }

def deliver (c : RecoveryCounts) : RecoveryCounts :=
  { c with logicalRecordsDelivered := c.logicalRecordsDelivered + 1 }

end RecoveryCounts

def Progress.report {ρ : Type} (p : Progress ρ) (counts : ρ → RecoveryCounts) : RecoveryReport where
  toRecoveryCounts := counts p.state
  recordsScanned := p.recordsScanned
  maxLsn := p.maxLsn

structure Recovery (ps : PageSize) (σ : Type) where
  disk : Recovering (Page ps) σ
  counts : RecoveryCounts
  /-- The records handed to the caller's callback. -/
  delivered : List LogicalRecord

/-- The checkpoint LSN and the callback: whether it accepts a record. -/
structure RecoverySetup where
  checkpointLsn : Nat
  acceptLogical : LogicalRecord → Bool

namespace Recovery

variable {ps : PageSize} {σ : Type} (st : PageStore (Page ps) σ)

def start (s : σ) : Recovery ps σ := ⟨.start st s, .zero, []⟩

def finish (r : Recovery ps σ) (result : Recovering (Page ps) σ × Outcome) : Recovery ps σ :=
  { r with disk := result.1, counts := r.counts.count result.2 }

def handlers (su : RecoverySetup) : RecordHandlers (Recovery ps σ) where
  recoverPageImage r lsn pid data :=
    (r.finish (r.disk.recoverPageImage ⟨st, su.checkpointLsn, Page.lsn⟩ lsn pid
      (Page.ofBytes? ps data)), true)
  recoverPagePatch r lsn pid ranges :=
    (r.finish (r.disk.recoverPagePatch ⟨st, su.checkpointLsn, Page.lsn⟩ lsn pid ranges), true)
  applyLogical r record :=
    if record.lsn ≤ su.checkpointLsn then
      ({ r with counts := r.counts.count .skippedCheckpoint }, true)
    else if su.acceptLogical record then
      ({ r with counts := r.counts.deliver, delivered := r.delivered ++ [record] }, true)
    else (r, false)

end Recovery

/-- What recovery did, whether it returned `Ok`, and whether it synced the store. -/
structure RecoveryResult (ps : PageSize) (σ : Type) where
  recovery : Recovery ps σ
  report : RecoveryReport
  ok : Bool
  synced : Bool

section Recover

variable {ps : PageSize} {σ : Type} (su : RecoverySetup) (st : PageStore (Page ps) σ)
  (crc : Bytes → Nat)

/-- The end of both loops. -/
def recoveryResult (p : Progress (Recovery ps σ)) (next : Next) : RecoveryResult ps σ where
  recovery := p.state
  report := p.report Recovery.counts
  ok := next ≠ .fail
  synced := match next with
    | .go _ => 0 < p.state.counts.recordsApplied
    | _ => false

def recover (log : List Slot) (s : σ) : RecoveryResult ps σ :=
  let (p, next) := (Recovery.handlers st su).recoverEntries ps (.start (.start st s)) .empty
    (log.map (Slot.check ps crc))
  recoveryResult p next

/-- `recover_pages` on one shard: logical records of the caller are refused. -/
def recoverPages (checkpointLsn : Nat) (log : List Slot) (s : σ) : RecoveryResult ps σ :=
  recover ⟨checkpointLsn, fun _ => false⟩ st crc log s

end Recover

/-! ## Page records

The records of a log that only holds page images and page patches. -/

section PageRecords

variable {ps : PageSize} {σ : Type} {st : PageStore (Page ps) σ}

def patchRecord? (ps : PageSize) (r : LogicalRecord) : Option (PageRecord ps) :=
  if r.kind = logicalKindPagePatch then
    (decodePagePatchPayload ps r.payload).map fun (pid, ranges) => ⟨r.lsn, pid, .patch ranges⟩
  else none

/-- The page record a piece of the log is, if it is a whole one. -/
def pageRecord? (ps : PageSize) : Piece → Option (PageRecord ps)
  | .image lsn pid data => (Page.ofBytes? ps data).map fun page => ⟨lsn, pid, .image page⟩
  | .chunk lsn kind first last payload =>
    if first ∧ last then patchRecord? ps ⟨lsn, kind, payload⟩ else none
  | .packed r => patchRecord? ps r

def pageRecords (ps : PageSize) (log : List Slot) : List (PageRecord ps) :=
  (log.flatMap slotPieces).filterMap (pageRecord? ps)

theorem patchRecord?_some {r : LogicalRecord} {record : PageRecord ps}
    (h : patchRecord? ps r = some record) :
    ∃ ranges, r.kind = logicalKindPagePatch ∧
      decodePagePatchPayload ps r.payload = some (record.pid, ranges) ∧
      record = ⟨r.lsn, record.pid, .patch ranges⟩ := by
  unfold patchRecord? at h
  split at h
  · rename_i hkind
    obtain ⟨⟨pid, ranges⟩, hdecode, rfl⟩ := Option.map_eq_some_iff.mp h
    exact ⟨ranges, hkind, hdecode, rfl⟩
  · cases h

theorem recoverLogicalPayload_patch (st : PageStore (Page ps) σ) {r : LogicalRecord}
    {record : PageRecord ps} (h : patchRecord? ps r = some record) (su : RecoverySetup)
    (s : Recovery ps σ) (part : Partial) :
    ∃ s', (Recovery.handlers st su).recoverLogicalPayload ps s r part = (s', .go part) ∧
      s'.disk = s.disk.recoverRecord st su.checkpointLsn record := by
  obtain ⟨ranges, hkind, hdecode, hrecord⟩ := patchRecord?_some h
  have hne : r.kind ≠ logicalKindPageImageBytes := by
    rw [hkind]
    decide
  unfold RecordHandlers.recoverLogicalPayload
  rw [if_neg hne, if_pos hkind, hdecode]
  refine ⟨_, rfl, ?_⟩
  rw [hrecord]
  rfl

/-- A packed page of patches applies them in order. -/
theorem recoverPacked_patches (st : PageStore (Page ps) σ) (su : RecoverySetup) (part : Partial)
    {rs : List LogicalRecord} (h : ∀ r ∈ rs, (patchRecord? ps r).isSome) (s : Recovery ps σ) :
    ∃ s', (Recovery.handlers st su).recoverPacked ps part s rs = (s', .go part) ∧
      s'.disk = (rs.filterMap (patchRecord? ps)).foldl
        (Recovering.recoverRecord st su.checkpointLsn) s.disk := by
  induction rs generalizing s with
  | nil => exact ⟨s, rfl, rfl⟩
  | cons r rs ih =>
    obtain ⟨record, hrecord⟩ := Option.isSome_iff_exists.mp (h r mem_cons_self)
    obtain ⟨s₁, hstep, hdisk⟩ := recoverLogicalPayload_patch st hrecord su s part
    obtain ⟨s', hrest, hdisk'⟩ := ih (fun x hx => h x (mem_cons_of_mem r hx)) s₁
    refine ⟨s', ?_, ?_⟩
    · rw [RecordHandlers.recoverPacked, hstep]
      exact hrest
    · rw [hdisk', hdisk, filterMap_cons_some hrecord, foldl_cons]

theorem recoverEntry_finalizeSlot (st : PageStore (Page ps) σ) (su : RecoverySetup)
    (crc : Bytes → Nat) {slot : Slot} (hwf : SlotWf ps slot)
    (h : ∀ piece ∈ slotPieces slot, (pageRecord? ps piece).isSome)
    (s : Recovery ps σ) (part : Partial) :
    ∃ e s' part', (finalizeSlot crc slot).check ps crc = some e ∧
      (Recovery.handlers st su).recoverEntry ps s part e = (s', .go part') ∧
      s'.disk = ((slotPieces slot).filterMap (pageRecord? ps)).foldl
        (Recovering.recoverRecord st su.checkpointLsn) s.disk := by
  rw [check_finalizeSlot hwf crc]
  cases hkind : slot.entry.kind with
  | pageImage =>
    have hpieces : slotPieces slot = [.image slot.entry.lsn slot.entry.arg slot.data] := by
      simp [slotPieces, hkind]
    have hpage : Page.ofBytes? ps slot.data = some ⟨slot.data, hwf.size⟩ := dif_pos hwf.size
    refine ⟨_, _, _, rfl, rfl, ?_⟩
    rw [hpieces]
    simp only [filterMap_cons, filterMap_nil, pageRecord?, hpage, Option.map_some]
    exact congrArg (fun page => (s.disk.recoverPageImage ⟨st, su.checkpointLsn, Page.lsn⟩
      slot.entry.lsn slot.entry.arg page).1) hpage
  | logical =>
    have hpieces : slotPieces slot = [.chunk slot.entry.lsn slot.entry.arg slot.entry.first
        slot.entry.last (slot.data.take slot.entry.len)] := by
      simp [slotPieces, hkind]
    rw [hpieces] at h ⊢
    obtain ⟨record, hrecord⟩ := Option.isSome_iff_exists.mp (h _ (mem_singleton.mpr rfl))
    have hflags : slot.entry.first = true ∧ slot.entry.last = true := by
      by_contra hnot
      rw [pageRecord?, if_neg hnot] at hrecord
      cases hrecord
    have hpatch : patchRecord? ps
        ⟨slot.entry.lsn, slot.entry.arg, slot.data.take slot.entry.len⟩ = some record := by
      rw [pageRecord?, if_pos hflags] at hrecord
      exact hrecord
    obtain ⟨s', hstep, hdisk⟩ := recoverLogicalPayload_patch st hpatch su s .empty
    refine ⟨_, s', .empty, rfl, ?_, ?_⟩
    · rw [← hstep]
      simp [RecordHandlers.recoverEntry, RecordHandlers.recoverChunk, hflags.1, hflags.2]
    · rw [hdisk, filterMap_cons_some hrecord]
      rfl
  | logicalPacked =>
    obtain ⟨rs, -, hrs, hbytes⟩ := hwf.records hkind
    have hpieces : slotPieces slot = rs.map .packed := by
      simp [slotPieces, hkind, hbytes, packedLogicalRecords_flatMap hrs]
    have hpatches : ∀ r ∈ rs, (patchRecord? ps r).isSome := by
      intro r hr
      apply h (.packed r)
      rw [hpieces]
      exact mem_map_of_mem hr
    obtain ⟨s', hstep, hdisk⟩ := recoverPacked_patches st su part.drop hpatches s
    refine ⟨_, s', part.drop, rfl, ?_, ?_⟩
    · rw [← hstep]
      simp [RecordHandlers.recoverEntry, hbytes, packedLogicalRecords_flatMap hrs]
    · rw [hdisk, hpieces, filterMap_map]
      rfl

theorem recoverEntries_finalized (st : PageStore (Page ps) σ) (su : RecoverySetup)
    (crc : Bytes → Nat) {log : List Slot} (hwf : ∀ slot ∈ log, SlotWf ps slot)
    (h : ∀ piece ∈ log.flatMap slotPieces, (pageRecord? ps piece).isSome)
    (p : Progress (Recovery ps σ)) (part : Partial) :
    ∃ p' part', (Recovery.handlers st su).recoverEntries ps p part
        ((log.map (finalizeSlot crc)).map (Slot.check ps crc)) = (p', .go part') ∧
      p'.state.disk = (pageRecords ps log).foldl
        (Recovering.recoverRecord st su.checkpointLsn) p.state.disk := by
  induction log generalizing p part with
  | nil => exact ⟨p, part, rfl, rfl⟩
  | cons slot log ih =>
    obtain ⟨e, s₁, part₁, hcheck, hstep, hdisk⟩ := recoverEntry_finalizeSlot st su crc
      (hwf slot mem_cons_self)
      (fun piece hp => h piece (mem_append_left _ hp)) p.state part
    obtain ⟨p', part', hrest, hdisk'⟩ := ih
      (fun x hx => hwf x (mem_cons_of_mem slot hx))
      (fun piece hp => h piece (mem_append_right _ hp)) (p.scanned e.countedLsn s₁) part₁
    refine ⟨p', part', ?_, ?_⟩
    · rw [map_cons, map_cons, hcheck, RecordHandlers.recoverEntries, hstep]
      exact hrest
    · rw [hdisk', Progress.scanned, hdisk, pageRecords, pageRecords, flatMap_cons,
        filterMap_append, foldl_append]

/-- Recovery from a file of whole page records applies them in file order. -/
theorem recoverPages_finalized (st : PageStore (Page ps) σ) (checkpointLsn : Nat)
    (crc : Bytes → Nat) {log : List Slot} (hwf : ∀ slot ∈ log, SlotWf ps slot)
    (h : ∀ piece ∈ log.flatMap slotPieces, (pageRecord? ps piece).isSome) (s : σ) :
    (recoverPages st crc checkpointLsn (log.map (finalizeSlot crc)) s).ok = true ∧
      (recoverPages st crc checkpointLsn (log.map (finalizeSlot crc)) s).recovery.disk =
        recoverLog st checkpointLsn s (pageRecords ps log) := by
  obtain ⟨p', part', hrun, hdisk⟩ := recoverEntries_finalized st
    ⟨checkpointLsn, fun _ => false⟩ crc hwf h (.start (.start st s)) .empty
  unfold recoverPages recover
  rw [hrun]
  exact ⟨rfl, hdisk⟩

end PageRecords

end Pagebox.Wal
