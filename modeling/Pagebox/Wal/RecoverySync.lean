import Pagebox.Wal.RecoveryCalls
import Pagebox.Wal.RoundTrip

/-!
# The sync at the end of recovery

`recover` and `recover_merged` sync the page store behind their loops.  A return from
inside the loops, at an entry or a record that cannot be read, skips the sync, also when
pages have been written by then.
-/

namespace Pagebox.Wal

open Pagebox.Base List

variable {ps : PageSize}

/-- Behind every write there is a sync that succeeded. -/
def SyncedAfterWrites (calls : List (RecoveryCall ps)) : Prop :=
  ∀ pre pid page ok post, calls = pre ++ .writePage pid page ok :: post → .sync true ∈ post

/-- The records before the first one of Pagebox itself that cannot be decoded. -/
def usable (ps : PageSize) (items : List ReplayRecord) : List ReplayRecord :=
  items.takeWhile fun x => x.Decodable ps

/-- The log can be read and decoded to its end, or has no page record above the
checkpoint LSN up to where it cannot, or the callback refuses a record up to there. -/
def SyncsOrWritesNothing (ps : PageSize) (checkpointLsn : Nat)
    (applyLogical : List LogicalRecord → LogicalRecord → Bool) (log : List ReplayRecord × Bool) :
    Prop :=
  (log.2 = true ∧ ∀ x ∈ log.1, x.Decodable ps) ∨
    (∀ x ∈ usable ps log.1, ¬x.PageDue ps checkpointLsn) ∨
    ¬Accepted applyLogical (callers checkpointLsn (usable ps log.1))

section Usable

variable {items pre : List ReplayRecord} {x : ReplayRecord}

theorem usable_eq_self (h : ∀ x ∈ items, x.Decodable ps) : usable ps items = items := by
  have hall : usable ps (items ++ []) = items ++ [] :=
    takeWhile_append_of_pos fun x hx => decide_eq_true (h x hx)
  rwa [append_nil] at hall

theorem usable_eq_of_front (hpre : pre ++ [x] <+: items) (h : ∀ y ∈ pre, y.Decodable ps)
    (hx : ¬x.Decodable ps) : usable ps items = pre := by
  obtain ⟨rest, rfl⟩ := hpre
  rw [usable, append_assoc, takeWhile_append_of_pos fun y hy => decide_eq_true (h y hy),
    singleton_append, takeWhile_cons_of_neg (by simpa using hx), append_nil]

theorem prefix_usable (hpre : pre <+: items) (h : ∀ y ∈ pre, y.Decodable ps) :
    pre <+: usable ps items := by
  obtain ⟨rest, rfl⟩ := hpre
  rw [usable, takeWhile_append_of_pos fun y hy => decide_eq_true (h y hy)]
  exact prefix_append ..

end Usable

namespace RecoveryRun

variable {c : RecoveryArgs ps} {r : RecoveryRun ps} {p : Progress (RecoveryRun ps)}
  {log : List ReplayRecord × Bool} {next : Next}

/-- A loop that returns early has handled what could be read and decoded. -/
theorem Ended.stopped (h : Ended c [] log.1 log.2 r .stop) :
    Handled c (usable ps log.1) r ∧ ¬(log.2 = true ∧ ∀ x ∈ log.1, x.Decodable ps) := by
  obtain ⟨pre, hhandled, ⟨rfl, hwhole⟩ | ⟨x, hpre, hx⟩⟩ := h
  · rw [nil_append] at hhandled
    rw [usable_eq_self hhandled.decodable, hwhole]
    exact ⟨hhandled, nofun⟩
  · rw [usable_eq_of_front hpre hhandled.decodable hx]
    exact ⟨hhandled, fun hall => hx (hall.2 x (hpre.subset (by simp)))⟩

theorem syncedAfterWrites_of_unwritten {calls : List (RecoveryCall ps)} (h : ¬Written calls) :
    SyncedAfterWrites calls := by
  rintro pre pid page ok post rfl
  exact absurd ⟨pid, page, ok, by simp⟩ h

/-- The loops got through: what was written is synced. -/
theorem Handled.finish_synced {done : List ReplayRecord} (h : Handled c done p.state)
    (part : Partial) (hok : (finish c p (.go part)).2 = true) :
    SyncedAfterWrites (finish c p (.go part)).1.state.calls := by
  unfold finish at hok ⊢
  dsimp only at hok ⊢
  split
  · rename_i happlied
    rw [if_pos happlied] at hok
    dsimp only at hok ⊢
    rw [call, hok]
    intro pre pid page ok post heq
    rcases eq_nil_or_concat post with rfl | ⟨init, last, rfl⟩
    · obtain ⟨-, hlast⟩ := append_inj' heq rfl
      cases hlast
    · rw [concat_eq_append, ← cons_append, ← append_assoc] at heq
      obtain ⟨-, hlast⟩ := append_inj' heq rfl
      rw [concat_eq_append, ← singleton_inj.mp hlast]
      exact mem_append_right _ mem_cons_self
  · rename_i happlied
    exact syncedAfterWrites_of_unwritten fun hw => happlied (h.applied.mpr hw)

/-- On a log that meets the condition, recovery into any store syncs what it writes. -/
theorem Ended.synced (h : Ended c [] log.1 log.2 p.state next)
    (hlog : SyncsOrWritesNothing ps c.checkpointLsn c.applyLogical log)
    (hok : (finish c p next).2 = true) : SyncedAfterWrites (finish c p next).1.state.calls := by
  cases next with
  | go part => exact h.2.finish_synced part hok
  | stop =>
    obtain ⟨hhandled, hnot⟩ := h.stopped
    refine syncedAfterWrites_of_unwritten fun hw => ?_
    obtain ⟨x, hx, hdue⟩ := hhandled.onlyDue hw
    rcases hlog with hwhole | hnone | hrefused
    · exact hnot hwhole
    · exact hnone x hx hdue
    · exact hrefused hhandled.accepted
  | fail => cases hok

/-- Otherwise recovery into a store without pages returns `Ok` behind a write that is
not synced. -/
theorem Ended.unsynced (h : Ended c [] log.1 log.2 p.state next) (hwilling : c.store.Willing)
    (hlog : ¬SyncsOrWritesNothing ps c.checkpointLsn c.applyLogical log) :
    (finish c p next).2 = true ∧ Written (finish c p next).1.state.calls ∧
      ∀ ok, .sync ok ∉ (finish c p next).1.state.calls := by
  rw [SyncsOrWritesNothing, not_or, not_or, not_not] at hlog
  obtain ⟨hnot, hdue, haccepted⟩ := hlog
  cases next with
  | go part =>
    obtain ⟨hwhole, hhandled⟩ := h
    exact absurd ⟨hwhole, hhandled.decodable⟩ hnot
  | stop =>
    obtain ⟨hhandled, -⟩ := h.stopped
    push Not at hdue
    obtain ⟨x, hx, hdue⟩ := hdue
    exact ⟨rfl, hhandled.willing hwilling x hx hdue, hhandled.unsynced⟩
  | fail =>
    obtain ⟨pre, x, hpre, hfailed⟩ := h
    obtain ⟨rest, hrest⟩ := prefix_usable hpre hfailed.decodable
    refine absurd (haccepted.of_prefix ?_) (hfailed.refused hwilling)
    rw [← hrest, nil_append, callers_append c.checkpointLsn (pre ++ [x])]
    exact prefix_append ..

end RecoveryRun

def emptyStore (ps : PageSize) : AnsweringStore ps where
  readPage := fun _ _ buf => some (false, buf)
  writePage := fun _ _ _ => true
  allocate := fun _ _ => true
  sync := fun _ => true
  nextPageId := fun _ => 0

theorem emptyStore_willing (ps : PageSize) : (emptyStore ps).Willing :=
  ⟨fun _ _ buf => ⟨buf, rfl⟩, fun _ _ _ => rfl, fun _ _ => rfl⟩

/-- Recovery from some shard files syncs what it has written before it returns `Ok`,
whatever the store is, exactly when the files meet the condition. -/
theorem recovery_syncs_iff (ps : PageSize) (crc : Bytes → UInt32) (files : List Bytes)
    (checkpointLsn : Nat) (applyLogical : List LogicalRecord → LogicalRecord → Bool) :
    (∀ (store : AnsweringStore ps) (readPageLsn : Page ps → Nat),
      let result := recoverWithLogical
        ⟨store, checkpointLsn, readPageLsn, applyLogical⟩ (crcNat crc)
        (files.map (fileEntries (crcNat crc) ps))
      result.2 = true → SyncedAfterWrites result.1.state.calls) ↔
    SyncsOrWritesNothing ps checkpointLsn applyLogical
      (readLog ps (crcNat crc) (files.map (fileEntries (crcNat crc) ps))) := by
  constructor
  · intro h
    by_contra hlog
    obtain ⟨p, next, heq, hended⟩ := recoverWithLogical_ended
      (⟨emptyStore ps, checkpointLsn, Page.lsn, applyLogical⟩ : RecoveryArgs ps) (crcNat crc)
      (files.map (fileEntries (crcNat crc) ps))
    obtain ⟨hok, ⟨pid, page, ok, hmem⟩, hunsynced⟩ := hended.unsynced (emptyStore_willing ps) hlog
    have hsynced := h (emptyStore ps) Page.lsn
    rw [heq] at hsynced
    obtain ⟨pre, post, hcalls⟩ := append_of_mem hmem
    have hsync := hsynced hok pre pid page ok post hcalls
    refine hunsynced true ?_
    rw [hcalls]
    exact mem_append_right _ (mem_cons_of_mem _ hsync)
  intro hlog store readPageLsn result hok
  obtain ⟨p, next, heq, hended⟩ := recoverWithLogical_ended
    ⟨store, checkpointLsn, readPageLsn, applyLogical⟩ (crcNat crc)
      (files.map (fileEntries (crcNat crc) ps))
  have hresult : result = RecoveryRun.finish _ p next := heq
  rw [hresult] at hok ⊢
  exact hended.synced hlog hok

/-- A page image and then the last chunk of a record whose first chunk is not there. -/
def danglingLog : List Slot :=
  [imageSlot .k4 1 7 (replicate PageSize.k4.bytes 0),
    ⟨.logicalChunk 2 5 0 false true 1, padTo PageSize.k4.bytes [9]⟩]

theorem danglingLog_ok : BatchOk .k4 danglingLog := by
  refine ⟨by simp [danglingLog], by decide, fun slot hslot => ?_⟩
  rcases mem_cons.mp hslot with rfl | hslot
  · have hlsn : 1 < u64Limit := by decide
    have hpid : 7 < u64Limit := by decide
    have hpage : (replicate PageSize.k4.bytes (0 : UInt8)).length =
        (⟨.k4, 1, .fdatasync⟩ : Config).pageSize.bytes := length_replicate
    exact (imageSlot_ok hlsn hpid hpage).toSlotOk
  rw [mem_singleton.mp hslot]
  refine ⟨⟨by decide +kernel, by decide, nofun, nofun⟩, by decide, by decide, by decide, ?_⟩
  intro piece hpiece
  simp only [slotPieces, BatchEntry.logicalChunk, mem_singleton] at hpiece
  rw [hpiece]
  rfl

/-- Whatever the checksum, recovery of a file with this batch writes page 7 and returns `Ok`
without a sync. -/
theorem dangling_chunk_unsynced : BatchOk .k4 danglingLog ∧ ∀ crc : Bytes → UInt32,
      let result := recoverWithLogical ⟨emptyStore .k4, 0, Page.lsn, fun _ _ => true⟩ (crcNat crc)
        [fileEntries (crcNat crc) .k4 ([danglingLog].flatMap (finalBatch .k4 (crcNat crc)))]
      result.2 = true ∧ Written result.1.state.calls ∧ ∀ ok, .sync ok ∉ result.1.state.calls := by
  refine ⟨danglingLog_ok, ?_⟩
  intro crc result
  have hok : ∀ slots ∈ [danglingLog], BatchOk .k4 slots := fun slots hslots =>
    mem_singleton.mp hslots ▸ danglingLog_ok
  obtain ⟨p, next, heq, hended⟩ := recoverWithLogical_ended
    (⟨emptyStore .k4, 0, Page.lsn, fun _ _ => true⟩ : RecoveryArgs .k4) (crcNat crc)
    [fileEntries (crcNat crc) .k4 ([danglingLog].flatMap (finalBatch .k4 (crcNat crc)))]
  have hread : readLog .k4 (crcNat crc)
      [fileEntries (crcNat crc) .k4 ([danglingLog].flatMap (finalBatch .k4 (crcNat crc)))] =
      ([.pageImage 1 7 (replicate PageSize.k4.bytes 0)], false) := by
    rw [fileEntries_finalBatches (crcNat_lt crc) hok, readLog_single,
      flatten_singleton, scan_readEntry _ fun slot hslot => (danglingLog_ok.slots slot hslot).wf]
    rfl
  rw [hread] at hended
  have hresult : result = RecoveryRun.finish _ p next := heq
  rw [hresult]
  refine hended.unsynced (emptyStore_willing .k4) ?_
  rintro (⟨hwhole, -⟩ | hnone | hrefused)
  · cases hwhole
  · exact hnone _ mem_cons_self ⟨Nat.one_pos, length_replicate⟩
  · exact hrefused fun _ _ _ _ => rfl

end Pagebox.Wal
