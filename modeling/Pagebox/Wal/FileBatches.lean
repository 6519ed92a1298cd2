import Pagebox.Wal.PageLog

/-!
# The batches of a shard file

A crash keeps the file of a shard up to the end of some batch.  Appending and
overwriting in the batch that was begun last only change what the longest of
these prefixes holds.
-/

namespace Pagebox.Wal

open Pagebox.Base List

def Shard.fileBatches (sh : Shard) : List (List Slot) :=
  (sh.sealedBuffers.flatMap (·.batches.reverse) ++ sh.active.batches.reverse).map List.reverse

def batchPieces (batches : List (List Slot)) : List Piece := batches.flatten.flatMap slotPieces

theorem Shard.flatten_fileBatches (sh : Shard) : sh.fileBatches.flatten = sh.log := by
  rw [Shard.fileBatches, ← flatMap_def, flatMap_append, flatMap_assoc]
  rfl

theorem batchPieces_fileBatches (sh : Shard) : batchPieces sh.fileBatches = sh.pieces := by
  rw [batchPieces, Shard.flatten_fileBatches, Shard.pieces]

theorem batchPieces_mono {kept batches : List (List Slot)} (h : kept <+: batches) :
    batchPieces kept <+: batchPieces batches := by
  obtain ⟨rest, rfl⟩ := h
  rw [batchPieces, batchPieces, flatten_append, flatMap_append]
  exact prefix_append _ _

/-- Every batch but the last one of `new` was there before, in the same place. -/
def LastOnly (old new : List (List Slot)) : Prop :=
  ∃ init last, new = init ++ [last] ∧ init <+: old

/-- A prefix of the new file is a prefix of the old one, or all of it. -/
theorem LastOnly.cut {old new kept : List (List Slot)} (h : LastOnly old new)
    (hkept : kept <+: new) : kept <+: old ∨ kept = new := by
  obtain ⟨init, last, rfl, hinit⟩ := h
  rcases prefix_concat_iff.mp hkept with heq | hpre
  · exact .inr heq
  · exact .inl (hpre.trans hinit)

section Batches

variable {cfg : Config} {sh sh' : Shard}

theorem fileBatches_of_active {active : WalBuffer} {batch batch' : List Slot}
    {rest : List (List Slot)} (hold : rest = sh.active.batches ∨ batch :: rest = sh.active.batches)
    (hnew : active.batches = batch' :: rest) :
    LastOnly sh.fileBatches ({ sh with active } : Shard).fileBatches := by
  refine ⟨(sh.sealedBuffers.flatMap (·.batches.reverse) ++ rest.reverse).map List.reverse,
    batch'.reverse, ?_, ?_⟩
  · simp [Shard.fileBatches, hnew]
  rcases hold with hold | hold
  · rw [hold]
    exact prefix_refl _
  · rw [Shard.fileBatches, ← hold]
    refine ⟨[batch.reverse], ?_⟩
    simp

theorem fileBatches_sealActive (h : sh.sealActive = some sh') :
    sh'.fileBatches = sh.fileBatches := by
  rcases sealActive_cases h with ⟨-, rfl⟩ | ⟨-, rfl⟩
  · rfl
  · simp [Shard.fileBatches, WalBuffer.reset]

theorem lastOnly_push (hwf : BufferWf cfg.pageSize sh.active) (slot : Slot) :
    LastOnly sh.fileBatches (sh.push cfg slot).fileBatches := by
  have hpush : ∃ batch rest, (rest = sh.active.batches ∨ batch :: rest = sh.active.batches) ∧
      (sh.active.pushSlot cfg.pageSize slot).batches = (slot :: batch) :: rest := by
    unfold WalBuffer.pushSlot WalBuffer.openBatchIfNeeded
    by_cases hneeds : sh.active.needsNewBatch cfg.pageSize = true
    · rw [if_pos hneeds]
      exact ⟨[], sh.active.batches, .inl rfl, rfl⟩
    rw [if_neg hneeds]
    have hopen : sh.active.openBatch = true := by
      simp [WalBuffer.needsNewBatch] at hneeds
      exact hneeds.1
    obtain ⟨batch, rest, hbatches⟩ := exists_cons_of_ne_nil (hwf.batch hopen)
    refine ⟨batch, rest, .inr hbatches.symm, ?_⟩
    simp [WalBuffer.finishSlot, hbatches]
  obtain ⟨batch, rest, hold, hnew⟩ := hpush
  exact fileBatches_of_active hold hnew

/-- A record that fills one slot changes the last batch only. -/
theorem lastOnly_appendSlots {slot : Slot} (hwf : ShardWf cfg.pageSize sh)
    (happ : sh.appendSlots cfg false [slot] = some (sh', [])) :
    LastOnly sh.fileBatches sh'.fileBatches := by
  simp only [Shard.appendSlots, Bool.false_eq_true, false_or, if_false] at happ
  have hclear : sh.clearPacked.fileBatches = sh.fileBatches := rfl
  split at happ
  · split at happ
    · cases happ
    · obtain ⟨sh₁, hseal, hpush⟩ := Option.bind_eq_some_iff.mp happ
      cases hpush
      rw [← hclear, ← fileBatches_sealActive hseal]
      exact lastOnly_push (hwf.clearPacked.sealActive hseal).active slot
  · cases happ
    exact lastOnly_push hwf.clearPacked.active slot

theorem lastOnly_join {active : WalBuffer} {r : LogicalRecord}
    (hjoin : sh.active.tryAppendPackedLogical cfg.pageSize r = some active) :
    LastOnly sh.fileBatches ({ sh with active } : Shard).fileBatches := by
  unfold WalBuffer.tryAppendPackedLogical at hjoin
  split at hjoin
  · rename_i packed slot batch rest hpacked hbatches
    simp only at hjoin
    split at hjoin
    · cases hjoin
    · cases hjoin
      exact fileBatches_of_active (.inr hbatches.symm) rfl
  · cases hjoin

theorem lastOnly_beginAppend {lsn : Nat} {p : Payload} {slot : Slot}
    (hwf : ShardWf cfg.pageSize sh) (hslots : p.slots cfg.pageSize lsn = [slot])
    (happ : sh.beginAppend cfg lsn p = some (sh', [])) :
    LastOnly sh.fileBatches sh'.fileBatches := by
  unfold Shard.beginAppend at happ
  rw [hslots] at happ
  split at happ
  · split at happ
    · rename_i active hjoin
      cases happ
      exact lastOnly_join hjoin
    · exact lastOnly_appendSlots hwf happ
  · exact lastOnly_appendSlots hwf happ

def WalBuffer.lastMetaPage (b : WalBuffer) : Nat := batchPages b.batches.tail

theorem lastOnly_overwrite {active : WalBuffer} {epoch offset lsn pid : Nat} {page : Bytes}
    (hlast : (decodeRecordOffset offset).1 = sh.active.lastMetaPage)
    (hover : sh.active.overwritePageImage epoch offset lsn pid page = some active) :
    LastOnly sh.fileBatches ({ sh with active } : Shard).fileBatches := by
  unfold WalBuffer.overwritePageImage at hover
  split at hover
  · cases hover
  obtain ⟨batches, hbatches, rfl⟩ := Option.map_eq_some_iff.mp hover
  unfold WalBuffer.lastMetaPage at hlast
  cases hold : sh.active.batches with
  | nil =>
    rw [hold] at hbatches
    cases hbatches
  | cons batch rest =>
    have hmeta : offset >>> 8 = batchPages rest := by
      rw [hold, tail_cons] at hlast
      exact hlast
    rw [hold, overwriteSlot, if_pos hmeta] at hbatches
    have hshape : ∃ batch', batches = batch' :: rest := by
      split at hbatches
      · split at hbatches
        · split at hbatches
          · cases hbatches
            exact ⟨_, rfl⟩
          · cases hbatches
        · cases hbatches
      · cases hbatches
    obtain ⟨batch', rfl⟩ := hshape
    exact fileBatches_of_active (.inr hold.symm) rfl

theorem syncOldest_batches {bs bs' : List SealedBuffer} {maxLsn : Nat}
    (h : syncOldest bs = some (bs', maxLsn)) :
    bs'.flatMap (·.batches.reverse) = bs.flatMap (·.batches.reverse) := by
  induction bs generalizing bs' with
  | nil => cases h
  | cons b bs ih =>
    unfold syncOldest at h
    split at h
    · obtain ⟨⟨rest, lsn⟩, hrest, heq⟩ := Option.map_eq_some_iff.mp h
      cases heq
      rw [flatMap_cons, flatMap_cons, ih hrest]
    · cases h
      rfl

theorem fileBatches_writeAndSync (h : sh.writeAndSync = some sh') :
    sh'.fileBatches = sh.fileBatches := by
  obtain ⟨⟨bs, maxLsn⟩, hsync, rfl⟩ := Option.map_eq_some_iff.mp h
  simp only [Shard.fileBatches, syncOldest_batches hsync]

end Batches

end Pagebox.Wal
