import Pagebox.Wal.Records

/-!
# Overwriting buffered page images

A page image that is still in the active buffer can be overwritten in place
through the handle its append returned (`overwrite_buffered_page_image_with_lsn`
of `wal/src/wal_impl.rs`).  The handle packs the number of the batch's meta page
and the slot into one word.  With large buffers two slots can have the same
handle; what is checked before the overwrite is that the handle names the slot of
an image of the same page.
-/

namespace Pagebox.Wal

open Pagebox.Base List

def encodeRecordOffset (metaPage slotIdx : Nat) : Nat := metaPage <<< 8 ||| slotIdx

def decodeRecordOffset (offset : Nat) : Nat × Nat := (offset >>> 8, offset &&& 0xff)

/-- A handle whose slot number fits names its slot. -/
theorem decode_encodeRecordOffset {m j : Nat} (hj : j < 256) :
    decodeRecordOffset (encodeRecordOffset m j) = (m, j) := by
  have hsum : encodeRecordOffset m j = m * 256 + j := by
    rw [encodeRecordOffset, ← Nat.shiftLeft_add_eq_or_of_lt (by omega), Nat.shiftLeft_eq]
  have hmask : ∀ n : Nat, n &&& 0xff = n % 256 := fun n => Nat.and_two_pow_sub_one_eq_mod n 8
  rw [decodeRecordOffset, hsum, hmask, Nat.shiftRight_eq_div_pow]
  exact Prod.ext (by dsimp only; omega) (by dsimp only; omega)

/-- The pages that batches take in a buffer. -/
def batchPages (batches : List (List Slot)) : Nat :=
  (batches.map fun batch => batch.length + 1).sum

def WalBuffer.lastOffset (b : WalBuffer) : Nat :=
  match b.batches with
  | [] => 0
  | batch :: rest => encodeRecordOffset (batchPages rest) (batch.length - 1)

/-- `batch_meta_count_unchecked`: the record count of a page that starts like a
meta page. -/
def batchMetaCountUnchecked (ps : PageSize) (page : Bytes) : Option Nat :=
  if page.length ≠ ps.bytes then none
  else if leNat (page.take 4) ≠ 0x424D4554 then none
  else if leNat ((page.drop 4).take 2) ≠ 4 then none
  else
    let count := leNat ((page.drop 6).take 2)
    if count = 0 ∨ batchMaxRecords ps < count then none else some count

/-- The batches, newest first, with the slot that `metaPage` and `slotIdx` name
overwritten.  A number that is not that of a meta page lies behind the used part of
the buffer or is the number of a data page, which is refused unless it `misreads`. -/
def overwriteSlot (pid lsn : Nat) (page : Bytes) :
    List (List Slot) → Nat → Nat → Option (List (List Slot))
  | [], _, _ => none
  | batch :: rest, metaPage, slotIdx =>
    if metaPage = batchPages rest then
      if slotIdx < batch.length then
        match batch[batch.length - 1 - slotIdx]? with
        | some slot =>
          if slot.entry.kind = .pageImage ∧ slot.entry.arg = pid then
            some (batch.set (batch.length - 1 - slotIdx)
              ⟨{ slot.entry with lsn, crc := 0 }, page⟩ :: rest)
          else none
        | none => none
      else none
    else if metaPage < batchPages rest then
      (overwriteSlot pid lsn page rest metaPage slotIdx).map (batch :: ·)
    else none

def WalBuffer.overwritePageImage (b : WalBuffer) (epoch offset lsn pid : Nat) (page : Bytes) :
    Option WalBuffer :=
  if b.epoch ≠ epoch then none
  else
    let (metaPage, slotIdx) := decodeRecordOffset offset
    (overwriteSlot pid lsn page b.batches metaPage slotIdx).map fun batches =>
      { b with batches, maxLsn := max b.maxLsn lsn }

/-- The pages of a buffer in order, with their bytes where they are data pages. -/
def WalBuffer.dataPages (b : WalBuffer) : List (Option Bytes) :=
  b.batches.reverse.flatMap fun batch => none :: batch.reverse.map fun slot => some slot.data

/-- The handle names a data page that starts like a meta page. -/
def WalBuffer.misreads (ps : PageSize) (b : WalBuffer) (epoch offset : Nat) : Bool :=
  b.epoch = epoch ∧ (b.dataPages[(decodeRecordOffset offset).1]?.join.any
    fun data => (batchMetaCountUnchecked ps data).isSome)

/-! ## What an overwrite changes -/

section

variable {ps : PageSize} {pid lsn : Nat} {page : Bytes}

/-- The slot `new` stands where an image of the page stood in the list. -/
def Overwrites (pid lsn : Nat) (page : Bytes) (old new : List Slot) : Prop :=
  ∃ (before behind : List Slot) (slot : Slot), old = before ++ slot :: behind ∧
    slot.entry.kind = .pageImage ∧ slot.entry.arg = pid ∧
    new = before ++ ⟨{ slot.entry with lsn, crc := 0 }, page⟩ :: behind

theorem Overwrites.reverse {old new : List Slot} (h : Overwrites pid lsn page old new) :
    Overwrites pid lsn page old.reverse new.reverse := by
  obtain ⟨before, behind, slot, rfl, hkind, harg, rfl⟩ := h
  exact ⟨behind.reverse, before.reverse, slot, by simp, hkind, harg, by simp⟩

theorem overwriteSlot_spec {batches batches' : List (List Slot)} {metaPage slotIdx : Nat}
    (h : overwriteSlot pid lsn page batches metaPage slotIdx = some batches') :
    ∃ (newer older : List (List Slot)) (batch batch' : List Slot),
      batches = newer ++ batch :: older ∧ batches' = newer ++ batch' :: older ∧
        Overwrites pid lsn page batch batch' := by
  induction batches generalizing batches' with
  | nil => cases h
  | cons batch rest ih =>
    unfold overwriteSlot at h
    split at h
    · split at h
      · split at h
        · rename_i slot hslot
          split at h
          · rename_i himage
            cases h
            obtain ⟨hlt, hget⟩ := List.getElem?_eq_some_iff.mp hslot
            refine ⟨[], rest, batch, _, rfl, rfl, batch.take (batch.length - 1 - slotIdx),
              batch.drop (batch.length - 1 - slotIdx + 1), slot, ?_, himage.1, himage.2, ?_⟩
            · rw [← hget, getElem_cons_drop, take_append_drop]
            · exact set_eq_take_append_cons_drop.trans (if_pos hlt)
          · cases h
        · cases h
      · cases h
    · split at h
      · obtain ⟨rest', hrest, rfl⟩ := Option.map_eq_some_iff.mp h
        obtain ⟨newer, older, old, new, rfl, rfl, hover⟩ := ih hrest
        exact ⟨batch :: newer, older, old, new, rfl, rfl, hover⟩
      · cases h

theorem overwritePageImage_cases {b b' : WalBuffer} {epoch offset : Nat}
    (h : b.overwritePageImage epoch offset lsn pid page = some b') :
    ∃ (newer older : List (List Slot)) (batch batch' : List Slot),
      b.batches = newer ++ batch :: older ∧ Overwrites pid lsn page batch batch' ∧
        b' = { b with batches := newer ++ batch' :: older, maxLsn := max b.maxLsn lsn } := by
  unfold WalBuffer.overwritePageImage at h
  split at h
  · cases h
  · obtain ⟨batches, hbatches, rfl⟩ := Option.map_eq_some_iff.mp h
    obtain ⟨newer, older, batch, batch', hold, hnew, hover⟩ := overwriteSlot_spec hbatches
    exact ⟨newer, older, batch, batch', hold, hover, by rw [hnew]⟩

/-- In file order an overwrite replaces one image slot of the page. -/
theorem slots_overwritePageImage {b b' : WalBuffer} {epoch offset : Nat}
    (h : b.overwritePageImage epoch offset lsn pid page = some b') :
    Overwrites pid lsn page b.slots b'.slots := by
  obtain ⟨newer, older, batch, batch', hold, hover, rfl⟩ := overwritePageImage_cases h
  obtain ⟨before, behind, slot, hbatch, hkind, harg, hbatch'⟩ := hover.reverse
  refine ⟨older.reverse.flatMap List.reverse ++ before,
    behind ++ newer.reverse.flatMap List.reverse, slot, ?_, hkind, harg, ?_⟩
  · simp [WalBuffer.slots, hold, hbatch]
  · simp [WalBuffer.slots, hbatch']

theorem slotWf_overwritten {slot : Slot} (h : SlotWf ps slot) (hkind : slot.entry.kind = .pageImage)
    (hpage : page.length = ps.bytes) :
    SlotWf ps ⟨{ slot.entry with lsn, crc := 0 }, page⟩ :=
  ⟨hpage, h.len, h.flags, fun hpacked => by rw [hkind] at hpacked; cases hpacked⟩

/-- An overwrite leaves the buffer well formed; an open packed page is not an
image, so it stays where it is. -/
theorem bufferWf_overwritePageImage {b b' : WalBuffer} {epoch offset : Nat} (hwf : BufferWf ps b)
    (hpage : page.length = ps.bytes)
    (h : b.overwritePageImage epoch offset lsn pid page = some b') : BufferWf ps b' := by
  obtain ⟨before, behind, slot, hold, hkind, -, hnew⟩ := slots_overwritePageImage h
  have hslots : ∀ x ∈ b'.slots, SlotWf ps x := by
    intro x hx
    rw [hnew] at hx
    rcases mem_append.mp hx with hx | hx
    · exact hwf.slots x (hold ▸ mem_append_left _ hx)
    · rcases mem_cons.mp hx with rfl | hx
      · exact slotWf_overwritten (hwf.slots slot (by simp [hold])) hkind hpage
      · exact hwf.slots x (hold ▸ mem_append_right _ (mem_cons_of_mem _ hx))
  obtain ⟨newer, older, batch, batch', hbatches, hover, rfl⟩ := overwritePageImage_cases h
  refine ⟨hslots, fun _ => by simp, ?_⟩
  intro packed hpacked
  obtain ⟨top, topBatch, rest, hshape, htop, hlen⟩ := hwf.packed packed hpacked
  rw [hbatches] at hshape
  cases newer with
  | cons first newer =>
    rw [cons_append, List.cons.injEq] at hshape
    exact ⟨top, topBatch, newer ++ batch' :: older, by rw [← hshape.1]; rfl, htop, hlen⟩
  | nil =>
    rw [nil_append, List.cons.injEq] at hshape
    obtain ⟨before, behind, slot, hbatch, hkind, -, hbatch'⟩ := hover
    cases before with
    | nil =>
      rw [nil_append, hshape.1, List.cons.injEq] at hbatch
      rw [← hbatch.1, htop] at hkind
      cases hkind
    | cons first before =>
      rw [cons_append, hshape.1, List.cons.injEq] at hbatch
      refine ⟨top, before ++ ⟨{ slot.entry with lsn, crc := 0 }, page⟩ :: behind, older, ?_,
        htop, hlen⟩
      rw [nil_append, hbatch', ← hbatch.1]
      rfl

/-- In the log an overwrite replaces one image of the page. -/
theorem pieces_overwritePageImage {b b' : WalBuffer} {epoch offset : Nat}
    (h : b.overwritePageImage epoch offset lsn pid page = some b') :
    ∃ (before behind : List Piece) (oldLsn : Nat) (old : Bytes),
      b.slots.flatMap slotPieces = before ++ .image oldLsn pid old :: behind ∧
        b'.slots.flatMap slotPieces = before ++ .image lsn pid page :: behind := by
  obtain ⟨before, behind, slot, hold, hkind, harg, hnew⟩ := slots_overwritePageImage h
  refine ⟨before.flatMap slotPieces, behind.flatMap slotPieces, slot.entry.lsn, slot.data, ?_, ?_⟩
  · rw [hold]
    simp [slotPieces, hkind, harg]
  · rw [hnew]
    simp [slotPieces, hkind, harg]

/-- A page that starts with a number below `2 ^ 48` has a zero where a meta page has its
record count. -/
theorem data_not_meta {data : Bytes} {n : Nat} (hn : n < 2 ^ 48)
    (hdata : data.take 8 = leBytes 8 n) : batchMetaCountUnchecked ps data = none := by
  have hcount : (data.drop 6).take 2 = leBytes 2 (n / 2 ^ 48) := by
    have hdrop : (data.drop 6).take 2 = (data.take 8).drop 6 := by rw [drop_take]
    rw [hdrop, hdata]
    simp only [leBytes, drop_succ_cons, drop_zero, Nat.div_div_eq_div_mul]
    norm_num
  have hzero : leNat ((data.drop 6).take 2) = 0 := by
    rw [hcount, Nat.div_eq_of_lt hn]
    rfl
  simp [batchMetaCountUnchecked, hzero]

end

end Pagebox.Wal
