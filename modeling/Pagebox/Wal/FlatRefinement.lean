import Pagebox.Wal.FlatBuffer

/-!
# Changing a slot of a flat buffer

Joining a packed page and overwriting a page image rewrite one slot of the buffer:
its entry in the meta page of its batch and a part of its data page.  Both are
matched by replacing the slot in the batches.  At the end the checksums are filled
in, which gives the batches as they stand in the file.
-/

namespace Pagebox.Wal

open Pagebox.Base List

section Bytes

variable {ps : PageSize} {older newer : List (List Slot)} {before behind : List Slot}
  {rest metaBytes data : Bytes}

theorem bufferBytes_append (newer older : List (List Slot)) :
    bufferBytes ps (newer ++ older) = bufferBytes ps older ++ bufferBytes ps newer := by
  simp [bufferBytes]

def slotBytes (ps : PageSize) (older newer : List (List Slot)) (before behind : List Slot)
    (rest metaBytes data : Bytes) : Bytes :=
  bufferBytes ps older ++ (metaBytes ++ (before.flatMap Slot.data ++ (data ++
    (behind.flatMap Slot.data ++ (bufferBytes ps newer ++ rest)))))

theorem bufferBytes_slot (slot : Slot) :
    bufferBytes ps (newer ++ (before ++ slot :: behind).reverse :: older) ++ rest =
      slotBytes ps older newer before behind rest
        (metaPage ps 0 ((before ++ slot :: behind).map Slot.entry)) slot.data := by
  rw [bufferBytes_append, bufferBytes_cons, reverse_reverse, bufferBatch, slotBytes]
  simp only [flatMap_append, flatMap_cons, append_assoc]

theorem meta_slotBytes (holder : ∀ x ∈ older, BatchOk ps x.reverse)
    (hmeta : metaBytes.length = ps.bytes) :
    ((slotBytes ps older newer before behind rest metaBytes data).drop
      (batchPages older * ps.bytes)).take ps.bytes = metaBytes :=
  drop_take_middle (length_bufferBytes holder) hmeta

theorem writeAt_meta_slotBytes (holder : ∀ x ∈ older, BatchOk ps x.reverse) {new : Bytes}
    (hlen : metaBytes.length = new.length) :
    writeAt (slotBytes ps older newer before behind rest metaBytes data)
        (batchPages older * ps.bytes) new =
      slotBytes ps older newer before behind rest new data :=
  writeAt_middle (length_bufferBytes holder) hlen

theorem writeAt_data_slotBytes (holder : ∀ x ∈ older, BatchOk ps x.reverse)
    (hbefore : ∀ x ∈ before, x.data.length = ps.bytes) (hmeta : metaBytes.length = ps.bytes)
    {offset : Nat} {new : Bytes} (hin : offset + new.length ≤ data.length) :
    writeAt (slotBytes ps older newer before behind rest metaBytes data)
        (batchPages older * ps.bytes + ps.bytes * (before.length + 1) + offset) new =
      slotBytes ps older newer before behind rest metaBytes (writeAt data offset new) := by
  have hassoc : ∀ part : Bytes, slotBytes ps older newer before behind rest metaBytes part =
      (bufferBytes ps older ++ metaBytes ++ before.flatMap Slot.data) ++ (part ++
        (behind.flatMap Slot.data ++ (bufferBytes ps newer ++ rest))) := by
    intro part
    simp only [slotBytes, append_assoc]
  rw [hassoc, hassoc, writeAt_inside ?_ hin]
  rw [length_append, length_append, length_bufferBytes holder, hmeta,
    length_flatMap_data hbefore, Nat.mul_succ, Nat.mul_comm ps.bytes]
  omega

end Bytes

/-! ## Replacing a slot -/

section Replace

variable {cfg : Config} {fb : FlatBuffer} {b : WalBuffer} {older newer : List (List Slot)}
  {before behind : List Slot} {slot slot' : Slot}

def WalBuffer.withBatches (b : WalBuffer) (batches : List (List Slot)) (maxLsn : Nat)
    (packedLogical : Option PackedLogicalSlot) : WalBuffer :=
  { b with batches, maxLsn, packedLogical }

theorem batchPages_append (newer older : List (List Slot)) :
    batchPages (newer ++ older) = batchPages newer + batchPages older := by
  simp [batchPages]

theorem batchPages_cons (batch : List Slot) (older : List (List Slot)) :
    batchPages (batch :: older) = batch.length + 1 + batchPages older := by
  simp [batchPages]

theorem length_le_batchPages (batches : List (List Slot)) :
    batches.length ≤ batchPages batches := by
  induction batches with
  | nil => exact Nat.zero_le _
  | cons batch batches ih =>
    rw [batchPages_cons, length_cons]
    omega

theorem batchPages_eq_sum (batches : List (List Slot)) :
    batchPages batches = ((batches.map List.length).map (· + 1)).sum := by
  rw [batchPages, map_map]
  rfl

theorem batchPages_congr {batches batches' : List (List Slot)}
    (h : batches.map List.length = batches'.map List.length) :
    batchPages batches = batchPages batches' := by
  rw [batchPages_eq_sum, batchPages_eq_sum, h]

theorem batchPages_tail_congr {batches batches' : List (List Slot)}
    (h : batches.map List.length = batches'.map List.length) :
    batchPages batches.tail = batchPages batches'.tail := by
  refine batchPages_congr ?_
  rw [map_tail, map_tail, h]

theorem length_headD_congr {batches batches' : List (List Slot)}
    (h : batches.map List.length = batches'.map List.length) :
    (batches.headD []).length = (batches'.headD []).length := by
  cases batches with
  | nil =>
    cases batches' with
    | nil => rfl
    | cons _ _ => cases h
  | cons _ _ =>
    cases batches' with
    | nil => cases h
    | cons _ _ =>
      rw [map_cons, map_cons, List.cons.injEq] at h
      exact h.1

theorem openBatchCount_eq (b : WalBuffer) :
    b.openBatchCount = if b.openBatch then (b.batches.headD []).length else 0 := by
  rw [WalBuffer.openBatchCount]
  cases b.openBatch <;> cases b.batches <;> rfl

/-- Batches of the same shape keep the other parts of the encoding. -/
theorem Encodes.withBatches (h : Encodes cfg fb b) (hok : BufferOk cfg.pageSize b)
    {batches : List (List Slot)} (hshape : b.batches.map List.length = batches.map List.length)
    (hbatches : ∀ batch ∈ batches, BatchOk cfg.pageSize batch.reverse) {bytes rest : Bytes}
    (hbytes : bytes = bufferBytes cfg.pageSize batches ++ rest)
    (hsize : bytes.length = fb.bytes.length)
    (maxLsn : Nat) (flat : Option FlatPacked) (packed : Option PackedLogicalSlot)
    (hpacked : match flat, packed with
      | none, none => True
      | some f, some p => f.metaStart = batchPages batches.tail * cfg.pageSize.bytes ∧
          f.slotIdx + 1 = (batches.headD []).length ∧
          f.dataStart + cfg.pageSize.bytes = p.dataEnd ∧ f.len = p.len ∧ f.maxLsn = p.maxLsn
      | _, _ => False) :
    Encodes cfg { fb with bytes, maxLsn, packedLogical := flat }
      (b.withBatches batches maxLsn packed) where
  size := hsize.trans h.size
  bytes := ⟨rest, hbytes⟩
  used := by
    have hused := h.used
    rw [length_bufferBytes hok.batches, batchPages_congr hshape] at hused
    exact hused.trans (length_bufferBytes hbatches).symm
  epoch := h.epoch
  maxLsn := rfl
  openMeta := by
    have hmeta := h.openMeta
    rw [batchPages_tail_congr hshape] at hmeta
    exact hmeta
  openCount := by
    have hcount := h.openCount
    rw [openBatchCount_eq, length_headD_congr hshape] at hcount
    rw [openBatchCount_eq]
    exact hcount
  packed := hpacked

theorem BufferOk.withBatches (hok : BufferOk cfg.pageSize b) {batches : List (List Slot)}
    (hshape : b.batches.map List.length = batches.map List.length)
    (hbatches : ∀ batch ∈ batches, BatchOk cfg.pageSize batch.reverse)
    (hattained : ∀ batch ∈ batches, ∀ slot ∈ batch, slot.Attained) (maxLsn : Nat)
    (packed : Option PackedLogicalSlot)
    (hpacked : ∀ p, packed = some p → ∃ slot batch rest, batches = (slot :: batch) :: rest ∧
      slot.entry.kind = .logicalPacked ∧ slot.entry.len = p.len ∧ slot.entry.lsn = p.maxLsn) :
    BufferOk cfg.pageSize (b.withBatches batches maxLsn packed) where
  wf :=
    { slots := by
        intro slot hslot
        obtain ⟨batch, hbatch, hmem⟩ := mem_flatMap.mp hslot
        exact ((hbatches batch (mem_reverse.mp hbatch)).slots slot hmem).wf
      batch := by
        rintro hopen (rfl : batches = [])
        rw [map_nil, map_eq_nil_iff] at hshape
        exact hok.wf.batch hopen hshape
      packed := by
        intro p hp
        obtain ⟨slot, batch, rest, hb, hkind, hlen, -⟩ := hpacked p hp
        exact ⟨slot, batch, rest, hb, hkind, hlen⟩ }
  batches := hbatches
  attained := hattained
  openRoom := by
    rintro batch rest hopen (rfl : batches = batch :: rest)
    cases hold : b.batches with
    | nil =>
      rw [hold] at hshape
      cases hshape
    | cons old older =>
      rw [hold, map_cons, map_cons, List.cons.injEq] at hshape
      rw [← hshape.1]
      exact hok.openRoom old older hopen hold
  packedLsn := by
    rintro p slot batch rest hp (hb : batches = _)
    obtain ⟨slot', batch', rest', hb', -, -, hlsn⟩ := hpacked p hp
    rw [hb, List.cons.injEq, List.cons.injEq] at hb'
    rw [hb'.1.1]
    exact hlsn

theorem batchOk_replace (hold : BatchOk cfg.pageSize (before ++ slot :: behind))
    (hslot : SlotOk cfg.pageSize slot') : BatchOk cfg.pageSize (before ++ slot' :: behind) := by
  refine ⟨by simp, ?_, ?_⟩
  · have hle := hold.le
    simpa using hle
  intro x hx
  rcases mem_append.mp hx with hx | hx
  · exact hold.slots x (mem_append_left _ hx)
  · rcases mem_cons.mp hx with rfl | hx
    · exact hslot
    · exact hold.slots x (mem_append_right _ (mem_cons_of_mem _ hx))

theorem batchesOk_replace
    (hold : ∀ x ∈ newer ++ (before ++ slot :: behind).reverse :: older,
    BatchOk cfg.pageSize x.reverse) (hslot : SlotOk cfg.pageSize slot') :
    ∀ x ∈ newer ++ (before ++ slot' :: behind).reverse :: older,
      BatchOk cfg.pageSize x.reverse := by
  intro x hx
  rcases mem_append.mp hx with hx | hx
  · exact hold x (mem_append_left _ hx)
  · rcases mem_cons.mp hx with rfl | hx
    · have hbatch := hold _ (mem_append_right newer mem_cons_self)
      rw [reverse_reverse] at hbatch ⊢
      exact batchOk_replace hbatch hslot
    · exact hold x (mem_append_right _ (mem_cons_of_mem _ hx))

theorem attained_replace
    (hold : ∀ x ∈ newer ++ (before ++ slot :: behind).reverse :: older, ∀ y ∈ x, y.Attained)
    (hslot : slot'.Attained) :
    ∀ x ∈ newer ++ (before ++ slot' :: behind).reverse :: older, ∀ y ∈ x, y.Attained := by
  simp only [forall_mem_append, forall_mem_cons, mem_reverse] at hold ⊢
  exact ⟨hold.1, ⟨hold.2.1.1, hslot, hold.2.1.2.2⟩, hold.2.2⟩

theorem shape_replace (newer older : List (List Slot)) (before behind : List Slot)
    (slot slot' : Slot) : (newer ++ (before ++ slot :: behind).reverse :: older).map List.length =
      (newer ++ (before ++ slot' :: behind).reverse :: older).map List.length := by
  simp

/-! ## Overwriting a page image -/

def Slot.overwritten (slot : Slot) (lsn : Nat) (page : Bytes) : Slot :=
  ⟨{ slot.entry with lsn, crc := 0 }, page⟩

theorem slotOk_overwritten {lsn : Nat} {page : Bytes} (h : SlotOk cfg.pageSize slot)
    (hkind : slot.entry.kind = .pageImage) (hlsn : lsn < 2 ^ 64)
    (hpage : page.length = cfg.pageSize.bytes) : SlotOk cfg.pageSize (slot.overwritten lsn page) :=
  ⟨slotWf_overwritten h.wf hkind hpage, hlsn, h.arg, Nat.two_pow_pos 32, by
    simp [slotPieces, Slot.overwritten, hkind, Piece.lsn]⟩

theorem SlotOk.fits {ps : PageSize} {slot : Slot} (h : SlotOk ps slot) : slot.entry.Fits := by
  have hle := PageSize.bytes_le ps
  have hlen := h.wf.len
  exact ⟨h.lsn, h.arg, h.crc, by omega⟩

theorem overwrite_metaPage (ps : PageSize) (before behind : List Slot) (slot : Slot) (lsn : Nat)
    (page : Bytes) :
    overwriteBatchEntryCrc (overwriteBatchEntryLsn
        (metaPage ps 0 ((before ++ slot :: behind).map Slot.entry)) before.length lsn)
        before.length 0 =
      metaPage ps 0 ((before ++ slot.overwritten lsn page :: behind).map Slot.entry) := by
  have hi : before.length < ((before ++ slot :: behind).map Slot.entry).length := by simp
  rw [overwriteBatchEntryLsn_metaPage ps 0 hi,
    overwriteBatchEntryCrc_metaPage ps 0 (by rwa [length_set])]
  congr 1
  simp [Slot.overwritten]

theorem meta_flat (h : Encodes cfg fb b) (hok : BufferOk cfg.pageSize b)
    (hb : b.batches = newer ++ (before ++ slot :: behind).reverse :: older) :
    let es := (before ++ slot :: behind).map Slot.entry
    fb.page cfg.pageSize (batchPages older * cfg.pageSize.bytes) = metaPage cfg.pageSize 0 es ∧
      batchMetaCountUnchecked cfg.pageSize (metaPage cfg.pageSize 0 es) = some es.length ∧
      readBatchEntry (metaPage cfg.pageSize 0 es) before.length = slot.entry.raw := by
  intro es
  have hbatches := hok.batches
  rw [hb] at hbatches
  have holder : ∀ x ∈ older, BatchOk cfg.pageSize x.reverse := fun x hx =>
    hbatches x (mem_append_right _ (mem_cons_of_mem _ hx))
  have hbatch := hbatches _ (mem_append_right newer mem_cons_self)
  rw [reverse_reverse] at hbatch
  have hlen : es.length ≤ batchMaxRecords cfg.pageSize := by
    rw [length_map]
    exact hbatch.le
  have hi : before.length < es.length := by simp [es]
  have hget : es[before.length] = slot.entry := by simp [es]
  refine ⟨?_, batchMetaCountUnchecked_metaPage 0 (ne_nil_of_length_pos (by omega)) hlen, ?_⟩
  · obtain ⟨rest, hrest⟩ := h.bytes
    rw [FlatBuffer.page, hrest, hb, bufferBytes_slot,
      meta_slotBytes holder (length_metaPage 0 hlen)]
  · rw [readBatchEntry_metaPage cfg.pageSize 0 hi
      (by rw [hget]; exact (hbatch.slots slot (by simp)).fits), hget]

/-- An overwrite through the number of a slot rewrites that slot, if it holds an
image of the page and its buffer is still active. -/
theorem overwritePageImage_flat (h : Encodes cfg fb b) (hok : BufferOk cfg.pageSize b)
    (hb : b.batches = newer ++ (before ++ slot :: behind).reverse :: older) {offset : Nat}
    (epoch lsn pid : Nat) {page : Bytes}
    (hdecode : decodeRecordOffset offset = (batchPages older, before.length))
    (hpage : page.length = cfg.pageSize.bytes) :
    ∃ rest, fb.bytes = bufferBytes cfg.pageSize b.batches ++ rest ∧
      fb.overwritePageImage cfg.pageSize epoch offset lsn pid page =
        if b.epoch = epoch ∧ slot.entry.kind = .pageImage ∧ slot.entry.arg = pid then
          .done { fb with
            bytes := bufferBytes cfg.pageSize (newer ++
              (before ++ slot.overwritten lsn page :: behind).reverse :: older) ++ rest
            maxLsn := max fb.maxLsn lsn }
        else .refused := by
  have hbatches := hok.batches
  rw [hb] at hbatches
  have holder : ∀ x ∈ older, BatchOk cfg.pageSize x.reverse := fun x hx =>
    hbatches x (mem_append_right _ (mem_cons_of_mem _ hx))
  have hbatch := hbatches _ (mem_append_right newer mem_cons_self)
  rw [reverse_reverse] at hbatch
  have hslot := hbatch.slots slot (by simp)
  set es := (before ++ slot :: behind).map Slot.entry with hes
  have hlenEs : es.length = (before ++ slot :: behind).length := length_map _
  have hi : before.length < es.length := by simp [hes]
  have hmetaLen : (metaPage cfg.pageSize 0 es).length = cfg.pageSize.bytes :=
    length_metaPage 0 (by rw [hlenEs]; exact hbatch.le)
  obtain ⟨hmeta, hcount, hentry⟩ := meta_flat h hok hb
  rw [← hes] at hmeta hcount hentry
  obtain ⟨rest, hrest⟩ := h.bytes
  refine ⟨rest, hrest, ?_⟩
  rw [hb, bufferBytes_slot, ← hes] at hrest
  have hpages : batchPages b.batches = batchPages newer +
      ((before ++ slot :: behind).reverse.length + 1 + batchPages older) := by
    rw [hb, batchPages_append, batchPages_cons]
  have hused : ¬fb.used < batchPages older * cfg.pageSize.bytes + cfg.pageSize.bytes := by
    have heq := h.used
    rw [length_bufferBytes hok.batches, hpages] at heq
    have hle : (batchPages older + 1) * cfg.pageSize.bytes ≤ fb.used := by
      rw [heq]
      exact Nat.mul_le_mul_right _ (by omega)
    rw [Nat.succ_mul] at hle
    omega
  have hbeforeData : ∀ x ∈ before, x.data.length = cfg.pageSize.bytes := fun x hx =>
    (hbatch.slots x (mem_append_left _ hx)).wf.size
  have hroom : ¬fb.bytes.length < batchPages older * cfg.pageSize.bytes +
      cfg.pageSize.bytes * (before.length + 1) + cfg.pageSize.bytes := by
    rw [hrest, slotBytes]
    simp only [length_append, length_bufferBytes holder, hmetaLen, hslot.wf.size,
      length_flatMap_data hbeforeData, Nat.mul_succ, Nat.mul_comm cfg.pageSize.bytes before.length]
    omega
  have hnewMeta := overwrite_metaPage cfg.pageSize before behind slot lsn page
  rw [← hes] at hnewMeta
  have hnewLen : (metaPage cfg.pageSize 0
      ((before ++ slot.overwritten lsn page :: behind).map Slot.entry)).length =
        cfg.pageSize.bytes :=
    length_metaPage 0 (by have hle := hbatch.le; simpa using hle)
  have hwhole : writeAt slot.data 0 page = page := by
    rw [writeAt, take_zero, nil_append, Nat.zero_add,
      drop_of_length_le (by rw [hpage, hslot.wf.size]), append_nil]
  have hkind : slot.entry.raw.kind = 1 ↔ slot.entry.kind = .pageImage := by
    show slot.entry.kind.code = 1 ↔ _
    cases slot.entry.kind <;> simp [RecordKind.code]
  have harg : slot.entry.raw.arg = slot.entry.arg := rfl
  rw [FlatBuffer.overwritePageImage, hdecode]
  simp only [hmeta, hcount, hentry, h.epoch, harg]
  by_cases hepoch : b.epoch = epoch
  · have hactive : ¬(b.epoch ≠ epoch ∨
        fb.used < batchPages older * cfg.pageSize.bytes + cfg.pageSize.bytes) :=
      not_or.mpr ⟨not_not.mpr hepoch, hused⟩
    rw [if_neg hactive]
    by_cases himage : slot.entry.kind = .pageImage ∧ slot.entry.arg = pid
    · have hfound : ¬(es.length ≤ before.length ∨ slot.entry.raw.kind ≠ 1 ∨
          slot.entry.arg ≠ pid) := by
        rw [hkind.mpr himage.1, himage.2]
        simpa using hi
      rw [if_neg hfound, if_neg hroom, if_pos ⟨hepoch, himage⟩]
      simp only [FlatBuffer.setBytes, hrest, hnewMeta]
      rw [writeAt_meta_slotBytes holder (by rw [hmetaLen, hnewLen]),
        ← Nat.add_zero (_ + cfg.pageSize.bytes * (before.length + 1)),
        writeAt_data_slotBytes holder hbeforeData hnewLen
          (by rw [hpage, hslot.wf.size, Nat.zero_add]),
        hwhole, bufferBytes_slot, h.epoch]
      rfl
    · have hother : es.length ≤ before.length ∨ slot.entry.raw.kind ≠ 1 ∨ slot.entry.arg ≠ pid := by
        by_cases hk : slot.entry.kind = .pageImage
        · exact .inr (.inr fun ha => himage ⟨hk, ha⟩)
        · exact .inr (.inl fun h1 => hk (hkind.mp h1))
      rw [if_pos hother, if_neg fun hall => himage hall.2]
  · rw [if_pos (Or.inl hepoch), if_neg fun hall => hepoch hall.1]

/-- The open packed page is not an image, so it stays the slot written last. -/
theorem packed_overwritten (hok : BufferOk cfg.pageSize b)
    (hb : b.batches = newer ++ (before ++ slot :: behind).reverse :: older)
    (hkind : slot.entry.kind = .pageImage) (lsn : Nat) (page : Bytes) :
    ∀ p, b.packedLogical = some p → ∃ top batch rest,
      newer ++ (before ++ slot.overwritten lsn page :: behind).reverse :: older =
        (top :: batch) :: rest ∧ top.entry.kind = .logicalPacked ∧ top.entry.len = p.len ∧
          top.entry.lsn = p.maxLsn := by
  intro p hp
  obtain ⟨top, batch, rest, hshape, htop, hlen⟩ := hok.wf.packed p hp
  have hlsn := hok.packedLsn p top batch rest hp hshape
  rw [hb] at hshape
  cases newer with
  | cons first newer =>
    rw [cons_append, List.cons.injEq] at hshape
    exact ⟨top, batch, _, by rw [cons_append, hshape.1], htop, hlen, hlsn⟩
  | nil =>
    rw [nil_append, List.cons.injEq] at hshape
    rcases eq_nil_or_concat behind with rfl | ⟨init, last, rfl⟩
    · have hslot : slot = top := by
        have hhead := hshape.1
        simp only [reverse_append, reverse_cons, reverse_nil, nil_append,
          cons_append, List.cons.injEq] at hhead
        exact hhead.1
      rw [hslot, htop] at hkind
      cases hkind
    have hlast : last = top := by
      have hhead := hshape.1
      simp only [concat_eq_append, reverse_append, reverse_cons, reverse_nil,
        nil_append, cons_append, append_assoc, List.cons.injEq] at hhead
      exact hhead.1
    subst hlast
    exact ⟨last, init.reverse ++ slot.overwritten lsn page :: before.reverse, older, by simp, htop,
      hlen, hlsn⟩

theorem encodes_overwritten (h : Encodes cfg fb b) (hok : BufferOk cfg.pageSize b)
    (hb : b.batches = newer ++ (before ++ slot :: behind).reverse :: older) {lsn : Nat}
    {page rest : Bytes} (hrest : fb.bytes = bufferBytes cfg.pageSize b.batches ++ rest)
    (hkind : slot.entry.kind = .pageImage) (hlsn : lsn < 2 ^ 64)
    (hpage : page.length = cfg.pageSize.bytes) :
    let batches := newer ++ (before ++ slot.overwritten lsn page :: behind).reverse :: older
    Encodes cfg { fb with
        bytes := bufferBytes cfg.pageSize batches ++ rest
        maxLsn := max fb.maxLsn lsn }
      (b.withBatches batches (max b.maxLsn lsn) b.packedLogical) ∧
    BufferOk cfg.pageSize (b.withBatches batches (max b.maxLsn lsn) b.packedLogical) := by
  intro batches
  have hold := hok.batches
  rw [hb] at hold
  have hslot : SlotOk cfg.pageSize slot := by
    have hbatch := hold _ (mem_append_right newer mem_cons_self)
    exact hbatch.slots slot (by simp)
  have hbatches : ∀ x ∈ batches, BatchOk cfg.pageSize x.reverse :=
    batchesOk_replace hold (slotOk_overwritten hslot hkind hlsn hpage)
  have hshape : b.batches.map List.length = batches.map List.length := by
    rw [hb]
    exact shape_replace newer older before behind slot _
  have hsize : (bufferBytes cfg.pageSize batches ++ rest).length = fb.bytes.length := by
    rw [hrest, length_append, length_append, length_bufferBytes hbatches,
      length_bufferBytes hok.batches, batchPages_congr hshape]
  have hattained : ∀ x ∈ batches, ∀ y ∈ x, y.Attained :=
    attained_replace (hb ▸ hok.attained)
      (by simp [Slot.Attained, slotPieces, Slot.overwritten, hkind, Piece.lsn])
  refine ⟨?_, hok.withBatches hshape hbatches hattained _ _ ?_⟩
  · rw [← h.maxLsn]
    refine h.withBatches hok hshape hbatches rfl hsize _ _ _ ?_
    have hpacked := h.packed
    rw [batchPages_tail_congr hshape, length_headD_congr hshape] at hpacked
    exact hpacked
  · exact packed_overwritten hok hb hkind lsn page

/-! ## Joining a packed page -/

theorem batches_last (batch : List Slot) (older : List (List Slot)) (slot : Slot) :
    (slot :: batch) :: older = [] ++ (batch.reverse ++ slot :: []).reverse :: older := by
  simp

/-- A packed page and its slot after a record has joined it. -/
def Slot.joined (slot : Slot) (p : PackedLogicalSlot) (r : LogicalRecord) : Slot :=
  ⟨.packedLogical (max p.maxLsn r.lsn) 0 (p.len + packedLogicalEntryLen r.payload.length),
    writeAt slot.data p.len (encodePackedLogicalEntry r)⟩

def PackedLogicalSlot.joined (p : PackedLogicalSlot) (r : LogicalRecord) : PackedLogicalSlot :=
  { p with
    len := p.len + packedLogicalEntryLen r.payload.length
    maxLsn := max p.maxLsn r.lsn }

theorem tryAppendPackedLogical_eq (cfg : Config) {slot : Slot} {batch : List Slot}
    {older : List (List Slot)} {p : PackedLogicalSlot} (hopen : b.packedLogical = some p)
    (hb : b.batches = (slot :: batch) :: older) (r : LogicalRecord) :
    b.tryAppendPackedLogical cfg.pageSize r =
      if b.used cfg.pageSize ≠ p.dataEnd ∨
        cfg.pageSize.bytes < p.len + packedLogicalEntryLen r.payload.length then none
      else some (b.withBatches ((slot.joined p r :: batch) :: older)
        (max b.maxLsn (max p.maxLsn r.lsn)) (some (p.joined r))) := by
  rw [WalBuffer.tryAppendPackedLogical, hopen, hb]
  rfl

theorem BufferOk.joinPacked {b' : WalBuffer} {r : LogicalRecord} (hok : BufferOk cfg.pageSize b)
    (hr : r.Encodable) (happ : b.tryAppendPackedLogical cfg.pageSize r = some b') :
    BufferOk cfg.pageSize b' := by
  obtain ⟨hwf', hpieces, -⟩ := tryAppendPackedLogical_spec hok.wf hr happ
  cases hopen : b.packedLogical with
  | none => simp [WalBuffer.tryAppendPackedLogical, hopen] at happ
  | some p =>
    obtain ⟨slot, batch, older, hb, -, -⟩ := hok.wf.packed p hopen
    rw [tryAppendPackedLogical_eq cfg hopen hb] at happ
    obtain ⟨-, happ⟩ := Option.ite_none_left_eq_some.mp happ
    have hb' := (Option.some.inj happ).symm
    set slot' := slot.joined p r with hslot'
    have hold := hok.batches
    rw [hb] at hold
    have hslot := (hold _ mem_cons_self).slots slot (by simp)
    have hjoined : slotPieces slot' = slotPieces slot ++ [.packed r] := by
      rw [hb', WalBuffer.slots, WalBuffer.slots, hb, WalBuffer.withBatches, slots_cons,
        slots_cons, flatMap_append, flatMap_append, append_assoc] at hpieces
      simpa using append_cancel_left hpieces
    have hlsn : slot.entry.lsn = p.maxLsn := hok.packedLsn p slot batch older hopen hb
    have hslotOk : SlotOk cfg.pageSize slot' := by
      refine ⟨hwf'.slots slot' ?_, ?_, Nat.two_pow_pos 64, Nat.two_pow_pos 32, ?_⟩
      · rw [hb', WalBuffer.slots]
        simp [WalBuffer.withBatches]
      · exact Nat.max_lt.mpr ⟨hlsn ▸ hslot.lsn, hr.lsn⟩
      intro piece hpiece
      rw [hjoined] at hpiece
      rcases mem_append.mp hpiece with hpiece | hpiece
      · exact (hslot.bound piece hpiece).trans (hlsn ▸ Nat.le_max_left _ _)
      · rw [mem_singleton.mp hpiece]
        exact Nat.le_max_right _ _
    have holdAttained := hok.attained
    rw [hb, batches_last] at holdAttained
    have hattained : slot'.Attained := by
      rw [Slot.Attained, hjoined]
      rcases Nat.le_total r.lsn p.maxLsn with hle | hle
      · obtain ⟨piece, hpiece, hold⟩ :=
          hok.attained (slot :: batch) (hb ▸ mem_cons_self) slot mem_cons_self
        exact ⟨piece, mem_append_left _ hpiece, (hold.trans hlsn).trans (Nat.max_eq_left hle).symm⟩
      · exact ⟨.packed r, mem_append_right _ mem_cons_self, (Nat.max_eq_right hle).symm⟩
    have hbatches : ∀ x ∈ (slot' :: batch) :: older, BatchOk cfg.pageSize x.reverse := by
      rw [batches_last] at hold ⊢
      exact batchesOk_replace hold hslotOk
    rw [hb']
    refine hok.withBatches (by simp [hb]) hbatches
      (batches_last batch older slot' ▸ attained_replace holdAttained hattained) _ _ ?_
    rintro q ⟨⟩
    exact ⟨slot', batch, older, rfl, rfl, rfl, rfl⟩

/-- The record and its entry are written over those of the slot. -/
theorem bufferBytes_joined {slot : Slot} {batch : List Slot} {older : List (List Slot)}
    {p : PackedLogicalSlot} {r : LogicalRecord} (rest : Bytes)
    (hold : ∀ x ∈ [] ++ (batch.reverse ++ slot :: []).reverse :: older,
      BatchOk cfg.pageSize x.reverse)
    (hfit : p.len + packedLogicalEntryLen r.payload.length ≤ cfg.pageSize.bytes) :
    let start := batchPages older * cfg.pageSize.bytes
    let bytes := writeAt
      (bufferBytes cfg.pageSize ([] ++ (batch.reverse ++ slot :: []).reverse :: older) ++ rest)
      (start + cfg.pageSize.bytes * (batch.reverse.length + 1) + p.len) (encodePackedLogicalEntry r)
    writeAt bytes start (writeBatchEntry ((bytes.drop start).take cfg.pageSize.bytes)
        batch.reverse.length (slot.joined p r).entry.raw) =
      bufferBytes cfg.pageSize ([] ++ (batch.reverse ++ slot.joined p r :: []).reverse :: older) ++
        rest := by
  intro start bytes
  have holder : ∀ x ∈ older, BatchOk cfg.pageSize x.reverse := fun x hx =>
    hold x (mem_append_right _ (mem_cons_of_mem _ hx))
  have hbatch := hold _ (mem_append_right [] mem_cons_self)
  rw [reverse_reverse] at hbatch
  have hslot := hbatch.slots slot (by simp)
  have hbefore : ∀ x ∈ batch.reverse, x.data.length = cfg.pageSize.bytes := fun x hx =>
    (hbatch.slots x (mem_append_left _ hx)).wf.size
  have hmetaLen : ∀ x : Slot, (metaPage cfg.pageSize 0
      ((batch.reverse ++ x :: []).map Slot.entry)).length = cfg.pageSize.bytes := fun x =>
    length_metaPage 0 (by have hle := hbatch.le; simpa using hle)
  have hdata : bytes = slotBytes cfg.pageSize older [] batch.reverse [] rest
      (metaPage cfg.pageSize 0 ((batch.reverse ++ slot :: []).map Slot.entry))
      (slot.joined p r).data := by
    simp only [bytes, start]
    rw [bufferBytes_slot, writeAt_data_slotBytes holder hbefore (hmetaLen slot)]
    · rfl
    · rw [length_encodePackedLogicalEntry r, hslot.wf.size]
      omega
  have hentry : writeBatchEntry
      (metaPage cfg.pageSize 0 ((batch.reverse ++ slot :: []).map Slot.entry))
      batch.reverse.length (slot.joined p r).entry.raw =
        metaPage cfg.pageSize 0 ((batch.reverse ++ slot.joined p r :: []).map Slot.entry) := by
    rw [writeBatchEntry_metaPage cfg.pageSize 0 (by simp)]
    congr 1
    simp
  rw [hdata, meta_slotBytes holder (hmetaLen slot), hentry,
    writeAt_meta_slotBytes holder (by rw [hmetaLen, hmetaLen]), bufferBytes_slot]

/-- A record joins the packed page of a flat buffer when it joins that of the
batches. -/
theorem tryAppendPackedLogical_open (h : Encodes cfg fb b) (hok : BufferOk cfg.pageSize b)
    {r : LogicalRecord} (hr : r.Encodable) {f : FlatPacked} {p : PackedLogicalSlot}
    (hflat : fb.packedLogical = some f) (hopen : b.packedLogical = some p) :
    match b.tryAppendPackedLogical cfg.pageSize r with
    | none => fb.tryAppendPackedLogical cfg.pageSize r = none
    | some b' => ∃ fb', fb.tryAppendPackedLogical cfg.pageSize r = some fb' ∧
        Encodes cfg fb' b' ∧ BufferOk cfg.pageSize b' := by
  have hpacked := h.packed
  rw [hflat, hopen] at hpacked
  obtain ⟨hmetaStart, hslotIdx, hdataEnd, hlen, hmaxLsn⟩ := hpacked
  obtain ⟨slot, batch, older, hb, -, -⟩ := hok.wf.packed p hopen
  have hused : fb.used = b.used cfg.pageSize := by
    rw [h.used, length_bufferBytes hok.batches, used_eq]
  have heq := tryAppendPackedLogical_eq cfg hopen hb r
  by_cases hroom : b.used cfg.pageSize ≠ p.dataEnd ∨
      cfg.pageSize.bytes < p.len + packedLogicalEntryLen r.payload.length
  · rw [if_pos hroom] at heq
    rw [heq, FlatBuffer.tryAppendPackedLogical, hflat]
    dsimp only
    rw [hused, hdataEnd, hlen, if_pos hroom]
  rw [if_neg hroom] at heq
  have hnewOk := hok.joinPacked hr heq
  rw [heq]
  obtain ⟨hfull, hfit⟩ := not_or.mp hroom
  rw [not_not, used_eq, hb, batchPages_cons, length_cons] at hfull
  -- the batches before and after, around the slot
  have hold := hok.batches
  have hb' := batches_last batch older (slot.joined p r)
  rw [batches_last] at hb
  have hshape : b.batches.map List.length =
      ([] ++ (batch.reverse ++ slot.joined p r :: []).reverse :: older).map List.length := by
    rw [hb]
    exact shape_replace [] older batch.reverse [] slot _
  obtain ⟨rest, hbytes⟩ := h.bytes
  have hmeta := bufferBytes_joined (r := r) rest (hb ▸ hold) (not_lt.mp hfit)
  have hdataStart : f.dataStart = batchPages older * cfg.pageSize.bytes +
      cfg.pageSize.bytes * (batch.reverse.length + 1) := by
    rw [← hfull, Nat.add_mul, Nat.add_mul, Nat.one_mul] at hdataEnd
    rw [length_reverse, Nat.mul_comm cfg.pageSize.bytes]
    omega
  have hstart : f.metaStart = batchPages older * cfg.pageSize.bytes := by
    rw [hmetaStart, hb]
    rfl
  have hidx : f.slotIdx = batch.reverse.length := by
    rw [hb] at hslotIdx
    simpa using hslotIdx
  dsimp only at hmeta
  rw [← hdataStart, ← hstart, ← hidx] at hmeta
  have hjoin : fb.tryAppendPackedLogical cfg.pageSize r = some { fb with
      bytes := bufferBytes cfg.pageSize
        ([] ++ (batch.reverse ++ slot.joined p r :: []).reverse :: older) ++ rest
      maxLsn := max b.maxLsn (max p.maxLsn r.lsn)
      packedLogical := some
        { f with len := (p.joined r).len, maxLsn := (p.joined r).maxLsn } } := by
    rw [FlatBuffer.tryAppendPackedLogical, hflat]
    dsimp only [FlatBuffer.setBytes, FlatBuffer.page]
    rw [if_neg (by rw [hused, hdataEnd, hlen]; exact hroom), hmaxLsn, hlen, ← h.maxLsn, hbytes, hb]
    exact congrArg (fun bytes => some { fb with
      bytes
      maxLsn := max fb.maxLsn (max p.maxLsn r.lsn)
      packedLogical := some { f with len := (p.joined r).len, maxLsn := (p.joined r).maxLsn } })
        hmeta
  refine ⟨_, hjoin, ?_, hnewOk⟩
  have hbatches := hnewOk.batches
  rw [WalBuffer.withBatches, hb'] at hbatches
  rw [hb']
  refine h.withBatches hok hshape hbatches rfl ?_ _ _ _ ⟨?_, ?_, hdataEnd, rfl, rfl⟩
  · rw [hbytes, length_append, length_append, length_bufferBytes hbatches,
      length_bufferBytes hok.batches, batchPages_congr hshape]
  · rw [← batchPages_tail_congr hshape]
    exact hmetaStart
  · rw [← length_headD_congr hshape]
    exact hslotIdx

theorem tryAppendPackedLogical_flat (h : Encodes cfg fb b) (hok : BufferOk cfg.pageSize b)
    {r : LogicalRecord} (hr : r.Encodable) :
    match b.tryAppendPackedLogical cfg.pageSize r with
    | none => fb.tryAppendPackedLogical cfg.pageSize r = none
    | some b' => ∃ fb', fb.tryAppendPackedLogical cfg.pageSize r = some fb' ∧
        Encodes cfg fb' b' ∧ BufferOk cfg.pageSize b' := by
  have hpacked := h.packed
  cases hflat : fb.packedLogical with
  | none =>
    cases hopen : b.packedLogical with
    | none =>
      rw [WalBuffer.tryAppendPackedLogical, FlatBuffer.tryAppendPackedLogical, hopen, hflat]
    | some p =>
      rw [hflat, hopen] at hpacked
      exact hpacked.elim
  | some f =>
    cases hopen : b.packedLogical with
    | none =>
      rw [hflat, hopen] at hpacked
      exact hpacked.elim
    | some p => exact tryAppendPackedLogical_open h hok hr hflat hopen

end Replace

/-! ## Filling a slot -/

section Fill

variable {cfg : Config} {fb : FlatBuffer} {b : WalBuffer} {slot : Slot}

theorem fits_eq (h : Encodes cfg fb b) (hok : BufferOk cfg.pageSize b) :
    fb.fits cfg.pageSize = b.fits cfg := by
  rw [FlatBuffer.fits, WalBuffer.fits, WalBuffer.needed, needsNewBatch_eq h, h.size, h.used,
    length_bufferBytes hok.batches, used_eq]

def WalBuffer.pushRecord (ps : PageSize) (b : WalBuffer) (slot : Slot) : WalBuffer :=
  { b.pushSlot ps slot with
    packedLogical :=
      if slot.entry.kind = .logicalPacked then
        some ⟨(b.pushSlot ps slot).used ps, slot.entry.len, slot.entry.lsn⟩
      else (b.pushSlot ps slot).packedLogical }

def WalBuffer.clearPacked (b : WalBuffer) : WalBuffer := { b with packedLogical := none }

theorem encodes_clearPacked (h : Encodes cfg fb b) : Encodes cfg fb.clearPacked b.clearPacked :=
  ⟨h.size, h.bytes, h.used, h.epoch, h.maxLsn, h.openMeta, h.openCount, trivial⟩

theorem bufferOk_clearPacked {ps : PageSize} (hok : BufferOk ps b) : BufferOk ps b.clearPacked :=
  ⟨⟨hok.wf.slots, hok.wf.batch, nofun⟩, hok.batches, hok.attained, hok.openRoom, nofun⟩

theorem BufferOk.pushRecord {ps : PageSize} (hok : BufferOk ps b) (hclosed : b.packedLogical = none)
    (hslot : SlotFilled ps slot) : BufferOk ps (b.pushRecord ps slot) := by
  have hpushOk := hok.pushSlot hclosed hslot
  obtain ⟨-, -, hpacked, batch, rest, hbatches⟩ := pushSlot_spec hok.wf slot
  refine ⟨⟨hpushOk.wf.slots, hpushOk.wf.batch, ?_⟩, hpushOk.batches, hpushOk.attained,
    hpushOk.openRoom, ?_⟩
  · intro p hp
    simp only [WalBuffer.pushRecord, hpacked, hclosed] at hp
    split at hp
    · rename_i hkind
      cases hp
      exact ⟨slot, batch, rest, hbatches, hkind, rfl⟩
    · cases hp
  intro p top batch' rest' hp hb
  rw [WalBuffer.pushRecord, hbatches, List.cons.injEq, List.cons.injEq] at hb
  simp only [WalBuffer.pushRecord, hpacked, hclosed] at hp
  split at hp
  · cases hp
    rw [← hb.1.1]
  · cases hp

theorem pushRecord_flat (h : Encodes cfg fb b) (hok : BufferOk cfg.pageSize b)
    (hfits : b.fits cfg = true) (hflat : fb.packedLogical = none) (hclosed : b.packedLogical = none)
    (hslot : SlotFilled cfg.pageSize slot) :
    Encodes cfg (fb.pushRecord cfg.pageSize slot).1 (b.pushRecord cfg.pageSize slot) ∧
      BufferOk cfg.pageSize (b.pushRecord cfg.pageSize slot) ∧
      (fb.pushRecord cfg.pageSize slot).2.metaStart =
        batchPages (b.pushRecord cfg.pageSize slot).batches.tail * cfg.pageSize.bytes ∧
      (fb.pushRecord cfg.pageSize slot).2.slotIdx + 1 =
        ((b.pushRecord cfg.pageSize slot).batches.headD []).length := by
  obtain ⟨henc, hpushOk, hmeta, hidx, hdata⟩ := push_spec h hok hfits hflat hclosed hslot
  obtain ⟨-, -, hpacked, -⟩ := pushSlot_spec hok.wf slot
  refine ⟨⟨henc.size, henc.bytes, henc.used, henc.epoch, henc.maxLsn, henc.openMeta,
    henc.openCount, ?_⟩, hok.pushRecord hclosed hslot, hmeta, hidx⟩
  by_cases hkind : slot.entry.kind = .logicalPacked
  · simp only [FlatBuffer.pushRecord, WalBuffer.pushRecord, if_pos hkind]
    refine ⟨hmeta, hidx, ?_, trivial, trivial⟩
    rw [hdata, henc.used, length_bufferBytes hpushOk.batches, used_eq]
  · have hold := henc.packed
    rw [hpacked, hclosed] at hold
    simp only [FlatBuffer.pushRecord, WalBuffer.pushRecord, if_neg hkind, hpacked, hclosed]
    exact hold

theorem encodes_new (cfg : Config) (epoch : Nat) :
    Encodes cfg (FlatBuffer.new epoch cfg.capacity) (WalBuffer.reset epoch) :=
  ⟨length_replicate, ⟨_, rfl⟩, rfl, rfl, rfl, rfl, rfl, trivial⟩

/-- A buffer that is reset holds nothing, whatever its bytes are. -/
theorem encodes_reset {fb : FlatBuffer} (hsize : fb.bytes.length = cfg.capacity) (epoch : Nat) :
    Encodes cfg (fb.reset epoch) (WalBuffer.reset epoch) :=
  ⟨hsize, ⟨_, rfl⟩, rfl, rfl, rfl, rfl, rfl, trivial⟩

theorem bufferOk_reset (ps : PageSize) (epoch : Nat) : BufferOk ps (WalBuffer.reset epoch) :=
  ⟨bufferWf_reset ps epoch, nofun, nofun, nofun, nofun⟩

end Fill

/-! ## Filling in the checksums -/

section Finalize

variable {ps : PageSize} {crc : Bytes → Nat}

theorem entryCrc_raw (slot : Slot) :
    FlatBuffer.entryCrc crc slot.entry.raw slot.data = slotCrc crc slot := by
  show (if slot.entry.kind.code = 1 then _ else crc (slot.data.take slot.entry.len)) = _
  rw [slotCrc]
  cases slot.entry.kind <;> rfl

theorem foldl_entryCrc (crc : Bytes → Nat) {slots : List Slot} (h : ∀ slot ∈ slots, SlotOk ps slot)
    (bytes : Bytes)
    (hdata : ∀ i (hi : i < slots.length), dataPage ps bytes i = slots[i].data) {k : Nat}
    (hk : k ≤ slots.length) :
    (List.range k).foldl (fun page idx => overwriteBatchEntryCrc page idx
        (FlatBuffer.entryCrc crc (readBatchEntry page idx) (dataPage ps bytes idx)))
      (metaPage ps 0 (slots.map Slot.entry)) =
    metaPage ps 0 ((slots.take k).map (fun slot => (finalizeSlot crc slot).entry) ++
      (slots.drop k).map Slot.entry) := by
  induction k with
  | zero => rfl
  | succ k ih =>
    have hlt : k < slots.length := hk
    rw [range_succ, foldl_append, ih hlt.le, foldl_cons, foldl_nil, hdata k hlt]
    -- entry `k` is the first one that is not finished
    set es := (slots.take k).map (fun slot => (finalizeSlot crc slot).entry) ++
      (slots.drop k).map Slot.entry with hes
    have hbefore : ((slots.take k).map fun slot => (finalizeSlot crc slot).entry).length = k := by
      rw [length_map, length_take_of_le hlt.le]
    have hdrop : slots.drop k = slots[k] :: slots.drop (k + 1) := (getElem_cons_drop hlt).symm
    have hi : k < es.length := by
      rw [hes, length_append, hbefore, hdrop, map_cons, length_cons]
      omega
    have hget : es[k] = slots[k].entry := by
      simp only [hes, getElem_append, hbefore, Nat.lt_irrefl, dif_neg, not_false_eq_true,
        Nat.sub_self, getElem_map, getElem_drop, Nat.add_zero]
    rw [readBatchEntry_metaPage ps 0 hi (by rw [hget]; exact (h _ (getElem_mem hlt)).fits), hget,
      entryCrc_raw, overwriteBatchEntryCrc_metaPage ps 0 hi]
    congr 1
    rw [hget, hes, set_append_right _ _ (by rw [hbefore]), hbefore, Nat.sub_self, hdrop,
      map_cons, set_cons_zero, take_succ_eq_append_getElem hlt, map_append,
      append_assoc]
    rfl

theorem finalizeRecords_cons {slots : List Slot} (h : BatchOk ps slots) (fuel : Nat)
    (rest : Bytes) : FlatBuffer.finalizeRecords ps crc (fuel + 1) (bufferBatch ps slots ++ rest) =
      finalBatch ps crc slots ++ FlatBuffer.finalizeRecords ps crc fuel rest := by
  have hsizes : ∀ slot ∈ slots, slot.data.length = ps.bytes := fun slot hslot =>
    (h.slots slot hslot).wf.size
  have hlenEs : (slots.map Slot.entry).length = slots.length := length_map _
  have hmetaLen : (metaPage ps 0 (slots.map Slot.entry)).length = ps.bytes :=
    length_metaPage 0 (by rw [hlenEs]; exact h.le)
  have hbytes : bufferBatch ps slots ++ rest =
      metaPage ps 0 (slots.map Slot.entry) ++ (slots.flatMap Slot.data ++ rest) := by
    rw [bufferBatch, append_assoc]
  have htake : (bufferBatch ps slots ++ rest).take ps.bytes =
      metaPage ps 0 (slots.map Slot.entry) := by
    rw [hbytes, ← hmetaLen, take_left]
  have hdrop : (bufferBatch ps slots ++ rest).drop ps.bytes = slots.flatMap Slot.data ++ rest := by
    rw [hbytes, ← hmetaLen, drop_left]
  have hcount : batchMetaCountUnchecked ps (metaPage ps 0 (slots.map Slot.entry)) =
      some (slots.map Slot.entry).length :=
    batchMetaCountUnchecked_metaPage 0 (by simpa using h.nonempty) (by rw [hlenEs]; exact h.le)
  have hdata : ∀ i (hi : i < slots.length), dataPage ps (bufferBatch ps slots ++ rest) i =
      slots[i].data := by
    intro i hi
    rw [dataPage, Nat.succ_mul, Nat.add_comm, ← List.drop_drop, hdrop,
      drop_take_flatMap_data hsizes rest hi]
  have hfilled := foldl_entryCrc crc h.slots (bufferBatch ps slots ++ rest) hdata le_rfl
  rw [take_length, drop_length, map_nil, append_nil] at hfilled
  have hpages := length_flatMap_data hsizes
  have hall := length_bufferBatch h.le hsizes
  rw [FlatBuffer.finalizeRecords, htake, hcount]
  dsimp only
  rw [hlenEs, hfilled, finalizeBatchMeta_metaPage, hdrop, ← hpages, take_left, ← hall,
    drop_left, finalBatch]

theorem finalizeRecords_batches {batches : List (List Slot)}
    (h : ∀ slots ∈ batches, BatchOk ps slots) {fuel : Nat} (hfuel : batches.length ≤ fuel) :
    FlatBuffer.finalizeRecords ps crc fuel (batches.flatMap (bufferBatch ps)) =
      batches.flatMap (finalBatch ps crc) := by
  induction batches generalizing fuel with
  | nil =>
    cases fuel with
    | zero => rfl
    | succ fuel =>
      have hnone : batchMetaCountUnchecked ps (([] : Bytes).take ps.bytes) = none := by
        have hle := PageSize.le_bytes ps
        rw [take_nil, batchMetaCountUnchecked, if_pos]
        rw [length_nil]
        omega
      rw [flatMap_nil, FlatBuffer.finalizeRecords, hnone, flatMap_nil]
  | cons slots batches ih =>
    obtain ⟨fuel, rfl⟩ : ∃ n, fuel = n + 1 :=
      ⟨fuel - 1, by rw [length_cons] at hfuel; omega⟩
    rw [flatMap_cons, finalizeRecords_cons (h slots mem_cons_self),
      ih (fun x hx => h x (mem_cons_of_mem slots hx))
        (by rw [length_cons] at hfuel; omega), flatMap_cons]

def WalBuffer.fileBatches (b : WalBuffer) : List (List Slot) := b.batches.reverse.map List.reverse

/-- The bytes of a buffer that is written are its batches with their checksums. -/
theorem finalBytes_eq (crc : Bytes → Nat) {cfg : Config} {fb : FlatBuffer} {b : WalBuffer}
    (h : Encodes cfg fb b) (hok : BufferOk cfg.pageSize b) :
    fb.finalBytes cfg.pageSize crc = b.fileBatches.flatMap (finalBatch cfg.pageSize crc) := by
  obtain ⟨rest, hrest⟩ := h.bytes
  have hbatches : ∀ slots ∈ b.fileBatches, BatchOk cfg.pageSize slots := by
    intro slots hslots
    obtain ⟨batch, hbatch, rfl⟩ := mem_map.mp hslots
    exact hok.batches batch (mem_reverse.mp hbatch)
  have hbytes : fb.bytes.take fb.used = b.fileBatches.flatMap (bufferBatch cfg.pageSize) := by
    rw [h.used, hrest, take_left, bufferBytes, WalBuffer.fileBatches, flatMap_map]
  have hbytesPos := PageSize.le_bytes cfg.pageSize
  have hfuel : b.fileBatches.length ≤ fb.used := by
    rw [h.used, length_bufferBytes hok.batches, WalBuffer.fileBatches, length_map, length_reverse]
    exact (length_le_batchPages b.batches).trans (Nat.le_mul_of_pos_right _ (by omega))
  rw [FlatBuffer.finalBytes, hbytes, finalizeRecords_batches hbatches hfuel]

end Finalize

end Pagebox.Wal
