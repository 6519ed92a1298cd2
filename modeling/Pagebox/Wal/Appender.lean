import Pagebox.Wal.FlatRefinement

/-!
# One appender and its file

The append path of one shard down to the bytes of its file, for a single appender
(`append_*_with_lsn`, `seal_active_buffer_locked` and `WalInner::new` of
`wal/src/wal_impl.rs`).  A sealed buffer is written before the appender goes on: the
file here is what the completed writes leave, and `Wal.Driver` has the order in which
they complete.
-/

namespace Pagebox.Wal

open Pagebox.Base List

/-- The parts of `WalState` that the append path uses; the length of the file is
`allocated_size`. -/
structure Appender where
  file : Bytes
  fileOffset : Nat
  active : FlatBuffer
  /-- `spare_buffers`, the last one first. -/
  spares : List FlatBuffer
  nextBufferEpoch : Nat

namespace Appender

variable (cfg : Config) (crc : Bytes → Nat)

def new (o : OpenWalFile) : Appender where
  file := o.file
  fileOffset := o.fileOffset
  active := FlatBuffer.new 1 cfg.capacity
  spares := ((List.range (cfg.bufferCountLimit - 1)).map fun i =>
    FlatBuffer.new (i + 2) cfg.capacity).reverse
  nextBufferEpoch := cfg.bufferCountLimit + 1

/-- The size of a file that has to grow to `writeEnd`: eight segments at a time. -/
def extendedSize (writeEnd : Nat) : Nat := roundUp writeEnd segmentSize + segmentSize * 7

variable (a : Appender)

def sealActive : Appender :=
  if a.active.used = 0 then a
  else
    let writeEnd := a.fileOffset + a.active.used
    let file := if a.file.length < writeEnd then padTo (extendedSize writeEnd) a.file else a.file
    { file := writeAt file a.fileOffset (a.active.finalBytes cfg.pageSize crc)
      fileOffset := writeEnd
      active := (a.spares.headD a.active).reset a.nextBufferEpoch
      -- once it is written the sealed buffer is spare again, under an epoch of its own
      spares := a.active.reset (a.nextBufferEpoch + 1) :: a.spares.tail
      nextBufferEpoch := a.nextBufferEpoch + 2 }

/-- Append one slot: `reserve_active_record_slot_locked` makes room first. -/
def appendSlot (slot : Slot) : Appender × Reserved :=
  let a := { a with active := a.active.clearPacked }
  let a := if a.active.fits cfg.pageSize then a else a.sealActive cfg crc
  let (active, r) := a.active.pushRecord cfg.pageSize slot
  ({ a with active }, r)

def appendSlots (slots : List Slot) : Appender :=
  slots.foldl (fun a slot => (a.appendSlot cfg crc slot).1) a

/-- The place of an image: the epoch of its buffer, the number of the meta page of
its batch and its slot. -/
structure Place where
  epoch : Nat
  metaPage : Nat
  slotIdx : Nat
  deriving DecidableEq

def Place.record (p : Place) : BufferedWalRecord :=
  ⟨p.epoch, encodeRecordOffset p.metaPage p.slotIdx⟩

def appendPageImage (lsn pageId : Nat) (page : Bytes) : Appender × Place :=
  let (a, r) := a.appendSlot cfg crc (imageSlot cfg.pageSize lsn pageId page)
  (a, ⟨a.active.epoch, r.metaStart / cfg.pageSize.bytes, r.slotIdx⟩)

def appendLogical (r : LogicalRecord) : Appender :=
  if isPacked cfg.pageSize r then
    match a.active.tryAppendPackedLogical cfg.pageSize r with
    | some active => { a with active }
    | none => (a.appendSlot cfg crc (packedSlot cfg.pageSize r)).1
  else a.appendSlots cfg crc (chunkSlots cfg.pageSize r)

def append (lsn : Nat) : Payload → Appender × Option Place
  | .pageImage pageId page =>
    let (a, place) := a.appendPageImage cfg crc lsn pageId page
    (a, some place)
  | .pageImageBytes pageId page =>
    (a.appendLogical cfg crc
      ⟨lsn, logicalKindPageImageBytes, encodePageImageBytesPayload pageId page⟩, none)
  | .logical kind bytes => (a.appendLogical cfg crc ⟨lsn, kind, bytes⟩, none)

end Appender

/-! ## What the file and the active buffer hold -/

/-- The file of an appender holds the batches `sealed`, and its active buffer the
batches of `b`. -/
structure Stored (cfg : Config) (crc : Bytes → Nat) (header : Bytes) (sealed : List (List Slot))
    (b : WalBuffer) (a : Appender) : Prop where
  headerLen : header.length = cfg.pageSize.bytes
  file : ∃ n, a.file = header ++ sealed.flatMap (finalBatch cfg.pageSize crc) ++ replicate n 0
  offset : a.fileOffset = (header ++ sealed.flatMap (finalBatch cfg.pageSize crc)).length
  sealedOk : ∀ slots ∈ sealed, BatchOk cfg.pageSize slots
  encodes : Encodes cfg a.active b
  ok : BufferOk cfg.pageSize b
  spares : ∀ fb ∈ a.spares, fb.bytes.length = cfg.capacity
  epoch : b.epoch < a.nextBufferEpoch

section Store

variable {cfg : Config} {crc : Bytes → Nat} {header : Bytes} {sealed : List (List Slot)}
  {b : WalBuffer} {a : Appender}

theorem le_roundUp {n align : Nat} (h : 0 < align) : n ≤ roundUp n align := by
  have hmod := Nat.div_add_mod (n + align - 1) align
  have hlt := Nat.mod_lt (n + align - 1) h
  rw [Nat.mul_comm] at hmod
  rw [roundUp]
  omega

theorem padTo_zeros (bytes : Bytes) (n size : Nat) :
    ∃ m, n ≤ m ∧ padTo size (bytes ++ replicate n 0) = bytes ++ replicate m 0 ∧
      size ≤ bytes.length + m := by
  refine ⟨n + (size - (bytes ++ replicate n (0 : UInt8)).length), by omega, ?_, ?_⟩
  · rw [padTo, append_assoc, replicate_append_replicate]
  · simp only [length_append, length_replicate]
    omega

theorem writeAt_zeros {bytes new : Bytes} {n : Nat} (h : new.length ≤ n) :
    writeAt (bytes ++ replicate n 0) bytes.length new =
      bytes ++ new ++ replicate (n - new.length) 0 := by
  obtain ⟨k, rfl⟩ := Nat.exists_eq_add_of_le h
  rw [← replicate_append_replicate, writeAt_middle rfl length_replicate,
    append_assoc, Nat.add_sub_cancel_left]

theorem batchesOk_fileBatches {ps : PageSize} (hok : BufferOk ps b) :
    ∀ slots ∈ b.fileBatches, BatchOk ps slots := by
  intro slots hslots
  obtain ⟨batch, hbatch, rfl⟩ := mem_map.mp hslots
  exact hok.batches batch (mem_reverse.mp hbatch)

theorem flatten_fileBatches (b : WalBuffer) : b.fileBatches.flatten = b.slots := by
  rw [WalBuffer.fileBatches, WalBuffer.slots, flatMap_def]

theorem finalBatches_length {ps : PageSize} {batches : List (List Slot)}
    (h : ∀ slots ∈ batches, BatchOk ps slots) :
    (batches.flatMap (finalBatch ps crc)).length = batchPages batches * ps.bytes := by
  induction batches with
  | nil => simp [batchPages]
  | cons slots batches ih =>
    rw [flatMap_cons, length_append, length_finalBatch (h slots mem_cons_self),
      ih fun x hx => h x (mem_cons_of_mem slots hx), batchPages_cons, ← Nat.add_mul]

theorem batchPages_fileBatches (b : WalBuffer) :
    batchPages b.fileBatches = batchPages b.batches := by
  rw [WalBuffer.fileBatches, batchPages, batchPages, map_map, map_reverse, sum_reverse]
  congr 1
  exact map_congr_left fun batch _ => by simp

theorem length_finalBytes (h : Stored cfg crc header sealed b a) :
    (a.active.finalBytes cfg.pageSize crc).length = a.active.used := by
  rw [finalBytes_eq crc h.encodes h.ok, finalBatches_length (batchesOk_fileBatches h.ok),
    batchPages_fileBatches, h.encodes.used, length_bufferBytes h.ok.batches]

theorem batches_eq_nil_of_used {fb : FlatBuffer} (h : Encodes cfg fb b)
    (hok : BufferOk cfg.pageSize b)
    (hused : fb.used = 0) : b.batches = [] := by
  have hpos := PageSize.le_bytes cfg.pageSize
  have hle := length_le_batchPages b.batches
  have hzero : batchPages b.batches * cfg.pageSize.bytes = 0 := by
    rw [← length_bufferBytes hok.batches, ← h.used, hused]
  rcases Nat.mul_eq_zero.mp hzero with hzero | hzero
  · rw [hzero] at hle
    exact length_eq_zero_iff.mp (Nat.le_zero.mp hle)
  · omega

/-- What sealing leaves: everything is in the file and the active buffer is empty. -/
structure Sealed (cfg : Config) (crc : Bytes → Nat) (header : Bytes) (sealed : List (List Slot))
    (b : WalBuffer) (a : Appender) (b' : WalBuffer) (a' : Appender) : Prop where
  stored : Stored cfg crc header (sealed ++ b.fileBatches) b' a'
  empty : b'.batches = []
  closed : b'.packedLogical = none
  epoch : b.batches = [] ∧ b'.epoch = b.epoch ∨ b'.epoch = a.nextBufferEpoch
  next : a.nextBufferEpoch ≤ a'.nextBufferEpoch
  attained : ∀ slot ∈ b.slots, slot.Attained

theorem packedLogical_of_empty {ps : PageSize} (hwf : BufferWf ps b) (hempty : b.batches = []) :
    b.packedLogical = none := by
  cases hopen : b.packedLogical with
  | none => rfl
  | some p =>
    obtain ⟨_, _, _, hbatches, -⟩ := hwf.packed p hopen
    rw [hempty] at hbatches
    cases hbatches

theorem Stored.sealActive (h : Stored cfg crc header sealed b a) :
    ∃ b', Sealed cfg crc header sealed b a b' (a.sealActive cfg crc) := by
  have hattained : ∀ slot ∈ b.slots, slot.Attained := by
    intro slot hslot
    obtain ⟨batch, hbatch, hmem⟩ := mem_flatMap.mp hslot
    exact h.ok.attained batch (mem_reverse.mp hbatch) slot (mem_reverse.mp hmem)
  by_cases hused : a.active.used = 0
  · have hempty := batches_eq_nil_of_used h.encodes h.ok hused
    have hfile : sealed ++ b.fileBatches = sealed := by
      rw [WalBuffer.fileBatches, hempty]
      simp
    refine ⟨b, ?_, hempty, packedLogical_of_empty h.ok.wf hempty, .inl ⟨hempty, rfl⟩, ?_,
      hattained⟩
    · rw [hfile, Appender.sealActive, if_pos hused]
      exact h
    · rw [Appender.sealActive, if_pos hused]
  have hlen := length_finalBytes h
  have hfinal := finalBytes_eq crc h.encodes h.ok
  obtain ⟨n, hfile⟩ := h.file
  set kept := header ++ sealed.flatMap (finalBatch cfg.pageSize crc) with hkept
  have hoffset : a.fileOffset = kept.length := h.offset
  -- the file is long enough for the buffer, with zeros behind what it holds
  obtain ⟨m, hgrown, hroom⟩ : ∃ m, (if a.file.length < a.fileOffset + a.active.used
        then padTo (Appender.extendedSize (a.fileOffset + a.active.used)) a.file else a.file) =
      kept ++ replicate m 0 ∧ a.active.used ≤ m := by
    by_cases hgrow : a.file.length < a.fileOffset + a.active.used
    · obtain ⟨m, -, hpad, hsize⟩ := padTo_zeros kept n
        (Appender.extendedSize (a.fileOffset + a.active.used))
      refine ⟨m, by rw [if_pos hgrow, hfile, hpad], ?_⟩
      have hround : a.fileOffset + a.active.used ≤
          roundUp (a.fileOffset + a.active.used) segmentSize := le_roundUp (by decide)
      rw [Appender.extendedSize] at hsize
      omega
    · refine ⟨n, by rw [if_neg hgrow, hfile], ?_⟩
      rw [hfile, length_append, length_replicate, hoffset] at hgrow
      omega
  have hhead : (a.spares.headD a.active).bytes.length = cfg.capacity := by
    cases hspares : a.spares with
    | nil => exact h.encodes.size
    | cons fb rest => exact h.spares fb (hspares ▸ mem_cons_self)
  have hall : header ++ (sealed ++ b.fileBatches).flatMap (finalBatch cfg.pageSize crc) =
      kept ++ a.active.finalBytes cfg.pageSize crc := by
    rw [flatMap_append, hfinal, hkept, append_assoc]
  rw [Appender.sealActive, if_neg hused]
  refine ⟨WalBuffer.reset a.nextBufferEpoch, ⟨h.headerLen, ?_, ?_, ?_, encodes_reset hhead _,
    bufferOk_reset _ _, ?_, Nat.lt_add_of_pos_right Nat.two_pos⟩, rfl, rfl, .inr rfl,
    Nat.le_add_right _ 2, hattained⟩
  · refine ⟨m - (a.active.finalBytes cfg.pageSize crc).length, ?_⟩
    dsimp only
    rw [hgrown, hoffset, writeAt_zeros (by rw [hlen]; exact hroom), hall]
  · rw [hall, length_append, hlen, hoffset]
  · intro slots hslots
    rcases mem_append.mp hslots with hslots | hslots
    · exact h.sealedOk slots hslots
    · exact batchesOk_fileBatches h.ok slots hslots
  · intro fb hfb
    rcases mem_cons.mp hfb with rfl | hfb
    · exact h.encodes.size
    · exact h.spares fb (mem_of_mem_tail hfb)

end Store

/-! ## Places of images -/

def Slot.shape (slot : Slot) : RecordKind × Nat := (slot.entry.kind, (slotPieces slot).length)

def shapes (batches : List (List Slot)) : List (List (RecordKind × Nat)) :=
  batches.map (List.map Slot.shape)

/-- Slot `j` of the batch at meta page `m` holds a page image, and `n` pieces come
before it in the buffer. -/
def Names (shapes : List (List (RecordKind × Nat))) (m j n : Nat) : Prop :=
  ∃ newer older before behind count,
    shapes = newer ++ (before ++ (.pageImage, count) :: behind).reverse :: older ∧
      m = (older.map fun batch => batch.length + 1).sum ∧ j = before.length ∧
      n = (older.map fun batch => (batch.map Prod.snd).sum).sum + (before.map Prod.snd).sum

section Places

variable {batch : List (RecordKind × Nat)} {older : List (List (RecordKind × Nat))} {m j n : Nat}

theorem Names.openBatch (h : Names older m j n) : Names ([] :: older) m j n := by
  obtain ⟨newer, older, before, behind, count, rfl, hm, hj, hn⟩ := h
  exact ⟨[] :: newer, older, before, behind, count, rfl, hm, hj, hn⟩

theorem Names.fill (h : Names (batch :: older) m j n) (x : RecordKind × Nat) :
    Names ((x :: batch) :: older) m j n := by
  obtain ⟨newer, older', before, behind, count, hshape, hm, hj, hn⟩ := h
  cases newer with
  | nil =>
    obtain ⟨rfl, rfl⟩ := hshape
    exact ⟨[], older, before, behind ++ [x], count, by simp, hm, hj, hn⟩
  | cons first newer =>
    obtain ⟨rfl, rfl⟩ := hshape
    exact ⟨(x :: batch) :: newer, older', before, behind, count, rfl, hm, hj, hn⟩

/-- The slot that was filled last can change, unless it is the image itself. -/
theorem Names.join {top top' : RecordKind × Nat} (h : Names ((top :: batch) :: older) m j n)
    (htop : top.1 ≠ .pageImage) : Names ((top' :: batch) :: older) m j n := by
  obtain ⟨newer, older', before, behind, count, hshape, hm, hj, hn⟩ := h
  cases newer with
  | nil =>
    rw [nil_append, List.cons.injEq] at hshape
    obtain ⟨hbatch, rfl⟩ := hshape
    rcases eq_nil_or_concat behind with rfl | ⟨init, last, rfl⟩
    · simp only [reverse_append, reverse_cons, reverse_nil, nil_append,
        cons_append, List.cons.injEq] at hbatch
      rw [hbatch.1] at htop
      exact absurd rfl htop
    · simp only [concat_eq_append, reverse_append, reverse_cons, reverse_nil,
        nil_append, cons_append, append_assoc, List.cons.injEq] at hbatch
      exact ⟨[], older, before, init ++ [top'], count, by simp [hbatch.2], hm, hj, hn⟩
  | cons first newer =>
    obtain ⟨rfl, rfl⟩ := hshape
    exact ⟨(top' :: batch) :: newer, older', before, behind, count, rfl, hm, hj, hn⟩

theorem names_last (batch : List (RecordKind × Nat)) (older : List (List (RecordKind × Nat)))
    (count : Nat) :
    Names (((.pageImage, count) :: batch) :: older) (older.map fun batch => batch.length + 1).sum
      batch.length ((older.map fun batch => (batch.map Prod.snd).sum).sum +
        (batch.map Prod.snd).sum) :=
  ⟨[], older, batch.reverse, [], count, by simp, rfl, by simp, by simp⟩

theorem length_flatMap_pieces (slots : List Slot) :
    (slots.flatMap slotPieces).length = ((slots.map Slot.shape).map Prod.snd).sum := by
  rw [length_flatMap, map_map]
  rfl

theorem batchPages_shapes (batches : List (List Slot)) :
    ((shapes batches).map fun batch => batch.length + 1).sum = batchPages batches := by
  rw [shapes, map_map, batchPages]
  congr 1
  exact map_congr_left fun batch _ => by simp

theorem length_slots_pieces (batches : List (List Slot)) :
    ((batches.reverse.flatMap List.reverse).flatMap slotPieces).length =
      ((shapes batches).map fun batch => (batch.map Prod.snd).sum).sum := by
  induction batches with
  | nil => rfl
  | cons batch batches ih =>
    rw [reverse_cons, flatMap_append, flatMap_append, length_append, ih,
      flatMap_singleton, length_flatMap_pieces, map_reverse, map_reverse,
      sum_reverse, Nat.add_comm]
    rfl

theorem Names.slot {batches : List (List Slot)} (h : Names (shapes batches) m j n) :
    ∃ newer older before behind slot,
      batches = newer ++ (before ++ slot :: behind).reverse :: older ∧ m = batchPages older ∧
        j = before.length ∧ slot.entry.kind = .pageImage ∧
        n = ((older.reverse.flatMap List.reverse ++ before).flatMap slotPieces).length := by
  obtain ⟨newer', older', before', behind', count, hshape, rfl, rfl, rfl⟩ := h
  obtain ⟨newer, rest, rfl, rfl, hrest⟩ := map_eq_append_iff.mp hshape
  obtain ⟨batch, older, rfl, hbatch, rfl⟩ := map_eq_cons_iff.mp hrest
  rw [← reverse_inj, reverse_reverse, ← map_reverse] at hbatch
  obtain ⟨before, rest, hsplit, rfl, hslots⟩ := map_eq_append_iff.mp hbatch
  obtain ⟨slot, behind, rfl, hslot, rfl⟩ := map_eq_cons_iff.mp hslots
  refine ⟨newer, older, before, behind, slot, ?_, ?_, by simp, ?_, ?_⟩
  · rw [← hsplit, reverse_reverse]
  · exact batchPages_shapes older
  · exact congrArg Prod.fst hslot
  · rw [flatMap_append, length_append, length_slots_pieces, length_flatMap_pieces]
    rfl

end Places

/-- What an operation of the append path does to the file and the active buffer,
with `pieces` the pieces it adds: places in a buffer that stays active keep naming
their images. -/
structure Grows (sealed : List (List Slot)) (b : WalBuffer) (a : Appender)
    (sealed' : List (List Slot)) (b' : WalBuffer) (a' : Appender) (pieces : List Piece) : Prop where
  pieces : (sealed'.flatten ++ b'.slots).flatMap slotPieces =
    (sealed.flatten ++ b.slots).flatMap slotPieces ++ pieces
  places : (b'.epoch = b.epoch ∧ sealed' = sealed ∧
      ∀ m j n, Names (shapes b.batches) m j n → Names (shapes b'.batches) m j n) ∨
    a.nextBufferEpoch ≤ b'.epoch
  next : a.nextBufferEpoch ≤ a'.nextBufferEpoch
  attained : ∀ slot ∈ sealed'.flatten, slot ∈ sealed.flatten ∨ slot.Attained

section Append

variable {cfg : Config} {crc : Bytes → Nat} {header : Bytes}
  {sealed sealed' sealed'' : List (List Slot)}
  {b b' b'' : WalBuffer} {a a' a'' : Appender} {slot : Slot} {pieces pieces' : List Piece}

theorem Grows.refl (sealed : List (List Slot)) (b : WalBuffer) (a : Appender) :
    Grows sealed b a sealed b a [] :=
  ⟨(append_nil _).symm, .inl ⟨rfl, rfl, fun _ _ _ h => h⟩, le_rfl, fun _ => .inl⟩

theorem Grows.trans (h : Grows sealed b a sealed' b' a' pieces)
    (h' : Grows sealed' b' a' sealed'' b'' a'' pieces') :
    Grows sealed b a sealed'' b'' a'' (pieces ++ pieces') := by
  refine ⟨by rw [h'.pieces, h.pieces, append_assoc], ?_, h.next.trans h'.next,
    fun slot hslot => (h'.attained slot hslot).elim (h.attained slot) .inr⟩
  rcases h'.places with ⟨hepoch', rfl, hnames'⟩ | hfresh'
  · rcases h.places with ⟨hepoch, rfl, hnames⟩ | hfresh
    · exact .inl ⟨hepoch'.trans hepoch, rfl, fun m j n hn => hnames' m j n (hnames m j n hn)⟩
    · exact .inr (hepoch' ▸ hfresh)
  · exact .inr (h.next.trans hfresh')

theorem Stored.clearPacked (h : Stored cfg crc header sealed b a) :
    Stored cfg crc header sealed b.clearPacked { a with active := a.active.clearPacked } :=
  ⟨h.headerLen, h.file, h.offset, h.sealedOk, encodes_clearPacked h.encodes,
    bufferOk_clearPacked h.ok, h.spares, h.epoch⟩

theorem Sealed.grows (h : Sealed cfg crc header sealed b a b' a') :
    Grows sealed b a (sealed ++ b.fileBatches) b' a' [] := by
  have hslots : b'.slots = [] := by
    rw [WalBuffer.slots, h.empty]
    rfl
  refine ⟨?_, ?_, h.next, ?_⟩
  · rw [hslots, append_nil, append_nil, flatten_append, flatten_fileBatches]
  rotate_left
  · rw [flatten_append, flatten_fileBatches]
    exact fun slot hslot => (mem_append.mp hslot).imp_right (h.attained slot)
  rcases h.epoch with ⟨hempty, hepoch⟩ | hepoch
  · refine .inl ⟨hepoch, ?_, ?_⟩
    · rw [WalBuffer.fileBatches, hempty]
      simp
    · rw [hempty, h.empty]
      exact fun _ _ _ hn => hn
  · exact .inr hepoch.ge

theorem pushRecord_batches {ps : PageSize} (hwf : BufferWf ps b) (slot : Slot) :
    ∃ batch older, (b.pushRecord ps slot).batches = (slot :: batch) :: older ∧
      (b.batches = batch :: older ∨ (batch = [] ∧ b.batches = older)) := by
  obtain ⟨hne, -, -, -⟩ := openBatchIfNeeded_spec hwf
  have hopen : (b.openBatchIfNeeded ps).batches = b.batches ∨
      (b.openBatchIfNeeded ps).batches = [] :: b.batches := by
    rw [WalBuffer.openBatchIfNeeded]
    split
    · exact .inr rfl
    · exact .inl rfl
  cases hbatches : (b.openBatchIfNeeded ps).batches with
  | nil => exact absurd hbatches hne
  | cons batch older =>
    refine ⟨batch, older, ?_, ?_⟩
    · rw [WalBuffer.pushRecord, WalBuffer.pushSlot, WalBuffer.finishSlot, hbatches]
    · rw [hbatches] at hopen
      rcases hopen with hopen | hopen
      · exact .inl hopen.symm
      · rw [List.cons.injEq] at hopen
        exact .inr ⟨hopen.1, hopen.2.symm⟩

def PlacedAt (sealed : List (List Slot)) (b : WalBuffer) (m j before : Nat) : Prop :=
  ∃ n, Names (shapes b.batches) m j n ∧ (sealed.flatten.flatMap slotPieces).length + n = before

theorem slots_pushRecord {ps : PageSize} (hwf : BufferWf ps b) (slot : Slot) :
    (b.pushRecord ps slot).slots = b.slots ++ [slot] :=
  (pushSlot_spec hwf slot).1

/-- Filling a slot keeps the places of the images, and an image that is filled in gets
the place behind them. -/
theorem names_pushRecord {ps : PageSize} (hwf : BufferWf ps b) (slot : Slot) :
    let b' := b.pushRecord ps slot
    b'.epoch = b.epoch ∧
      (∀ m j n, Names (shapes b.batches) m j n → Names (shapes b'.batches) m j n) ∧
      (slot.entry.kind = .pageImage → Names (shapes b'.batches) (batchPages b'.batches.tail)
        ((b'.batches.headD []).length - 1) (b.slots.flatMap slotPieces).length) := by
  intro b'
  obtain ⟨batch, older, hbatches, hold⟩ := pushRecord_batches hwf slot
  refine ⟨?_, ?_, ?_⟩
  · show (b.pushSlot ps slot).epoch = b.epoch
    rw [WalBuffer.pushSlot, WalBuffer.finishSlot]
    split
    · rw [WalBuffer.openBatchIfNeeded]
      split <;> rfl
    · rw [WalBuffer.openBatchIfNeeded]
      split <;> rfl
  · intro m j n hn
    rw [hbatches]
    rcases hold with hold | ⟨rfl, hold⟩
    · rw [hold] at hn
      exact hn.fill slot.shape
    · rw [hold] at hn
      exact hn.openBatch.fill slot.shape
  intro hkind
  have hlast := names_last (batch.map Slot.shape) (shapes older) (slotPieces slot).length
  rw [batchPages_shapes, length_map] at hlast
  have hcount : (b.slots.flatMap slotPieces).length =
      ((shapes older).map fun batch => (batch.map Prod.snd).sum).sum +
        ((batch.map Slot.shape).map Prod.snd).sum := by
    rw [WalBuffer.slots, length_slots_pieces]
    rcases hold with hold | ⟨rfl, hold⟩
    · rw [hold, Nat.add_comm]
      rfl
    · rw [hold]
      rfl
  rw [hbatches, shapes, map_cons, map_cons, Slot.shape, hkind, hcount]
  exact hlast

/-- The place that `append_page_image_with_lsn` computes. -/
theorem names_pushRecord_flat {fb : FlatBuffer} (h : Encodes cfg fb b)
    (hok : BufferOk cfg.pageSize b)
    (hfits : b.fits cfg = true) (hflat : fb.packedLogical = none) (hclosed : b.packedLogical = none)
    (hslot : SlotFilled cfg.pageSize slot) (hkind : slot.entry.kind = .pageImage) :
    let r := fb.pushRecord cfg.pageSize slot
    Names (shapes (b.pushRecord cfg.pageSize slot).batches) (r.2.metaStart / cfg.pageSize.bytes)
      r.2.slotIdx (b.slots.flatMap slotPieces).length := by
  intro r
  obtain ⟨-, -, hmeta, hidx⟩ := pushRecord_flat h hok hfits hflat hclosed hslot
  obtain ⟨-, -, hplaced⟩ := names_pushRecord hok.wf slot
  have hpos := PageSize.le_bytes cfg.pageSize
  have hmetaPage : r.2.metaStart / cfg.pageSize.bytes =
      batchPages (b.pushRecord cfg.pageSize slot).batches.tail := by
    rw [hmeta]
    exact Nat.mul_div_cancel _ (by omega)
  rw [hmetaPage, Nat.eq_sub_of_add_eq hidx]
  exact hplaced hkind

theorem Stored.pushRecord (h : Stored cfg crc header sealed b a) (hfits : b.fits cfg = true)
    (hflat : a.active.packedLogical = none) (hclosed : b.packedLogical = none)
    (hslot : SlotFilled cfg.pageSize slot) :
    let r := a.active.pushRecord cfg.pageSize slot
    let b' := b.pushRecord cfg.pageSize slot
    Stored cfg crc header sealed b' { a with active := r.1 } ∧
      Grows sealed b a sealed b' { a with active := r.1 } (slotPieces slot) ∧
      (slot.entry.kind = .pageImage →
        PlacedAt sealed b' (r.2.metaStart / cfg.pageSize.bytes) r.2.slotIdx
        ((sealed.flatten ++ b.slots).flatMap slotPieces).length) := by
  intro r b'
  obtain ⟨henc, hok, -⟩ := pushRecord_flat h.encodes h.ok hfits hflat hclosed hslot
  obtain ⟨hepoch, hnames, -⟩ := names_pushRecord h.ok.wf slot
  refine ⟨⟨h.headerLen, h.file, h.offset, h.sealedOk, henc, hok, h.spares, hepoch ▸ h.epoch⟩,
    ⟨?_, .inl ⟨hepoch, rfl, hnames⟩, le_rfl, fun _ => .inl⟩, fun hkind =>
      ⟨(b.slots.flatMap slotPieces).length, ?_, ?_⟩⟩
  · rw [slots_pushRecord h.ok.wf slot, ← append_assoc, flatMap_append, flatMap_singleton]
  · exact names_pushRecord_flat h.encodes h.ok hfits hflat hclosed hslot hkind
  · rw [flatMap_append, length_append]

theorem fits_of_empty (hempty : b.batches = []) : b.fits cfg = true := by
  have hcap : 2 * cfg.pageSize.bytes ≤ cfg.capacity :=
    two_pages_le_capacity cfg.pageSize cfg.bufferRecords
  rw [WalBuffer.fits, decide_eq_true_eq, used_eq, hempty, WalBuffer.needed]
  have hzero : batchPages [] = 0 := rfl
  rw [hzero]
  split <;> omega

theorem Stored.appendSlot (h : Stored cfg crc header sealed b a)
    (hslot : SlotFilled cfg.pageSize slot) :
    let r := a.appendSlot cfg crc slot
    ∃ sealed' b', Stored cfg crc header sealed' b' r.1 ∧
      Grows sealed b a sealed' b' r.1 (slotPieces slot) ∧
      (slot.entry.kind = .pageImage → PlacedAt sealed' b' (r.2.metaStart / cfg.pageSize.bytes)
        r.2.slotIdx ((sealed.flatten ++ b.slots).flatMap slotPieces).length) := by
  intro r
  have hclear := h.clearPacked
  have hgrow : Grows sealed b a sealed b.clearPacked { a with active := a.active.clearPacked } [] :=
    ⟨(append_nil _).symm, .inl ⟨rfl, rfl, fun _ _ _ hn => hn⟩, le_rfl, fun _ => .inl⟩
  by_cases hfits : (a.active.clearPacked).fits cfg.pageSize = true
  · have hroom := hfits
    rw [fits_eq hclear.encodes hclear.ok] at hroom
    have hr : r = ({ a with active := ((a.active.clearPacked).pushRecord cfg.pageSize slot).1 },
        ((a.active.clearPacked).pushRecord cfg.pageSize slot).2) := by
      simp only [r, Appender.appendSlot, hfits, if_true]
    obtain ⟨hstored, hgrows, hplaced⟩ := hclear.pushRecord hroom rfl rfl hslot
    rw [hr]
    exact ⟨sealed, _, hstored, hgrow.trans hgrows, hplaced⟩
  obtain ⟨b₁, hsealed⟩ := hclear.sealActive
  have hr : r = ({ (Appender.sealActive cfg crc { a with active := a.active.clearPacked }) with
        active := ((Appender.sealActive cfg crc
          { a with active := a.active.clearPacked }).active.pushRecord cfg.pageSize slot).1 },
      ((Appender.sealActive cfg crc
        { a with active := a.active.clearPacked }).active.pushRecord cfg.pageSize slot).2) := by
    simp only [r, Appender.appendSlot, hfits, if_false, Bool.false_eq_true]
  have hflat : (Appender.sealActive cfg crc
      { a with active := a.active.clearPacked }).active.packedLogical = none := by
    have hpacked := hsealed.stored.encodes.packed
    rw [hsealed.closed] at hpacked
    cases hflat : (Appender.sealActive cfg crc
      { a with active := a.active.clearPacked }).active.packedLogical with
    | none => rfl
    | some f =>
      rw [hflat] at hpacked
      exact hpacked.elim
  obtain ⟨hstored, hgrows, hplaced⟩ := hsealed.stored.pushRecord (fits_of_empty hsealed.empty) hflat
    hsealed.closed hslot
  have hall := hgrow.trans hsealed.grows
  rw [hr]
  refine ⟨_, _, hstored, hall.trans hgrows, fun hkind => ?_⟩
  have hplaced := hplaced hkind
  rw [hall.pieces, append_nil, append_nil] at hplaced
  exact hplaced

theorem Stored.appendSlots (h : Stored cfg crc header sealed b a) {slots : List Slot}
    (hslots : ∀ slot ∈ slots, SlotFilled cfg.pageSize slot) :
    ∃ sealed' b', Stored cfg crc header sealed' b' (a.appendSlots cfg crc slots) ∧
      Grows sealed b a sealed' b' (a.appendSlots cfg crc slots) (slots.flatMap slotPieces) := by
  induction slots generalizing sealed b a with
  | nil => exact ⟨sealed, b, h, Grows.refl sealed b a⟩
  | cons slot slots ih =>
    obtain ⟨sealed₁, b₁, hstored, hgrows, -⟩ := h.appendSlot (hslots slot mem_cons_self)
    obtain ⟨sealed₂, b₂, hstored₂, hgrows₂⟩ :=
      ih hstored fun x hx => hslots x (mem_cons_of_mem slot hx)
    exact ⟨sealed₂, b₂, hstored₂, hgrows.trans hgrows₂⟩

theorem imageSlot_ok {lsn pageId : Nat} {page : Bytes} (hlsn : lsn < u64Limit)
    (hid : pageId < u64Limit) (hpage : page.length = cfg.pageSize.bytes) :
    SlotFilled cfg.pageSize (imageSlot cfg.pageSize lsn pageId page) := by
  have hslots : SlotsOf cfg.pageSize lsn [imageSlot cfg.pageSize lsn pageId page] :=
    imageSlot_slotsOf hpage
  refine ⟨⟨hslots.wf _ mem_cons_self, hlsn, hid, Nat.two_pow_pos 32, ?_⟩, _, mem_cons_self, rfl⟩
  intro piece hpiece
  exact (hslots.lsn _ mem_cons_self piece hpiece).le

theorem packedSlot_ok {ps : PageSize} {r : LogicalRecord} (hr : r.Encodable)
    (hlen : packedLogicalEntryLen r.payload.length ≤ ps.bytes) :
    SlotFilled ps (packedSlot ps r) := by
  have hslots := packedSlot_slotsOf hr hlen
  refine ⟨⟨hslots.wf _ mem_cons_self, hr.lsn, Nat.two_pow_pos 64, Nat.two_pow_pos 32, ?_⟩,
    .packed r, ?_, rfl⟩
  · intro piece hpiece
    exact (hslots.lsn _ mem_cons_self piece hpiece).le
  · rw [slotPieces_packedSlot ps hr]
    exact mem_cons_self

theorem chunkSlots_ok (ps : PageSize) {r : LogicalRecord} (hlsn : r.lsn < u64Limit)
    (hkind : r.kind < u64Limit) : ∀ slot ∈ chunkSlots ps r, SlotFilled ps slot := by
  intro slot hslot
  have hslots := chunkSlots_slotsOf ps r
  refine ⟨⟨hslots.wf slot hslot, ?_, ?_, ?_, ?_⟩, ?_⟩
  all_goals obtain ⟨i, hi, hslot'⟩ := mem_map.mp hslot
  · rw [← hslot']
    exact hlsn
  · rw [← hslot']
    exact hkind
  · rw [← hslot']
    exact Nat.two_pow_pos 32
  · intro piece hpiece
    rw [hslots.lsn slot hslot piece hpiece, ← hslot']
    exact le_rfl
  · rw [← hslot']
    exact ⟨_, mem_cons_self, rfl⟩

/-- The packed page is no image, so all places stay. -/
theorem names_joinPacked {ps : PageSize} (hwf : BufferWf ps b) {r : LogicalRecord}
    (hb : b.tryAppendPackedLogical ps r = some b') :
    b'.epoch = b.epoch ∧
      ∀ m j n, Names (shapes b.batches) m j n → Names (shapes b'.batches) m j n := by
  unfold WalBuffer.tryAppendPackedLogical at hb
  split at hb
  · rename_i packed slot batch rest hpacked hbatches
    simp only at hb
    split at hb
    · cases hb
    cases hb
    refine ⟨rfl, fun m j n hn => ?_⟩
    obtain ⟨slot', batch', rest', hshape, hkind, -⟩ := hwf.packed packed hpacked
    rw [hbatches, List.cons.injEq, List.cons.injEq] at hshape
    rw [hbatches] at hn
    refine hn.join ?_
    rw [hshape.1.1, Slot.shape, hkind]
    exact RecordKind.noConfusion
  · cases hb

theorem Stored.joinPacked (h : Stored cfg crc header sealed b a) {r : LogicalRecord}
    (hr : r.Encodable)
    {active : FlatBuffer} (hjoin : a.active.tryAppendPackedLogical cfg.pageSize r = some active) :
    ∃ b', Stored cfg crc header sealed b' { a with active } ∧
      Grows sealed b a sealed b' { a with active } [.packed r] := by
  have hflat := tryAppendPackedLogical_flat h.encodes h.ok hr
  cases hb : b.tryAppendPackedLogical cfg.pageSize r with
  | none =>
    rw [hb] at hflat
    rw [hflat] at hjoin
    cases hjoin
  | some b' =>
    rw [hb] at hflat
    obtain ⟨fb', hfb', henc, hok⟩ := hflat
    rw [hfb', Option.some.injEq] at hjoin
    subst hjoin
    obtain ⟨-, hpieces, -⟩ := tryAppendPackedLogical_spec h.ok.wf hr hb
    obtain ⟨hepoch, hnames⟩ := names_joinPacked h.ok.wf hb
    refine ⟨b', ⟨h.headerLen, h.file, h.offset, h.sealedOk, henc, hok, h.spares, hepoch ▸ h.epoch⟩,
      ?_, .inl ⟨hepoch, rfl, hnames⟩, le_rfl, fun _ => .inl⟩
    rw [flatMap_append, hpieces, flatMap_append, append_assoc]

theorem Stored.appendLogical (h : Stored cfg crc header sealed b a) {r : LogicalRecord}
    (hlsn : r.lsn < u64Limit) (hkind : r.kind < u64Limit) :
    ∃ sealed' b', Stored cfg crc header sealed' b' (a.appendLogical cfg crc r) ∧
      Grows sealed b a sealed' b' (a.appendLogical cfg crc r)
        ((if isPacked cfg.pageSize r then [packedSlot cfg.pageSize r]
          else chunkSlots cfg.pageSize r).flatMap slotPieces) := by
  rw [Appender.appendLogical]
  by_cases hpacked : isPacked cfg.pageSize r = true
  · obtain ⟨hr, hlen⟩ := isPacked_encodable hlsn hkind hpacked
    rw [if_pos hpacked, if_pos hpacked, flatMap_singleton]
    cases hjoin : a.active.tryAppendPackedLogical cfg.pageSize r with
    | none =>
      obtain ⟨sealed', b', hstored, hgrows, -⟩ := h.appendSlot (packedSlot_ok hr hlen)
      exact ⟨sealed', b', hstored, hgrows⟩
    | some active =>
      obtain ⟨b', hstored, hgrows⟩ := h.joinPacked hr hjoin
      rw [slotPieces_packedSlot cfg.pageSize hr]
      exact ⟨sealed, b', hstored, hgrows⟩
  · rw [if_neg hpacked, if_neg hpacked]
    exact h.appendSlots (chunkSlots_ok cfg.pageSize hlsn hkind)

/-- An append adds the pieces of its record at the end; an image is where its place
says. -/
theorem Stored.append (h : Stored cfg crc header sealed b a) {lsn : Nat} {p : Payload}
    (hlsn : lsn < u64Limit) (hp : p.Valid cfg.pageSize) :
    let r := a.append cfg crc lsn p
    ∃ sealed' b', Stored cfg crc header sealed' b' r.1 ∧
      Grows sealed b a sealed' b' r.1 (p.pieces cfg.pageSize lsn) ∧
      ∀ place, r.2 = some place → place.epoch = b'.epoch ∧
        (∃ pageId page, p = .pageImage pageId page) ∧
        PlacedAt sealed' b' place.metaPage place.slotIdx
          ((sealed.flatten ++ b.slots).flatMap slotPieces).length := by
  intro r
  cases p with
  | pageImage pageId page =>
    obtain ⟨sealed', b', hstored, hgrows, hplaced⟩ :=
      h.appendSlot (imageSlot_ok hlsn hp.1 hp.2)
    refine ⟨sealed', b', hstored, ?_, ?_⟩
    · exact hgrows
    · rintro place ⟨⟩
      exact ⟨hstored.encodes.epoch, ⟨pageId, page, rfl⟩, hplaced rfl⟩
  | pageImageBytes pageId page =>
    obtain ⟨sealed', b', hstored, hgrows⟩ := h.appendLogical (r := ⟨lsn, logicalKindPageImageBytes,
      encodePageImageBytesPayload pageId page⟩) hlsn
      (show logicalKindPageImageBytes < u64Limit by decide)
    exact ⟨sealed', b', hstored, hgrows, by rintro place ⟨⟩⟩
  | logical kind bytes =>
    obtain ⟨sealed', b', hstored, hgrows⟩ := h.appendLogical (r := ⟨lsn, kind, bytes⟩) hlsn hp.1
    exact ⟨sealed', b', hstored, hgrows, by rintro place ⟨⟩⟩

end Append

end Pagebox.Wal
