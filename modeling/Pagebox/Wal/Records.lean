import Pagebox.Wal.Shard

/-!
# What the buffers of a shard say

The pieces of records that the slots of a shard hold, in file order, and what
each operation of the append path adds to them.  Appending a slot or joining a
packed page adds its pieces at the end; sealing moves nothing.
-/

namespace Pagebox.Wal

open Pagebox.Base List

/-- One page image, one chunk of a logical record, or one packed record. -/
inductive Piece
  | image (lsn pageId : Nat) (page : Bytes)
  | chunk (lsn kind : Nat) (first last : Bool) (payload : Bytes)
  | packed (record : LogicalRecord)
  deriving DecidableEq

def Piece.lsn : Piece → Nat
  | .image lsn _ _ => lsn
  | .chunk lsn _ _ _ _ => lsn
  | .packed r => r.lsn

def slotPieces (slot : Slot) : List Piece :=
  match slot.entry.kind with
  | .pageImage => [.image slot.entry.lsn slot.entry.arg slot.data]
  | .logical =>
    [.chunk slot.entry.lsn slot.entry.arg slot.entry.first slot.entry.last
      (slot.data.take slot.entry.len)]
  | .logicalPacked =>
    (packedLogicalRecords (slot.data.take slot.entry.len)).1.map .packed

def Shard.log (sh : Shard) : List Slot :=
  sh.sealedBuffers.flatMap SealedBuffer.slots ++ sh.active.slots

def Shard.pieces (sh : Shard) : List Piece := sh.log.flatMap slotPieces

variable (ps : PageSize)

def Payload.pieces (lsn : Nat) (p : Payload) : List Piece :=
  (p.slots ps lsn).flatMap slotPieces

/-- A slot as the append path writes it: its data page has the page size, its
length is within the page, and a packed page holds whole records. -/
structure SlotWf (ps : PageSize) (slot : Slot) : Prop where
  size : slot.data.length = ps.bytes
  len : slot.entry.len ≤ ps.bytes
  flags : slot.entry.kind ≠ .logical → slot.entry.first = false ∧ slot.entry.last = false
  records : slot.entry.kind = .logicalPacked →
    ∃ rs : List LogicalRecord, rs ≠ [] ∧ (∀ r ∈ rs, r.Encodable) ∧
      slot.data.take slot.entry.len = rs.flatMap encodePackedLogicalEntry

/-- The buffers of the append path: an open batch exists, and the open packed
page is the slot written last. -/
structure BufferWf (ps : PageSize) (b : WalBuffer) : Prop where
  slots : ∀ slot ∈ b.slots, SlotWf ps slot
  batch : b.openBatch = true → b.batches ≠ []
  packed : ∀ packed, b.packedLogical = some packed →
    ∃ slot batch rest, b.batches = (slot :: batch) :: rest ∧
      slot.entry.kind = .logicalPacked ∧ slot.entry.len = packed.len

section Buffers

variable {ps : PageSize} {b : WalBuffer}

theorem slots_cons (batch : List Slot) (rest : List (List Slot)) (slot : Slot) :
    ((slot :: batch) :: rest).reverse.flatMap List.reverse =
      (batch :: rest).reverse.flatMap List.reverse ++ [slot] := by
  simp [flatMap_append]

@[simp] theorem slots_reset (epoch : Nat) : (WalBuffer.reset epoch).slots = [] := rfl

theorem openBatchIfNeeded_spec (h : BufferWf ps b) :
    (b.openBatchIfNeeded ps).batches ≠ [] ∧ (b.openBatchIfNeeded ps).slots = b.slots ∧
      (b.openBatchIfNeeded ps).maxLsn = b.maxLsn ∧
      (b.openBatchIfNeeded ps).packedLogical = b.packedLogical := by
  unfold WalBuffer.openBatchIfNeeded
  split
  · refine ⟨by simp, ?_, rfl, rfl⟩
    simp [WalBuffer.slots]
  · rename_i hopen
    refine ⟨h.batch ?_, rfl, rfl, rfl⟩
    simp [WalBuffer.needsNewBatch] at hopen
    exact hopen.1

theorem pushSlot_spec (h : BufferWf ps b) (slot : Slot) :
    (b.pushSlot ps slot).slots = b.slots ++ [slot] ∧ (b.pushSlot ps slot).maxLsn =
        (if slot.entry.kind = .pageImage ∨ slot.entry.kind = .logicalPacked ∨ slot.entry.last
          then max b.maxLsn slot.entry.lsn else b.maxLsn) ∧
      (b.pushSlot ps slot).packedLogical = b.packedLogical ∧
      ∃ batch rest, (b.pushSlot ps slot).batches = (slot :: batch) :: rest := by
  obtain ⟨hne, hslots, hmax, hpacked⟩ := openBatchIfNeeded_spec h
  unfold WalBuffer.pushSlot WalBuffer.finishSlot
  split
  · rename_i hnil
    exact absurd hnil hne
  · rename_i batch rest hbatches
    refine ⟨?_, by rw [hmax], hpacked, batch, rest, rfl⟩
    rw [← hslots, WalBuffer.slots, WalBuffer.slots, hbatches]
    exact slots_cons batch rest slot

theorem tryAppendPackedLogical_spec {b' : WalBuffer} {r : LogicalRecord} (h : BufferWf ps b)
    (hr : r.Encodable) (happ : b.tryAppendPackedLogical ps r = some b') :
    BufferWf ps b' ∧ b'.slots.flatMap slotPieces = b.slots.flatMap slotPieces ++ [.packed r] ∧
      ∃ slot : Slot, b'.slots.getLast? = some slot ∧ slot.entry.kind = .logicalPacked := by
  unfold WalBuffer.tryAppendPackedLogical at happ
  split at happ
  · rename_i packed slot batch rest hpacked hbatches
    simp only at happ
    split at happ
    · cases happ
    cases happ
    obtain ⟨slot', batch', rest', hshape, hkind, hlen⟩ := h.packed packed hpacked
    rw [hbatches] at hshape
    cases hshape
    have hmem : slot ∈ b.slots := by
      rw [WalBuffer.slots, hbatches, slots_cons]
      simp
    have hslot := h.slots slot hmem
    obtain ⟨rs, -, hrs, hbytes⟩ := hslot.records hkind
    set slot' : Slot := ⟨.packedLogical (max packed.maxLsn r.lsn) 0
        (packed.len + packedLogicalEntryLen r.payload.length),
      writeAt slot.data packed.len (encodePackedLogicalEntry r)⟩ with hslot'
    have hfit : packed.len + packedLogicalEntryLen r.payload.length ≤ ps.bytes := by
      omega
    have henc := length_encodePackedLogicalEntry r
    -- the page now holds the old records and the new one
    have hpage : slot'.data.take slot'.entry.len =
        (rs ++ [r]).flatMap encodePackedLogicalEntry := by
      have hin : packed.len ≤ slot.data.length := by
        rw [hslot.size]
        omega
      have htake := take_writeAt hin (encodePackedLogicalEntry r)
      rw [henc] at htake
      simp only [hslot', BatchEntry.packedLogical, htake, flatMap_append,
        flatMap_cons, flatMap_nil, append_nil, ← hbytes, hlen]
    have hwf' : SlotWf ps slot' := by
      refine ⟨?_, hfit, fun _ => ⟨rfl, rfl⟩, fun _ => ⟨rs ++ [r], by simp, ?_, hpage⟩⟩
      · rw [hslot', length_writeAt (by rw [hslot.size, henc]; exact hfit), hslot.size]
      · intro x hx
        rcases mem_append.mp hx with hx | hx
        · exact hrs x hx
        · rw [mem_singleton.mp hx]
          exact hr
    have hold : slotPieces slot = rs.map .packed := by
      simp only [slotPieces, hkind, hbytes, packedLogicalRecords_flatMap hrs]
    have hnew : slotPieces slot' = rs.map .packed ++ [.packed r] := by
      have henc' : ∀ x ∈ rs ++ [r], x.Encodable := by
        intro x hx
        rcases mem_append.mp hx with hx | hx
        · exact hrs x hx
        · rw [mem_singleton.mp hx]
          exact hr
      simp only [slotPieces, hpage, packedLogicalRecords_flatMap henc']
      simp [hslot', BatchEntry.packedLogical]
    refine ⟨⟨?_, by simp, ?_⟩, ?_, slot', ?_, rfl⟩
    · intro x hx
      rw [WalBuffer.slots, slots_cons] at hx
      rcases mem_append.mp hx with hx | hx
      · refine h.slots x ?_
        rw [WalBuffer.slots, hbatches, slots_cons]
        exact mem_append_left _ hx
      · rw [mem_singleton.mp hx]
        exact hwf'
    · rintro packed' ⟨⟩
      exact ⟨slot', batch, rest, rfl, rfl, rfl⟩
    · simp only [WalBuffer.slots, hbatches, slots_cons, flatMap_append, hold, hnew,
        flatMap_cons, flatMap_nil, append_nil, append_assoc]
    · simp [WalBuffer.slots]
  · cases happ

end Buffers

/-! ## Slots of one record -/

def Slot.unfinished (slot : Slot) : Bool := slot.entry.kind = .logical ∧ slot.entry.last = false

/-- The slots of one append call: well formed, of one LSN, and the last one ends
the record. -/
structure SlotsOf (ps : PageSize) (lsn : Nat) (slots : List Slot) : Prop where
  wf : ∀ slot ∈ slots, SlotWf ps slot
  lsn : ∀ slot ∈ slots, ∀ p ∈ slotPieces slot, p.lsn = lsn
  inner : ∀ slot ∈ slots.dropLast, slot.unfinished = true
  last : ∀ slot ∈ slots.getLast?, slot.unfinished = false

theorem SlotsOf.nil (lsn : Nat) : SlotsOf ps lsn [] :=
  ⟨by simp, by simp, by simp, by simp⟩

theorem SlotsOf.tail {ps : PageSize} {lsn : Nat} {slot : Slot} {rest : List Slot}
    (h : SlotsOf ps lsn (slot :: rest)) : SlotsOf ps lsn rest := by
  refine ⟨fun x hx => h.wf x (mem_cons_of_mem _ hx),
    fun x hx => h.lsn x (mem_cons_of_mem _ hx), fun x hx => h.inner x ?_,
    fun x hx => h.last x ?_⟩
  · cases rest with
    | nil => simp at hx
    | cons y ys =>
      exact mem_cons_of_mem _ hx
  · cases rest with
    | nil => simp at hx
    | cons y ys =>
      exact hx

theorem packedSlot_wf {ps : PageSize} {r : LogicalRecord} (hr : r.Encodable)
    (hlen : packedLogicalEntryLen r.payload.length ≤ ps.bytes) : SlotWf ps (packedSlot ps r) := by
  have henc := length_encodePackedLogicalEntry r
  refine ⟨length_padTo (by omega), hlen, fun _ => ⟨rfl, rfl⟩, fun _ => ⟨[r], by simp, ?_, ?_⟩⟩
  · intro x hx
    rw [mem_singleton.mp hx]
    exact hr
  · have htake := take_padTo ps.bytes (encodePackedLogicalEntry r)
    rw [henc] at htake
    simpa [packedSlot, BatchEntry.packedLogical] using htake

theorem slotPieces_packedSlot {r : LogicalRecord} (hr : r.Encodable) :
    slotPieces (packedSlot ps r) = [.packed r] := by
  have htake := take_padTo ps.bytes (encodePackedLogicalEntry r)
  rw [length_encodePackedLogicalEntry] at htake
  have hr' : ∀ x ∈ [r], x.Encodable := by simpa using hr
  have hone := packedLogicalRecords_flatMap hr'
  simp only [flatMap_cons, flatMap_nil, append_nil] at hone
  simp [slotPieces, packedSlot, BatchEntry.packedLogical, htake, hone]

theorem chunkSlot_wf (r : LogicalRecord) (chunks i : Nat) :
    SlotWf ps (chunkSlot ps r chunks i) := by
  have hlen : ((r.payload.drop (i * logicalChunkMaxLen ps)).take
      (logicalChunkMaxLen ps)).length ≤ ps.bytes := by
    rw [length_take]
    exact Nat.min_le_left _ _
  refine ⟨length_padTo hlen, hlen, fun h => absurd rfl h, fun h => ?_⟩
  simp [chunkSlot, BatchEntry.logicalChunk] at h

theorem slotPieces_chunkSlot (r : LogicalRecord) (chunks i : Nat) :
    slotPieces (chunkSlot ps r chunks i) = [.chunk r.lsn r.kind (i = 0) (i + 1 = chunks)
        ((r.payload.drop (i * logicalChunkMaxLen ps)).take (logicalChunkMaxLen ps))] := by
  simp only [slotPieces, chunkSlot, BatchEntry.logicalChunk, take_padTo]

theorem chunkSlots_slotsOf (r : LogicalRecord) : SlotsOf ps r.lsn (chunkSlots ps r) := by
  unfold chunkSlots
  have hpos : 0 < chunkCount ps r.payload.length :=
    Nat.lt_of_lt_of_le Nat.one_pos (Nat.le_max_right _ _)
  generalize chunkCount ps r.payload.length = chunks at hpos
  refine ⟨?_, ?_, ?_, ?_⟩
  · intro slot hslot
    obtain ⟨i, -, rfl⟩ := mem_map.mp hslot
    exact chunkSlot_wf ps r chunks i
  · intro slot hslot p hp
    obtain ⟨i, -, rfl⟩ := mem_map.mp hslot
    rw [slotPieces_chunkSlot, mem_singleton] at hp
    rw [hp]
    rfl
  · intro slot hslot
    rw [← map_dropLast] at hslot
    obtain ⟨i, hi, rfl⟩ := mem_map.mp hslot
    have hlt : i + 1 ≠ chunks := by
      cases chunks with
      | zero => simp at hi
      | succ n =>
        rw [range_succ, dropLast_concat, mem_range] at hi
        omega
    simpa [Slot.unfinished, chunkSlot, BatchEntry.logicalChunk] using hlt
  · intro slot hslot
    obtain ⟨n, rfl⟩ : ∃ n, chunks = n + 1 := ⟨chunks - 1, by omega⟩
    rw [range_succ, map_append, map_singleton, List.getLast?_concat] at hslot
    cases hslot
    simp [Slot.unfinished, chunkSlot, BatchEntry.logicalChunk]

theorem isPacked_encodable {ps : PageSize} {r : LogicalRecord} (hlsn : r.lsn < 2 ^ 64)
    (hkind : r.kind < 2 ^ 64) (h : isPacked ps r = true) :
    r.Encodable ∧ packedLogicalEntryLen r.payload.length ≤ ps.bytes := by
  have hlen : r.payload.length ≤ packedLogicalMaxPayloadLen ps := by
    simp [isPacked] at h
    exact h.2
  have hle := PageSize.le_bytes ps
  have hge := PageSize.bytes_le ps
  unfold packedLogicalMaxPayloadLen packedLogicalEntryHeaderLen at hlen
  unfold packedLogicalEntryLen packedLogicalEntryHeaderLen
  exact ⟨⟨hlsn, hkind, by omega⟩, by omega⟩

section Payloads

variable {ps : PageSize} {lsn : Nat} {p : Payload}

theorem imageSlot_slotsOf {pageId : Nat} {page : Bytes} (h : page.length = ps.bytes) :
    SlotsOf ps lsn [imageSlot ps lsn pageId page] := by
  refine ⟨?_, ?_, by simp, by simp [Slot.unfinished, imageSlot, BatchEntry.pageImage]⟩
  · intro slot hslot
    rw [mem_singleton.mp hslot]
    exact ⟨h, le_rfl, fun _ => ⟨rfl, rfl⟩, fun hkind => by cases hkind⟩
  · intro slot hslot piece hpiece
    rw [mem_singleton.mp hslot] at hpiece
    simp only [slotPieces, imageSlot, BatchEntry.pageImage, mem_singleton] at hpiece
    rw [hpiece]
    rfl

theorem packedSlot_slotsOf {r : LogicalRecord} (hr : r.Encodable)
    (hlen : packedLogicalEntryLen r.payload.length ≤ ps.bytes) :
    SlotsOf ps r.lsn [packedSlot ps r] := by
  refine ⟨?_, ?_, by simp, by simp [Slot.unfinished, packedSlot, BatchEntry.packedLogical]⟩
  · intro slot hslot
    rw [mem_singleton.mp hslot]
    exact packedSlot_wf hr hlen
  · intro slot hslot piece hpiece
    rw [mem_singleton.mp hslot, slotPieces_packedSlot ps hr, mem_singleton] at hpiece
    rw [hpiece]
    rfl

theorem Payload.slots_slotsOf (hlsn : lsn < u64Limit) (h : p.Valid ps) :
    SlotsOf ps lsn (p.slots ps lsn) := by
  cases p with
  | pageImage pageId page => exact imageSlot_slotsOf h.2
  | pageImageBytes pageId page =>
    exact chunkSlots_slotsOf ps
      ⟨lsn, logicalKindPageImageBytes, encodePageImageBytesPayload pageId page⟩
  | logical kind bytes =>
    rw [Payload.slots]
    split
    · rename_i hpacked
      obtain ⟨hr, hlen⟩ := isPacked_encodable hlsn h.1 hpacked
      exact packedSlot_slotsOf hr hlen
    · exact chunkSlots_slotsOf ps ⟨lsn, kind, bytes⟩

/-- A record that may join a packed page is one packed piece. -/
theorem Payload.packed_spec {r : LogicalRecord} (hlsn : lsn < u64Limit) (h : p.Valid ps)
    (hr : p.packed ps lsn = some r) :
    r.Encodable ∧ r.lsn = lsn ∧ p.pieces ps lsn = [.packed r] := by
  cases p with
  | pageImage pageId page => cases hr
  | pageImageBytes pageId page => cases hr
  | logical kind bytes =>
    rw [Payload.packed] at hr
    split at hr
    · rename_i hpacked
      cases hr
      obtain ⟨henc, -⟩ := isPacked_encodable hlsn h.1 hpacked
      refine ⟨henc, rfl, ?_⟩
      rw [Payload.pieces, Payload.slots, if_pos hpacked, flatMap_singleton]
      exact slotPieces_packedSlot ps henc
    · cases hr

end Payloads

/-! ## Sections of the append path -/

def Shard.driver (sh : Shard) : SubmittedWrites × Nat × Nat × Nat × Nat × List Nat × List Nat ×
    Option SyncInFlight :=
  (sh.submittedWrites, sh.writesInProgress, sh.appendedLsn, sh.writtenLsn, sh.durableLsn,
    sh.publishWritten, sh.publishDurable, sh.sync)

structure ShardWf (ps : PageSize) (sh : Shard) : Prop where
  active : BufferWf ps sh.active
  sealed : ∀ b ∈ sh.sealedBuffers, ∀ slot ∈ b.slots, SlotWf ps slot

/-- What a section of an append has done to the shard it started from, with
`done` the pieces it added: new sealed buffers wait for the driver. -/
structure Extends (sh₀ sh : Shard) (done : List Piece) : Prop where
  pieces : sh.pieces = sh₀.pieces ++ done
  sealed : ∃ new, sh.sealedBuffers = sh₀.sealedBuffers ++ new ∧
    ∀ b ∈ new, b.phase = .pending ∧ b.synced = false
  driver : sh.driver = sh₀.driver

section Sections

variable {cfg : Config} {sh₀ sh sh' : Shard} {done : List Piece}

theorem sealActive_cases (h : sh.sealActive = some sh') : (sh.active.batches = [] ∧ sh' = sh) ∨
      (sh.active.batches ≠ [] ∧ sh' = { sh with
        active := WalBuffer.reset sh.nextBufferEpoch
        spareBuffers := sh.spareBuffers - 1
        nextBufferEpoch := sh.nextBufferEpoch + 1
        sealedBuffers := sh.sealedBuffers ++
          [⟨sh.active.batches, sh.active.maxLsn, .pending, false⟩] }) := by
  unfold Shard.sealActive at h
  split at h
  · rename_i hempty
    cases h
    exact .inl ⟨hempty, rfl⟩
  · rename_i hne
    split at h
    · cases h
    · cases h
      exact .inr ⟨hne, rfl⟩

theorem log_sealActive (h : sh.sealActive = some sh') : sh'.log = sh.log := by
  rcases sealActive_cases h with ⟨-, rfl⟩ | ⟨-, rfl⟩
  · rfl
  · simp [Shard.log, SealedBuffer.slots, WalBuffer.slots, WalBuffer.reset]

theorem log_push (hwf : BufferWf cfg.pageSize sh.active) (slot : Slot) :
    (sh.push cfg slot).log = sh.log ++ [slot] := by
  obtain ⟨hslots, -, -, -⟩ := pushSlot_spec hwf slot
  have hactive : (sh.push cfg slot).active.slots = sh.active.slots ++ [slot] := hslots
  have hsealed : (sh.push cfg slot).sealedBuffers = sh.sealedBuffers := rfl
  simp [Shard.log, hactive, hsealed]

theorem pieces_sealActive (h : sh.sealActive = some sh') : sh'.pieces = sh.pieces := by
  rw [Shard.pieces, Shard.pieces, log_sealActive h]

theorem pieces_push (hwf : BufferWf cfg.pageSize sh.active) (slot : Slot) :
    (sh.push cfg slot).pieces = sh.pieces ++ slotPieces slot := by
  rw [Shard.pieces, Shard.pieces, log_push hwf]
  simp

theorem bufferWf_clearPacked {ps : PageSize} (h : BufferWf ps sh.active) :
    BufferWf ps sh.clearPacked.active :=
  ⟨h.slots, h.batch, fun packed hp => by cases hp⟩

theorem bufferWf_reset (ps : PageSize) (epoch : Nat) : BufferWf ps (WalBuffer.reset epoch) where
  slots := by simp
  batch := by simp [WalBuffer.reset]
  packed := by simp [WalBuffer.reset]

theorem bufferWf_push (hwf : BufferWf cfg.pageSize sh.active) {slot : Slot}
    (hslot : SlotWf cfg.pageSize slot) (hclosed : sh.active.packedLogical = none) :
    BufferWf cfg.pageSize (sh.push cfg slot).active := by
  obtain ⟨hslots, -, hpacked, batch, rest, hbatches⟩ := pushSlot_spec hwf slot
  have hactive : (sh.push cfg slot).active.slots = sh.active.slots ++ [slot] := hslots
  refine ⟨?_, ?_, ?_⟩
  · intro x hx
    rw [hactive] at hx
    rcases mem_append.mp hx with hx | hx
    · exact hwf.slots x hx
    · rw [mem_singleton.mp hx]
      exact hslot
  · intro _ hnil
    have : (sh.push cfg slot).active.batches = (slot :: batch) :: rest := hbatches
    rw [this] at hnil
    cases hnil
  intro packed hp
  simp only [Shard.push, hpacked, hclosed] at hp
  split at hp
  · rename_i hkind
    cases hp
    exact ⟨slot, batch, rest, hbatches, hkind, rfl⟩
  · cases hp

/-- The rule for the loop of an append: a property of the shard and the slots
still to append that survives clearing the packed page, sealing and filling a
slot holds where the section ends.  A caller that was not woken seals a full
buffer only. -/
theorem appendSlots_rule {P : Shard → List Slot → Prop} {woken : Bool}
    (hclear : ∀ sh slots, P sh slots → P sh.clearPacked slots)
    (hseal : ∀ sh sh' slot rest, P sh (slot :: rest) →
      woken = true ∨ sh.active.fits cfg = false → sh.sealActive = some sh' →
      P sh' (slot :: rest))
    (hpush : ∀ sh slot rest, P sh (slot :: rest) → sh.active.packedLogical = none →
      P (sh.push cfg slot) rest)
    (hwf : ∀ sh slots, P sh slots → BufferWf cfg.pageSize sh.active)
    {slots rest : List Slot} (h : P sh slots)
    (happ : sh.appendSlots cfg woken slots = some (sh', rest)) : P sh' rest := by
  induction slots generalizing sh woken with
  | nil =>
    cases happ
    exact h
  | cons slot slots ih =>
    have ihpush : ∀ {sh₁ : Shard}, P sh₁ (slot :: slots) → sh₁.active.packedLogical = none →
        Shard.appendSlots cfg false slots (sh₁.push cfg slot) = some (sh', rest) →
        P sh' rest := by
      intro sh₁ h₁ hnone happ₁
      refine ih ?_ (hpush sh₁ slot slots h₁ hnone) happ₁
      intro sh₂ sh₃ slot' rest' h₂ hfull hseal₂
      refine hseal sh₂ sh₃ slot' rest' h₂ (.inr ?_) hseal₂
      simpa using hfull
    simp only [Shard.appendSlots] at happ
    generalize hsh₁ : (if woken = true then sh else sh.clearPacked) = sh₁ at happ
    have h₁ : P sh₁ (slot :: slots) := by
      rw [← hsh₁]
      split
      · exact h
      · exact hclear sh _ h
    split at happ
    · rename_i hfull
      split at happ
      · cases happ
        exact h₁
      obtain ⟨sh₂, hseal₂, happ⟩ := Option.bind_eq_some_iff.mp happ
      have h₂ := hseal sh₁ sh₂ slot slots h₁ (by simpa using hfull) hseal₂
      refine ihpush h₂ ?_ happ
      rcases sealActive_cases hseal₂ with ⟨hempty, rfl⟩ | ⟨-, rfl⟩
      · -- an empty buffer has no open packed page
        cases hopen : sh₂.active.packedLogical with
        | none => rfl
        | some packed =>
          obtain ⟨_, _, _, hbatches, -⟩ := (hwf sh₂ _ h₁).packed packed hopen
          rw [hempty] at hbatches
          cases hbatches
      · rfl
    rename_i hroom
    have hawake : woken = false := by
      simp only [not_or, Bool.not_eq_true] at hroom
      exact hroom.1
    refine ihpush h₁ ?_ happ
    rw [← hsh₁, hawake]
    rfl

theorem Extends.refl (sh : Shard) : Extends sh sh [] :=
  ⟨by simp, ⟨[], by simp⟩, rfl⟩

theorem Extends.clearPacked (h : Extends sh₀ sh done) : Extends sh₀ sh.clearPacked done :=
  ⟨h.pieces, h.sealed, h.driver⟩

theorem Extends.sealActive (h : Extends sh₀ sh done) (hseal : sh.sealActive = some sh') :
    Extends sh₀ sh' done := by
  have hpieces := pieces_sealActive hseal
  rcases sealActive_cases hseal with ⟨-, rfl⟩ | ⟨-, rfl⟩
  · exact h
  obtain ⟨new, hnew, hpending⟩ := h.sealed
  refine ⟨by rw [hpieces, h.pieces],
    ⟨new ++ [⟨sh.active.batches, sh.active.maxLsn, .pending, false⟩], ?_, ?_⟩, h.driver⟩
  · simp only [hnew, append_assoc]
  · intro b hb
    rcases mem_append.mp hb with hb | hb
    · exact hpending b hb
    · rw [mem_singleton.mp hb]
      exact ⟨rfl, rfl⟩

theorem Extends.push (h : Extends sh₀ sh done) (hwf : BufferWf cfg.pageSize sh.active)
    (slot : Slot) : Extends sh₀ (sh.push cfg slot) (done ++ slotPieces slot) :=
  ⟨by rw [pieces_push hwf, h.pieces, append_assoc], h.sealed, h.driver⟩

theorem ShardWf.clearPacked {ps : PageSize} (h : ShardWf ps sh) : ShardWf ps sh.clearPacked :=
  ⟨bufferWf_clearPacked h.active, h.sealed⟩

theorem ShardWf.sealActive {ps : PageSize} (h : ShardWf ps sh)
    (hseal : sh.sealActive = some sh') : ShardWf ps sh' := by
  rcases sealActive_cases hseal with ⟨-, rfl⟩ | ⟨-, rfl⟩
  · exact h
  refine ⟨bufferWf_reset ps _, ?_⟩
  intro b hb
  rcases mem_append.mp hb with hb | hb
  · exact h.sealed b hb
  · rw [mem_singleton.mp hb]
    exact h.active.slots

theorem ShardWf.push (h : ShardWf cfg.pageSize sh) {slot : Slot}
    (hslot : SlotWf cfg.pageSize slot) (hclosed : sh.active.packedLogical = none) :
    ShardWf cfg.pageSize (sh.push cfg slot) :=
  ⟨bufferWf_push h.active hslot hclosed, h.sealed⟩

/-- The loop of an append adds the slots it has finished and keeps the rest. -/
theorem appendSlots_spec {lsn : Nat} {woken : Bool} {slots rest : List Slot}
    (hwf : ShardWf cfg.pageSize sh) (hslots : SlotsOf cfg.pageSize lsn slots)
    (happ : sh.appendSlots cfg woken slots = some (sh', rest)) :
    ShardWf cfg.pageSize sh' ∧ SlotsOf cfg.pageSize lsn rest ∧
      ∃ placed, placed ++ rest = slots ∧ sh'.log = sh.log ++ placed ∧
        Extends sh sh' (placed.flatMap slotPieces) := by
  let P : Shard → List Slot → Prop := fun sh₁ rest₁ =>
    ShardWf cfg.pageSize sh₁ ∧ SlotsOf cfg.pageSize lsn rest₁ ∧
      ∃ placed, placed ++ rest₁ = slots ∧ sh₁.log = sh.log ++ placed ∧
        Extends sh sh₁ (placed.flatMap slotPieces)
  have hstart : P sh slots := ⟨hwf, hslots, [], rfl, by simp, Extends.refl sh⟩
  refine appendSlots_rule (P := P) ?_ ?_ ?_ (fun sh₁ rest₁ h => h.1.active) hstart happ
  · rintro sh₁ rest₁ ⟨h₁, h₂, placed, h₃, h₄, h₅⟩
    exact ⟨h₁.clearPacked, h₂, placed, h₃, h₄, h₅.clearPacked⟩
  · rintro sh₁ sh₂ slot rest₁ ⟨h₁, h₂, placed, h₃, h₄, h₅⟩ - hseal
    exact ⟨h₁.sealActive hseal, h₂, placed, h₃, by rw [log_sealActive hseal, h₄],
      h₅.sealActive hseal⟩
  rintro sh₁ slot rest₁ ⟨h₁, h₂, placed, h₃, h₄, h₅⟩ hclosed
  refine ⟨h₁.push (h₂.wf slot mem_cons_self) hclosed, h₂.tail, placed ++ [slot], ?_, ?_, ?_⟩
  · rw [append_assoc]
    exact h₃
  · rw [log_push h₁.active, h₄, append_assoc]
  · have := h₅.push h₁.active slot
    simpa using this

/-- The first section of an append adds the record to the open packed page, or
its first slots to the log. -/
theorem beginAppend_spec {lsn : Nat} {p : Payload} {rest : List Slot}
    (hwf : ShardWf cfg.pageSize sh) (hlsn : lsn < u64Limit) (hp : p.Valid cfg.pageSize)
    (happ : sh.beginAppend cfg lsn p = some (sh', rest)) :
    ShardWf cfg.pageSize sh' ∧ SlotsOf cfg.pageSize lsn rest ∧
      ((rest = [] ∧ (∀ slot ∈ sh'.log.getLast?, slot.unfinished = false) ∧
          Extends sh sh' (p.pieces cfg.pageSize lsn)) ∨
        ∃ placed, placed ++ rest = p.slots cfg.pageSize lsn ∧ sh'.log = sh.log ++ placed ∧
          Extends sh sh' (placed.flatMap slotPieces)) := by
  have hslots := Payload.slots_slotsOf hlsn hp
  have hloop : sh.appendSlots cfg false (p.slots cfg.pageSize lsn) = some (sh', rest) → _ :=
    appendSlots_spec hwf hslots
  unfold Shard.beginAppend at happ
  split at happ
  · rename_i r hpacked
    obtain ⟨hr, -, hpieces⟩ := Payload.packed_spec hlsn hp hpacked
    split at happ
    · rename_i active hjoin
      cases happ
      obtain ⟨hwf', hnew, hlast⟩ := tryAppendPackedLogical_spec hwf.active hr hjoin
      refine ⟨⟨hwf', hwf.sealed⟩, .nil _ _, .inl ⟨rfl, ?_, ?_, ⟨[], by simp⟩, rfl⟩⟩
      · intro slot hslot
        obtain ⟨last, hactive, hkind⟩ := hlast
        rw [Shard.log, List.getLast?_append, hactive] at hslot
        cases hslot
        simp [Slot.unfinished, hkind]
      · rw [hpieces]
        simp [Shard.pieces, Shard.log, flatMap_append, hnew]
    · obtain ⟨h₁, h₂, h₃⟩ := hloop happ
      exact ⟨h₁, h₂, .inr h₃⟩
  · obtain ⟨h₁, h₂, h₃⟩ := hloop happ
    exact ⟨h₁, h₂, .inr h₃⟩

/-- What a section has placed and what is left make up the record. -/
theorem beginAppend_pieces {lsn : Nat} {p : Payload} {rest : List Slot}
    (hwf : ShardWf cfg.pageSize sh) (hlsn : lsn < u64Limit) (hp : p.Valid cfg.pageSize)
    (happ : sh.beginAppend cfg lsn p = some (sh', rest)) :
    ∃ done, Extends sh sh' done ∧ done ++ rest.flatMap slotPieces = p.pieces cfg.pageSize lsn := by
  obtain ⟨-, -, h⟩ := beginAppend_spec hwf hlsn hp happ
  rcases h with ⟨rfl, -, hext⟩ | ⟨placed, hplaced, -, hext⟩
  · exact ⟨_, hext, by simp⟩
  · refine ⟨_, hext, ?_⟩
    rw [← flatMap_append, hplaced, Payload.pieces]

end Sections

end Pagebox.Wal
