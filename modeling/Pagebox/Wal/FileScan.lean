import Pagebox.Wal.FileFormat
import Pagebox.Wal.Replay

/-!
# Reading a shard file

Opening a shard file and replaying its records, on the bytes of the file
(`open_wal_file`, `scan_valid_records` and `replay_records` of
`wal/src/wal_impl.rs`).  Both loops read batch after batch; `readBatches` is what
they read, before any data page is checked.
-/

namespace Pagebox.Wal

open Pagebox.Base List

section Reading

variable (ps : PageSize) (crc : Bytes → Nat)

def dataPage (bytes : Bytes) (idx : Nat) : Bytes :=
  (bytes.drop ((idx + 1) * ps.bytes)).take ps.bytes

def nextBatch (bytes : Bytes) : Option (List (RawEntry × Bytes) × Bytes) :=
  if bytes.length < ps.bytes then none
  else
    match batchMetaCount ps crc (bytes.take ps.bytes) with
    | none => none
    | some count =>
      if bytes.length < (count + 1) * ps.bytes then none
      else some ((List.range count).map fun idx =>
          (readBatchEntry (bytes.take ps.bytes) idx, dataPage ps bytes idx),
        bytes.drop ((count + 1) * ps.bytes))

def readBatches : Nat → Bytes → List (List (RawEntry × Bytes))
  | 0, _ => []
  | fuel + 1, bytes =>
    match nextBatch ps crc bytes with
    | none => []
    | some (batch, rest) => batch :: readBatches fuel rest

/-- Entries that end a record count for the highest LSN. -/
def RawEntry.endsRecord (e : RawEntry) : Bool :=
  e.kind = 1 ∨ e.kind = 3 ∨ e.flags &&& logicalFlagLast = logicalFlagLast

/-- The inner loop of `scan_valid_records`: the highest LSN so far, and whether
every data page is intact. -/
def scanEntries : List (RawEntry × Bytes) → Nat → Nat × Bool
  | [], maxLsn => (maxLsn, true)
  | (e, data) :: rest, maxLsn =>
    match validateRawEntry ps crc e data with
    | none => (maxLsn, false)
    | some _ => scanEntries rest (if e.endsRecord then max maxLsn e.lsn else maxLsn)

/-- The outer loop of `scan_valid_records`: the highest LSN and the bytes that are
kept. -/
def scanBatches : List (List (RawEntry × Bytes)) → Nat → Nat → Nat × Nat
  | [], maxLsn, valid => (maxLsn, valid)
  | batch :: rest, maxLsn, valid =>
    match scanEntries ps crc batch maxLsn with
    | (maxLsn, false) => (maxLsn, valid)
    | (maxLsn, true) => scanBatches rest maxLsn (valid + (batch.length + 1) * ps.bytes)

def scanValidRecords (bytes : Bytes) : Nat × Nat :=
  scanBatches ps crc (readBatches ps crc bytes.length bytes) 0 0

def checkRaw (x : RawEntry × Bytes) : Option CheckedEntry :=
  (validateRawEntry ps crc x.1 x.2).map fun payload =>
    if x.1.kind = 1 then .image x.1.lsn x.1.arg payload
    else if x.1.kind = 2 then
      .chunk x.1.lsn x.1.arg (x.1.flags &&& logicalFlagFirst = logicalFlagFirst)
        (x.1.flags &&& logicalFlagLast = logicalFlagLast) payload
    else .packed x.1.lsn payload

/-- The loop body of `replay_records`. -/
def replayRaw (part : Partial) (x : RawEntry × Bytes) : List ReplayRecord × Option Partial :=
  replayEntry ps part (checkRaw ps crc x)

def replayFile (bytes : Bytes) : List ReplayRecord :=
  (scan (replayRaw ps crc) .empty (readBatches ps crc bytes.length bytes).flatten).1

end Reading

def walMagic : Nat := 0x4257414C

def segmentSize : Nat := 64 * 1024 * 1024

def buildWalHeader (ps : PageSize) (directIo : Bool) : Bytes :=
  padTo ps.bytes (leBytes 4 walMagic ++ (leBytes 2 walVersion ++
    (leBytes 2 (if directIo then 1 else 0) ++ leBytes 8 ps.bytes)))

def validateWalHeader (ps : PageSize) (header : Bytes) : Bool :=
  field header 0 4 = walMagic ∧ field header 4 2 = walVersion ∧ field header 8 8 = ps.bytes

def roundUp (n align : Nat) : Nat := (n + align - 1) / align * align

/-- `OpenWalFile`: the file and what opening it found. -/
structure OpenWalFile where
  file : Bytes
  fileOffset : Nat
  maxLsn : Nat

def openWalFile (ps : PageSize) (crc : Bytes → Nat) (directIo : Bool) (file : Bytes) :
    Option OpenWalFile :=
  if file.length < ps.bytes then
    some ⟨padTo segmentSize (buildWalHeader ps directIo), ps.bytes, 0⟩
  else if validateWalHeader ps (file.take ps.bytes) then
    let (maxLsn, valid) := scanValidRecords ps crc (file.drop ps.bytes)
    let validEnd := ps.bytes + valid
    some ⟨padTo (max (roundUp validEnd segmentSize) segmentSize) (file.take validEnd), validEnd,
      maxLsn⟩
  else none

/-- `replay_records` of a file whose records end at `fileOffset`. -/
def replayOpened (ps : PageSize) (crc : Bytes → Nat) (file : Bytes) (fileOffset : Nat) :
    List ReplayRecord :=
  replayFile ps crc ((file.take fileOffset).drop ps.bytes)

/-! ## Batches as they are written -/

def finalBatch (ps : PageSize) (crc : Bytes → Nat) (slots : List Slot) : Bytes :=
  let es := slots.map fun slot => (finalizeSlot crc slot).entry
  metaPage ps (crc (metaPage ps 0 es)) es ++ slots.flatMap Slot.data

/-- A slot as it can stand in a file.  The entry of a packed page has the highest LSN
of its records. -/
structure SlotOk (ps : PageSize) (slot : Slot) : Prop where
  wf : SlotWf ps slot
  lsn : slot.entry.lsn < 2 ^ 64
  arg : slot.entry.arg < 2 ^ 64
  crc : slot.entry.crc < 2 ^ 32
  bound : ∀ piece ∈ slotPieces slot, piece.lsn ≤ slot.entry.lsn

structure BatchOk (ps : PageSize) (slots : List Slot) : Prop where
  nonempty : slots ≠ []
  le : slots.length ≤ batchMaxRecords ps
  slots : ∀ slot ∈ slots, SlotOk ps slot

def Slot.rawFinal (crc : Bytes → Nat) (slot : Slot) : RawEntry × Bytes :=
  ((finalizeSlot crc slot).entry.raw, slot.data)

section Batches

variable {ps : PageSize} {crc : Bytes → Nat} {slots : List Slot}

theorem length_flatMap_data (h : ∀ slot ∈ slots, slot.data.length = ps.bytes) :
    (slots.flatMap Slot.data).length = slots.length * ps.bytes := by
  induction slots with
  | nil => rw [flatMap_nil, length_nil, length_nil, Nat.zero_mul]
  | cons slot slots ih =>
    rw [flatMap_cons, length_append, h slot mem_cons_self,
      ih fun x hx => h x (mem_cons_of_mem slot hx), length_cons, Nat.succ_mul,
      Nat.add_comm]

theorem drop_take_flatMap_data (h : ∀ slot ∈ slots, slot.data.length = ps.bytes) (rest : Bytes)
    {i : Nat} (hi : i < slots.length) :
    ((slots.flatMap Slot.data ++ rest).drop (i * ps.bytes)).take ps.bytes = slots[i].data := by
  have hsplit : slots = slots.take i ++ slots[i] :: slots.drop (i + 1) := by
    rw [getElem_cons_drop, take_append_drop]
  have hbefore : ((slots.take i).flatMap Slot.data).length = i * ps.bytes := by
    rw [length_flatMap_data fun slot hslot => h slot (mem_of_mem_take hslot),
      length_take_of_le hi.le]
  have hdata : slots.flatMap Slot.data ++ rest =
      (slots.take i).flatMap Slot.data ++ (slots[i].data ++
        ((slots.drop (i + 1)).flatMap Slot.data ++ rest)) := by
    conv_lhs => rw [hsplit]
    simp only [flatMap_append, flatMap_cons, append_assoc]
  rw [hdata, drop_take_middle hbefore (h _ (getElem_mem hi))]

theorem finalEntry_fits (hcrc : ∀ bytes, crc bytes < 2 ^ 32) {slot : Slot} (h : SlotOk ps slot) :
    (finalizeSlot crc slot).entry.Fits := by
  have hle := PageSize.bytes_le ps
  have hlen := h.wf.len
  refine ⟨h.lsn, h.arg, ?_, ?_⟩
  · show slotCrc crc slot < 2 ^ 32
    unfold slotCrc
    split <;> exact hcrc _
  · show slot.entry.len < 2 ^ 32
    omega

theorem length_finalBatch (h : BatchOk ps slots) :
    (finalBatch ps crc slots).length = (slots.length + 1) * ps.bytes := by
  rw [finalBatch, length_append, length_metaPage _ (by rw [length_map]; exact h.le),
    length_flatMap_data fun slot hslot => (h.slots slot hslot).wf.size, Nat.succ_mul, Nat.add_comm]

theorem nextBatch_finalBatch (hcrc : ∀ bytes, crc bytes < 2 ^ 32) (h : BatchOk ps slots)
    (rest : Bytes) :
    nextBatch ps crc (finalBatch ps crc slots ++ rest) =
      some (slots.map (Slot.rawFinal crc), rest) := by
  set es := slots.map fun slot => (finalizeSlot crc slot).entry with hes
  have hlength : es.length = slots.length := length_map _
  have hmeta : (metaPage ps (crc (metaPage ps 0 es)) es).length = ps.bytes :=
    length_metaPage _ (by rw [hlength]; exact h.le)
  have hbytes : finalBatch ps crc slots ++ rest =
      metaPage ps (crc (metaPage ps 0 es)) es ++ (slots.flatMap Slot.data ++ rest) := by
    rw [finalBatch, append_assoc]
  have htake : (finalBatch ps crc slots ++ rest).take ps.bytes =
      metaPage ps (crc (metaPage ps 0 es)) es := by
    rw [hbytes, ← hmeta, take_left]
  have htotal : (finalBatch ps crc slots).length = (slots.length + 1) * ps.bytes :=
    length_finalBatch h
  have hne : es ≠ [] := by
    rw [hes, Ne, map_eq_nil_iff]
    exact h.nonempty
  have hcount := batchMetaCount_metaPage hcrc hne (by rw [hlength]; exact h.le)
  have hlong : ¬(finalBatch ps crc slots ++ rest).length < ps.bytes := by
    rw [length_append, htotal, Nat.succ_mul]
    omega
  have hall : ¬(finalBatch ps crc slots ++ rest).length < (es.length + 1) * ps.bytes := by
    rw [length_append, htotal, hlength]
    omega
  have hrest : (finalBatch ps crc slots ++ rest).drop ((es.length + 1) * ps.bytes) = rest := by
    rw [hlength, ← htotal, drop_left]
  rw [nextBatch, if_neg hlong, htake, hcount]
  dsimp only
  rw [if_neg hall, hrest, hlength]
  congr 2
  refine ext_getElem (by simp) fun i hi hi' => ?_
  have hlt : i < slots.length := by simpa using hi
  have hpage : dataPage ps (finalBatch ps crc slots ++ rest) i = slots[i].data := by
    rw [dataPage, hbytes, Nat.succ_mul, Nat.add_comm, ← List.drop_drop, ← hmeta, drop_left,
      hmeta, drop_take_flatMap_data (fun slot hslot => (h.slots slot hslot).wf.size) rest hlt]
  have hget : es[i] = (finalizeSlot crc slots[i]).entry := by simp [hes]
  have hi : i < es.length := by rwa [hlength]
  have hentry := readBatchEntry_metaPage ps (crc (metaPage ps 0 es)) hi
    (by rw [hget]; exact finalEntry_fits hcrc (h.slots _ (getElem_mem hlt)))
  simp only [getElem_map, getElem_range, hpage, hentry, hget, Slot.rawFinal]

theorem readBatches_finalBatches (hcrc : ∀ bytes, crc bytes < 2 ^ 32) {batches : List (List Slot)}
    (h : ∀ slots ∈ batches, BatchOk ps slots) {fuel : Nat} (hfuel : batches.length ≤ fuel)
    (tail : Bytes) :
    readBatches ps crc fuel (batches.flatMap (finalBatch ps crc) ++ tail) =
      batches.map (List.map (Slot.rawFinal crc)) ++
        readBatches ps crc (fuel - batches.length) tail := by
  induction batches generalizing fuel with
  | nil => simp
  | cons slots batches ih =>
    obtain ⟨fuel, rfl⟩ : ∃ n, fuel = n + 1 :=
      ⟨fuel - 1, by rw [length_cons] at hfuel; omega⟩
    have hih := ih (fun x hx => h x (mem_cons_of_mem slots hx))
      (by rw [length_cons] at hfuel; omega : batches.length ≤ fuel)
    rw [flatMap_cons, append_assoc, readBatches, nextBatch_finalBatch hcrc (h slots mem_cons_self)]
    dsimp only
    rw [hih, map_cons, cons_append, length_cons, Nat.add_sub_add_right]

theorem length_le_finalBatches (crc : Bytes → Nat) {batches : List (List Slot)}
    (h : ∀ slots ∈ batches, BatchOk ps slots) (tail : Bytes) :
    batches.length ≤ (batches.flatMap (finalBatch ps crc) ++ tail).length := by
  have hle := PageSize.le_bytes ps
  induction batches with
  | nil => exact Nat.zero_le _
  | cons slots batches ih =>
    have hih := ih fun x hx => h x (mem_cons_of_mem slots hx)
    rw [flatMap_cons, append_assoc, length_append,
      length_finalBatch (h slots mem_cons_self), length_cons, Nat.succ_mul]
    omega

theorem readBatches_nil (fuel : Nat) : readBatches ps crc fuel [] = [] := by
  have hlt : ([] : Bytes).length < ps.bytes :=
    Nat.lt_of_lt_of_le (by decide) (PageSize.le_bytes ps)
  cases fuel with
  | zero => rfl
  | succ fuel =>
    rw [readBatches, nextBatch, if_pos hlt]

theorem flags_first (e : BatchEntry) :
    (e.flags &&& logicalFlagFirst = logicalFlagFirst) ↔ e.first = true := by
  unfold BatchEntry.flags logicalFlagFirst logicalFlagLast
  cases e.first <;> cases e.last <;> decide

theorem flags_last (e : BatchEntry) :
    (e.flags &&& logicalFlagLast = logicalFlagLast) ↔ e.last = true := by
  unfold BatchEntry.flags logicalFlagFirst logicalFlagLast
  cases e.first <;> cases e.last <;> decide

/-- The bytes of a slot pass the check as the slot they stand for. -/
theorem checkRaw_rawFinal (slot : Slot) :
    checkRaw ps crc (slot.rawFinal crc) = (finalizeSlot crc slot).check ps crc := by
  have hdata : (finalizeSlot crc slot).data = slot.data := rfl
  rw [checkRaw, Slot.check, Slot.rawFinal, hdata, validateRawEntry_raw]
  generalize (finalizeSlot crc slot).entry = e
  have hfirst : decide (e.flags &&& logicalFlagFirst = logicalFlagFirst) = e.first := by
    simp only [flags_first, Bool.decide_eq_true]
  have hlast : decide (e.flags &&& logicalFlagLast = logicalFlagLast) = e.last := by
    simp only [flags_last, Bool.decide_eq_true]
  cases hkind : e.kind <;> simp [BatchEntry.raw, hkind, RecordKind.code, hfirst, hlast]

theorem replayFile_finalBatches (hcrc : ∀ bytes, crc bytes < 2 ^ 32) {batches : List (List Slot)}
    (h : ∀ slots ∈ batches, BatchOk ps slots) :
    replayFile ps crc (batches.flatMap (finalBatch ps crc)) =
      replayRecords ps crc (batches.flatten.map (finalizeSlot crc)) := by
  have hread := readBatches_finalBatches hcrc h (length_le_finalBatches crc h []) []
  rw [append_nil, readBatches_nil, append_nil] at hread
  have hflat : (batches.map (List.map (Slot.rawFinal crc))).flatten =
      batches.flatten.map (Slot.rawFinal crc) := map_flatten.symm
  rw [replayFile, hread, hflat, replayRecords, scan_map, scan_map]
  simp only [replayRaw, checkRaw_rawFinal, replaySlot]

def lastLsn (slots : List Slot) (maxLsn : Nat) : Nat :=
  slots.foldl (fun maxLsn slot =>
    if slot.entry.kind ≠ .logical ∨ slot.entry.last then max maxLsn slot.entry.lsn else maxLsn)
      maxLsn

theorem endsRecord_raw (crc : Bytes → Nat) (slot : Slot) :
    (finalizeSlot crc slot).entry.raw.endsRecord = true ↔
      (slot.entry.kind ≠ .logical ∨ slot.entry.last = true) := by
  have hlast := flags_last (finalizeSlot crc slot).entry
  have hentry : (finalizeSlot crc slot).entry.last = slot.entry.last := rfl
  have hkind : (finalizeSlot crc slot).entry.raw.kind = slot.entry.kind.code := rfl
  have hflags : (finalizeSlot crc slot).entry.raw.flags = (finalizeSlot crc slot).entry.flags := rfl
  rw [RawEntry.endsRecord, decide_eq_true_eq, hkind, hflags, hlast, hentry]
  cases slot.entry.kind <;> simp [RecordKind.code]

theorem scanEntries_rawFinal (h : ∀ slot ∈ slots, SlotWf ps slot) (maxLsn : Nat) :
    scanEntries ps crc (slots.map (Slot.rawFinal crc)) maxLsn = (lastLsn slots maxLsn, true) := by
  induction slots generalizing maxLsn with
  | nil => rfl
  | cons slot slots ih =>
    have hslot := h slot mem_cons_self
    have hvalid := validateEntryData_finalizeSlot hslot crc
    have hdata : (finalizeSlot crc slot).data = slot.data := rfl
    have hends := endsRecord_raw crc slot
    rw [hdata] at hvalid
    rw [map_cons, Slot.rawFinal, scanEntries, validateRawEntry_raw, hvalid]
    dsimp only
    rw [ih (fun x hx => h x (mem_cons_of_mem slot hx)), lastLsn, lastLsn, foldl_cons]
    congr 2
    exact if_congr hends rfl rfl

theorem scanBatches_finalBatches {batches : List (List Slot)}
    (h : ∀ slots ∈ batches, BatchOk ps slots) (rest : List (List (RawEntry × Bytes)))
    (maxLsn valid : Nat) :
    scanBatches ps crc (batches.map (List.map (Slot.rawFinal crc)) ++ rest) maxLsn valid =
      scanBatches ps crc rest (lastLsn batches.flatten maxLsn)
        (valid + (batches.flatMap (finalBatch ps crc)).length) := by
  induction batches generalizing maxLsn valid with
  | nil => rfl
  | cons slots batches ih =>
    have hok := h slots mem_cons_self
    rw [map_cons, cons_append, scanBatches,
      scanEntries_rawFinal fun slot hslot => (hok.slots slot hslot).wf]
    dsimp only
    rw [ih fun x hx => h x (mem_cons_of_mem slots hx), length_map, flatten_cons,
      flatMap_cons, length_append, length_finalBatch hok, Nat.add_assoc, lastLsn, lastLsn,
      lastLsn, foldl_append]

def startsWithBatch (ps : PageSize) (crc : Bytes → Nat) (bytes : Bytes) : Bool :=
  match nextBatch ps crc bytes with
  | none => false
  | some (batch, _) => (scanEntries ps crc batch 0).2

theorem scanEntries_snd (batch : List (RawEntry × Bytes)) (m m' : Nat) :
    (scanEntries ps crc batch m).2 = (scanEntries ps crc batch m').2 := by
  induction batch generalizing m m' with
  | nil => rfl
  | cons x batch ih =>
    rw [scanEntries, scanEntries]
    cases validateRawEntry ps crc x.1 x.2 with
    | none => rfl
    | some _ => exact ih _ _

theorem le_scanEntries (batch : List (RawEntry × Bytes)) (m : Nat) :
    m ≤ (scanEntries ps crc batch m).1 := by
  induction batch generalizing m with
  | nil => exact le_rfl
  | cons x batch ih =>
    rw [scanEntries]
    cases validateRawEntry ps crc x.1 x.2 with
    | none => exact le_rfl
    | some _ =>
      refine le_trans ?_ (ih _)
      split
      · exact Nat.le_max_left _ _
      · exact le_rfl

/-- A tail that does not start with an intact batch adds no bytes, and one that starts
with none no LSN. -/
theorem scanBatches_tail {tail : Bytes} (h : startsWithBatch ps crc tail = false)
    (fuel maxLsn valid : Nat) :
    (scanBatches ps crc (readBatches ps crc fuel tail) maxLsn valid).2 = valid ∧
      maxLsn ≤ (scanBatches ps crc (readBatches ps crc fuel tail) maxLsn valid).1 ∧
      (nextBatch ps crc tail = none →
        (scanBatches ps crc (readBatches ps crc fuel tail) maxLsn valid).1 = maxLsn) := by
  cases fuel with
  | zero => exact ⟨rfl, le_rfl, fun _ => rfl⟩
  | succ fuel =>
    rw [readBatches]
    rw [startsWithBatch] at h
    cases hnext : nextBatch ps crc tail with
    | none => exact ⟨rfl, le_rfl, fun _ => rfl⟩
    | some x =>
      rw [hnext] at h
      dsimp only at h ⊢
      have hbad : (scanEntries ps crc x.1 maxLsn).2 = _ := scanEntries_snd x.1 maxLsn 0
      rw [h] at hbad
      have hle : maxLsn ≤ (scanEntries ps crc x.1 maxLsn).1 := le_scanEntries x.1 maxLsn
      rw [scanBatches]
      cases hscan : scanEntries ps crc x.1 maxLsn with
      | mk m ok =>
        rw [hscan] at hbad hle
        cases hbad
        exact ⟨rfl, hle, by simp⟩

/-- Scanning a file of written batches keeps exactly these batches. -/
theorem scanValidRecords_finalBatches (hcrc : ∀ bytes, crc bytes < 2 ^ 32)
    {batches : List (List Slot)} (h : ∀ slots ∈ batches, BatchOk ps slots) {tail : Bytes}
    (htail : startsWithBatch ps crc tail = false) :
    (scanValidRecords ps crc (batches.flatMap (finalBatch ps crc) ++ tail)).2 =
        (batches.flatMap (finalBatch ps crc)).length ∧
      lastLsn batches.flatten 0 ≤
        (scanValidRecords ps crc (batches.flatMap (finalBatch ps crc) ++ tail)).1 ∧
      (nextBatch ps crc tail = none →
        (scanValidRecords ps crc (batches.flatMap (finalBatch ps crc) ++ tail)).1 =
          lastLsn batches.flatten 0) := by
  rw [scanValidRecords, readBatches_finalBatches hcrc h (length_le_finalBatches crc h tail),
    scanBatches_finalBatches h, Nat.zero_add]
  exact scanBatches_tail htail _ _ _

theorem openWalFile_finalBatches (hcrc : ∀ bytes, crc bytes < 2 ^ 32) {header : Bytes}
    (hlen : header.length = ps.bytes) (hheader : validateWalHeader ps header = true)
    {batches : List (List Slot)} (h : ∀ slots ∈ batches, BatchOk ps slots) {tail : Bytes}
    (htail : startsWithBatch ps crc tail = false) (directIo : Bool) :
    ∃ o, openWalFile ps crc directIo
      (header ++ batches.flatMap (finalBatch ps crc) ++ tail) = some o ∧
      o.fileOffset = (header ++ batches.flatMap (finalBatch ps crc)).length ∧
      (∃ n, o.file = header ++ batches.flatMap (finalBatch ps crc) ++ replicate n 0) ∧
      lastLsn batches.flatten 0 ≤ o.maxLsn ∧
      (nextBatch ps crc tail = none → o.maxLsn = lastLsn batches.flatten 0) := by
  obtain ⟨hvalid, hlast⟩ := scanValidRecords_finalBatches hcrc h htail
  rw [append_assoc]
  have hlong : ¬(header ++ (batches.flatMap (finalBatch ps crc) ++ tail)).length < ps.bytes := by
    rw [length_append, hlen]
    omega
  have hend : ps.bytes + (batches.flatMap (finalBatch ps crc)).length =
      (header ++ batches.flatMap (finalBatch ps crc)).length := by
    rw [length_append, hlen]
  rw [openWalFile, if_neg hlong, ← hlen, take_left, drop_left, hlen, if_pos hheader]
  generalize scanValidRecords ps crc (batches.flatMap (finalBatch ps crc) ++ tail) =
    found at hvalid hlast
  obtain ⟨maxLsn, valid⟩ := found
  obtain rfl : valid = (batches.flatMap (finalBatch ps crc)).length := hvalid
  refine ⟨_, rfl, hend, ⟨max
    (roundUp (header ++ batches.flatMap (finalBatch ps crc)).length segmentSize)
    segmentSize - (header ++ batches.flatMap (finalBatch ps crc)).length, ?_⟩, hlast⟩
  rw [hend, ← append_assoc, take_left, padTo]

theorem nextBatch_zeros (n : Nat) : nextBatch ps crc (replicate n 0) = none := by
  rw [nextBatch]
  split
  · rfl
  have hmagic : leNat (((replicate n (0 : UInt8)).take ps.bytes).take 4) ≠ 0x424D4554 := by
    rw [take_replicate, take_replicate, leNat_replicate_zero]
    decide
  have hcount : batchMetaCountUnchecked ps ((replicate n 0).take ps.bytes) = none := by
    rw [batchMetaCountUnchecked, if_pos hmagic]
    exact ite_self none
  rw [batchMetaCount, hcount]

theorem startsWithBatch_zeros (n : Nat) : startsWithBatch ps crc (replicate n 0) = false := by
  rw [startsWithBatch, nextBatch_zeros]

end Batches

end Pagebox.Wal
