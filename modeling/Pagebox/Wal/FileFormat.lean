import Pagebox.Wal.Overwrite

/-!
# The bytes of a batch

Entries, meta pages and whole batches as they stand in a shard file
(`wal/src/format.rs`).  A meta page holds a header and one entry for each data
page; its checksum is taken with the checksum field zero.
-/

namespace Pagebox.Wal

open Pagebox.Base List

variable (page : Bytes)

def field (offset width : Nat) : Nat := leNat ((page.drop offset).take width)

/-- An entry as it is read, with any kind and flags. -/
structure RawEntry where
  lsn : Nat
  arg : Nat
  crc : Nat
  len : Nat
  kind : Nat
  flags : Nat
  deriving DecidableEq

def RecordKind.code : RecordKind → Nat
  | .pageImage => 1
  | .logical => 2
  | .logicalPacked => 3

def logicalFlagFirst : Nat := 1

def logicalFlagLast : Nat := 2

def BatchEntry.flags (e : BatchEntry) : Nat :=
  (if e.first then logicalFlagFirst else 0) + (if e.last then logicalFlagLast else 0)

def BatchEntry.raw (e : BatchEntry) : RawEntry := ⟨e.lsn, e.arg, e.crc, e.len, e.kind.code, e.flags⟩

/-- The bytes `write_batch_entry` writes; the last two bytes of an entry stay. -/
def RawEntry.bytes (e : RawEntry) : Bytes :=
  leBytes 8 e.lsn ++ (leBytes 8 e.arg ++ (leBytes 4 e.crc ++ (leBytes 4 e.len ++
    (leBytes 1 e.kind ++ leBytes 1 e.flags))))

def batchEntryOffset (idx : Nat) : Nat := batchMetaHeaderSize + idx * batchEntrySize

def writeBatchEntry (idx : Nat) (e : RawEntry) : Bytes :=
  writeAt page (batchEntryOffset idx) e.bytes

def overwriteBatchEntryLsn (idx lsn : Nat) : Bytes :=
  writeAt page (batchEntryOffset idx) (leBytes 8 lsn)

def overwriteBatchEntryCrc (idx crc : Nat) : Bytes :=
  writeAt page (batchEntryOffset idx + 16) (leBytes 4 crc)

def readBatchEntry (idx : Nat) : RawEntry :=
  let offset := batchEntryOffset idx
  { lsn := field page offset 8
    arg := field page (offset + 8) 8
    crc := field page (offset + 16) 4
    len := field page (offset + 20) 4
    kind := field page (offset + 24) 1
    flags := field page (offset + 25) 1 }

/-- `validate_entry_data`, with the kinds and flags it refuses. -/
def validateRawEntry (ps : PageSize) (crc : Bytes → Nat) (e : RawEntry) (data : Bytes) :
    Option Bytes :=
  if e.kind = 1 then
    if e.flags ≠ 0 ∨ data.length ≠ ps.bytes then none
    else if crc data = e.crc then some data else none
  else if e.kind = 2 then
    if logicalChunkMaxLen ps < e.len ∨ data.length < e.len then none
    else if logicalFlagFirst + logicalFlagLast < e.flags then none
    else if crc (data.take e.len) = e.crc then some (data.take e.len) else none
  else if e.kind = 3 then
    if e.flags ≠ 0 ∨ data.length < e.len then none
    else if crc (data.take e.len) = e.crc then some (data.take e.len) else none
  else none

def batchMetaMagic : Nat := 0x424D4554

def walVersion : Nat := 4

def initBatchMeta (ps : PageSize) : Bytes :=
  padTo ps.bytes (leBytes 4 batchMetaMagic ++ leBytes 2 walVersion)

def setBatchMetaCount (count : Nat) : Bytes := writeAt page 6 (leBytes 2 count)

def batchMetaCrc (crc : Bytes → Nat) (page : Bytes) : Nat :=
  crc (page.take 8 ++ (leBytes 4 0 ++ page.drop 12))

def finalizeBatchMeta (crc : Bytes → Nat) (page : Bytes) : Bytes :=
  writeAt page 8 (leBytes 4 (batchMetaCrc crc page))

def batchMetaCount (ps : PageSize) (crc : Bytes → Nat) (page : Bytes) : Option Nat :=
  match batchMetaCountUnchecked ps page with
  | none => none
  | some count => if field page 8 4 = batchMetaCrc crc page then some count else none

/-! ## Meta pages of given entries -/

def BatchEntry.bytes (e : BatchEntry) : Bytes := e.raw.bytes ++ replicate 2 0

/-- The header of a meta page. -/
def metaHead (count crc : Nat) : Bytes :=
  leBytes 4 batchMetaMagic ++ (leBytes 2 walVersion ++ (leBytes 2 count ++
    (leBytes 4 crc ++ leBytes 4 0)))

def metaPage (ps : PageSize) (crc : Nat) (es : List BatchEntry) : Bytes :=
  padTo ps.bytes (metaHead es.length crc ++ es.flatMap BatchEntry.bytes)

structure BatchEntry.Fits (e : BatchEntry) : Prop where
  lsn : e.lsn < 2 ^ 64
  arg : e.arg < 2 ^ 64
  crc : e.crc < 2 ^ 32
  len : e.len < 2 ^ 32

section Entries

theorem length_rawBytes (e : RawEntry) : e.bytes.length = 26 := by
  simp [RawEntry.bytes]

theorem length_entryBytes (e : BatchEntry) : e.bytes.length = batchEntrySize := by
  simp [BatchEntry.bytes, length_rawBytes, batchEntrySize]

theorem length_entriesBytes (es : List BatchEntry) :
    (es.flatMap BatchEntry.bytes).length = es.length * batchEntrySize := by
  induction es with
  | nil => rw [flatMap_nil, length_nil, length_nil, Nat.zero_mul]
  | cons e es ih =>
    rw [flatMap_cons, length_append, ih, length_entryBytes, length_cons, Nat.succ_mul, Nat.add_comm]

theorem length_metaHead (count crc : Nat) : (metaHead count crc).length = batchMetaHeaderSize := by
  simp [metaHead, batchMetaHeaderSize]

theorem entries_fit {ps : PageSize} {n : Nat} (h : n ≤ batchMaxRecords ps) :
    batchMetaHeaderSize + n * batchEntrySize ≤ ps.bytes := by
  have hle := PageSize.le_bytes ps
  have hdiv := Nat.div_mul_le_self (ps.bytes - batchMetaHeaderSize) batchEntrySize
  have hmul : n * batchEntrySize ≤ batchMaxRecords ps * batchEntrySize := Nat.mul_le_mul_right _ h
  unfold batchMaxRecords at hmul
  have hhead : batchMetaHeaderSize = 16 := rfl
  omega

theorem length_metaPage {ps : PageSize} {es : List BatchEntry} (crc : Nat)
    (h : es.length ≤ batchMaxRecords ps) : (metaPage ps crc es).length = ps.bytes := by
  refine length_padTo ?_
  rw [length_append, length_metaHead, length_entriesBytes]
  exact entries_fit h

variable (ps : PageSize)

theorem metaPage_nil : metaPage ps 0 [] = initBatchMeta ps := by
  have hle := PageSize.le_bytes ps
  have hzeros : metaHead 0 0 ++ ([] : List BatchEntry).flatMap BatchEntry.bytes =
      (leBytes 4 batchMetaMagic ++ leBytes 2 walVersion) ++ replicate 10 0 := by
    decide
  rw [metaPage, length_nil, hzeros, padTo_append_zeros, initBatchMeta]
  simp
  omega

theorem metaPage_split (crc : Nat) {es before behind : List BatchEntry}
    {e : BatchEntry} (h : es = before ++ e :: behind) :
    metaPage ps crc es = (metaHead es.length crc ++ before.flatMap BatchEntry.bytes) ++ (e.bytes ++
        (behind.flatMap BatchEntry.bytes ++ replicate
          (ps.bytes - (metaHead es.length crc ++ es.flatMap BatchEntry.bytes).length) 0)) := by
  rw [metaPage, padTo]
  nth_rewrite 2 [h]
  simp only [flatMap_append, flatMap_cons, append_assoc]

theorem length_before (count crc : Nat) (before : List BatchEntry) :
    (metaHead count crc ++ before.flatMap BatchEntry.bytes).length =
      batchEntryOffset before.length := by
  rw [length_append, length_metaHead, length_entriesBytes, batchEntryOffset]

theorem field_entry {before behind bytes : Bytes} {offset start width : Nat}
    (hoffset : before.length = offset) (hin : start + width ≤ bytes.length) :
    field (before ++ (bytes ++ behind)) (offset + start) width =
      leNat ((bytes.drop start).take width) := by
  subst hoffset
  rw [field, drop_append, drop_of_length_le (Nat.le_add_right _ _),
    Nat.add_sub_cancel_left, nil_append, drop_append_of_le_length (by omega),
    take_append_of_le_length (by rw [length_drop]; omega)]

theorem code_lt (kind : RecordKind) : kind.code < 256 := by cases kind <;> decide

theorem flags_lt (e : BatchEntry) : e.flags < 256 := by
  unfold BatchEntry.flags logicalFlagFirst logicalFlagLast
  split <;> split <;> omega

theorem readBatchEntry_metaPage (crc : Nat) {es : List BatchEntry} {i : Nat}
    (hi : i < es.length) (hfits : es[i].Fits) :
    readBatchEntry (metaPage ps crc es) i = es[i].raw := by
  have hsplit : es = es.take i ++ es[i] :: es.drop (i + 1) := by
    rw [getElem_cons_drop, take_append_drop]
  have hlen : (metaHead es.length crc ++ (es.take i).flatMap BatchEntry.bytes).length =
      batchEntryOffset i := by
    rw [length_before, length_take_of_le hi.le]
  have hbytes := length_entryBytes es[i]
  have hsize : batchEntrySize = 28 := rfl
  have hlsn : leNat (leBytes 8 es[i].lsn) = es[i].lsn :=
    leNat_leBytes (by have := hfits.lsn; norm_num at this ⊢; omega)
  have harg : leNat (leBytes 8 es[i].arg) = es[i].arg :=
    leNat_leBytes (by have := hfits.arg; norm_num at this ⊢; omega)
  have hcrc : leNat (leBytes 4 es[i].crc) = es[i].crc :=
    leNat_leBytes (by have := hfits.crc; norm_num at this ⊢; omega)
  have hent : leNat (leBytes 4 es[i].len) = es[i].len :=
    leNat_leBytes (by have := hfits.len; norm_num at this ⊢; omega)
  have hkind : leNat (leBytes 1 es[i].kind.code) = es[i].kind.code :=
    leNat_leBytes (by have := code_lt es[i].kind; omega)
  have hflags : leNat (leBytes 1 es[i].flags) = es[i].flags :=
    leNat_leBytes (by have := flags_lt es[i]; omega)
  rw [metaPage_split ps crc hsplit]
  simp only [readBatchEntry]
  rw [← Nat.add_zero (batchEntryOffset i)]
  simp only [Nat.add_assoc, Nat.zero_add]
  rw [field_entry hlen (by omega), field_entry hlen (by omega), field_entry hlen (by omega),
    field_entry hlen (by omega), field_entry hlen (by omega), field_entry hlen (by omega)]
  simp only [BatchEntry.bytes, BatchEntry.raw, RawEntry.bytes]
  simp [drop_append, hlsn, harg, hcrc, hent, hkind, hflags, drop_eq_nil_of_le]

/-- An entry that was written is checked as the entry it stands for. -/
theorem validateRawEntry_raw (crc : Bytes → Nat) (e : BatchEntry) (data : Bytes) :
    validateRawEntry ps crc e.raw data = validateEntryData ps crc e data := by
  have hflags : e.flags ≠ 0 ↔ (e.first || e.last) = true := by
    unfold BatchEntry.flags logicalFlagFirst logicalFlagLast
    cases e.first <;> cases e.last <;> simp
  have hle : ¬logicalFlagFirst + logicalFlagLast < e.flags := by
    unfold BatchEntry.flags logicalFlagFirst logicalFlagLast
    split <;> split <;> omega
  cases hkind : e.kind with
  | pageImage =>
    have hcode : e.raw.kind = 1 := by simp [BatchEntry.raw, hkind, RecordKind.code]
    rw [validateRawEntry, if_pos hcode, validateEntryData, hkind]
    simp only [BatchEntry.raw, hflags, ne_eq, Bool.or_eq_true, decide_eq_true_eq]
    exact if_congr Iff.rfl rfl rfl
  | logical =>
    have hcode : e.raw.kind = 2 := by simp [BatchEntry.raw, hkind, RecordKind.code]
    rw [validateRawEntry, if_neg (by rw [hcode]; decide), if_pos hcode, validateEntryData, hkind]
    show (if logicalChunkMaxLen ps < e.len ∨ data.length < e.len then none
      else if logicalFlagFirst + logicalFlagLast < e.flags then none
      else if crc (data.take e.len) = e.crc then some (data.take e.len) else none) = _
    rw [if_neg hle]
  | logicalPacked =>
    have hcode : e.raw.kind = 3 := by simp [BatchEntry.raw, hkind, RecordKind.code]
    rw [validateRawEntry, if_neg (by rw [hcode]; decide), if_neg (by rw [hcode]; decide),
      if_pos hcode, validateEntryData, hkind]
    simp only [BatchEntry.raw, hflags, Bool.or_eq_true, decide_eq_true_eq]
    exact if_congr Iff.rfl rfl rfl

/-! ## The header of a meta page -/

/-- A padded page with a header, as the header and the rest. -/
theorem padTo_metaHead (bytes : Bytes) :
    ∃ rest : Bytes, ∀ count crc, padTo ps.bytes (metaHead count crc ++ bytes) =
      metaHead count crc ++ rest := by
  refine ⟨bytes ++ replicate (ps.bytes - (batchMetaHeaderSize + bytes.length)) 0, ?_⟩
  intro count crc
  rw [padTo, append_assoc, length_append, length_metaHead]

theorem batchMetaCountUnchecked_metaPage {ps : PageSize} (crc : Nat) {es : List BatchEntry}
    (hne : es ≠ []) (hle : es.length ≤ batchMaxRecords ps) :
    batchMetaCountUnchecked ps (metaPage ps crc es) = some es.length := by
  have hlen := length_metaPage crc hle
  have hpos : es.length ≠ 0 := fun h => hne (length_eq_zero_iff.mp h)
  obtain ⟨rest, hrest⟩ := padTo_metaHead ps (es.flatMap BatchEntry.bytes)
  have hpage : metaPage ps crc es = metaHead es.length crc ++ rest := hrest _ _
  have hmax : batchMaxRecords ps < 2 ^ 16 := by cases ps <;> decide
  have hcount : leNat (leBytes 2 es.length) = es.length := leNat_leBytes (by norm_num; omega)
  rw [batchMetaCountUnchecked, if_neg (not_not.mpr hlen)]
  rw [hpage]
  have hmagic : leNat (leBytes 4 batchMetaMagic) = 0x424D4554 := by decide
  have hversion : leNat (leBytes 2 walVersion) = 4 := by decide
  have htake : ∀ width n, (leBytes width n).take width = leBytes width n := fun width n =>
    take_of_length_le (by simp)
  simp only [metaHead, append_assoc, drop_append, take_append]
  simp [htake, hmagic, hversion, hcount, hpos, hle, drop_eq_nil_of_le]

theorem setBatchMetaCount_padTo (bytes : Bytes) (count count' crc : Nat) :
    setBatchMetaCount (padTo ps.bytes (metaHead count crc ++ bytes)) count' =
      padTo ps.bytes (metaHead count' crc ++ bytes) := by
  obtain ⟨rest, hrest⟩ := padTo_metaHead ps bytes
  rw [hrest, hrest, setBatchMetaCount]
  have hsplit : ∀ n, metaHead n crc ++ rest =
      (leBytes 4 batchMetaMagic ++ leBytes 2 walVersion) ++ (leBytes 2 n ++
        (leBytes 4 crc ++ (leBytes 4 0 ++ rest))) := by
    intro n
    simp only [metaHead, append_assoc]
  rw [hsplit, hsplit, writeAt_middle (by simp) (by simp)]

theorem metaPage_crc (es : List BatchEntry) : ∃ before behind : Bytes, before.length = 8 ∧
      ∀ crc, metaPage ps crc es = before ++ (leBytes 4 crc ++ behind) := by
  obtain ⟨rest, hrest⟩ := padTo_metaHead ps (es.flatMap BatchEntry.bytes)
  refine ⟨leBytes 4 batchMetaMagic ++ (leBytes 2 walVersion ++ leBytes 2 es.length),
    leBytes 4 0 ++ rest, by simp, fun crc => ?_⟩
  rw [metaPage, hrest]
  simp only [metaHead, append_assoc]

/-- The checksum is taken with its own field zero. -/
theorem batchMetaCrc_metaPage (crc : Bytes → Nat) (c : Nat) (es : List BatchEntry) :
    batchMetaCrc crc (metaPage ps c es) = crc (metaPage ps 0 es) := by
  obtain ⟨before, behind, hlen, hpage⟩ := metaPage_crc ps es
  have hdrop : (before ++ (leBytes 4 c ++ behind)).drop 12 = behind := by
    rw [← append_assoc]
    exact drop_left' (by simp [hlen])
  rw [batchMetaCrc, hpage, hpage, hdrop, take_left' hlen]

theorem finalizeBatchMeta_metaPage (crc : Bytes → Nat) (c : Nat)
    (es : List BatchEntry) :
    finalizeBatchMeta crc (metaPage ps c es) = metaPage ps (crc (metaPage ps 0 es)) es := by
  have hcrc := batchMetaCrc_metaPage ps crc c es
  obtain ⟨before, behind, hlen, hpage⟩ := metaPage_crc ps es
  rw [finalizeBatchMeta, hcrc, hpage c, hpage (crc (metaPage ps 0 es)),
    writeAt_middle hlen (by simp)]

theorem batchMetaCount_metaPage {ps : PageSize} {crc : Bytes → Nat}
    (hcrc : ∀ bytes, crc bytes < 2 ^ 32) {es : List BatchEntry} (hne : es ≠ [])
    (hle : es.length ≤ batchMaxRecords ps) :
    batchMetaCount ps crc (metaPage ps (crc (metaPage ps 0 es)) es) = some es.length := by
  have hfield : field (metaPage ps (crc (metaPage ps 0 es)) es) 8 4 = crc (metaPage ps 0 es) := by
    have hlt := hcrc (metaPage ps 0 es)
    obtain ⟨before, behind, hlen, hpage⟩ := metaPage_crc ps es
    rw [field, hpage (crc _), drop_take_middle hlen (by simp)]
    exact leNat_leBytes (by norm_num at hlt ⊢; omega)
  rw [batchMetaCount, batchMetaCountUnchecked_metaPage _ hne hle]
  simp only
  rw [if_pos (by rw [hfield, batchMetaCrc_metaPage])]

theorem metaPage_push {ps : PageSize} (crc : Nat) {es : List BatchEntry} (e : BatchEntry)
    (h : es.length < batchMaxRecords ps) :
    setBatchMetaCount (writeBatchEntry (metaPage ps crc es) es.length e.raw) (es.length + 1) =
      metaPage ps crc (es ++ [e]) := by
  have hbytes : (metaHead es.length crc ++ es.flatMap BatchEntry.bytes).length =
      batchEntryOffset es.length := length_before es.length crc es
  have hroom := entries_fit (n := es.length + 1) h
  rw [Nat.succ_mul] at hroom
  have hsize : batchEntrySize = 28 := rfl
  have hraw := length_rawBytes e.raw
  rw [writeBatchEntry, metaPage, ← hbytes, writeAt_padTo, append_assoc, setBatchMetaCount_padTo]
  have hzeros : (metaHead (es.length + 1) crc ++
      (es.flatMap BatchEntry.bytes ++ e.raw.bytes)).length
      + 2 ≤ ps.bytes := by
    simp only [length_append, length_metaHead, length_entriesBytes, hraw]
    omega
  rw [← padTo_append_zeros hzeros, metaPage]
  simp only [flatMap_append, flatMap_singleton, length_append, length_singleton,
    BatchEntry.bytes, append_assoc]

theorem metaPage_set (crc : Nat) {es : List BatchEntry} {i : Nat} (hi : i < es.length)
    (e : BatchEntry) (offset : Nat) (before old new behind : Bytes)
    (hbefore : before.length = offset)
    (hlen : old.length = new.length) (hold : es[i].bytes = before ++ (old ++ behind))
    (hnew : e.bytes = before ++ (new ++ behind)) :
    writeAt (metaPage ps crc es) (batchEntryOffset i + offset) new =
      metaPage ps crc (es.set i e) := by
  have hsplit : es = es.take i ++ es[i] :: es.drop (i + 1) := by
    rw [getElem_cons_drop, take_append_drop]
  have hset : es.set i e = es.take i ++ e :: es.drop (i + 1) :=
    set_eq_take_append_cons_drop.trans (if_pos hi)
  have hhead : (metaHead es.length crc ++ (es.take i).flatMap BatchEntry.bytes ++ before).length =
      batchEntryOffset i + offset := by
    rw [length_append, length_before, length_take_of_le hi.le, hbefore]
  rw [metaPage_split ps crc hsplit, metaPage_split ps crc hset, hold, hnew]
  have hpad : (metaHead es.length crc ++ es.flatMap BatchEntry.bytes).length =
      (metaHead (es.set i e).length crc ++ (es.set i e).flatMap BatchEntry.bytes).length := by
    simp only [length_append, length_metaHead, length_entriesBytes, length_set]
  rw [hpad, length_set]
  have hassoc : ∀ mid : Bytes, ∀ rest : Bytes,
      metaHead es.length crc ++ (es.take i).flatMap BatchEntry.bytes ++
        (before ++ (mid ++ behind) ++ rest) =
      (metaHead es.length crc ++ (es.take i).flatMap BatchEntry.bytes ++ before) ++
        (mid ++ (behind ++ rest)) := by
    intro mid rest
    simp only [append_assoc]
  rw [hassoc old, hassoc new, writeAt_middle hhead hlen]

theorem writeBatchEntry_metaPage (crc : Nat) {es : List BatchEntry} {i : Nat}
    (hi : i < es.length) (e : BatchEntry) :
    writeBatchEntry (metaPage ps crc es) i e.raw = metaPage ps crc (es.set i e) := by
  have hset := metaPage_set ps crc hi e 0 [] es[i].raw.bytes e.raw.bytes (replicate 2 0) rfl
    (by rw [length_rawBytes, length_rawBytes]) rfl rfl
  rwa [Nat.add_zero] at hset

theorem overwriteBatchEntryLsn_metaPage (crc : Nat) {es : List BatchEntry} {i : Nat}
    (hi : i < es.length) (lsn : Nat) :
    overwriteBatchEntryLsn (metaPage ps crc es) i lsn =
      metaPage ps crc (es.set i { es[i] with lsn }) := by
  have hset := metaPage_set ps crc hi { es[i] with lsn } 0 [] (leBytes 8 es[i].lsn) (leBytes 8 lsn)
    (leBytes 8 es[i].arg ++ (leBytes 4 es[i].crc ++ (leBytes 4 es[i].len ++
      (leBytes 1 es[i].kind.code ++ (leBytes 1 es[i].flags ++ replicate 2 0))))) rfl (by simp)
    (by simp only [BatchEntry.bytes, RawEntry.bytes, BatchEntry.raw, append_assoc, nil_append])
    (by simp only [BatchEntry.bytes, RawEntry.bytes, BatchEntry.raw, BatchEntry.flags,
      append_assoc, nil_append])
  rwa [Nat.add_zero] at hset

theorem overwriteBatchEntryCrc_metaPage (c : Nat) {es : List BatchEntry} {i : Nat}
    (hi : i < es.length) (crc : Nat) :
    overwriteBatchEntryCrc (metaPage ps c es) i crc = metaPage ps c (es.set i { es[i] with crc }) :=
  metaPage_set ps c hi { es[i] with crc } 16 (leBytes 8 es[i].lsn ++ leBytes 8 es[i].arg)
    (leBytes 4 es[i].crc) (leBytes 4 crc)
    (leBytes 4 es[i].len ++ (leBytes 1 es[i].kind.code ++ (leBytes 1 es[i].flags ++
      replicate 2 0))) (by simp) (by simp)
    (by simp only [BatchEntry.bytes, RawEntry.bytes, BatchEntry.raw, append_assoc])
    (by simp only [BatchEntry.bytes, RawEntry.bytes, BatchEntry.raw, BatchEntry.flags,
      append_assoc])

end Entries

end Pagebox.Wal
