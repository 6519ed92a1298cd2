import Pagebox.Wal.Durability
import Pagebox.Wal.RoundTrip

/-!
# Logging a page image once or over the last one

`append_or_overwrite_page_image` asks in one section of the shard's mutex whether the
image behind a handle can be overwritten, and overwrites it in another; the buffer may
be sealed in between, and what the second section answers is not looked at.  Here any
number of threads make such calls, each page being logged by one thread at a time,
while the drivers seal, write and reuse buffers.  Buffers are bytes, and what they hold
is what a replay of their written form delivers.
-/

namespace Pagebox.Wal

open Pagebox.Base Function List

/-- `can_overwrite_buffered_page_image`, behind its test of the shard. -/
def FlatBuffer.canOverwrite (ps : PageSize) (b : FlatBuffer) (epoch offset pid : Nat) : Bool :=
  let (metaPage, slotIdx) := decodeRecordOffset offset
  let metaStart := metaPage * ps.bytes
  if b.epoch ≠ epoch ∨ b.used < metaStart + ps.bytes then false
  else
    match batchMetaCountUnchecked ps (b.page ps metaStart) with
    | none => false
    | some count =>
      let entry := readBatchEntry (b.page ps metaStart) slotIdx
      decide (slotIdx < count ∧ entry.kind = 1 ∧ entry.arg = pid)

def FlatBuffer.lsnAt (ps : PageSize) (b : FlatBuffer) (offset : Nat) : Nat :=
  let (metaPage, slotIdx) := decodeRecordOffset offset
  (readBatchEntry (b.page ps (metaPage * ps.bytes)) slotIdx).lsn

def FlatBuffer.records (ps : PageSize) (crc : Bytes → Nat) (b : FlatBuffer) : List ReplayRecord :=
  replayFile ps crc (b.finalBytes ps crc)

structure FlatSealed where
  buffer : FlatBuffer
  phase : Phase

/-- The buffers of a shard; the sealed ones keep what they are written with.  Epochs do
not wrap. -/
structure FlatShard where
  active : FlatBuffer
  spares : List FlatBuffer
  sealedBuffers : List FlatSealed
  nextEpoch : Nat

namespace FlatShard

variable (cfg : Config)

def new : FlatShard where
  active := FlatBuffer.new 1 cfg.capacity
  spares := ((List.range (cfg.bufferCountLimit - 1)).map fun i =>
    FlatBuffer.new (i + 2) cfg.capacity).reverse
  sealedBuffers := []
  nextEpoch := cfg.bufferCountLimit + 1

/-- `seal_active_buffer_locked`; `none` when no spare buffer can take over. -/
def sealActive (sh : FlatShard) : Option FlatShard :=
  if sh.active.used = 0 then some sh
  else
    match sh.spares with
    | [] => none
    | spare :: spares =>
      some ⟨spare.reset sh.nextEpoch, spares, sh.sealedBuffers ++ [⟨sh.active, .pending⟩],
        sh.nextEpoch + 1⟩

def push (sh : FlatShard) (slot : Slot) : FlatShard × Appender.Place :=
  let (active, r) := sh.active.pushRecord cfg.pageSize slot
  ({ sh with active }, ⟨active.epoch, r.metaStart / cfg.pageSize.bytes, r.slotIdx⟩)

/-- A section of `append_page_image_with_lsn`; without a place the call waits for a
spare buffer, and once woken it seals without another look at the room. -/
def appendImage (woken : Bool) (sh : FlatShard) (slot : Slot) :
    Option (FlatShard × Option Appender.Place) :=
  let sh := if woken then sh else { sh with active := sh.active.clearPacked }
  if woken ∨ sh.active.fits cfg.pageSize = false then
    if sh.spares.isEmpty then some (sh, none)
    else sh.sealActive.map fun sh => ((sh.push cfg slot).1, some (sh.push cfg slot).2)
  else some ((sh.push cfg slot).1, some (sh.push cfg slot).2)

/-- The driver moves sealed buffer `k` on: it submits and then writes it. -/
def advance (sh : FlatShard) (k : Nat) : Option FlatShard :=
  match sh.sealedBuffers[k]? with
  | some ⟨buffer, .pending⟩ =>
    some { sh with sealedBuffers := sh.sealedBuffers.set k ⟨buffer, .inFlight⟩ }
  | some ⟨buffer, .inFlight⟩ =>
    some { sh with sealedBuffers := sh.sealedBuffers.set k ⟨buffer, .onDisk⟩ }
  | _ => none

/-- `handle_completion` makes a written buffer a spare one. -/
def complete (sh : FlatShard) (k : Nat) : Option FlatShard :=
  match sh.sealedBuffers[k]? with
  | some ⟨buffer, .onDisk⟩ =>
    some { sh with
      spares := buffer.reset sh.nextEpoch :: sh.spares
      sealedBuffers := sh.sealedBuffers.set k ⟨buffer, .returned⟩
      nextEpoch := sh.nextEpoch + 1 }
  | _ => none

def records (crc : Bytes → Nat) (sh : FlatShard) : List ReplayRecord :=
  sh.active.records cfg.pageSize crc ++
    sh.sealedBuffers.flatMap fun x => x.buffer.records cfg.pageSize crc

end FlatShard

/-! ## Calls and drivers -/

structure ImageHandle where
  shardIdx : Nat
  place : Appender.Place
  deriving DecidableEq

/-- A call with its LSN, its page and what `fill_page` writes for that LSN. -/
structure ImageCall where
  lsn : Nat
  pid : Nat
  page : Bytes
  deriving DecidableEq

inductive CallPc
  | idle
  /-- About to ask whether the image can be overwritten. -/
  | checking (c : ImageCall) (prev : ImageHandle)
  /-- It can, and is about to be. -/
  | overwriting (c : ImageCall) (prev : ImageHandle)
  | appending (c : ImageCall)
  /-- Waiting for a spare buffer. -/
  | waiting (c : ImageCall)

def CallPc.call : CallPc → Option ImageCall
  | .idle => none
  | .checking c _ => some c
  | .overwriting c _ => some c
  | .appending c => some c
  | .waiting c => some c

/-- The LSN of an image and of the one it was overwritten with. -/
structure Replaced where
  old : Nat
  new : Nat
  deriving DecidableEq

structure ImageLog where
  nextLsn : Nat
  shards : Nat → FlatShard
  threads : Nat → CallPc
  issued : List ImageHandle
  /-- The calls that returned `Ok`. -/
  returned : List ImageCall
  replaced : List Replaced

namespace ImageLog

inductive Action
  /-- A thread claims its LSN; the arguments of the call are a page and the number of a
  handle that was returned before. -/
  | start (t pid : Nat) (prev : Option Nat) (page : Bytes)
  | check (t : Nat)
  | overwrite (t : Nat)
  | append (t : Nat)
  | resume (t : Nat)
  | sealActive (i : Nat)
  | advance (i k : Nat)
  | complete (i k : Nat)

variable (su : Setup)

def opened (nextLsn : Nat) : ImageLog where
  nextLsn := nextLsn
  shards := fun _ => FlatShard.new su.cfg
  threads := fun _ => .idle
  issued := []
  returned := []
  replaced := []

variable (s : ImageLog)

def lsnFor (t : Nat) : Nat :=
  if su.shardCount = 1 then s.nextLsn
  else alignLsnToShard s.nextLsn (su.threadShard t) su.shardCount

def setShard (i : Nat) (sh : FlatShard) : ImageLog :=
  { s with shards := update s.shards i sh }

def setPc (t : Nat) (pc : CallPc) : ImageLog :=
  { s with threads := update s.threads t pc }

def finish (t : Nat) (c : ImageCall) : ImageLog :=
  { s.setPc t .idle with returned := s.returned ++ [c] }

/-- The end of a section of the append: the call returns its handle, or waits. -/
def afterAppend (t : Nat) (c : ImageCall) (r : FlatShard × Option Appender.Place) : ImageLog :=
  match r with
  | (sh, none) => (s.setShard (su.ownerShard c.lsn) sh).setPc t (.waiting c)
  | (sh, some place) =>
    { (s.setShard (su.ownerShard c.lsn) sh).finish t c with
      issued := s.issued ++ [⟨su.ownerShard c.lsn, place⟩] }

def append (t : Nat) (woken : Bool) (c : ImageCall) : Option ImageLog :=
  ((s.shards (su.ownerShard c.lsn)).appendImage su.cfg woken
    (imageSlot su.cfg.pageSize c.lsn c.pid c.page)).map (s.afterAppend su t c)

/-- `overwrite_buffered_page_image_with_lsn`, whose answer the caller drops. -/
def overwrite (t : Nat) (c : ImageCall) (prev : ImageHandle) : Option ImageLog :=
  let i := su.ownerShard c.lsn
  let sh := s.shards i
  if prev.shardIdx ≠ i then some (s.finish t c)
  else
    match sh.active.overwritePageImage su.cfg.pageSize prev.place.record.epoch
        prev.place.record.offset c.lsn c.pid c.page with
    | .panics => none
    | .refused => some (s.finish t c)
    | .done active =>
      some { (s.setShard i { sh with active }).finish t c with
        replaced := s.replaced ++
          [⟨sh.active.lsnAt su.cfg.pageSize prev.place.record.offset, c.lsn⟩] }

def onShard (i : Nat) (f : FlatShard → Option FlatShard) : Option ImageLog :=
  if su.shardCount ≤ i then none else (f (s.shards i)).map (s.setShard i)

/-- `claim_lsn` and the branch on the handle. -/
def start (t pid : Nat) (prev : Option Nat) (page : Bytes) : Option ImageLog :=
  let c : ImageCall := ⟨s.lsnFor su t, pid, page⟩
  let s' := { s with nextLsn := (s.lsnFor su t + 1) % u64Limit }
  match s.threads t with
  | .idle =>
    if pid < u64Limit ∧ page.length = su.cfg.pageSize.bytes then
      match prev with
      | none => some (s'.setPc t (.appending c))
      | some k => (s.issued[k]?).map fun prev => s'.setPc t (.checking c prev)
    else none
  | _ => none

def check (t : Nat) (c : ImageCall) (prev : ImageHandle) : ImageLog :=
  if prev.shardIdx = su.ownerShard c.lsn ∧
      (s.shards (su.ownerShard c.lsn)).active.canOverwrite su.cfg.pageSize prev.place.record.epoch
        prev.place.record.offset c.pid = true then
    s.setPc t (.overwriting c prev)
  else s.setPc t (.appending c)

def step : Action → Option ImageLog
  | .start t pid prev page => s.start su t pid prev page
  | .check t =>
    match s.threads t with
    | .checking c prev => some (s.check su t c prev)
    | _ => none
  | .overwrite t =>
    match s.threads t with
    | .overwriting c prev => s.overwrite su t c prev
    | _ => none
  | .append t =>
    match s.threads t with
    | .appending c => s.append su t false c
    | _ => none
  | .resume t =>
    match s.threads t with
    | .waiting c => s.append su t true c
    | _ => none
  | .sealActive i => s.onShard su i FlatShard.sealActive
  | .advance i k => s.onShard su i (FlatShard.advance · k)
  | .complete i k => s.onShard su i (FlatShard.complete · k)

/-- Each page is logged by one call at a time. -/
def distinctPages : Action → Prop
  | .start _ pid _ _ => ∀ t c, (s.threads t).call = some c → c.pid ≠ pid
  | _ => True

/-- Besides, the LSNs do not run out, and when an image is overwritten its handle is
exact and its buffer is still the active one. -/
def safe (a : Action) : Prop :=
  s.distinctPages a ∧ match a with
    | .start t _ _ _ => s.lsnFor su t + 1 < u64Limit
    | .overwrite t => ∀ c prev, s.threads t = .overwriting c prev →
        prev.place.slotIdx < 256 ∧ prev.place.epoch = (s.shards prev.shardIdx).active.epoch
    | _ => True

/-- The log holds the image of a call. -/
def Logged (crc : Bytes → Nat) (s : ImageLog) (c : ImageCall) : Prop :=
  ReplayRecord.pageImage c.lsn c.pid c.page ∈ (s.shards (su.ownerShard c.lsn)).records su.cfg crc

/-- The image of a call was overwritten with a later one of its page. -/
def Superseded (c : ImageCall) : Prop :=
  ∃ c' ∈ s.returned, c'.pid = c.pid ∧ c.lsn < c'.lsn ∧ ⟨c.lsn, c'.lsn⟩ ∈ s.replaced

end ImageLog

/-! ## Buffers of page images -/

def Slot.image (slot : Slot) : ReplayRecord := .pageImage slot.entry.lsn slot.entry.arg slot.data

/-- The bytes of `fb` hold the images of `b` and nothing else. -/
structure HoldsImages (cfg : Config) (fb : FlatBuffer) (b : WalBuffer) : Prop where
  encodes : Encodes cfg fb b
  ok : BufferOk cfg.pageSize b
  closed : b.packedLogical = none
  images : ∀ slot ∈ b.slots, slot.entry.kind = .pageImage

def ImageSlot (b : WalBuffer) (place : Appender.Place) (pid : Nat) : Prop :=
  ∃ n, Names (shapes b.batches) place.metaPage place.slotIdx n ∧
    (b.slots.map fun slot => slot.entry.arg)[n]? = some pid

theorem flatMap_pieces_images {slots : List Slot}
    (h : ∀ slot ∈ slots, slot.entry.kind = .pageImage) : slots.flatMap slotPieces =
      slots.map fun slot => .image slot.entry.lsn slot.entry.arg slot.data := by
  rw [map_eq_flatMap]
  refine flatMap_congr fun slot hslot => ?_
  rw [slotPieces, h slot hslot]

theorem scan_images (ps : PageSize) (part : Partial) (slots : List Slot) :
    (scan (replayPiece ps) part
      (slots.map fun slot => .image slot.entry.lsn slot.entry.arg slot.data)).1 =
      slots.map Slot.image := by
  induction slots generalizing part with
  | nil => rfl
  | cons slot slots ih =>
    have hfirst : replayPiece ps part (.image slot.entry.lsn slot.entry.arg slot.data) =
        ([slot.image], some part.drop) := rfl
    rw [map_cons, scan_cons_of_some hfirst, map_cons, ih]
    rfl

theorem canOverwrite_iff {ps : PageSize} (b : FlatBuffer) (epoch offset lsn pid : Nat)
    (page : Bytes) : b.canOverwrite ps epoch offset pid = true ↔
      b.overwritePageImage ps epoch offset lsn pid page ≠ .refused := by
  rw [FlatBuffer.canOverwrite, FlatBuffer.overwritePageImage]
  dsimp only
  split
  · simp
  cases batchMetaCountUnchecked ps (b.page ps ((decodeRecordOffset offset).1 * ps.bytes)) with
  | none => simp
  | some count =>
    dsimp only
    rw [decide_eq_true_eq]
    split
    · constructor
      · intro hfound
        omega
      · simp
    constructor
    · intro _
      split <;> simp
    · intro _
      omega

section Buffers

variable {cfg : Config} {crc : Bytes → Nat} {fb : FlatBuffer} {b : WalBuffer} {slot : Slot}
  {place : Appender.Place} {pid : Nat}

namespace HoldsImages

theorem reset (hsize : fb.bytes.length = cfg.capacity) (epoch : Nat) :
    HoldsImages cfg (fb.reset epoch) (WalBuffer.reset epoch) :=
  ⟨encodes_reset hsize epoch, bufferOk_reset cfg.pageSize epoch, rfl, nofun⟩

theorem flatClosed (h : HoldsImages cfg fb b) : fb.packedLogical = none := by
  have hpacked := h.encodes.packed
  rw [h.closed] at hpacked
  cases hflat : fb.packedLogical with
  | none => rfl
  | some f =>
    rw [hflat] at hpacked
    exact hpacked.elim

theorem clearPacked (h : HoldsImages cfg fb b) : fb.clearPacked = fb := by
  rw [FlatBuffer.clearPacked, ← h.flatClosed]

theorem records (h : HoldsImages cfg fb b) (hcrc : ∀ bytes, crc bytes < 2 ^ 32) :
    fb.records cfg.pageSize crc = b.slots.map Slot.image := by
  rw [FlatBuffer.records, finalBytes_eq crc h.encodes h.ok,
    replayFile_finalBatches hcrc (batchesOk_fileBatches h.ok), flatten_fileBatches,
    replayRecords_finalized crc h.ok.wf.slots, flatMap_pieces_images h.images, scan_images]

/-- An image is filled in: the places of the others stay, and it has its own. -/
theorem push (h : HoldsImages cfg fb b) (hfits : fb.fits cfg.pageSize = true)
    (hslot : SlotFilled cfg.pageSize slot) (hkind : slot.entry.kind = .pageImage) :
    let r := fb.pushRecord cfg.pageSize slot
    let b' := b.pushRecord cfg.pageSize slot
    HoldsImages cfg r.1 b' ∧ b'.slots = b.slots ++ [slot] ∧ r.1.epoch = fb.epoch ∧
      (∀ place pid, ImageSlot b place pid → ImageSlot b' place pid) ∧
      ImageSlot b' ⟨r.1.epoch, r.2.metaStart / cfg.pageSize.bytes, r.2.slotIdx⟩ slot.entry.arg := by
  intro r b'
  rw [fits_eq h.encodes h.ok] at hfits
  obtain ⟨henc, hok, -⟩ := pushRecord_flat h.encodes h.ok hfits h.flatClosed h.closed hslot
  obtain ⟨hepoch, hnames, -⟩ := names_pushRecord h.ok.wf slot
  have hslots : b'.slots = b.slots ++ [slot] := slots_pushRecord h.ok.wf slot
  obtain ⟨-, -, hpacked, -⟩ := pushSlot_spec h.ok.wf slot
  have hclosed : b'.packedLogical = none := by
    show (if slot.entry.kind = .logicalPacked then _ else _) = none
    rw [if_neg (by rw [hkind]; nofun), hpacked, h.closed]
  refine ⟨⟨henc, hok, hclosed, ?_⟩, hslots, (pushRecord_numbers cfg.pageSize fb slot).1, ?_, ?_⟩
  · intro x hx
    rw [hslots] at hx
    rcases mem_append.mp hx with hx | hx
    · exact h.images x hx
    · rw [mem_singleton.mp hx]
      exact hkind
  · rintro place pid ⟨n, hn, hpid⟩
    refine ⟨n, hnames _ _ n hn, ?_⟩
    rw [hslots, map_append, List.getElem?_append_left (List.getElem?_eq_some_iff.mp hpid).1]
    exact hpid
  · refine ⟨_, names_pushRecord_flat h.encodes h.ok hfits h.flatClosed h.closed hslot hkind, ?_⟩
    rw [hslots, flatMap_pieces_images h.images, length_map, map_append]
    simp

end HoldsImages

/-- The image at a place, and what is around it. -/
theorem ImageSlot.split (h : ImageSlot b place pid)
    (himages : ∀ slot ∈ b.slots, slot.entry.kind = .pageImage) :
    ∃ newer older before behind slot,
      b.batches = newer ++ (before ++ slot :: behind).reverse :: older ∧
        place.metaPage = batchPages older ∧ place.slotIdx = before.length ∧
        slot.entry.kind = .pageImage ∧ slot.entry.arg = pid := by
  obtain ⟨n, hnames, hpid⟩ := h
  obtain ⟨newer, older, before, behind, slot, hb, hm, hj, hkind, hn⟩ := hnames.slot
  refine ⟨newer, older, before, behind, slot, hb, hm, hj, hkind, ?_⟩
  have hslots := slots_split b hb
  have hfirst : ∀ x ∈ older.reverse.flatMap List.reverse ++ before, x.entry.kind = .pageImage :=
    fun x hx => himages x (hslots ▸ mem_append_left _ hx)
  rw [flatMap_pieces_images hfirst, length_map] at hn
  rw [hn, hslots, map_append, map_cons, List.getElem?_append_right (by rw [length_map]),
    length_map, Nat.sub_self, List.getElem?_cons_zero, Option.some.injEq] at hpid
  exact hpid

namespace HoldsImages

variable {lsn : Nat} {page : Bytes}

/-- Through an exact handle a call finds out whether its page is at the place. -/
theorem of_canOverwrite {pid' : Nat} (h : HoldsImages cfg fb b) (hplace : ImageSlot b place pid')
    (hidx : place.slotIdx < 256)
    (hcan : fb.canOverwrite cfg.pageSize place.record.epoch place.record.offset pid = true) :
    place.epoch = fb.epoch ∧ pid' = pid := by
  obtain ⟨newer, older, before, behind, slot, hb, hm, hj, -, rfl⟩ := hplace.split h.images
  have hdecode : decodeRecordOffset place.record.offset = (batchPages older, before.length) := by
    rw [Appender.Place.record, decode_encodeRecordOffset hidx, hm, hj]
  rw [canOverwrite_iff fb _ _ 0 pid (replicate cfg.pageSize.bytes 0)] at hcan
  have hzeros : (replicate cfg.pageSize.bytes (0 : UInt8)).length = cfg.pageSize.bytes :=
    length_replicate
  obtain ⟨rest, -, hresult⟩ :=
    overwritePageImage_flat h.encodes h.ok hb place.record.epoch 0 pid hdecode hzeros
  rw [hresult] at hcan
  by_cases hall : b.epoch = place.record.epoch ∧ slot.entry.kind = .pageImage ∧ slot.entry.arg = pid
  · exact ⟨hall.1.symm.trans h.encodes.epoch.symm, hall.2.2⟩
  · rw [if_neg hall] at hcan
    exact absurd rfl hcan

/-- An overwrite through an exact handle replaces the image at its place. -/
theorem overwrite (h : HoldsImages cfg fb b) (hplace : ImageSlot b place pid)
    (hidx : place.slotIdx < 256) (hepoch : place.epoch = fb.epoch) (hlsn : lsn < u64Limit)
    (hpage : page.length = cfg.pageSize.bytes) :
    ∃ active b' before old behind,
      fb.overwritePageImage cfg.pageSize place.record.epoch place.record.offset lsn pid page =
        .done active ∧
      HoldsImages cfg active b' ∧ active.epoch = fb.epoch ∧
      b.slots = before ++ old :: behind ∧ old.entry.arg = pid ∧
      fb.lsnAt cfg.pageSize place.record.offset = old.entry.lsn ∧
      b'.slots = before ++ old.overwritten lsn page :: behind ∧
      ∀ place' pid', ImageSlot b place' pid' → ImageSlot b' place' pid' := by
  obtain ⟨newer, older, before, behind, slot, hb, hm, hj, hkind, rfl⟩ := hplace.split h.images
  have hdecode : decodeRecordOffset place.record.offset = (batchPages older, before.length) := by
    rw [Appender.Place.record, decode_encodeRecordOffset hidx, hm, hj]
  obtain ⟨rest, hrest, hresult⟩ := overwritePageImage_flat h.encodes h.ok hb place.record.epoch lsn
    slot.entry.arg hdecode hpage
  rw [if_pos ⟨h.encodes.epoch.symm.trans hepoch.symm, hkind, rfl⟩] at hresult
  obtain ⟨henc, hok⟩ := encodes_overwritten h.encodes h.ok hb hrest hkind hlsn hpage
  set b' := b.withBatches
    (newer ++ (before ++ slot.overwritten lsn page :: behind).reverse :: older)
    (max b.maxLsn lsn) b.packedLogical
  have hb' : b'.batches = newer ++
      (before ++ slot.overwritten lsn page :: behind).reverse :: older :=
    rfl
  have hslots := slots_split b hb
  have hslots' := slots_split b' hb'
  have hkind' : (slot.overwritten lsn page).entry.kind = .pageImage := hkind
  refine ⟨_, b', _, slot, _, hresult, ⟨henc, hok, h.closed, ?_⟩, rfl, hslots, rfl, ?_, hslots', ?_⟩
  · intro x hx
    rw [hslots'] at hx
    rcases mem_append.mp hx with hx | hx
    · exact h.images x (hslots ▸ mem_append_left _ hx)
    · rcases mem_cons.mp hx with rfl | hx
      · exact hkind'
      · exact h.images x (hslots ▸ mem_append_right _ (mem_cons_of_mem _ hx))
  · obtain ⟨hmeta, -, hentry⟩ := meta_flat h.encodes h.ok hb
    rw [FlatBuffer.lsnAt, hdecode]
    dsimp only
    rw [hmeta, hentry]
    rfl
  have hshapes : shapes b'.batches = shapes b.batches := by
    rw [hb, hb']
    refine (shapes_replace newer older before behind ?_).symm
    rw [Slot.shape, Slot.shape, slotPieces, slotPieces, hkind, hkind']
    rfl
  rintro place' pid' ⟨n, hn, hpid⟩
  refine ⟨n, hshapes ▸ hn, ?_⟩
  · rw [hslots', map_append, map_cons]
    rw [hslots, map_append, map_cons] at hpid
    exact hpid

end HoldsImages

end Buffers

/-! ## Shards of page images -/

section Shards

variable {cfg : Config} {crc : Bytes → Nat} {sh sh' : FlatShard} {b b' : WalBuffer} {slot : Slot}

structure FlatShard.Ok (cfg : Config) (sh : FlatShard) (b : WalBuffer) : Prop where
  holds : HoldsImages cfg sh.active b
  spares : ∀ fb ∈ sh.spares, fb.bytes.length = cfg.capacity
  sealedSize : ∀ x ∈ sh.sealedBuffers, x.buffer.bytes.length = cfg.capacity
  epoch : sh.active.epoch < sh.nextEpoch

/-- What a section does to a shard whose images it does not overwrite: places in a
buffer that stays active are kept, and only the image of `slot` is new. -/
structure FlatShard.Keeps (cfg : Config) (crc : Bytes → Nat) (sh : FlatShard) (b : WalBuffer)
    (sh' : FlatShard) (b' : WalBuffer) (new : List Slot) : Prop where
  records : ∀ r, r ∈ sh'.records cfg crc ↔ r ∈ sh.records cfg crc ∨ r ∈ new.map Slot.image
  places : (sh'.active.epoch = sh.active.epoch ∧
      ∀ place pid, ImageSlot b place pid → ImageSlot b' place pid) ∨
    sh.nextEpoch ≤ sh'.active.epoch
  next : sh.nextEpoch ≤ sh'.nextEpoch

namespace FlatShard

theorem Ok.new (cfg : Config) : (FlatShard.new cfg).Ok cfg (WalBuffer.reset 1) := by
  refine ⟨⟨encodes_new cfg 1, bufferOk_reset cfg.pageSize 1, rfl, nofun⟩,
    fun fb hfb => ?_, nofun, ?_⟩
  · obtain ⟨k, -, rfl⟩ := mem_map.mp (mem_reverse.mp hfb)
    exact length_replicate
  · show 1 < cfg.bufferCountLimit + 1
    rw [Config.bufferCountLimit]
    split <;> omega

theorem Keeps.refl (cfg : Config) (crc : Bytes → Nat) (sh : FlatShard) (b : WalBuffer) :
    Keeps cfg crc sh b sh b [] :=
  ⟨fun r => by simp, .inl ⟨rfl, fun _ _ h => h⟩, le_rfl⟩

theorem Ok.sealActive (h : sh.Ok cfg b) (hcrc : ∀ bytes, crc bytes < 2 ^ 32)
    (hseal : sh.sealActive = some sh') :
    ∃ b', sh'.Ok cfg b' ∧ Keeps cfg crc sh b sh' b' [] ∧ b'.batches = [] := by
  unfold FlatShard.sealActive at hseal
  split at hseal
  · rename_i hused
    cases hseal
    exact ⟨b, h, .refl cfg crc sh b, batches_eq_nil_of_used h.holds.encodes h.holds.ok hused⟩
  split at hseal
  · cases hseal
  rename_i spare spares hspares
  cases hseal
  have hreset := HoldsImages.reset (h.spares spare (hspares ▸ mem_cons_self)) sh.nextEpoch
  refine ⟨WalBuffer.reset sh.nextEpoch, ⟨hreset, ?_, ?_, Nat.lt_succ_self _⟩,
    ⟨?_, .inr le_rfl, Nat.le_succ _⟩, rfl⟩
  · exact fun fb hfb => h.spares fb (hspares ▸ mem_cons_of_mem spare hfb)
  · intro x hx
    rcases mem_append.mp hx with hx | hx
    · exact h.sealedSize x hx
    · rw [mem_singleton.mp hx]
      exact h.holds.encodes.size
  intro r
  have hempty : (WalBuffer.reset sh.nextEpoch).slots = [] := rfl
  rw [FlatShard.records, FlatShard.records, hreset.records hcrc, hempty]
  simp only [map_nil, nil_append, flatMap_append, flatMap_singleton,
    mem_append, not_mem_nil, or_false]
  exact or_comm

theorem Ok.rephase (h : sh.Ok cfg b) {k : Nat} {x : FlatSealed} {phase : Phase}
    (hk : sh.sealedBuffers[k]? = some x)
    (hsealed : sh'.sealedBuffers = sh.sealedBuffers.set k ⟨x.buffer, phase⟩)
    (hactive : sh'.active = sh.active) (hspares : ∀ fb ∈ sh'.spares, fb.bytes.length = cfg.capacity)
    (hnext : sh.nextEpoch ≤ sh'.nextEpoch) : sh'.Ok cfg b ∧ Keeps cfg crc sh b sh' b [] := by
  obtain ⟨hlt, rfl⟩ := List.getElem?_eq_some_iff.mp hk
  have hbuffers : sh'.sealedBuffers.map FlatSealed.buffer =
      sh.sealedBuffers.map FlatSealed.buffer := by
    have hself := congrArg (List.map FlatSealed.buffer) (set_getElem_self hlt)
    rw [map_set] at hself
    rw [hsealed, map_set, hself]
  have hrecords : sh'.records cfg crc = sh.records cfg crc := by
    have hsplit : ∀ xs : List FlatSealed, xs.flatMap (fun x => x.buffer.records cfg.pageSize crc) =
        (xs.map FlatSealed.buffer).flatMap (FlatBuffer.records cfg.pageSize crc) := fun xs =>
      (flatMap_map ..).symm
    rw [FlatShard.records, FlatShard.records, hactive, hsplit, hsplit, hbuffers]
  refine ⟨⟨hactive ▸ h.holds, hspares, fun y hy => ?_, hactive ▸ h.epoch.trans_le hnext⟩,
    ⟨fun r => by rw [hrecords]; simp, .inl ⟨congrArg _ hactive, fun _ _ hp => hp⟩, hnext⟩⟩
  have hmem : y.buffer ∈ sh.sealedBuffers.map FlatSealed.buffer := hbuffers ▸ mem_map_of_mem hy
  obtain ⟨z, hz, heq⟩ := mem_map.mp hmem
  exact heq ▸ h.sealedSize z hz

theorem Ok.advance (h : sh.Ok cfg b) {k : Nat} (hstep : sh.advance k = some sh') :
    sh'.Ok cfg b ∧ Keeps cfg crc sh b sh' b [] := by
  unfold FlatShard.advance at hstep
  split at hstep
  · rename_i hk
    cases hstep
    exact h.rephase hk rfl rfl h.spares le_rfl
  · rename_i hk
    cases hstep
    exact h.rephase hk rfl rfl h.spares le_rfl
  · cases hstep

theorem Ok.complete (h : sh.Ok cfg b) {k : Nat} (hstep : sh.complete k = some sh') :
    sh'.Ok cfg b ∧ Keeps cfg crc sh b sh' b [] := by
  unfold FlatShard.complete at hstep
  split at hstep
  · rename_i buffer hk
    cases hstep
    refine h.rephase hk rfl rfl (fun fb hfb => ?_) (Nat.le_succ _)
    rcases mem_cons.mp hfb with rfl | hfb
    · exact h.sealedSize _ (mem_of_getElem? hk)
    · exact h.spares fb hfb
  · cases hstep

theorem Keeps.trans {sh₁ sh₂ : FlatShard} {b₁ b₂ : WalBuffer} {new : List Slot}
    (h : Keeps cfg crc sh b sh₁ b₁ []) (h' : Keeps cfg crc sh₁ b₁ sh₂ b₂ new) :
    Keeps cfg crc sh b sh₂ b₂ new := by
  refine ⟨fun r => ?_, ?_, h.next.trans h'.next⟩
  · rw [h'.records, h.records]
    simp
  · rcases h'.places with ⟨hepoch', hplaces'⟩ | hfresh'
    · rcases h.places with ⟨hepoch, hplaces⟩ | hfresh
      · exact .inl ⟨hepoch'.trans hepoch,
          fun place pid hp => hplaces' place pid (hplaces place pid hp)⟩
      · exact .inr (hepoch' ▸ hfresh)
    · exact .inr (h.next.trans hfresh')

theorem Ok.push (h : sh.Ok cfg b) (hcrc : ∀ bytes, crc bytes < 2 ^ 32)
    (hfits : sh.active.fits cfg.pageSize = true) (hslot : SlotFilled cfg.pageSize slot)
    (hkind : slot.entry.kind = .pageImage) :
    ∃ b', (sh.push cfg slot).1.Ok cfg b' ∧ Keeps cfg crc sh b (sh.push cfg slot).1 b' [slot] ∧
      (sh.push cfg slot).2.epoch = (sh.push cfg slot).1.active.epoch ∧
      ImageSlot b' (sh.push cfg slot).2 slot.entry.arg := by
  obtain ⟨hholds, hslots, hepoch, hplaces, hplace⟩ := h.holds.push hfits hslot hkind
  refine ⟨b.pushRecord cfg.pageSize slot, ⟨hholds, h.spares, h.sealedSize, hepoch ▸ h.epoch⟩,
    ⟨fun r => ?_, .inl ⟨hepoch, hplaces⟩, le_rfl⟩, rfl, hplace⟩
  have hactive : (sh.push cfg slot).1.active.records cfg.pageSize crc =
      sh.active.records cfg.pageSize crc ++ [slot].map Slot.image := by
    refine (hholds.records hcrc).trans ?_
    rw [h.holds.records hcrc, hslots, map_append]
  rw [FlatShard.records, FlatShard.records, hactive]
  simp only [mem_append]
  exact or_right_comm

/-- A section of the append fills its image in, or leaves the shard as it is. -/
theorem Ok.appendImage (h : sh.Ok cfg b) (hcrc : ∀ bytes, crc bytes < 2 ^ 32) {woken : Bool}
    {place : Option Appender.Place} (hslot : SlotFilled cfg.pageSize slot)
    (hkind : slot.entry.kind = .pageImage)
    (hstep : sh.appendImage cfg woken slot = some (sh', place)) :
    (sh' = sh ∧ place = none) ∨ ∃ b' p, place = some p ∧ sh'.Ok cfg b' ∧
      Keeps cfg crc sh b sh' b' [slot] ∧ p.epoch = sh'.active.epoch ∧
        ImageSlot b' p slot.entry.arg := by
  have hsame : (if woken then sh else { sh with active := sh.active.clearPacked }) = sh := by
    rw [h.holds.clearPacked]
    split <;> rfl
  unfold FlatShard.appendImage at hstep
  simp only [hsame] at hstep
  split at hstep
  · split at hstep
    · cases hstep
      exact .inl ⟨rfl, rfl⟩
    obtain ⟨sh₁, hseal, heq⟩ := Option.map_eq_some_iff.mp hstep
    cases heq
    obtain ⟨b₁, hok, hkeeps, hempty⟩ := h.sealActive hcrc hseal
    have hfits : sh₁.active.fits cfg.pageSize = true := by
      rw [fits_eq hok.holds.encodes hok.holds.ok]
      exact fits_of_empty hempty
    obtain ⟨b', hok', hkeeps', hepoch, hplace⟩ := hok.push hcrc hfits hslot hkind
    exact .inr ⟨b', _, rfl, hok', hkeeps.trans hkeeps', hepoch, hplace⟩
  rename_i hroom
  cases hstep
  have hfits : sh.active.fits cfg.pageSize = true := by
    rw [not_or] at hroom
    exact Bool.eq_true_of_not_eq_false hroom.2
  obtain ⟨b', hok', hkeeps', hepoch, hplace⟩ := h.push hcrc hfits hslot hkind
  exact .inr ⟨b', _, rfl, hok', hkeeps', hepoch, hplace⟩

/-- An overwrite through an exact handle puts its image in the place of the old one. -/
theorem Ok.overwrite (h : sh.Ok cfg b) (hcrc : ∀ bytes, crc bytes < 2 ^ 32) {place : Appender.Place}
    {pid lsn : Nat} {page : Bytes} (hplace : ImageSlot b place pid) (hidx : place.slotIdx < 256)
    (hepoch : place.epoch = sh.active.epoch) (hlsn : lsn < u64Limit)
    (hpage : page.length = cfg.pageSize.bytes) :
    ∃ (active : FlatBuffer) (b' : WalBuffer) (old : Slot),
      sh.active.overwritePageImage cfg.pageSize place.record.epoch place.record.offset
        lsn pid page =
        .done active ∧
      Ok cfg { sh with active } b' ∧ active.epoch = sh.active.epoch ∧
      (∀ place' pid', ImageSlot b place' pid' → ImageSlot b' place' pid') ∧
      old.entry.arg = pid ∧ sh.active.lsnAt cfg.pageSize place.record.offset = old.entry.lsn ∧
      old.image ∈ sh.records cfg crc ∧
      (∀ r, r ∈ records cfg crc { sh with active } → r ∈ sh.records cfg crc ∨
      r = .pageImage lsn pid page) ∧
      (∀ r ∈ sh.records cfg crc, r ∈ records cfg crc { sh with active } ∨ r = old.image) ∧
      .pageImage lsn pid page ∈ records cfg crc { sh with active } := by
  obtain ⟨active, b', before, old, behind, hresult, hholds, hsame, hslots, harg, hold,
    hslots', hplaces⟩ := h.holds.overwrite hplace hidx hepoch hlsn hpage
  have hnew : (old.overwritten lsn page).image = .pageImage lsn pid page := by
    rw [← harg]
    rfl
  have hfrom : sh.active.records cfg.pageSize crc =
      before.map Slot.image ++ old.image :: behind.map Slot.image := by
    rw [h.holds.records hcrc, hslots, map_append, map_cons]
  have hto : active.records cfg.pageSize crc =
      before.map Slot.image ++ .pageImage lsn pid page :: behind.map Slot.image := by
    rw [hholds.records hcrc, hslots', map_append, map_cons, hnew]
  refine ⟨active, b', old, hresult, ⟨hholds, h.spares, h.sealedSize, hsame ▸ h.epoch⟩, hsame,
    hplaces, harg, hold, ?_, ?_, ?_, ?_⟩
  · rw [records, hfrom]
    simp
  · intro r hr
    rw [records, hto] at hr
    rw [records, hfrom]
    simp only [mem_append, mem_cons] at hr ⊢
    tauto
  · intro r hr
    rw [records, hfrom] at hr
    rw [records, hto]
    simp only [mem_append, mem_cons] at hr ⊢
    tauto
  · rw [records, hto]
    simp

end FlatShard

end Shards

namespace ImageLog

def PcOk (su : Setup) (s : ImageLog) (bs : Nat → WalBuffer) : CallPc → Prop
  | .checking _ prev => prev ∈ s.issued
  | .overwriting c prev =>
    prev ∈ s.issued ∧ prev.shardIdx = su.ownerShard c.lsn ∧
      (prev.place.slotIdx < 256 → prev.place.epoch = (s.shards prev.shardIdx).active.epoch →
        ImageSlot (bs prev.shardIdx) prev.place c.pid)
  | _ => True

/-- What holds of the buffers, the handles and the calls; `bs` are the images in the
active buffers. -/
structure Core (su : Setup) (crc : Bytes → Nat) (s : ImageLog) (bs : Nat → WalBuffer) : Prop where
  shards : ∀ i, (s.shards i).Ok su.cfg (bs i)
  handles : ∀ h ∈ s.issued, h.place.epoch < (s.shards h.shardIdx).nextEpoch ∧
    (h.place.epoch = (s.shards h.shardIdx).active.epoch →
      ∃ pid, ImageSlot (bs h.shardIdx) h.place pid)
  threads : ∀ t, PcOk su s bs (s.threads t)
  calls : ∀ t c, (s.threads t).call = some c →
    c.lsn < s.nextLsn ∧ c.lsn < u64Limit ∧ c.pid < u64Limit ∧ c.page.length = su.cfg.pageSize.bytes
  apart : ∀ t t' c c', (s.threads t).call = some c → (s.threads t').call = some c' →
    c.pid = c'.pid → t = t'
  lsns : ∀ i, ∀ r ∈ (s.shards i).records su.cfg crc, r.lsn < s.nextLsn
  fresh : ∀ t c, (s.threads t).call = some c → ∀ i lsn page,
    .pageImage lsn c.pid page ∈ (s.shards i).records su.cfg crc → lsn < c.lsn

section Steps

variable {su : Setup} {crc : Bytes → Nat} {s s' : ImageLog} {bs : Nat → WalBuffer}

/-- A section changes a shard; the records that are new are of pages without a call. -/
theorem Core.setShard (h : Core su crc s bs) {i : Nat} {sh : FlatShard} {b : WalBuffer}
    (hok : sh.Ok su.cfg b)
    (hplaces : (sh.active.epoch = (s.shards i).active.epoch ∧
        ∀ place pid, ImageSlot (bs i) place pid → ImageSlot b place pid) ∨
      (s.shards i).nextEpoch ≤ sh.active.epoch)
    (hnext : (s.shards i).nextEpoch ≤ sh.nextEpoch)
    (hrecords : ∀ r ∈ sh.records su.cfg crc, r ∈ (s.shards i).records su.cfg crc ∨
      (r.lsn < s.nextLsn ∧ ∀ t c, (s.threads t).call = some c → ∀ lsn page,
        r = .pageImage lsn c.pid page → lsn < c.lsn)) :
    Core su crc (s.setShard i sh) (update bs i b) := by
  -- a handle whose buffer is active still was active before, with its image
  have hstill : ∀ h' ∈ s.issued,
      h'.place.epoch = ((s.setShard i sh).shards h'.shardIdx).active.epoch →
      h'.place.epoch = (s.shards h'.shardIdx).active.epoch ∧
        ∀ pid, ImageSlot (bs h'.shardIdx) h'.place pid →
          ImageSlot (update bs i b h'.shardIdx) h'.place pid := by
    intro h' hmem hepoch
    by_cases hi : h'.shardIdx = i
    · subst hi
      simp only [ImageLog.setShard, update_self] at hepoch ⊢
      rcases hplaces with ⟨hsame, hkeep⟩ | hfresh
      · exact ⟨hepoch.trans hsame, fun pid => hkeep _ pid⟩
      · have hlt := (h.handles h' hmem).1
        omega
    · simp only [ImageLog.setShard, update_of_ne hi] at hepoch ⊢
      exact ⟨hepoch, fun _ hold => hold⟩
  have hrecord : ∀ k, ∀ r ∈ ((s.setShard i sh).shards k).records su.cfg crc,
      r ∈ (s.shards k).records su.cfg crc ∨
        (r.lsn < s.nextLsn ∧ ∀ t c, (s.threads t).call = some c → ∀ lsn page,
          r = .pageImage lsn c.pid page → lsn < c.lsn) := by
    intro k r hr
    by_cases hk : k = i
    · subst hk
      simp only [ImageLog.setShard, update_self] at hr
      exact hrecords r hr
    · simp only [ImageLog.setShard, update_of_ne hk] at hr
      exact .inl hr
  refine ⟨fun k => ?_, fun h' hmem => ⟨?_, fun hepoch => ?_⟩, fun t => ?_, h.calls, h.apart,
    fun k r hr => ?_, fun t c hc k lsn page hr => ?_⟩
  · by_cases hk : k = i
    · subst hk
      simpa [ImageLog.setShard] using hok
    · simpa [ImageLog.setShard, hk] using h.shards k
  · by_cases hi : h'.shardIdx = i
    · subst hi
      simp only [ImageLog.setShard, update_self]
      exact (h.handles h' hmem).1.trans_le hnext
    · simp only [ImageLog.setShard, update_of_ne hi]
      exact (h.handles h' hmem).1
  · obtain ⟨hold, hkeep⟩ := hstill h' hmem hepoch
    obtain ⟨pid, hpid⟩ := (h.handles h' hmem).2 hold
    exact ⟨pid, hkeep pid hpid⟩
  · have hpc := h.threads t
    show PcOk su _ _ (s.threads t)
    cases hthread : s.threads t with
    | overwriting c prev =>
      rw [hthread] at hpc
      refine ⟨hpc.1, hpc.2.1, fun hidx hepoch => ?_⟩
      obtain ⟨hold, hkeep⟩ := hstill prev hpc.1 hepoch
      exact hkeep _ (hpc.2.2 hidx hold)
    | checking c prev =>
      rw [hthread] at hpc
      exact hpc
    | idle => trivial
    | appending c => trivial
    | waiting c => trivial
  · rcases hrecord k r hr with hold | ⟨hlt, -⟩
    · exact h.lsns k r hold
    · exact hlt
  · rcases hrecord k _ hr with hold | ⟨-, hlt⟩
    · exact h.fresh t c hc k lsn page hold
    · exact hlt t c hc lsn page rfl

theorem Core.setPc (h : Core su crc s bs) {t : Nat} {pc : CallPc} (hpc : PcOk su s bs pc)
    (hcall : ∀ c, pc.call = some c → (s.threads t).call = some c) :
    Core su crc (s.setPc t pc) bs := by
  have hold : ∀ k c, ((s.setPc t pc).threads k).call = some c → (s.threads k).call = some c := by
    intro k c hc
    by_cases hk : k = t
    · subst hk
      simp only [ImageLog.setPc, update_self] at hc
      exact hcall c hc
    · simp only [ImageLog.setPc, update_of_ne hk] at hc
      exact hc
  refine ⟨h.shards, h.handles, fun k => ?_, fun k c hc => h.calls k c (hold k c hc),
    fun k k' c c' hc hc' => h.apart k k' c c' (hold k c hc) (hold k' c' hc'), h.lsns,
    fun k c hc => h.fresh k c (hold k c hc)⟩
  by_cases hk : k = t
  · subst hk
    simp only [ImageLog.setPc, update_self]
    exact hpc
  · simp only [ImageLog.setPc, update_of_ne hk]
    exact h.threads k

theorem Core.issue (h : Core su crc s bs) {new : ImageHandle} {pid : Nat}
    (hepoch : new.place.epoch = (s.shards new.shardIdx).active.epoch)
    (hplace : ImageSlot (bs new.shardIdx) new.place pid) :
    Core su crc { s with issued := s.issued ++ [new] } bs := by
  refine ⟨h.shards, fun h' hmem => ?_, fun t => ?_, h.calls, h.apart, h.lsns, h.fresh⟩
  · rcases mem_append.mp hmem with hmem | hmem
    · exact h.handles h' hmem
    · rw [mem_singleton.mp hmem]
      exact ⟨hepoch ▸ (h.shards new.shardIdx).epoch, fun _ => ⟨pid, hplace⟩⟩
  have hpc := h.threads t
  cases hthread : s.threads t with
  | overwriting c prev =>
    rw [hthread] at hpc
    exact ⟨mem_append_left _ hpc.1, hpc.2⟩
  | checking c prev =>
    rw [hthread] at hpc
    exact mem_append_left _ hpc
  | idle => trivial
  | appending c => trivial
  | waiting c => trivial

theorem Core.ghost (h : Core su crc s bs) (returned : List ImageCall) (replaced : List Replaced) :
    Core su crc { s with returned, replaced } bs :=
  ⟨h.shards, h.handles, h.threads, h.calls, h.apart, h.lsns, h.fresh⟩

theorem le_lsnFor (s : ImageLog) (t : Nat) : s.nextLsn ≤ s.lsnFor su t := by
  rw [lsnFor]
  split
  · exact le_rfl
  · exact le_alignLsnToShard _ _ _

theorem Core.claim (h : Core su crc s bs) {t pid : Nat} {page : Bytes} {pc : CallPc}
    (hidle : s.threads t = .idle) (hpid : pid < u64Limit)
    (hpage : page.length = su.cfg.pageSize.bytes) (hlsn : s.lsnFor su t + 1 < u64Limit)
    (hdistinct : ∀ k c, (s.threads k).call = some c → c.pid ≠ pid)
    (hcall : pc.call = some ⟨s.lsnFor su t, pid, page⟩) (hpc : PcOk su s bs pc) :
    Core su crc ({ s with nextLsn := (s.lsnFor su t + 1) % u64Limit }.setPc t pc) bs := by
  have hle : s.nextLsn ≤ s.lsnFor su t := le_lsnFor s t
  have hmod : (s.lsnFor su t + 1) % u64Limit = s.lsnFor su t + 1 := Nat.mod_eq_of_lt hlsn
  rw [hmod]
  have hnow : ∀ k, k ≠ t → (update s.threads t pc k) = s.threads k := fun k hk =>
    update_of_ne hk _ _
  have hself : update s.threads t pc t = pc := update_self _ _ _
  refine ⟨h.shards, h.handles, fun k => ?_, fun k c hc => ?_, fun k k' c c' hc hc' heq => ?_,
    fun k r hr => ?_, fun k c hc j lsn img hr => ?_⟩
  · show PcOk su _ _ (update s.threads t pc k)
    by_cases hk : k = t
    · rw [hk, hself]
      exact hpc
    · rw [hnow k hk]
      exact h.threads k
  · by_cases hk : k = t
    · subst hk
      simp only [ImageLog.setPc, hself, hcall, Option.some.injEq] at hc
      subst hc
      exact ⟨Nat.lt_succ_self _, Nat.lt_of_succ_lt hlsn, hpid, hpage⟩
    · simp only [ImageLog.setPc, hnow k hk] at hc
      obtain ⟨hlt, hrest⟩ := h.calls k c hc
      exact ⟨hlt.trans_le (hle.trans (Nat.le_succ _)), hrest⟩
  · by_cases hk : k = t <;> by_cases hk' : k' = t
    · rw [hk, hk']
    · subst hk
      simp only [ImageLog.setPc, hself, hnow k' hk', hcall, Option.some.injEq] at hc hc'
      subst hc
      exact absurd heq.symm (hdistinct k' c' hc')
    · subst hk'
      simp only [ImageLog.setPc, hself, hnow k hk, hcall, Option.some.injEq] at hc hc'
      subst hc'
      exact absurd heq (hdistinct k c hc)
    · simp only [ImageLog.setPc, hnow k hk, hnow k' hk'] at hc hc'
      exact h.apart k k' c c' hc hc' heq
  · exact (h.lsns k r hr).trans_le (hle.trans (Nat.le_succ _))
  by_cases hk : k = t
  · subst hk
    simp only [ImageLog.setPc, hself, hcall, Option.some.injEq] at hc
    subst hc
    exact (h.lsns j _ hr).trans_le hle
  · simp only [ImageLog.setPc, hnow k hk] at hc
    exact h.fresh k c hc j lsn img hr

structure Inv (su : Setup) (crc : Bytes → Nat) (s : ImageLog) : Prop where
  core : ∃ bs, Core su crc s bs
  returned : ∀ c ∈ s.returned, s.Logged su crc c ∨ s.Superseded c

theorem Inv.opened (su : Setup) (nextLsn : Nat) :
    (opened su nextLsn).Inv su crc := by
  have hok := FlatShard.Ok.new su.cfg
  refine ⟨⟨fun _ => WalBuffer.reset 1,
    ⟨fun _ => hok, nofun, fun _ => trivial, nofun, nofun, ?_, nofun⟩⟩, nofun⟩
  intro i r hr
  cases hr

/-- A section that keeps all records keeps the images of the calls that returned. -/
theorem Logged.setShard {c : ImageCall} (h : s.Logged su crc c) {i : Nat} {sh : FlatShard}
    (hkeep : ∀ r ∈ (s.shards i).records su.cfg crc, r ∈ sh.records su.cfg crc) :
    (s.setShard i sh).Logged su crc c := by
  unfold Logged at h ⊢
  by_cases hi : su.ownerShard c.lsn = i
  · subst hi
    simp only [ImageLog.setShard, update_self]
    exact hkeep _ h
  · simp only [ImageLog.setShard, update_of_ne hi]
    exact h

theorem Superseded.more {c : ImageCall} (h : s.Superseded c) {returned : List ImageCall}
    {replaced : List Replaced} (hreturned : s'.returned = s.returned ++ returned)
    (hreplaced : s'.replaced = s.replaced ++ replaced) : s'.Superseded c := by
  obtain ⟨c', hc', hpid, hlt, hmem⟩ := h
  exact ⟨c', hreturned ▸ mem_append_left _ hc', hpid, hlt, hreplaced ▸ mem_append_left _ hmem⟩

theorem Inv.start (h : s.Inv su crc) {t pid : Nat} {prev : Option Nat} {page : Bytes}
    (hsafe : s.safe su (.start t pid prev page)) (hstep : s.start su t pid prev page = some s') :
    s'.Inv su crc := by
  obtain ⟨hdistinct, hlsn⟩ := hsafe
  obtain ⟨bs, hcore⟩ := h.core
  unfold ImageLog.start at hstep
  split at hstep
  · rename_i hidle
    split at hstep
    · rename_i hargs
      split at hstep
      · cases hstep
        exact ⟨⟨bs, hcore.claim hidle hargs.1 hargs.2 hlsn hdistinct rfl trivial⟩, h.returned⟩
      · obtain ⟨handle, hhandle, heq⟩ := Option.map_eq_some_iff.mp hstep
        cases heq
        exact ⟨⟨bs, hcore.claim hidle hargs.1 hargs.2 hlsn hdistinct rfl
          (mem_of_getElem? hhandle)⟩, h.returned⟩
    · cases hstep
  · cases hstep

/-- A call that may overwrite has the handle of an image of its page, as long as its
buffer is active. -/
theorem Inv.check (h : s.Inv su crc) {t : Nat} {c : ImageCall} {prev : ImageHandle}
    (hpc : s.threads t = .checking c prev) : (s.check su t c prev).Inv su crc := by
  obtain ⟨bs, hcore⟩ := h.core
  have hissued : prev ∈ s.issued := by
    have hthread := hcore.threads t
    rwa [hpc] at hthread
  have hcall : (s.threads t).call = some c := by rw [hpc]; rfl
  rw [ImageLog.check]
  split
  · rename_i hcan
    refine ⟨⟨bs, hcore.setPc ⟨hissued, hcan.1, fun hidx hepoch => ?_⟩ fun c' hc' => ?_⟩, h.returned⟩
    · obtain ⟨pid, hpid⟩ := (hcore.handles prev hissued).2 hepoch
      rw [← hcan.1] at hcan
      obtain ⟨-, rfl⟩ := (hcore.shards prev.shardIdx).holds.of_canOverwrite hpid hidx hcan.2
      exact hpid
    · cases hc'
      exact hcall
  · refine ⟨⟨bs, hcore.setPc trivial fun c' hc' => ?_⟩, h.returned⟩
    cases hc'
    exact hcall

theorem Inv.driver (h : s.Inv su crc) {i : Nat} {f : FlatShard → Option FlatShard}
    (hf : ∀ sh b sh', sh.Ok su.cfg b → f sh = some sh' →
      ∃ b', sh'.Ok su.cfg b' ∧ FlatShard.Keeps su.cfg crc sh b sh' b' [])
    (hstep : s.onShard su i f = some s') : s'.Inv su crc := by
  obtain ⟨bs, hcore⟩ := h.core
  unfold ImageLog.onShard at hstep
  split at hstep
  · cases hstep
  obtain ⟨sh, hsh, heq⟩ := Option.map_eq_some_iff.mp hstep
  cases heq
  obtain ⟨b, hok, hkeeps⟩ := hf _ (bs i) sh (hcore.shards i) hsh
  have hrecords : ∀ r, r ∈ sh.records su.cfg crc ↔ r ∈ (s.shards i).records su.cfg crc := by
    intro r
    rw [hkeeps.records]
    simp
  refine ⟨⟨_, hcore.setShard hok hkeeps.places hkeeps.next fun r hr => .inl ((hrecords r).mp hr)⟩,
    fun c hc => ?_⟩
  exact (h.returned c hc).imp (Logged.setShard · fun r hr => (hrecords r).mpr hr) id

/-- A thread is done with its call: records of its page can be added up to the LSN of
the call. -/
theorem Core.lone (h : Core su crc s bs) {t : Nat} {c : ImageCall}
    (hcall : (s.threads t).call = some c) :
    ∀ k c', ((s.setPc t .idle).threads k).call = some c' → c'.pid ≠ c.pid := by
  intro k c' hc' hpid
  by_cases hk : k = t
  · subst hk
    simp only [ImageLog.setPc, update_self] at hc'
    cases hc'
  · simp only [ImageLog.setPc, update_of_ne hk] at hc'
    exact hk (h.apart k t c' c hc' hcall hpid)

theorem Inv.append (h : s.Inv su crc) (hcrc : ∀ bytes, crc bytes < 2 ^ 32) {t : Nat} {woken : Bool}
    {c : ImageCall} (hcall : (s.threads t).call = some c)
    (hstep : s.append su t woken c = some s') :
    s'.Inv su crc := by
  obtain ⟨bs, hcore⟩ := h.core
  obtain ⟨hlt, hlsn, hpid, hpage⟩ := hcore.calls t c hcall
  obtain ⟨⟨sh, place⟩, hsh, heq⟩ := Option.map_eq_some_iff.mp hstep
  subst heq
  set i := su.ownerShard c.lsn with hi
  have hslot : SlotFilled su.cfg.pageSize (imageSlot su.cfg.pageSize c.lsn c.pid c.page) :=
    imageSlot_ok hlsn hpid hpage
  rcases (hcore.shards i).appendImage hcrc hslot rfl hsh with ⟨rfl, rfl⟩ |
    ⟨b, p, rfl, hok, hkeeps, hepoch, hplace⟩
  · have hsame : s.setShard i (s.shards i) = s := by
      rw [ImageLog.setShard, update_eq_self]
    show ((s.setShard i (s.shards i)).setPc t (.waiting c)).Inv su crc
    rw [hsame]
    exact ⟨⟨bs, hcore.setPc trivial fun c' hc' => by cases hc'; exact hcall⟩, h.returned⟩
  have hnew : [imageSlot su.cfg.pageSize c.lsn c.pid c.page].map Slot.image =
      [.pageImage c.lsn c.pid c.page] := rfl
  have hrecords : ∀ r, r ∈ sh.records su.cfg crc ↔ r ∈ (s.shards i).records su.cfg crc ∨
      r = .pageImage c.lsn c.pid c.page := by
    intro r
    rw [hkeeps.records, hnew, mem_singleton]
  have hidle : Core su crc (s.setPc t .idle) bs := hcore.setPc trivial nofun
  have hset : Core su crc ((s.setPc t .idle).setShard i sh) (update bs i b) := by
    refine hidle.setShard hok hkeeps.places hkeeps.next fun r hr => ?_
    rcases (hrecords r).mp hr with hold | rfl
    · exact .inl hold
    · refine .inr ⟨hlt, fun k c' hc' lsn page heq => ?_⟩
      rw [ReplayRecord.pageImage.injEq] at heq
      exact absurd heq.2.1.symm (hcore.lone hcall k c' hc')
  have hplaced : ImageSlot (update bs i b i) p c.pid := by
    rw [update_self]
    exact hplace
  have hissue : Core su crc { (s.setPc t .idle).setShard i sh with issued := s.issued ++ [⟨i, p⟩] }
      (update bs i b) := by
    refine hset.issue ?_ hplaced
    simpa [ImageLog.setShard] using hepoch
  refine ⟨⟨update bs i b, hissue.ghost _ _⟩, ?_⟩
  · intro c' hc'
    rcases mem_append.mp hc' with hc' | hc'
    · refine (h.returned c' hc').imp (Logged.setShard · fun r hr => (hrecords r).mpr (.inl hr))
        fun hold => ?_
      exact hold.more rfl (append_nil _).symm
    · rw [mem_singleton.mp hc']
      refine .inl ?_
      show _ ∈ FlatShard.records su.cfg crc (update s.shards i sh i)
      rw [update_self]
      exact (hrecords _).mpr (.inr rfl)

/-- With an exact handle and its buffer still active, the image is overwritten. -/
theorem Inv.overwrite (h : s.Inv su crc) (hcrc : ∀ bytes, crc bytes < 2 ^ 32) {t : Nat}
    {c : ImageCall}
    {prev : ImageHandle} (hpc : s.threads t = .overwriting c prev) (hidx : prev.place.slotIdx < 256)
    (hepoch : prev.place.epoch = (s.shards prev.shardIdx).active.epoch)
    (hstep : s.overwrite su t c prev = some s') : s'.Inv su crc := by
  obtain ⟨bs, hcore⟩ := h.core
  have hcall : (s.threads t).call = some c := by rw [hpc]; rfl
  obtain ⟨hlt, hlsn, -, hpage⟩ := hcore.calls t c hcall
  obtain ⟨-, hshard, hplace⟩ : PcOk su s bs (.overwriting c prev) := hpc ▸ hcore.threads t
  have hplace := hplace hidx hepoch
  rw [hshard] at hplace hepoch
  set i := su.ownerShard c.lsn with hi
  obtain ⟨active, b, old, hresult, hok, hsame, hplaces, harg, hat, hmem, hfrom, hkeep, hin⟩ :=
    (hcore.shards i).overwrite hcrc hplace hidx hepoch hlsn hpage
  rw [ImageLog.overwrite, ← hi] at hstep
  simp only [hshard, ne_eq, not_true_eq_false, if_false, hresult] at hstep
  cases hstep
  set sh : FlatShard := { s.shards i with active }
  have hidle : Core su crc (s.setPc t .idle) bs := hcore.setPc trivial nofun
  have hset : Core su crc ((s.setPc t .idle).setShard i sh) (update bs i b) := by
    refine hidle.setShard hok (.inl ⟨hsame, hplaces⟩) le_rfl fun r hr => ?_
    rcases hfrom r hr with hold | rfl
    · exact .inl hold
    · refine .inr ⟨hlt, fun k c' hc' lsn page heq => ?_⟩
      rw [ReplayRecord.pageImage.injEq] at heq
      exact absurd heq.2.1.symm (hcore.lone hcall k c' hc')
  have hself : c ∈ s.returned ++ [c] := mem_append_right _ mem_cons_self
  have hreplaced : (⟨old.entry.lsn, c.lsn⟩ : Replaced) ∈ s.replaced ++
      [⟨(s.shards i).active.lsnAt su.cfg.pageSize prev.place.record.offset, c.lsn⟩] := by
    rw [hat]
    exact mem_append_right _ mem_cons_self
  refine ⟨⟨update bs i b, hset.ghost _ _⟩, fun c' hc' => ?_⟩
  rcases mem_append.mp hc' with hc' | hc'
  · rcases h.returned c' hc' with hlogged | hold
    · by_cases hold : su.ownerShard c'.lsn = i ∧
        ReplayRecord.pageImage c'.lsn c'.pid c'.page = old.image
      · -- this is the image that is overwritten
        obtain ⟨hlsn', hpid', -⟩ : c'.lsn = old.entry.lsn ∧ c'.pid = old.entry.arg ∧
            c'.page = old.data := by
          simpa [Slot.image] using hold.2
        refine .inr ⟨c, hself, hpid'.trans harg |>.symm, ?_, hlsn' ▸ hreplaced⟩
        have himage : ReplayRecord.pageImage old.entry.lsn c.pid old.data ∈
            (s.shards i).records su.cfg crc := harg ▸ hmem
        exact hlsn' ▸ hcore.fresh t c hcall i _ _ himage
      left
      show _ ∈ FlatShard.records su.cfg crc (update s.shards i sh (su.ownerShard c'.lsn))
      by_cases hi' : su.ownerShard c'.lsn = i
      · rw [hi', update_self]
        have hlogged' : ReplayRecord.pageImage c'.lsn c'.pid c'.page ∈
            (s.shards i).records su.cfg crc := hi' ▸ hlogged
        exact (hkeep _ hlogged').resolve_right fun heq => hold ⟨hi', heq⟩
      · rw [update_of_ne hi']
        exact hlogged
    · exact .inr (hold.more rfl rfl)
  · rw [mem_singleton.mp hc']
    left
    show _ ∈ FlatShard.records su.cfg crc (update s.shards i sh i)
    rw [update_self]
    exact hin

theorem Inv.step (h : s.Inv su crc) (hcrc : ∀ bytes, crc bytes < 2 ^ 32) {a : Action}
    (hsafe : s.safe su a)
    (hstep : s.step su a = some s') : s'.Inv su crc := by
  cases a with
  | start t pid prev page => exact h.start hsafe hstep
  | check t =>
    rw [ImageLog.step] at hstep
    split at hstep
    · rename_i c prev hpc
      cases hstep
      exact h.check hpc
    · cases hstep
  | overwrite t =>
    rw [ImageLog.step] at hstep
    split at hstep
    · rename_i c prev hpc
      obtain ⟨hidx, hepoch⟩ := hsafe.2 c prev hpc
      exact h.overwrite hcrc hpc hidx hepoch hstep
    · cases hstep
  | append t =>
    rw [ImageLog.step] at hstep
    split at hstep
    · rename_i c hpc
      exact h.append hcrc (by rw [hpc]; rfl) hstep
    · cases hstep
  | resume t =>
    rw [ImageLog.step] at hstep
    split at hstep
    · rename_i c hpc
      exact h.append hcrc (by rw [hpc]; rfl) hstep
    · cases hstep
  | sealActive i =>
    refine h.driver (fun sh b sh' hok hsh => ?_) hstep
    obtain ⟨b', hok', hkeeps, -⟩ := hok.sealActive hcrc hsh
    exact ⟨b', hok', hkeeps⟩
  | advance i k => exact h.driver (fun _ b _ hok hsh => ⟨b, hok.advance hsh⟩) hstep
  | complete i k => exact h.driver (fun _ b _ hok hsh => ⟨b, hok.complete hsh⟩) hstep

theorem Inv.run (hcrc : ∀ bytes, crc bytes < 2 ^ 32) {nextLsn : Nat}
    (h : Reach (ImageLog.step su) (ImageLog.safe su) (.opened su nextLsn) s) : s.Inv su crc :=
  h.invariant (.opened su nextLsn) fun _ _ _ hs hsafe hstep => hs.step hcrc hsafe hstep

end Steps

/-! ### Two calls for one page -/

def oneRecord : Setup := ⟨⟨.k4, 1, .fdatasync⟩, 1, fun _ => 0⟩

def zeroPage : Bytes := replicate PageSize.k4.bytes 0

/-- The first call for page 7 has returned, and the second has found that it can
overwrite the image of the first. -/
theorem overwriting_reached :
    ∃ s prev, Reach (ImageLog.step oneRecord) (ImageLog.safe oneRecord) (.opened oneRecord 1) s ∧
      s.threads 0 = .overwriting ⟨2, 7, zeroPage⟩ prev ∧ prev.shardIdx = 0 ∧
        prev.place.slotIdx < 256 ∧
      prev.place.epoch = (s.shards 0).active.epoch ∧ s.returned = [⟨1, 7, zeroPage⟩] ∧
      s.replaced = [] ∧ (s.shards 0).active.used ≠ 0 ∧ (s.shards 0).active.epoch <
        (s.shards 0).nextEpoch ∧
      ∃ spare, (s.shards 0).spares = [spare] := by
  have hpage : zeroPage.length = PageSize.k4.bytes := length_replicate
  have hok := FlatShard.Ok.new oneRecord.cfg
  set sh := FlatShard.new oneRecord.cfg with hsh
  set slot := imageSlot .k4 1 7 zeroPage with hslotDef
  have hslot : SlotFilled oneRecord.cfg.pageSize slot := imageSlot_ok (by decide) (by decide) hpage
  have hcrc : ∀ bytes : Bytes, (fun _ => 0 : Bytes → Nat) bytes < 2 ^ 32 := fun _ =>
    Nat.two_pow_pos 32
  have hfits : sh.active.fits oneRecord.cfg.pageSize = true := by
    rw [fits_eq hok.holds.encodes hok.holds.ok]
    exact fits_of_empty rfl
  obtain ⟨b, hok', -, hepoch, hplace⟩ := hok.push hcrc hfits hslot rfl
  obtain ⟨-, -, hidx, hused, -⟩ := pushRecord_numbers .k4 sh.active slot
  have hzero : (sh.push oneRecord.cfg slot).2.slotIdx = 0 := hidx
  set sh' := (sh.push oneRecord.cfg slot).1 with hsh'
  set place := (sh.push oneRecord.cfg slot).2 with hplaceDef
  have hcan : sh'.active.canOverwrite .k4 place.record.epoch place.record.offset 7 = true := by
    rw [canOverwrite_iff _ _ _ 2 7 zeroPage]
    obtain ⟨active, _, _, hresult, -⟩ := hok'.overwrite hcrc hplace (by omega) hepoch
      (show 2 < u64Limit by decide) hpage
    exact fun hrefused => nomatch hresult.symm.trans hrefused
  -- the states of the run
  set s₀ := ImageLog.opened oneRecord 1 with hs₀
  set s₁ := { s₀ with nextLsn := 2 }.setPc 0 (.appending ⟨1, 7, zeroPage⟩) with hs₁
  set s₂ := s₁.afterAppend oneRecord 0 ⟨1, 7, zeroPage⟩ (sh', some place) with hs₂
  set s₃ := { s₂ with nextLsn := 3 }.setPc 0 (.checking ⟨2, 7, zeroPage⟩ ⟨0, place⟩) with hs₃
  set s₄ := s₃.setPc 0 (.overwriting ⟨2, 7, zeroPage⟩ ⟨0, place⟩) with hs₄
  have hargs : 7 < u64Limit ∧ zeroPage.length = oneRecord.cfg.pageSize.bytes := ⟨by decide, hpage⟩
  have hidle : ∀ k, s₂.threads k = .idle := by
    intro k
    by_cases hk : k = 0
    · subst hk
      rfl
    · simp [hs₂, hs₁, hs₀, afterAppend, finish, ImageLog.setPc, ImageLog.setShard, ImageLog.opened]
  have hstep₁ : s₀.step oneRecord (.start 0 7 none zeroPage) = some s₁ := by
    rw [ImageLog.step, ImageLog.start]
    exact if_pos hargs
  have hstep₂ : s₁.step oneRecord (.append 0) = some s₂ := by
    have happend : sh.appendImage oneRecord.cfg false slot = some (sh', some place) := by
      rw [FlatShard.appendImage]
      have hclear : ({ sh with active := sh.active.clearPacked } : FlatShard) = sh := rfl
      simp only [Bool.false_eq_true, if_false, hclear, hfits]
      rfl
    show s₁.append oneRecord 0 false ⟨1, 7, zeroPage⟩ = some s₂
    exact congrArg (Option.map (s₁.afterAppend oneRecord 0 ⟨1, 7, zeroPage⟩)) happend
  have hstep₃ : s₂.step oneRecord (.start 0 7 (some 0) zeroPage) = some s₃ := by
    rw [ImageLog.step, ImageLog.start, hidle 0]
    exact if_pos hargs
  have hstep₄ : s₃.step oneRecord (.check 0) = some s₄ := by
    show some (s₃.check oneRecord 0 ⟨2, 7, zeroPage⟩ ⟨0, place⟩) = some s₄
    rw [ImageLog.check, if_pos]
    exact ⟨rfl, hcan⟩
  have hexact : place.slotIdx < 256 := by omega
  refine ⟨s₄, ⟨0, place⟩, ?_, rfl, rfl, hexact, hepoch, rfl, rfl, ?_, hok'.epoch, ⟨_, rfl⟩⟩
  · refine .tail (.check 0) (.tail (.start 0 7 (some 0) zeroPage) (.tail (.append 0)
      (.tail (.start 0 7 none zeroPage) .refl ⟨?_, ?_⟩ hstep₁) ⟨trivial, trivial⟩ hstep₂)
      ⟨?_, ?_⟩ hstep₃) ⟨trivial, trivial⟩ hstep₄
    · intro k c hc
      cases hc
    · decide
    · intro k c hc
      rw [hidle k] at hc
      cases hc
    · decide
  · decide

/-- Whenever every overwrite has an exact handle and finds its buffer still active, the
image of each call that returned is in the log until a later one of its page is written
over it. -/
theorem returned_images_logged (su : Setup) (crc : Bytes → UInt32) (nextLsn : Nat) {s : ImageLog}
    (h : Reach (ImageLog.step su) (ImageLog.safe su) (.opened su nextLsn) s) :
    ∀ c ∈ s.returned, s.Logged su (crcNat crc) c ∨ s.Superseded c :=
  (Inv.run (crcNat_lt crc) h).returned

/-- The second of two calls overwrites the image of the first. -/
theorem returned_images_logged_twice :
    ∃ s : ImageLog, Reach (ImageLog.step oneRecord) (ImageLog.safe oneRecord)
      (.opened oneRecord 1) s ∧
      s.returned = [⟨1, 7, zeroPage⟩, ⟨2, 7, zeroPage⟩] ∧
      ∀ c ∈ s.returned, s.Logged oneRecord (crcNat fun _ => 0) c ∨ s.Superseded c := by
  obtain ⟨s, prev, hrun, hpc, hshard, hidx, hepoch, hreturned, -⟩ := overwriting_reached
  obtain ⟨bs, hcore⟩ := (Inv.run (crcNat_lt fun _ => 0) hrun).core
  obtain ⟨-, -, hplace⟩ : PcOk oneRecord s bs (.overwriting ⟨2, 7, zeroPage⟩ prev) :=
    hpc ▸ hcore.threads 0
  rw [hshard] at hplace
  have hpage : zeroPage.length = oneRecord.cfg.pageSize.bytes := length_replicate
  obtain ⟨active, -, -, hresult, -⟩ := (hcore.shards 0).overwrite (crcNat_lt fun _ => 0)
    (hplace hidx hepoch) hidx hepoch (show 2 < u64Limit by decide) hpage
  have hstep : ∃ s', s.step oneRecord (.overwrite 0) = some s' ∧
      s'.returned = s.returned ++ [⟨2, 7, zeroPage⟩] := by
    rw [ImageLog.step, hpc]
    have howner : oneRecord.ownerShard 2 = 0 := rfl
    simp only [ImageLog.overwrite, howner, hshard, ne_eq, not_true_eq_false, if_false]
    rw [hresult]
    exact ⟨_, rfl, rfl⟩
  obtain ⟨s', hstep, hlast⟩ := hstep
  have hsafe : s.safe oneRecord (.overwrite 0) := by
    refine ⟨trivial, fun c prev' hpc' => ?_⟩
    rw [hpc] at hpc'
    cases hpc'
    exact ⟨hidx, hshard ▸ hepoch⟩
  have hrun' : Reach (ImageLog.step oneRecord) (ImageLog.safe oneRecord) (.opened oneRecord 1) s' :=
    .tail (.overwrite 0) hrun hsafe hstep
  exact ⟨s', hrun', by rw [hlast, hreturned]; rfl,
    returned_images_logged oneRecord (fun _ => 0) 1 hrun'⟩

/-- The buffer is sealed between the check and the overwrite: the second call returns,
and its image is nowhere. -/
theorem overwrite_lost :
    ∃ s : ImageLog, Reach (ImageLog.step oneRecord) ImageLog.distinctPages (.opened oneRecord 1) s ∧
      ⟨2, 7, zeroPage⟩ ∈ s.returned ∧ ¬s.Superseded ⟨2, 7, zeroPage⟩ ∧
      ∀ crc : Bytes → UInt32, ¬s.Logged oneRecord (crcNat crc) ⟨2, 7, zeroPage⟩ := by
  obtain ⟨s, prev, hrun, hpc, hshard, -, hepoch, -, hreplaced, hused, hnext, spare, hspares⟩ :=
    overwriting_reached
  set sh : FlatShard := ⟨spare.reset (s.shards 0).nextEpoch, [],
    (s.shards 0).sealedBuffers ++ [⟨(s.shards 0).active, .pending⟩], (s.shards 0).nextEpoch + 1⟩
      with hsh
  have hseal : s.step oneRecord (.sealActive 0) = some (s.setShard 0 sh) := by
    rw [ImageLog.step, ImageLog.onShard, if_neg (by decide), FlatShard.sealActive,
      if_neg hused, hspares]
    rfl
  have hsealed : Reach (ImageLog.step oneRecord) (ImageLog.safe oneRecord) (.opened oneRecord 1)
      (s.setShard 0 sh) := .tail (.sealActive 0) hrun ⟨trivial, trivial⟩ hseal
  -- the epoch of the handle has passed
  have hrefused : sh.active.overwritePageImage oneRecord.cfg.pageSize prev.place.record.epoch
      prev.place.record.offset 2 7 zeroPage = .refused := by
    rw [FlatBuffer.overwritePageImage]
    dsimp only
    rw [if_pos]
    refine .inl ?_
    show (s.shards 0).nextEpoch ≠ prev.place.epoch
    omega
  have hlost : (s.setShard 0 sh).step oneRecord (.overwrite 0) =
      some ((s.setShard 0 sh).finish 0 ⟨2, 7, zeroPage⟩) := by
    show (match s.threads 0 with
      | .overwriting c prev => (s.setShard 0 sh).overwrite oneRecord 0 c prev
      | _ => none) = _
    rw [hpc]
    have howner : oneRecord.ownerShard 2 = 0 := rfl
    have hself : (s.setShard 0 sh).shards 0 = sh := by
      exact update_self 0 sh s.shards
    simp only [ImageLog.overwrite, howner, hshard, ne_eq, not_true_eq_false, if_false,
      hself, hrefused]
  refine ⟨_, .tail (.overwrite 0) (hsealed.mono fun _ _ hsafe => hsafe.1) trivial hlost,
    mem_append_right _ mem_cons_self, ?_, fun crc hlogged => ?_⟩
  · rintro ⟨c, -, -, -, hmem⟩
    have hnone : (⟨2, c.lsn⟩ : Replaced) ∈ s.replaced := hmem
    rw [hreplaced] at hnone
    cases hnone
  obtain ⟨bs, hcore⟩ := (Inv.run (crcNat_lt crc) hsealed).core
  have hcall : ((s.setShard 0 sh).threads 0).call = some ⟨2, 7, zeroPage⟩ := by
    show (s.threads 0).call = _
    rw [hpc]
    rfl
  exact absurd (hcore.fresh 0 _ hcall 0 2 zeroPage hlogged) (lt_irrefl 2)

end ImageLog

end Pagebox.Wal
