import Pagebox.Base.Runs
import Pagebox.Wal.Appender

/-!
# What an appender wrote is what a replay delivers

Runs of one appender: appends, overwrites through the handles that image appends
returned, and seals.  Next to the bytes a run keeps the log that the caller expects,
one entry for each append, in which an overwrite that was accepted replaces the entry
its handle was returned for.
-/

namespace Pagebox.Wal

open Pagebox.Base List

/-- A record that the caller expects in the log, and the place its append returned. -/
structure ExpectedRecord where
  lsn : Nat
  payload : Payload
  place : Option Appender.Place

namespace ExpectedRecord

def pieces (ps : PageSize) (e : ExpectedRecord) : List Piece := e.payload.pieces ps e.lsn

def delivered (e : ExpectedRecord) : ReplayRecord := e.payload.delivered e.lsn

end ExpectedRecord

structure Session where
  wal : Appender
  log : List ExpectedRecord

namespace Session

/-- An overwrite goes through the handle of entry `i` of the log. -/
inductive Action
  | append (lsn : Nat) (p : Payload)
  | overwrite (i lsn pid : Nat) (page : Bytes)
  | sealBuffer

variable (cfg : Config) (crc : Bytes → Nat)

def start (o : OpenWalFile) : Session := ⟨Appender.new cfg o, []⟩

def step (s : Session) : Action → Option Session
  | .append lsn p =>
    if p.Valid cfg.pageSize ∧ lsn < u64Limit then
      let (wal, place) := s.wal.append cfg crc lsn p
      some ⟨wal, s.log ++ [⟨lsn, p, place⟩]⟩
    else none
  | .overwrite i lsn pid page =>
    match s.log[i]? with
    | none => none
    | some e =>
      match e.place with
      | none => none
      | some place =>
        if lsn < u64Limit ∧ page.length = cfg.pageSize.bytes then
          match s.wal.active.overwritePageImage cfg.pageSize place.record.epoch
              place.record.offset lsn pid page with
          | .refused => some s
          | .done active =>
            some ⟨{ s.wal with active }, s.log.set i ⟨lsn, .pageImage pid page, some place⟩⟩
          | .panics => none
        else none
  | .sealBuffer => some ⟨s.wal.sealActive cfg crc, s.log⟩

theorem step_append {cfg : Config} {crc : Bytes → Nat} {lsn : Nat} {p : Payload}
    (hp : p.Valid cfg.pageSize) (hlsn : lsn < u64Limit) (s : Session) :
    s.step cfg crc (.append lsn p) = some ⟨(s.wal.append cfg crc lsn p).1,
      s.log ++ [⟨lsn, p, (s.wal.append cfg crc lsn p).2⟩]⟩ :=
  if_pos ⟨hp, hlsn⟩

/-- An overwrite goes through a handle whose slot number fits into the eight bits the
handle has for it, or whose buffer is no longer active. -/
def slotFits (s : Session) : Action → Prop
  | .overwrite i _ _ _ => ∀ e place, s.log[i]? = some e → e.place = some place →
      place.epoch = s.wal.active.epoch → place.slotIdx < 256
  | _ => True

/-- There is an LSN above that of the call. -/
def Action.LsnFits : Action → Prop
  | .append lsn _ | .overwrite _ lsn _ _ => lsn + 1 < u64Limit
  | .sealBuffer => True

end Session

/-! ## The invariant of a run -/

/-- The buffers and the file hold the pieces `old` and then those of the log, and the
places of the log name their images. -/
structure Session.Inv (cfg : Config) (crc : Bytes → Nat) (header : Bytes) (old : List Piece)
    (sealed : List (List Slot)) (b : WalBuffer) (s : Session) : Prop where
  stored : Stored cfg crc header sealed b s.wal
  pieces : (sealed.flatten ++ b.slots).flatMap slotPieces =
    old ++ s.log.flatMap (ExpectedRecord.pieces cfg.pageSize)
  valid : ∀ e ∈ s.log, e.payload.Valid cfg.pageSize ∧ e.lsn < u64Limit
  places : ∀ i e place, s.log[i]? = some e → e.place = some place →
    place.epoch < s.wal.nextBufferEpoch ∧ (∃ pid page, e.payload = .pageImage pid page) ∧
      (place.epoch = b.epoch → PlacedAt sealed b place.metaPage place.slotIdx
        (old ++ (s.log.take i).flatMap (ExpectedRecord.pieces cfg.pageSize)).length)
  attained : ∀ slot ∈ sealed.flatten, slot.Attained ∨ old ≠ []

section Steps

variable {cfg : Config} {crc : Bytes → Nat} {header : Bytes} {old : List Piece}
  {sealed sealed' : List (List Slot)} {b b' : WalBuffer} {s : Session}

theorem PlacedAt.grows {a a' : Appender} {pieces : List Piece}
    (h : Grows sealed b a sealed' b' a' pieces) {place : Appender.Place} {before : Nat}
    (hold : place.epoch < a.nextBufferEpoch)
    (hplaced : place.epoch = b.epoch → PlacedAt sealed b place.metaPage place.slotIdx before)
    (hepoch : place.epoch = b'.epoch) :
    PlacedAt sealed' b' place.metaPage place.slotIdx before := by
  rcases h.places with ⟨hsame, rfl, hnames⟩ | hfresh
  · obtain ⟨n, hn, hcount⟩ := hplaced (hepoch.trans hsame)
    exact ⟨n, hnames _ _ _ hn, hcount⟩
  · omega

theorem Session.Inv.sealActive (h : s.Inv cfg crc header old sealed b) :
    ∃ b', Session.Inv cfg crc header old (sealed ++ b.fileBatches) b'
        ⟨s.wal.sealActive cfg crc, s.log⟩ ∧ b'.batches = [] := by
  obtain ⟨b', hsealed⟩ := h.stored.sealActive
  have hgrows := hsealed.grows
  refine ⟨b', ⟨hsealed.stored, ?_, h.valid, ?_, fun slot hslot =>
    (hgrows.attained slot hslot).elim (h.attained slot) .inl⟩, hsealed.empty⟩
  · rw [hgrows.pieces, append_nil, h.pieces]
  · intro i e place he hplace
    obtain ⟨hepoch, himage, hplaced⟩ := h.places i e place he hplace
    exact ⟨Nat.lt_of_lt_of_le hepoch hgrows.next, himage, PlacedAt.grows hgrows hepoch hplaced⟩

theorem Session.Inv.append (h : s.Inv cfg crc header old sealed b) {lsn : Nat} {p : Payload}
    (hlsn : lsn < u64Limit) (hp : p.Valid cfg.pageSize) :
    ∃ sealed' b', Session.Inv cfg crc header old sealed' b'
      ⟨(s.wal.append cfg crc lsn p).1, s.log ++ [⟨lsn, p, (s.wal.append cfg crc lsn p).2⟩]⟩ := by
  obtain ⟨sealed', b', hstored, hgrows, hplace⟩ := h.stored.append hlsn hp
  refine ⟨sealed', b', hstored, ?_, ?_, ?_, fun slot hslot =>
    (hgrows.attained slot hslot).elim (h.attained slot) .inl⟩
  · rw [hgrows.pieces, h.pieces, flatMap_append, flatMap_singleton, append_assoc]
    rfl
  · intro e he
    rcases mem_append.mp he with he | he
    · exact h.valid e he
    · rw [mem_singleton.mp he]
      exact ⟨hp, hlsn⟩
  intro i e place he hpl
  rcases Nat.lt_or_ge i s.log.length with hi | hi
  · rw [List.getElem?_append_left hi] at he
    obtain ⟨hepoch, himage, hplaced⟩ := h.places i e place he hpl
    rw [take_append_of_le_length hi.le]
    exact ⟨Nat.lt_of_lt_of_le hepoch hgrows.next, himage, PlacedAt.grows hgrows hepoch hplaced⟩
  obtain rfl : i = s.log.length := by
    have := (List.getElem?_eq_some_iff.mp he).1
    rw [length_append, length_singleton] at this
    omega
  rw [List.getElem?_concat_length, Option.some.injEq] at he
  subst he
  obtain ⟨hepoch, himage, hplaced⟩ := hplace place hpl
  rw [take_left, ← h.pieces]
  exact ⟨hepoch ▸ hstored.epoch, himage, fun _ => hplaced⟩

theorem shapes_replace (newer older : List (List Slot)) (before behind : List Slot)
    {slot slot' : Slot} (h : slot.shape = slot'.shape) :
    shapes (newer ++ (before ++ slot :: behind).reverse :: older) =
      shapes (newer ++ (before ++ slot' :: behind).reverse :: older) := by
  simp [shapes, h]

/-- Replacing an entry by one with as many pieces moves no other entry. -/
theorem length_pieces_set {ps : PageSize} {log : List ExpectedRecord} {i : Nat}
    {e e' : ExpectedRecord}
    (he : log[i]? = some e) (hlen : (e'.pieces ps).length = (e.pieces ps).length) (k : Nat) :
    (((log.set i e').take k).flatMap (ExpectedRecord.pieces ps)).length =
      ((log.take k).flatMap (ExpectedRecord.pieces ps)).length := by
  have hmap : (log.set i e').map (fun e => (e.pieces ps).length) =
      log.map fun e => (e.pieces ps).length := by
    obtain ⟨hi, rfl⟩ := List.getElem?_eq_some_iff.mp he
    rw [map_set, hlen]
    refine ext_getElem (by simp) fun k hk hk' => ?_
    rw [getElem_set]
    split
    · rename_i heq
      subst heq
      rw [getElem_map]
    · rfl
  rw [length_flatMap, length_flatMap, map_take, map_take, hmap]

theorem flatMap_pieces_split {ps : PageSize} {log : List ExpectedRecord} {i : Nat}
    {e : ExpectedRecord} (he : log[i]? = some e) (e' : ExpectedRecord) :
    (log.set i e').flatMap (ExpectedRecord.pieces ps) =
      (log.take i).flatMap (ExpectedRecord.pieces ps) ++ (e'.pieces ps ++
        (log.drop (i + 1)).flatMap (ExpectedRecord.pieces ps)) := by
  obtain ⟨hi, -⟩ := List.getElem?_eq_some_iff.mp he
  rw [set_eq_take_append_cons_drop, if_pos hi, flatMap_append, flatMap_cons]

theorem slots_split (b : WalBuffer) {newer older : List (List Slot)} {before behind : List Slot}
    {slot : Slot} (h : b.batches = newer ++ (before ++ slot :: behind).reverse :: older) :
    b.slots = older.reverse.flatMap List.reverse ++ before ++
      slot :: (behind ++ newer.reverse.flatMap List.reverse) := by
  simp [WalBuffer.slots, h]

/-- The image that a place names is the record its handle was returned for. -/
theorem Session.Inv.named (h : s.Inv cfg crc header old sealed b) {i : Nat} {e : ExpectedRecord}
    {place : Appender.Place} (he : s.log[i]? = some e) (hplace : e.place = some place)
    (hepoch : place.epoch = b.epoch) :
    ∃ newer older before behind slot,
      b.batches = newer ++ (before ++ slot :: behind).reverse :: older ∧
        place.metaPage = batchPages older ∧ place.slotIdx = before.length ∧
        slot.entry.kind = .pageImage ∧ e.payload = .pageImage slot.entry.arg slot.data ∧
        (sealed.flatten ++ (older.reverse.flatMap List.reverse ++ before)).flatMap slotPieces =
          old ++ (s.log.take i).flatMap (ExpectedRecord.pieces cfg.pageSize) ∧
        (behind ++ newer.reverse.flatMap List.reverse).flatMap slotPieces =
          (s.log.drop (i + 1)).flatMap (ExpectedRecord.pieces cfg.pageSize) := by
  obtain ⟨-, ⟨pid, page, hpayload⟩, hplaced⟩ := h.places i e place he hplace
  obtain ⟨n, hnames, hcount⟩ := hplaced hepoch
  obtain ⟨newer, older, before, behind, slot, hb, hm, hj, hkind, hn⟩ := hnames.slot
  have hone : e.pieces cfg.pageSize = [.image e.lsn pid page] := by
    rw [ExpectedRecord.pieces, hpayload]
    simp [Payload.pieces, Payload.slots, imageSlot, slotPieces, BatchEntry.pageImage]
  have hslot : slotPieces slot = [.image slot.entry.lsn slot.entry.arg slot.data] := by
    rw [slotPieces, hkind]
  refine ⟨newer, older, before, behind, slot, hb, hm, hj, hkind, ?_⟩
  -- the pieces before the slot are as many as those before the entry
  have hall := h.pieces
  obtain ⟨hi, hget⟩ := List.getElem?_eq_some_iff.mp he
  have hself : s.log.set i e = s.log := by rw [← hget, set_getElem_self]
  rw [slots_split b hb, ← append_assoc, flatMap_append, flatMap_cons, ← hself,
    flatMap_pieces_split he e, hone, hslot, ← append_assoc old] at hall
  have hlength : ((sealed.flatten ++ (older.reverse.flatMap List.reverse ++ before)).flatMap
      slotPieces).length =
        (old ++ (s.log.take i).flatMap (ExpectedRecord.pieces cfg.pageSize)).length := by
    rw [← hcount, flatMap_append, length_append, hn]
  obtain ⟨hbefore, hrest⟩ := append_inj hall hlength
  obtain ⟨hsame, hbehind⟩ := append_inj hrest rfl
  rw [List.cons.injEq, Piece.image.injEq] at hsame
  exact ⟨by rw [hpayload, hsame.1.2.1, hsame.1.2.2], hbefore, hbehind⟩

/-- An overwrite through a handle that names its slot replaces the entry the handle
was returned for, or is refused: because the buffer is no longer active, or for another
page. -/
theorem Session.Inv.overwrite (h : s.Inv cfg crc header old sealed b) {i lsn : Nat} (pid : Nat)
    {e : ExpectedRecord} {place : Appender.Place} {page : Bytes} (he : s.log[i]? = some e)
    (hplace : e.place = some place)
    (hfits : place.epoch = s.wal.active.epoch → place.slotIdx < 256) (hlsn : lsn < u64Limit)
    (hpage : page.length = cfg.pageSize.bytes) :
    (s.wal.active.overwritePageImage cfg.pageSize place.record.epoch place.record.offset
    lsn pid page =
        .refused ∧ (place.epoch = s.wal.active.epoch → ∀ old, e.payload ≠ .pageImage pid old)) ∨
      ∃ active b',
        s.wal.active.overwritePageImage cfg.pageSize place.record.epoch place.record.offset lsn pid
          page = .done active ∧
        Session.Inv cfg crc header old sealed b'
          ⟨{ s.wal with active }, s.log.set i ⟨lsn, .pageImage pid page, some place⟩⟩ := by
  have hactive := h.stored.encodes.epoch
  by_cases hepoch : place.epoch = b.epoch
  · obtain ⟨newer, older, before, behind, slot, hb, hm, hj, hkind, hpayload, hbefore, hbehind⟩ :=
      h.named he hplace hepoch
    have hone : (e.pieces cfg.pageSize).length = 1 := by
      rw [ExpectedRecord.pieces, hpayload]
      simp [Payload.pieces, Payload.slots, imageSlot, slotPieces, BatchEntry.pageImage]
    have hdecode : decodeRecordOffset place.record.offset = (batchPages older, before.length) := by
      rw [Appender.Place.record, decode_encodeRecordOffset (hfits (hepoch.trans hactive.symm)), hm,
        hj]
    obtain ⟨rest, hrest, hresult⟩ := overwritePageImage_flat h.stored.encodes h.stored.ok hb
      place.epoch lsn pid hdecode hpage
    have hrecord : place.record.epoch = place.epoch := rfl
    rw [hrecord, hresult]
    by_cases hpid : slot.entry.arg = pid
    · rw [if_pos ⟨hepoch.symm, hkind, hpid⟩]
      obtain ⟨henc, hok⟩ :=
        encodes_overwritten h.stored.encodes h.stored.ok hb hrest hkind hlsn hpage
      set b' := b.withBatches
        (newer ++ (before ++ slot.overwritten lsn page :: behind).reverse :: older)
        (max b.maxLsn lsn) b.packedLogical
      have hb' : b'.batches = newer ++
          (before ++ slot.overwritten lsn page :: behind).reverse :: older :=
        rfl
      have hpieces : slotPieces (slot.overwritten lsn page) = [.image lsn pid page] := by
        simp [slotPieces, Slot.overwritten, hkind, hpid]
      have hentry : (⟨lsn, .pageImage pid page, some place⟩ : ExpectedRecord).pieces cfg.pageSize =
          [.image lsn pid page] := by
        simp [ExpectedRecord.pieces, Payload.pieces, Payload.slots, imageSlot, slotPieces,
          BatchEntry.pageImage]
      refine .inr ⟨_, b', rfl,
        ⟨h.stored.headerLen, h.stored.file, h.stored.offset, h.stored.sealedOk, henc,
        hok, h.stored.spares, h.stored.epoch⟩, ?_, ?_, ?_, h.attained⟩
      · rw [slots_split b' hb', ← append_assoc, flatMap_append, flatMap_cons, hbefore,
          hbehind, hpieces, flatMap_pieces_split he, hentry, append_assoc]
      · intro x hx
        rcases mem_or_eq_of_mem_set hx with hx | rfl
        · exact h.valid x hx
        · refine ⟨⟨?_, hpage⟩, hlsn⟩
          have hbatch := h.stored.ok.batches (before ++ slot :: behind).reverse (by simp [hb])
          rw [← hpid]
          exact (hbatch.slots slot (by simp)).arg
      intro k x place' hx hplace'
      have hshapes : shapes b'.batches = shapes b.batches := by
        rw [hb, hb']
        refine (shapes_replace newer older before behind ?_).symm
        rw [Slot.shape, Slot.shape, hpieces, hkind]
        simp [slotPieces, Slot.overwritten, hkind]
      have hplaces : ∀ {e' : ExpectedRecord}, s.log[k]? = some e' → e'.place = some place' →
          place'.epoch < s.wal.nextBufferEpoch ∧ (∃ pid page, e'.payload = .pageImage pid page) ∧
            (place'.epoch = b'.epoch → PlacedAt sealed b' place'.metaPage place'.slotIdx
              (old ++ ((s.log.set i ⟨lsn, .pageImage pid page, some place⟩).take k).flatMap
                (ExpectedRecord.pieces cfg.pageSize)).length) := by
        intro e' he' hpl
        obtain ⟨hlt, himage, hplaced⟩ := h.places k e' place' he' hpl
        refine ⟨hlt, himage, fun hep => ?_⟩
        rw [length_append, length_pieces_set he (by rw [hentry, hone]; rfl), ← length_append,
          PlacedAt, hshapes]
        exact hplaced hep
      by_cases hk : i = k
      · subst hk
        have hx' : x = ⟨lsn, .pageImage pid page, some place⟩ := by
          rw [List.getElem?_set_self (List.getElem?_eq_some_iff.mp he).1, Option.some.injEq] at hx
          exact hx.symm
        subst hx'
        obtain rfl : place = place' := Option.some.inj hplace'
        obtain ⟨hlt, -, hplaced⟩ := hplaces he hplace
        exact ⟨hlt, ⟨pid, page, rfl⟩, hplaced⟩
      · rw [List.getElem?_set_ne hk] at hx
        exact hplaces hx hplace'
    · refine .inl ⟨if_neg fun hall => hpid hall.2.2, fun _ old hold => hpid ?_⟩
      rw [hpayload, Payload.pageImage.injEq] at hold
      exact hold.1
  · refine .inl ⟨?_, fun hactive' => absurd (hactive'.trans hactive) hepoch⟩
    rw [FlatBuffer.overwritePageImage]
    dsimp only
    rw [if_pos]
    exact .inl (by rw [hactive]; exact fun heq => hepoch heq.symm)

theorem Session.Inv.step (h : s.Inv cfg crc header old sealed b) {act : Session.Action}
    {s' : Session} (hok : s.slotFits act) (hstep : s.step cfg crc act = some s') :
    ∃ sealed' b', s'.Inv cfg crc header old sealed' b' := by
  cases act with
  | append lsn p =>
    rw [Session.step] at hstep
    split at hstep
    · rename_i hvalid
      cases hstep
      exact h.append hvalid.2 hvalid.1
    · cases hstep
  | overwrite i lsn pid page =>
    rw [Session.step] at hstep
    split at hstep
    · cases hstep
    rename_i e he
    split at hstep
    · cases hstep
    rename_i place hplace
    split at hstep
    · rename_i hvalid
      rcases h.overwrite pid he hplace (hok e place he hplace) hvalid.1 hvalid.2 with
        ⟨hrefused, -⟩ | ⟨active, b', hdone, hinv⟩
      · rw [hrefused] at hstep
        cases hstep
        exact ⟨sealed, b, h⟩
      · rw [hdone] at hstep
        cases hstep
        exact ⟨sealed, b', hinv⟩
    · cases hstep
  | sealBuffer =>
    cases hstep
    obtain ⟨b', hinv, -⟩ := h.sealActive
    exact ⟨_, b', hinv⟩

theorem Session.Inv.run {s₀ : Session} (h : s₀.Inv cfg crc header old sealed b)
    (hrun : Reach (Session.step cfg crc) Session.slotFits s₀ s) :
    ∃ sealed' b', s.Inv cfg crc header old sealed' b' :=
  hrun.invariant (I := fun s => ∃ sealed' b', s.Inv cfg crc header old sealed' b') ⟨sealed, b, h⟩
    fun _ _ _ hinv hok hstep => by
      obtain ⟨sealed₁, b₁, hinv⟩ := hinv
      exact hinv.step hok hstep

theorem SlotWf.slotPieces_ne_nil {ps : PageSize} {slot : Slot} (h : SlotWf ps slot) :
    slotPieces slot ≠ [] := by
  cases hkind : slot.entry.kind with
  | pageImage => simp [slotPieces, hkind]
  | logical => simp [slotPieces, hkind]
  | logicalPacked =>
    obtain ⟨rs, hne, henc, hbytes⟩ := h.records hkind
    simpa [slotPieces, hkind, hbytes, packedLogicalRecords_flatMap henc] using hne

theorem Session.Inv.start (sealed : List (List Slot)) {o : OpenWalFile}
    (hheader : header.length = cfg.pageSize.bytes)
    (hsealed : ∀ slots ∈ sealed, BatchOk cfg.pageSize slots)
    (hfile : ∃ n, o.file = header ++ sealed.flatMap (finalBatch cfg.pageSize crc) ++ replicate n 0)
    (hoffset : o.fileOffset = (header ++ sealed.flatMap (finalBatch cfg.pageSize crc)).length) :
    (Session.start cfg o).Inv cfg crc header (sealed.flatten.flatMap slotPieces) sealed
      (WalBuffer.reset 1) where
  stored :=
    { headerLen := hheader
      file := hfile
      offset := hoffset
      sealedOk := hsealed
      encodes := encodes_new cfg 1
      ok := bufferOk_reset _ _
      spares := by
        intro fb hfb
        obtain ⟨i, -, rfl⟩ := mem_map.mp (mem_reverse.mp hfb)
        exact length_replicate
      epoch := by
        show 1 < cfg.bufferCountLimit + 1
        rw [Config.bufferCountLimit]
        split <;> omega }
  pieces := by
    rw [slots_reset, append_nil]
    exact (append_nil _).symm
  valid := nofun
  places := nofun
  attained := by
    refine fun slot hslot => .inr fun hnil => ?_
    obtain ⟨slots, hslots, hmem⟩ := mem_flatten.mp hslot
    exact ((hsealed slots hslots).slots slot hmem).wf.slotPieces_ne_nil
      (flatMap_eq_nil_iff.mp hnil slot hslot)

end Steps

section Replaying

variable {cfg : Config} {crc : Bytes → Nat} {header : Bytes} {old : List Piece}
  {sealed : List (List Slot)} {b : WalBuffer} {s : Session}

theorem scan_log {ps : PageSize} {log : List ExpectedRecord}
    (h : ∀ e ∈ log, e.payload.Valid ps ∧ e.lsn < u64Limit) (part : Partial) :
    ∃ part', scan (replayPiece ps) part (log.flatMap (ExpectedRecord.pieces ps)) =
      (log.map ExpectedRecord.delivered, some part') := by
  induction log generalizing part with
  | nil => exact ⟨part, rfl⟩
  | cons e log ih =>
    obtain ⟨hvalid, hlsn⟩ := h e mem_cons_self
    obtain ⟨part₁, hfirst⟩ := scan_payload hlsn hvalid part
    obtain ⟨part₂, hrest⟩ := ih (fun x hx => h x (mem_cons_of_mem e hx)) part₁
    refine ⟨part₂, ?_⟩
    rw [flatMap_cons, map_cons]
    have hpieces : e.pieces ps = e.payload.pieces ps e.lsn := rfl
    rw [hpieces, scan_append_of_some hfirst, hrest]
    rfl

theorem Stored.flushed {a : Appender} (h : Stored cfg crc header sealed b a) :
    (a.file.take a.fileOffset).drop cfg.pageSize.bytes =
      sealed.flatMap (finalBatch cfg.pageSize crc) := by
  obtain ⟨n, hfile⟩ := h.file
  rw [hfile, h.offset, take_left, ← h.headerLen, drop_left]

/-- A flushed file replays what was in it and then the log. -/
theorem Session.Inv.replay (h : s.Inv cfg crc header old sealed b) (hempty : b.batches = [])
    (hcrc : ∀ bytes, crc bytes < 2 ^ 32) {records : List ReplayRecord} {part : Partial}
    (hold : scan (replayPiece cfg.pageSize) .empty old = (records, some part)) :
    replayOpened cfg.pageSize crc s.wal.file s.wal.fileOffset =
      records ++ s.log.map ExpectedRecord.delivered := by
  have hslots : b.slots = [] := by rw [WalBuffer.slots, hempty]; rfl
  have hpieces := h.pieces
  rw [hslots, append_nil] at hpieces
  have hwf : ∀ slot ∈ sealed.flatten, SlotWf cfg.pageSize slot := by
    intro slot hslot
    obtain ⟨slots, hslots, hmem⟩ := mem_flatten.mp hslot
    exact ((h.stored.sealedOk slots hslots).slots slot hmem).wf
  obtain ⟨part', hlog⟩ := scan_log h.valid part
  rw [replayOpened, h.stored.flushed, replayFile_finalBatches hcrc h.stored.sealedOk,
    replayRecords_finalized crc hwf, hpieces, scan_append_of_some hold, hlog]

def Piece.ends : Piece → Bool
  | .image _ _ _ => true
  | .chunk _ _ _ last _ => last
  | .packed _ => true

theorem slot_ends {slot : Slot} {piece : Piece} (h : piece ∈ slotPieces slot)
    (hends : piece.ends = true) : slot.entry.kind ≠ .logical ∨ slot.entry.last = true := by
  rw [slotPieces] at h
  cases hkind : slot.entry.kind with
  | pageImage => exact .inl RecordKind.noConfusion
  | logicalPacked => exact .inl RecordKind.noConfusion
  | logical =>
    rw [hkind] at h
    rw [mem_singleton.mp h] at hends
    exact .inr hends

theorem exists_ends {ps : PageSize} {lsn : Nat} {p : Payload} (hlsn : lsn < u64Limit)
    (hp : p.Valid ps) : ∃ piece ∈ p.pieces ps lsn, piece.ends = true ∧ piece.lsn = lsn := by
  have hchunks : ∀ r : LogicalRecord, r.lsn = lsn →
      ∃ piece ∈ (chunkSlots ps r).flatMap slotPieces, piece.ends = true ∧ piece.lsn = lsn := by
    rintro r rfl
    have hpos : 0 < chunkCount ps r.payload.length :=
      Nat.lt_of_lt_of_le Nat.one_pos (Nat.le_max_right _ _)
    rw [flatMap_chunkSlots]
    generalize chunkCount ps r.payload.length = chunks at hpos
    refine ⟨_, mem_map_of_mem (mem_range.mpr (Nat.sub_one_lt_of_lt hpos)), ?_, rfl⟩
    simp [chunkPiece, Piece.ends]
    omega
  cases p with
  | pageImage pageId page =>
    exact ⟨.image lsn pageId page, by
      simp [Payload.pieces, Payload.slots, imageSlot, slotPieces, BatchEntry.pageImage], rfl, rfl⟩
  | pageImageBytes pageId page => exact hchunks _ rfl
  | logical kind bytes =>
    rw [Payload.pieces, Payload.slots]
    by_cases hpacked : isPacked ps ⟨lsn, kind, bytes⟩ = true
    · obtain ⟨hr, -⟩ := isPacked_encodable hlsn hp.1 hpacked
      rw [if_pos hpacked, flatMap_singleton, slotPieces_packedSlot ps hr]
      exact ⟨_, mem_singleton_self _, rfl, rfl⟩
    · rw [if_neg hpacked]
      exact hchunks _ rfl

theorem le_lastLsn_start (slots : List Slot) (m : Nat) : m ≤ lastLsn slots m := by
  rw [lastLsn]
  induction slots generalizing m with
  | nil => exact le_rfl
  | cons slot slots ih =>
    rw [foldl_cons]
    refine le_trans ?_ (ih _)
    split
    · exact Nat.le_max_left _ _
    · exact le_rfl

theorem le_lastLsn {slots : List Slot} {slot : Slot} (h : slot ∈ slots)
    (hends : slot.entry.kind ≠ .logical ∨ slot.entry.last = true) (m : Nat) :
    slot.entry.lsn ≤ lastLsn slots m := by
  induction slots generalizing m with
  | nil => cases h
  | cons x slots ih =>
    have hcons : lastLsn (x :: slots) m =
        lastLsn slots (if x.entry.kind ≠ .logical ∨ x.entry.last then max m x.entry.lsn else m) :=
          rfl
    rw [hcons]
    rcases mem_cons.mp h with rfl | h
    · rw [if_pos hends]
      exact (Nat.le_max_right _ _).trans (le_lastLsn_start _ _)
    · exact ih h _

theorem lastLsn_attained (slots : List Slot) (m : Nat) :
    lastLsn slots m = m ∨ ∃ slot ∈ slots, lastLsn slots m = slot.entry.lsn := by
  induction slots generalizing m with
  | nil => exact .inl rfl
  | cons slot slots ih =>
    have hcons : lastLsn (slot :: slots) m = lastLsn slots
        (if slot.entry.kind ≠ .logical ∨ slot.entry.last then max m slot.entry.lsn else m) := rfl
    rw [hcons]
    rcases ih _ with hsame | ⟨x, hx, hlsn⟩
    · rw [hsame]
      split
      · rcases Nat.le_total m slot.entry.lsn with hle | hle
        · exact .inr ⟨slot, mem_cons_self, Nat.max_eq_right hle⟩
        · exact .inl (Nat.max_eq_left hle)
      · exact .inl rfl
    · exact .inr ⟨x, mem_cons_of_mem slot hx, hlsn⟩

/-- Opening a flushed file finds its end and the LSNs of its records. -/
theorem Session.Inv.reopen (h : s.Inv cfg crc header old sealed b) (hempty : b.batches = [])
    (hcrc : ∀ bytes, crc bytes < 2 ^ 32) (hheader : validateWalHeader cfg.pageSize header = true)
    (directIo : Bool) :
    ∃ o, openWalFile cfg.pageSize crc directIo s.wal.file = some o ∧
      o.fileOffset = s.wal.fileOffset ∧ (∀ e ∈ s.log, e.lsn ≤ o.maxLsn) ∧
      (old = [] → o.maxLsn = 0 ∨ ∃ e ∈ s.log, o.maxLsn = e.lsn) := by
  obtain ⟨n, hfile⟩ := h.stored.file
  have hslots : b.slots = [] := by rw [WalBuffer.slots, hempty]; rfl
  have hpieces := h.pieces
  rw [hslots, append_nil] at hpieces
  have hslotOk : ∀ slot ∈ sealed.flatten, SlotOk cfg.pageSize slot := by
    intro slot hslot
    obtain ⟨slots, hbatch, hslotMem⟩ := mem_flatten.mp hslot
    exact (h.stored.sealedOk slots hbatch).slots slot hslotMem
  obtain ⟨o, hopen, hoffset, -, hlast, hexact⟩ := openWalFile_finalBatches hcrc h.stored.headerLen
    hheader h.stored.sealedOk (startsWithBatch_zeros n) directIo
  rw [← hfile] at hopen
  refine ⟨o, hopen, hoffset.trans h.stored.offset.symm, ?_, ?_⟩
  · intro e he
    refine le_trans ?_ hlast
    obtain ⟨hpayload, hlsn⟩ := h.valid e he
    obtain ⟨piece, hpiece, hends, hpieceLsn⟩ := exists_ends hlsn hpayload
    have hmem : piece ∈ sealed.flatten.flatMap slotPieces := by
      rw [hpieces]
      exact mem_append_right _ (mem_flatMap.mpr ⟨e, he, hpiece⟩)
    obtain ⟨slot, hslot, hin⟩ := mem_flatMap.mp hmem
    have hbound := (hslotOk slot hslot).bound piece hin
    rw [hpieceLsn] at hbound
    exact hbound.trans (le_lastLsn hslot (slot_ends hin hends) 0)
  · rintro rfl
    rw [nil_append] at hpieces
    rw [hexact (nextBatch_zeros n)]
    refine (lastLsn_attained sealed.flatten 0).imp_right ?_
    rintro ⟨slot, hslot, hlsn⟩
    obtain ⟨piece, hin, hpiece⟩ := (h.attained slot hslot).resolve_right (not_not_intro rfl)
    have hmem : piece ∈ s.log.flatMap (ExpectedRecord.pieces cfg.pageSize) :=
      hpieces ▸ mem_flatMap.mpr ⟨slot, hslot, hin⟩
    obtain ⟨e, he, hpieceMem⟩ := mem_flatMap.mp hmem
    obtain ⟨x, hx, hinSlot⟩ := mem_flatMap.mp hpieceMem
    obtain ⟨hpayload, hfits⟩ := h.valid e he
    have hpieceLsn := (Payload.slots_slotsOf hfits hpayload).lsn x hx piece hinSlot
    exact ⟨e, he, by rw [hlsn, ← hpiece, hpieceLsn]⟩

end Replaying

/-! ## The round trip -/

def crcNat (crc : Bytes → UInt32) (bytes : Bytes) : Nat := (crc bytes).toNat

theorem crcNat_lt (crc : Bytes → UInt32) (bytes : Bytes) : crcNat crc bytes < 2 ^ 32 :=
  UInt32.toNat_lt _

/-- The LSN that goes on from the file, a `u64`. -/
def OpenWalFile.nextLsn (o : OpenWalFile) : Nat := (o.maxLsn + 1) % u64Limit

theorem length_buildWalHeader (ps : PageSize) (directIo : Bool) :
    (buildWalHeader ps directIo).length = ps.bytes := by
  have hle := PageSize.le_bytes ps
  refine length_padTo ?_
  simp only [length_append, length_leBytes]
  omega

theorem validateWalHeader_build (ps : PageSize) (directIo : Bool) :
    validateWalHeader ps (buildWalHeader ps directIo) = true := by
  cases ps <;> cases directIo <;> decide +kernel

theorem Session.Inv.startNew {cfg : Config} {crc : Bytes → Nat} {directIo : Bool} {file : Bytes}
    {o : OpenWalFile} (hnew : file.length < cfg.pageSize.bytes)
    (hopen : openWalFile cfg.pageSize crc directIo file = some o) :
    (Session.start cfg o).Inv cfg crc (buildWalHeader cfg.pageSize directIo) [] []
      (WalBuffer.reset 1) := by
  rw [openWalFile, if_pos hnew, Option.some.injEq] at hopen
  subst hopen
  refine Session.Inv.start [] (length_buildWalHeader _ _) (by simp)
    ⟨segmentSize - (buildWalHeader cfg.pageSize directIo).length, ?_⟩ ?_
  · rw [flatMap_nil, append_nil]
    rfl
  · rw [flatMap_nil, append_nil, length_buildWalHeader]

/-! ### A run of images -/

section Images

def largeBuffer : Config := ⟨.k64, 4094, .fdatasync⟩

/-- What the numbers of a buffer are after `n` images. -/
structure ImagesInBuffer (n : Nat) (fb : FlatBuffer) : Prop where
  epoch : fb.epoch = 1
  used : fb.used = if n = 0 then 0 else if n ≤ 2340 then (n + 1) * 65536 else (n + 2) * 65536
  openMeta : fb.openBatchMetaOffset =
    if n % 2340 = 0 then none else if n < 2340 then some 0 else some (2341 * 65536)
  openCount : fb.openBatchCount = n % 2340

def imagePlace (n : Nat) : Appender.Place := if n < 2340 then ⟨1, 0, n⟩ else ⟨1, 2341, n - 2340⟩

theorem imagesInBuffer_append (crc : Bytes → Nat) {a : Appender} {n : Nat} (hn : n < 4000)
    (hsize : a.active.bytes.length = largeBuffer.capacity) (h : ImagesInBuffer n a.active)
    (lsn pageId : Nat) (page : Bytes) :
    ImagesInBuffer (n + 1) (a.appendPageImage largeBuffer crc lsn pageId page).1.active ∧
      (a.appendPageImage largeBuffer crc lsn pageId page).2 = imagePlace n := by
  have hps : largeBuffer.pageSize = .k64 := rfl
  have hbytes : PageSize.k64.bytes = 65536 := rfl
  have hmax : batchMaxRecords .k64 = 2340 := by decide
  have hcap : largeBuffer.capacity = 4096 * 65536 := by decide
  obtain ⟨hepoch, hused, hmeta, hcount⟩ := h
  have hneeds : (a.active.clearPacked).needsNewBatch .k64 = decide (n % 2340 = 0) := by
    rw [FlatBuffer.needsNewBatch, FlatBuffer.clearPacked, hmax]
    rw [hmeta, hcount]
    have hlt : n % 2340 ≠ 2340 := by omega
    by_cases hzero : n % 2340 = 0
    · simp [hzero]
    · by_cases hfirst : n < 2340 <;> simp [hzero, hfirst, hlt]
  have hfits : (a.active.clearPacked).fits .k64 = true := by
    rw [FlatBuffer.fits, hneeds, decide_eq_true_eq]
    show a.active.used + _ ≤ a.active.bytes.length
    rw [hsize, hcap, hused, hbytes]
    split_ifs <;> omega
  obtain ⟨hepoch', hstart, hslot, hused', hmeta', hcount'⟩ :=
    pushRecord_numbers .k64 a.active.clearPacked (imageSlot .k64 lsn pageId page)
  have happend : a.appendPageImage largeBuffer crc lsn pageId page =
      ({ a with active :=
        ((a.active.clearPacked).pushRecord .k64 (imageSlot .k64 lsn pageId page)).1 },
        ⟨((a.active.clearPacked).pushRecord .k64 (imageSlot .k64 lsn pageId page)).1.epoch,
          ((a.active.clearPacked).pushRecord .k64
            (imageSlot .k64 lsn pageId page)).2.metaStart / 65536,
          ((a.active.clearPacked).pushRecord .k64
            (imageSlot .k64 lsn pageId page)).2.slotIdx⟩) := by
    simp only [Appender.appendPageImage, Appender.appendSlot, hps, hfits, if_true, hbytes]
  rw [happend]
  generalize (a.active.clearPacked).pushRecord .k64 (imageSlot .k64 lsn pageId page) = r at *
  rw [hneeds] at hstart hslot hused' hmeta'
  simp only [FlatBuffer.clearPacked, hepoch, hused, hmeta, hcount, hmax, hbytes,
    decide_eq_true_eq] at *
  rcases Nat.lt_trichotomy n 2340 with hlt | rfl | hgt
  · rcases Nat.eq_zero_or_pos n with rfl | hpos
    · rw [hslot] at hmeta' hcount'
      refine ⟨⟨hepoch', by simp [hused'], by simp [hmeta'], by simp [hcount']⟩, ?_⟩
      simp [imagePlace, hepoch', hstart, hslot]
    have hmod : n % 2340 = n := Nat.mod_eq_of_lt hlt
    have hne : n ≠ 0 := hpos.ne'
    have hle : n ≤ 2340 := hlt.le
    simp only [hmod, hne, hle, hlt, if_false, if_true, Option.getD_some]
      at hstart hslot hused' hmeta' hcount'
    rw [hslot] at hmeta' hcount'
    refine ⟨⟨hepoch', ?_, ?_, ?_⟩, ?_⟩
    · rw [hused', if_neg (by omega), if_pos (by omega)]
      omega
    · rw [hmeta']
      by_cases hfull : n + 1 = 2340
      · rw [if_pos hfull, if_pos (by omega)]
      · rw [if_neg hfull, if_neg (by omega), if_pos (by omega)]
    · rw [hcount']
      split <;> omega
    · rw [imagePlace, if_pos hlt, hepoch', hstart, hslot]
  · rw [hslot] at hmeta' hcount'
    refine ⟨⟨hepoch', by simp [hused'], by simp [hmeta'], by simp [hcount']⟩, ?_⟩
    simp [imagePlace, hepoch', hstart, hslot]
  have hmod : n % 2340 = n - 2340 := by omega
  have hne : n ≠ 0 := by omega
  have hnot : ¬n - 2340 = 0 := by omega
  have hnle : ¬n ≤ 2340 := by omega
  have hnlt : ¬n < 2340 := by omega
  have hroom : ¬n - 2340 + 1 = 2340 := by omega
  simp only [hmod, hne, hnot, hnle, hnlt, if_false, Option.getD_some]
    at hstart hslot hused' hmeta' hcount'
  rw [hslot] at hmeta' hcount'
  rw [if_neg hroom] at hmeta' hcount'
  refine ⟨⟨hepoch', ?_, ?_, ?_⟩, ?_⟩
  · rw [hused', if_neg (by omega), if_neg (by omega)]
    omega
  · rw [hmeta', if_neg (by omega), if_neg (by omega)]
  · omega
  · rw [imagePlace, if_neg hnlt, hepoch', hstart, hslot]

def zeroImage : Payload := .pageImage 7 (replicate PageSize.k64.bytes 0)

def imageRun (n : Nat) : List Session.Action :=
  (List.range n).map fun i => .append (i + 1) zeroImage

def newFile : OpenWalFile := ⟨padTo segmentSize (buildWalHeader .k64 false), PageSize.k64.bytes, 0⟩

theorem zeroImage_valid : zeroImage.Valid largeBuffer.pageSize :=
  ⟨by decide, length_replicate⟩

theorem inv_newFile (crc : Bytes → Nat) :
    (Session.start largeBuffer newFile).Inv largeBuffer crc (buildWalHeader .k64 false) [] []
      (WalBuffer.reset 1) :=
  Session.Inv.startNew (by decide : ([] : Bytes).length < _) (if_pos (by decide))

/-- A run of images fills the buffer batch after batch. -/
theorem exec_imageRun (crc : Bytes → Nat) {n : Nat} (hn : n ≤ 4000) :
    ∃ s, exec (Session.step largeBuffer crc) (Session.start largeBuffer newFile)
      (imageRun n) = some s ∧
      s.log = (List.range n).map (fun i => ⟨i + 1, zeroImage, some (imagePlace i)⟩) ∧
      ImagesInBuffer n s.wal.active ∧
      ∃ sealed b, s.Inv largeBuffer crc (buildWalHeader .k64 false) [] sealed b := by
  induction n with
  | zero => exact ⟨_, rfl, rfl, ⟨rfl, rfl, rfl, rfl⟩, [], _, inv_newFile crc⟩
  | succ n ih =>
    obtain ⟨s, hexec, hlog, himages, sealed, b, hinv⟩ := ih (by omega)
    have hlsn : n + 1 < u64Limit := by
      unfold u64Limit
      omega
    obtain ⟨himages', hplace⟩ := imagesInBuffer_append crc (by omega)
      hinv.stored.encodes.size himages (n + 1) 7 (replicate PageSize.k64.bytes 0)
    refine ⟨⟨(s.wal.append largeBuffer crc (n + 1) zeroImage).1,
      s.log ++ [⟨n + 1, zeroImage, (s.wal.append largeBuffer crc (n + 1) zeroImage).2⟩]⟩, ?_, ?_,
      himages', hinv.append hlsn zeroImage_valid⟩
    · rw [imageRun, range_succ, map_append, exec_append]
      rw [imageRun] at hexec
      rw [hexec, Option.bind_some, map_singleton, exec,
        Session.step_append zeroImage_valid hlsn]
      rfl
    · have hreturned : (s.wal.append largeBuffer crc (n + 1) zeroImage).2 = some (imagePlace n) :=
        congrArg some hplace
      rw [hlog, hreturned, range_succ, map_append, map_singleton]

end Images

/-- The LSNs of the log are those of the calls. -/
theorem Session.lsns_of_run {cfg : Config} {crc : Bytes → Nat} {o : OpenWalFile} {s : Session}
    (h : Reach (Session.step cfg crc) (fun s a => s.slotFits a ∧ a.LsnFits) (.start cfg o) s) :
    ∀ e ∈ s.log, e.lsn + 1 < u64Limit := by
  refine h.invariant (I := fun s => ∀ e ∈ s.log, e.lsn + 1 < u64Limit) nofun ?_
  intro s act s' hs hok hstep e he
  cases act with
  | append lsn p =>
    obtain ⟨-, ⟨⟩⟩ := Option.ite_none_right_eq_some.mp hstep
    rcases mem_append.mp he with he | he
    · exact hs e he
    · rw [mem_singleton.mp he]
      exact hok.2
  | overwrite i lsn pid page =>
    simp only [Session.step] at hstep
    split at hstep
    · cases hstep
    split at hstep
    · cases hstep
    obtain ⟨-, hstep⟩ := Option.ite_none_right_eq_some.mp hstep
    split at hstep
    · cases hstep
      exact hs e he
    · cases hstep
      rcases mem_or_eq_of_mem_set he with he | rfl
      · exact hs e he
      · exact hok.2
    · cases hstep
  | sealBuffer =>
    cases hstep
    exact hs e he

/-- After any run of one appender on a new file whose overwrites go through handles
that name their slots, the flushed file replays the records that the caller expects in
the order of the file, and opening it finds the same end and an unused LSN. -/
theorem replay_eq_log (cfg : Config) (crc : Bytes → UInt32) (directIo : Bool) {file : Bytes}
    {o : OpenWalFile} {s : Session} (hnew : file.length < cfg.pageSize.bytes)
    (hopen : openWalFile cfg.pageSize (crcNat crc) directIo file = some o)
    (hrun : Reach (Session.step cfg (crcNat crc)) (fun s a => s.slotFits a ∧ a.LsnFits)
      (Session.start cfg o) s) :
    let wal := s.wal.sealActive cfg (crcNat crc)
    replayOpened cfg.pageSize (crcNat crc) wal.file wal.fileOffset =
        s.log.map ExpectedRecord.delivered ∧
      ∃ o', openWalFile cfg.pageSize (crcNat crc) directIo wal.file = some o' ∧
        o'.fileOffset = wal.fileOffset ∧ ∀ e ∈ s.log, e.lsn < o'.nextLsn := by
  intro wal
  obtain ⟨sealed, b, hinv⟩ := (Session.Inv.startNew hnew hopen).run (hrun.mono fun _ _ h => h.1)
  obtain ⟨b', hflushed, hempty⟩ := hinv.sealActive
  refine ⟨hflushed.replay hempty (crcNat_lt crc) rfl, ?_⟩
  obtain ⟨o', hopen', hoffset, hlsn, hmax⟩ := hflushed.reopen hempty (crcNat_lt crc)
    (validateWalHeader_build cfg.pageSize directIo) directIo
  have hbelow : o'.maxLsn + 1 < u64Limit := by
    rcases hmax rfl with hzero | ⟨e, he, hlast⟩
    · rw [hzero]
      decide
    · rw [hlast]
      exact Session.lsns_of_run hrun e he
  refine ⟨o', hopen', hoffset, fun e he => ?_⟩
  rw [OpenWalFile.nextLsn, Nat.mod_eq_of_lt hbelow]
  exact Nat.lt_succ_of_le (hlsn e he)

/-- Three images of one page, the second of them overwritten, a seal and a packed record. -/
theorem replay_eq_log_images : ∃ s, s.log.map ExpectedRecord.lsn = [1, 4, 3, 5] ∧
      Reach (Session.step largeBuffer (crcNat fun _ => 0)) (fun s a => s.slotFits a ∧ a.LsnFits)
        (Session.start largeBuffer newFile) s ∧
      replayOpened largeBuffer.pageSize (crcNat fun _ => 0)
          (s.wal.sealActive largeBuffer (crcNat fun _ => 0)).file
          (s.wal.sealActive largeBuffer (crcNat fun _ => 0)).fileOffset =
        s.log.map ExpectedRecord.delivered := by
  obtain ⟨s, hexec, hlog, himages, sealed, b, hinv⟩ :=
    exec_imageRun (crcNat fun _ => 0) (n := 3) (by decide)
  have hentry : s.log[1]? = some ⟨2, zeroImage, some (imagePlace 1)⟩ := by rw [hlog]; rfl
  have hslot : (imagePlace 1).slotIdx < 256 := by decide
  have hpage : (replicate PageSize.k64.bytes (0 : UInt8)).length = largeBuffer.pageSize.bytes :=
    length_replicate
  have hrun : Reach (Session.step largeBuffer (crcNat fun _ => 0))
      (fun s a => s.slotFits a ∧ a.LsnFits) (Session.start largeBuffer newFile) s := by
    refine Reach.of_exec_forall hexec fun act hact _ => ?_
    obtain ⟨i, hi, rfl⟩ := mem_map.mp hact
    have := mem_range.mp hi
    exact ⟨trivial, by show i + 1 + 1 < u64Limit; unfold u64Limit; omega⟩
  rcases hinv.overwrite 7 hentry rfl (fun _ => hslot) (by decide : 4 < u64Limit) hpage with
    ⟨-, hother⟩ | ⟨active, b', hdone, -⟩
  · exact absurd rfl (hother himages.epoch.symm _)
  have hfits : s.slotFits (.overwrite 1 4 7 (replicate PageSize.k64.bytes 0)) := by
    intro e place he hplace _
    rw [hentry] at he
    cases he
    cases hplace
    exact hslot
  have hstep : s.step largeBuffer (crcNat fun _ => 0)
      (.overwrite 1 4 7 (replicate PageSize.k64.bytes 0)) =
        some ⟨{ s.wal with active }, s.log.set 1 ⟨4, zeroImage, some (imagePlace 1)⟩⟩ := by
    rw [Session.step, hentry]
    dsimp only
    rw [if_pos ⟨by decide, hpage⟩, hdone]
    rfl
  have hlsn : ∀ lsn ∈ [4, 5], lsn + 1 < u64Limit := by decide
  have hover := hrun.tail _ ⟨hfits, hlsn 4 (by simp)⟩ hstep
  have hsealed := hover.tail Session.Action.sealBuffer ⟨trivial, trivial⟩ rfl
  have hlast := hsealed.tail (Session.Action.append 5 (.logical 7 [1, 2, 3]))
    ⟨trivial, hlsn 5 (by simp)⟩ (Session.step_append (by decide) (by decide) _)
  refine ⟨_, ?_, hlast, (replay_eq_log largeBuffer (fun _ => 0) false
    (by decide : ([] : Bytes).length < _) (if_pos (by decide)) hlast).1⟩
  rw [hlog]
  rfl

/-- The handle of image 257 of the second batch is that of its first image: the
overwrite of the one replaces the other, and the file does not replay what the caller
expects. -/
theorem overwrite_replaces_other_image :
    ∃ s, Reach (Session.step largeBuffer (crcNat fun _ => 0)) anyStep
        (Session.start largeBuffer newFile) s ∧
      replayOpened largeBuffer.pageSize (crcNat fun _ => 0)
          (s.wal.sealActive largeBuffer (crcNat fun _ => 0)).file
          (s.wal.sealActive largeBuffer (crcNat fun _ => 0)).fileOffset ≠
        s.log.map ExpectedRecord.delivered := by
  set crc := crcNat fun _ => 0 with hcrc
  obtain ⟨s, hexec, hlog, himages, sealed, b, hinv⟩ := exec_imageRun crc (n := 2597) (by decide)
  have hentry : ∀ i, i < 2597 → s.log[i]? = some ⟨i + 1, zeroImage, some (imagePlace i)⟩ := by
    intro i hi
    rw [hlog, List.getElem?_map, List.getElem?_range hi, Option.map_some]
  -- both handles are the same number
  have hsame : (imagePlace 2596).record = (imagePlace 2340).record := by decide
  have hpage : (replicate PageSize.k64.bytes (0 : UInt8)).length = largeBuffer.pageSize.bytes :=
    length_replicate
  have hlsn : 3000 < u64Limit := by decide
  rcases hinv.overwrite 7 (hentry 2340 (by decide)) rfl
      (fun _ => by decide : _ → (imagePlace 2340).slotIdx < 256) hlsn hpage with
    ⟨-, hother⟩ | ⟨active, b', hdone, hinv'⟩
  · exact absurd rfl (hother himages.epoch.symm _)
  refine ⟨⟨{ s.wal with active }, s.log.set 2596 ⟨3000, zeroImage, some (imagePlace 2596)⟩⟩, ?_, ?_⟩
  · refine .tail (.overwrite 2596 3000 7 (replicate PageSize.k64.bytes 0))
      (Reach.of_exec_any hexec) trivial ?_
    rw [Session.step, hentry 2596 (by decide)]
    dsimp only
    rw [if_pos ⟨hlsn, hpage⟩, hsame, hdone]
    rfl
  obtain ⟨b'', hflushed, hempty⟩ := hinv'.sealActive
  have hreplay := hflushed.replay hempty (crcNat_lt fun _ => 0) rfl
  rw [hreplay, nil_append]
  intro heq
  -- the first image of the batch was overwritten, though its handle was not used
  have hat : ((s.log.set 2340 ⟨3000, zeroImage, some (imagePlace 2340)⟩).map
      ExpectedRecord.delivered)[2340]? =
      ((s.log.set 2596 ⟨3000, zeroImage, some (imagePlace 2596)⟩).map
        ExpectedRecord.delivered)[2340]? :=
    congrArg (fun records => records[2340]?) heq
  have hlong : 2340 < s.log.length := by rw [hlog, length_map, length_range]; decide
  rw [List.getElem?_map, List.getElem?_map, List.getElem?_set_self hlong,
    List.getElem?_set_ne (by decide), hentry 2340 (by decide), Option.map_some, Option.map_some,
    Option.some.injEq] at hat
  exact absurd (congrArg ReplayRecord.lsn hat) (by decide)

end Pagebox.Wal
