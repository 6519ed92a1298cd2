import Pagebox.Wal.Durability
import Pagebox.Wal.Overwrite
import Pagebox.Wal.RecoverPages

/-!
# The page log of one appender

A shard that a single thread appends page images and page patches to, each at the
next LSN.  Writing and syncing of its buffers is one step here.  The log stays
well formed and in LSN order from buffer to buffer, every piece of it is a whole
page record, and what is not synced yet lies above the durable LSN.
-/

namespace Pagebox.Wal

open Pagebox.Base List

def syncOldest : List SealedBuffer → Option (List SealedBuffer × Nat)
  | [] => none
  | b :: bs =>
    if b.synced then (syncOldest bs).map fun (bs, maxLsn) => (b :: bs, maxLsn)
    else some ({ b with phase := .returned, synced := true } :: bs, b.maxLsn)

namespace Shard

def writeAndSync (sh : Shard) : Option Shard :=
  (syncOldest sh.sealedBuffers).map fun (bs, maxLsn) =>
    { sh with
      sealedBuffers := bs
      spareBuffers := sh.spareBuffers + 1
      writtenLsn := max sh.writtenLsn maxLsn
      durableLsn := max sh.durableLsn maxLsn }

/-- The slots in synced buffers: what a crash leaves of the log. -/
def durableLog (sh : Shard) : List Slot :=
  (sh.sealedBuffers.filter (·.synced)).flatMap SealedBuffer.slots

/-- The slots that a crash loses. -/
def bufferedLog (sh : Shard) : List Slot :=
  (sh.sealedBuffers.filter (!·.synced)).flatMap SealedBuffer.slots ++ sh.active.slots

structure Below (sh : Shard) (n : Nat) : Prop where
  sealed : sh.SealedBelow n
  active : sh.active.maxLsn < n
  packed : ∀ packed, sh.active.packedLogical = some packed → packed.maxLsn < n

end Shard

section Bounds

variable {cfg : Config} {sh sh' : Shard} {n m : Nat}

namespace Shard.Below

theorem mono (h : sh.Below n) (hnm : n ≤ m) : sh.Below m :=
  ⟨fun b hb => (h.sealed b hb).trans_le hnm, h.active.trans_le hnm,
    fun packed hp => (h.packed packed hp).trans_le hnm⟩

theorem clearPacked (h : sh.Below n) : sh.clearPacked.Below n :=
  ⟨h.sealed, h.active, fun packed hp => by cases hp⟩

theorem sealActive (h : sh.Below n) (hseal : sh.sealActive = some sh') : sh'.Below n := by
  obtain ⟨hsealed, hactive⟩ := sealedBelow_sealActive h.sealed h.active hseal
  rcases sealActive_cases hseal with ⟨-, rfl⟩ | ⟨-, rfl⟩
  · exact h
  · exact ⟨hsealed, hactive, fun packed hp => by cases hp⟩

theorem push (h : sh.Below n) (hwf : BufferWf cfg.pageSize sh.active) {slot : Slot}
    (hslot : slot.entry.lsn < n) : (sh.push cfg slot).Below n := by
  obtain ⟨-, hmax, hpacked, -⟩ := pushSlot_spec hwf slot
  refine ⟨h.sealed, ?_, ?_⟩
  · show (sh.active.pushSlot cfg.pageSize slot).maxLsn < n
    have hactive := h.active
    rw [hmax]
    split
    · omega
    · exact hactive
  intro packed hp
  simp only [Shard.push] at hp
  split at hp
  · cases hp
    exact hslot
  · rw [hpacked] at hp
    exact h.packed packed hp

theorem join (h : sh.Below n) {r : LogicalRecord} (hr : r.lsn < n) {active : WalBuffer}
    (hjoin : sh.active.tryAppendPackedLogical cfg.pageSize r = some active) :
    ({ sh with active } : Shard).Below n := by
  unfold WalBuffer.tryAppendPackedLogical at hjoin
  split at hjoin
  · rename_i packed slot batch rest hpacked hbatches
    simp only at hjoin
    split at hjoin
    · cases hjoin
    cases hjoin
    have hold := h.packed packed hpacked
    have hactive := h.active
    refine ⟨h.sealed, ?_, ?_⟩
    · show max sh.active.maxLsn (max packed.maxLsn r.lsn) < n
      omega
    · intro packed' hp
      cases hp
      show max packed.maxLsn r.lsn < n
      omega
  · cases hjoin

end Shard.Below

theorem Payload.slots_entry_lsn (ps : PageSize) (lsn : Nat) (p : Payload) :
    ∀ slot ∈ p.slots ps lsn, slot.entry.lsn = lsn := by
  have hchunks : ∀ r : LogicalRecord, r.lsn = lsn → ∀ slot ∈ chunkSlots ps r,
      slot.entry.lsn = lsn := by
    intro r hr slot hslot
    obtain ⟨i, -, rfl⟩ := mem_map.mp hslot
    exact hr
  intro slot hslot
  cases p with
  | pageImage pageId page =>
    rw [mem_singleton.mp hslot]
    rfl
  | pageImageBytes pageId page => exact hchunks _ rfl slot hslot
  | logical kind bytes =>
    rw [Payload.slots] at hslot
    split at hslot
    · rw [mem_singleton.mp hslot]
      rfl
    · exact hchunks ⟨lsn, kind, bytes⟩ rfl slot hslot

theorem appendSlots_below {lsn : Nat} {woken : Bool} {slots rest : List Slot}
    (hwf : ShardWf cfg.pageSize sh) (hslots : SlotsOf cfg.pageSize lsn slots)
    (hentry : ∀ slot ∈ slots, slot.entry.lsn < n) (h : sh.Below n)
    (happ : sh.appendSlots cfg woken slots = some (sh', rest)) : sh'.Below n := by
  let P : Shard → List Slot → Prop := fun sh₁ rest₁ =>
    ShardWf cfg.pageSize sh₁ ∧ SlotsOf cfg.pageSize lsn rest₁ ∧
      (∀ slot ∈ rest₁, slot.entry.lsn < n) ∧ sh₁.Below n
  have hstart : P sh slots := ⟨hwf, hslots, hentry, h⟩
  have hend : P sh' rest := by
    refine appendSlots_rule ?_ ?_ ?_ (fun sh₁ rest₁ h => h.1.active) hstart happ
    · rintro sh₁ rest₁ ⟨h₁, h₂, h₃, h₄⟩
      exact ⟨h₁.clearPacked, h₂, h₃, h₄.clearPacked⟩
    · rintro sh₁ sh₂ slot rest₁ ⟨h₁, h₂, h₃, h₄⟩ - hseal
      exact ⟨h₁.sealActive hseal, h₂, h₃, h₄.sealActive hseal⟩
    · rintro sh₁ slot rest₁ ⟨h₁, h₂, h₃, h₄⟩ hclosed
      exact ⟨h₁.push (h₂.wf slot mem_cons_self) hclosed, h₂.tail,
        fun x hx => h₃ x (mem_cons_of_mem slot hx),
        h₄.push h₁.active (h₃ slot mem_cons_self)⟩
  exact hend.2.2.2

theorem beginAppend_below {lsn : Nat} {p : Payload} {rest : List Slot}
    (hwf : ShardWf cfg.pageSize sh) (hlsn : lsn < u64Limit) (hp : p.Valid cfg.pageSize)
    (h : sh.Below n) (hn : lsn < n) (happ : sh.beginAppend cfg lsn p = some (sh', rest)) :
    sh'.Below n := by
  have hslots := Payload.slots_slotsOf hlsn hp
  have hentry : ∀ slot ∈ p.slots cfg.pageSize lsn, slot.entry.lsn < n := fun slot hslot =>
    (Payload.slots_entry_lsn cfg.pageSize lsn p slot hslot).trans_lt hn
  unfold Shard.beginAppend at happ
  split at happ
  · rename_i r hpacked
    obtain ⟨-, hrlsn, -⟩ := Payload.packed_spec hlsn hp hpacked
    split at happ
    · rename_i active hjoin
      cases happ
      exact h.join (hrlsn.trans_lt hn) hjoin
    · exact appendSlots_below hwf hslots hentry h happ
  · exact appendSlots_below hwf hslots hentry h happ

end Bounds

/-- The bytes at the start of the data page that holds a piece. -/
def Piece.start : Piece → Bytes
  | .image _ _ page => page.take 8
  | .chunk _ _ _ _ payload => payload.take 8
  | .packed r => leBytes 8 r.lsn

/-- A whole page record with an LSN from `first` up to `next`. -/
structure PieceOk (ps : PageSize) (first next : Nat) (piece : Piece) : Prop where
  record : (pageRecord? ps piece).isSome
  first : first ≤ piece.lsn
  next : piece.lsn < next
  start : ∃ n < 2 ^ 48, piece.start = leBytes 8 n

structure LogInv (ps : PageSize) (first next : Nat) (sh : Shard) : Prop where
  wf : ShardWf ps sh
  ordered : Ordered sh
  below : sh.Below next
  durable : sh.durableLsn < next
  pieces : ∀ piece ∈ sh.pieces, PieceOk ps first next piece
  synced : sh.sealedBuffers.Pairwise fun a b => b.synced = true → a.synced = true
  above : ∀ piece ∈ sh.bufferedLog.flatMap slotPieces, sh.durableLsn < piece.lsn

theorem PieceOk.mono {ps : PageSize} {first next next' : Nat} {piece : Piece}
    (h : PieceOk ps first next piece) (hle : next ≤ next') : PieceOk ps first next' piece :=
  ⟨h.record, h.first, h.next.trans_le hle, h.start⟩

theorem pageRecord?_lsn {ps : PageSize} {piece : Piece} {r : PageRecord ps}
    (h : pageRecord? ps piece = some r) : r.lsn = piece.lsn := by
  have hpatch : ∀ record, patchRecord? ps record = some r → r.lsn = record.lsn := by
    intro record hrecord
    obtain ⟨ranges, -, -, hr⟩ := patchRecord?_some hrecord
    rw [hr]
  cases piece with
  | image lsn pid data =>
    obtain ⟨page, -, rfl⟩ := Option.map_eq_some_iff.mp h
    rfl
  | chunk lsn kind first last payload =>
    rw [pageRecord?] at h
    split at h
    · exact hpatch _ h
    · cases h
  | packed record => exact hpatch record h

section Preservation

variable {cfg : Config} {ps : PageSize} {first next next' : Nat} {sh sh' : Shard}

/-- When buffers are synced in file order, the synced ones come first. -/
theorem pieces_split (h : sh.sealedBuffers.Pairwise fun a b => b.synced = true → a.synced = true) :
    sh.pieces = sh.durableLog.flatMap slotPieces ++ sh.bufferedLog.flatMap slotPieces := by
  have hsealed : ∀ bs : List SealedBuffer,
      (bs.Pairwise fun a b => b.synced = true → a.synced = true) →
      bs = bs.filter (·.synced) ++ bs.filter (!·.synced) := by
    intro bs hbs
    induction bs with
    | nil => rfl
    | cons b bs ih =>
      obtain ⟨hb, hbs⟩ := pairwise_cons.mp hbs
      cases hsynced : b.synced with
      | true =>
        simp only [filter_cons, hsynced, Bool.not_true, if_true, Bool.false_eq_true,
          if_false, cons_append]
        rw [← ih hbs]
      | false =>
        -- nothing after an unsynced buffer is synced
        have hnone : ∀ x ∈ bs, x.synced = false := by
          intro x hx
          cases hx' : x.synced with
          | false => rfl
          | true => exact absurd (hb x hx hx') (by simp [hsynced])
        have hfirst : bs.filter (·.synced) = [] := by
          rw [filter_eq_nil_iff]
          intro x hx
          simp [hnone x hx]
        have hall : bs.filter (!·.synced) = bs := by
          rw [filter_eq_self]
          intro x hx
          simp [hnone x hx]
        simp [hsynced, hfirst, hall]
  rw [Shard.pieces, ← flatMap_append, Shard.log, Shard.durableLog, Shard.bufferedLog,
    ← append_assoc, ← flatMap_append, ← hsealed _ h]

theorem LogInv.new (cfg : Config) {maxLsn next : Nat} (first : Nat) (h : maxLsn < next) :
    LogInv cfg.pageSize first next (Shard.new cfg maxLsn) where
  wf := ⟨bufferWf_reset _ _, by simp [Shard.new]⟩
  ordered := ⟨by simp [Shard.new], by simp [Shard.new]⟩
  below := ⟨by simp [Shard.SealedBelow, Shard.new], Nat.zero_lt_of_lt h,
    by simp [Shard.new, WalBuffer.reset]⟩
  durable := h
  pieces := by simp [Shard.pieces, Shard.log, Shard.new]
  synced := by simp [Shard.new]
  above := by simp [Shard.bufferedLog, Shard.new]

/-- Adding pieces behind the log, in the active buffer or newly sealed ones. -/
theorem LogInv.extend (h : LogInv ps first next sh) {done : List Piece}
    (hext : Extends sh sh' done) (hwf : ShardWf ps sh') (hordered : Ordered sh')
    (hbelow : sh'.Below next') (hle : next ≤ next')
    (hdone : ∀ piece ∈ done, PieceOk ps first next' piece ∧ next ≤ piece.lsn) :
    LogInv ps first next' sh' ∧ sh'.durableLog = sh.durableLog ∧
      sh'.durableLsn = sh.durableLsn := by
  obtain ⟨new, hsealed, hnew⟩ := hext.sealed
  have hunsynced : ∀ b ∈ new, b.synced = false := fun b hb => (hnew b hb).2
  have hlsn : sh'.durableLsn = sh.durableLsn := congrArg (·.2.2.2.2.1) hext.driver
  have hdurable : sh'.durableLog = sh.durableLog := by
    have hnone : new.filter (·.synced) = [] := by
      rw [filter_eq_nil_iff]
      intro b hb
      simp [hunsynced b hb]
    rw [Shard.durableLog, hsealed, filter_append, hnone, append_nil, Shard.durableLog]
  have hsynced : sh'.sealedBuffers.Pairwise fun a b => b.synced = true → a.synced = true := by
    rw [hsealed, pairwise_append]
    refine ⟨h.synced, ?_, ?_⟩
    · apply pairwise_of_forall_mem_list
      intro a _ b hb hb'
      rw [hunsynced b hb] at hb'
      cases hb'
    · intro a _ b hb hb'
      rw [hunsynced b hb] at hb'
      cases hb'
  have hbuffered : sh'.bufferedLog.flatMap slotPieces =
      sh.bufferedLog.flatMap slotPieces ++ done := by
    have hsplit := pieces_split hsynced
    rw [hext.pieces, pieces_split h.synced, hdurable, append_assoc] at hsplit
    exact (append_cancel_left hsplit).symm
  refine ⟨⟨hwf, hordered, hbelow, ?_, ?_, hsynced, ?_⟩, hdurable, hlsn⟩
  · rw [hlsn]
    exact h.durable.trans_le hle
  · intro piece hpiece
    rw [hext.pieces] at hpiece
    rcases mem_append.mp hpiece with hpiece | hpiece
    · exact (h.pieces piece hpiece).mono hle
    · exact (hdone piece hpiece).1
  intro piece hpiece
  rw [hbuffered] at hpiece
  rw [hlsn]
  rcases mem_append.mp hpiece with hpiece | hpiece
  · exact h.above piece hpiece
  · exact h.durable.trans_le (hdone piece hpiece).2

theorem LogInv.sealActive (h : LogInv ps first next sh) (hseal : sh.sealActive = some sh') :
    LogInv ps first next sh' ∧ sh'.pieces = sh.pieces ∧ sh'.durableLog = sh.durableLog ∧
      sh'.durableLsn = sh.durableLsn := by
  have hext := (Extends.refl sh).sealActive hseal
  obtain ⟨hinv, hdurable, hlsn⟩ := h.extend hext (h.wf.sealActive hseal)
    (h.ordered.sealActive hseal) (h.below.sealActive hseal) le_rfl (by simp)
  exact ⟨hinv, pieces_sealActive hseal, hdurable, hlsn⟩

theorem LogInv.append {p : Payload} {piece : Piece} (h : LogInv cfg.pageSize first next sh)
    (hnext : next < 2 ^ 48) (hp : p.Valid cfg.pageSize)
    (hpieces : p.pieces cfg.pageSize next = [piece])
    (hpiece : PieceOk cfg.pageSize first (next + 1) piece) (hlsn : piece.lsn = next)
    (happ : sh.beginAppend cfg next p = some (sh', [])) :
    LogInv cfg.pageSize first (next + 1) (sh'.publishAppended next) ∧
      (sh'.publishAppended next).pieces = sh.pieces ++ [piece] ∧
      (sh'.publishAppended next).durableLog = sh.durableLog ∧
      (sh'.publishAppended next).durableLsn = sh.durableLsn := by
  have hlimit : next < u64Limit := hnext.trans (by decide)
  obtain ⟨hwf, -, -⟩ := beginAppend_spec h.wf hlimit hp happ
  obtain ⟨done, hext, hdone⟩ := beginAppend_pieces h.wf hlimit hp happ
  rw [flatMap_nil, append_nil, hpieces] at hdone
  have hordered := beginAppend_ordered h.wf hlimit hp h.ordered h.below.sealed
    (.inl h.below.active) happ
  have hbelow := beginAppend_below h.wf hlimit hp (h.below.mono (Nat.le_succ next))
    (Nat.lt_succ_self next) happ
  rw [hdone] at hext
  obtain ⟨hinv, hdurable, hlsn'⟩ := h.extend hext hwf hordered hbelow (Nat.le_succ next)
    (by
      intro x hx
      rw [mem_singleton.mp hx]
      exact ⟨hpiece, hlsn.ge⟩)
  refine ⟨?_, hext.pieces, hdurable, hlsn'⟩
  exact ⟨⟨hinv.wf.active, hinv.wf.sealed⟩, ⟨hinv.ordered.sealed, hinv.ordered.active⟩,
    ⟨hinv.below.sealed, hinv.below.active, hinv.below.packed⟩, hinv.durable, hinv.pieces,
    hinv.synced, hinv.above⟩

theorem LogInv.overwrite {active : WalBuffer} {epoch offset pid : Nat} {page : Page cfg.pageSize}
    (h : LogInv cfg.pageSize first next sh) (hfirst : first ≤ next) (hnext : next < 2 ^ 48)
    (hpage : page.bytes.take 8 = leBytes 8 next)
    (hover : sh.active.overwritePageImage epoch offset next pid page.bytes = some active) :
    LogInv cfg.pageSize first (next + 1) (({ sh with active } : Shard).publishAppended next) ∧
      (({ sh with active } : Shard).publishAppended next).durableLog = sh.durableLog ∧
      ∃ (before behind : List Piece) (oldLsn : Nat) (old : Bytes),
        sh.pieces = before ++ .image oldLsn pid old :: behind ∧
        (({ sh with active } : Shard).publishAppended next).pieces =
          before ++ .image next pid page.bytes :: behind := by
  obtain ⟨before, behind, oldLsn, old, hold, hnew⟩ := pieces_overwritePageImage hover
  have hactive : sh.active.pieces = before ++ .image oldLsn pid old :: behind := hold
  have hactive' : active.pieces = before ++ .image next pid page.bytes :: behind := hnew
  have hok : PieceOk cfg.pageSize first (next + 1) (.image next pid page.bytes) := by
    refine ⟨?_, hfirst, Nat.lt_succ_self next, next, hnext, hpage⟩
    simp [pageRecord?, Page.ofBytes?, page.size]
  -- every piece of the new buffer is the new image or was there before
  have hmem : ∀ piece ∈ active.pieces,
      piece = .image next pid page.bytes ∨ piece ∈ sh.active.pieces := by
    intro piece hpiece
    rw [hactive'] at hpiece
    rw [hactive]
    simp only [mem_append, mem_cons] at hpiece ⊢
    tauto
  have hmax : active.maxLsn = max sh.active.maxLsn next ∧
      active.packedLogical = sh.active.packedLogical := by
    obtain ⟨_, _, _, _, -, -, rfl⟩ := overwritePageImage_cases hover
    exact ⟨rfl, rfl⟩
  have hlt := h.below.active
  refine ⟨⟨⟨bufferWf_overwritePageImage h.wf.active page.size hover, h.wf.sealed⟩,
    ⟨h.ordered.sealed, ?_⟩, ⟨?_, ?_, ?_⟩, h.durable.trans (Nat.lt_succ_self next), ?_,
      h.synced, ?_⟩,
    rfl, ?_⟩
  · intro b hb piece hpiece
    rcases hmem piece hpiece with rfl | hpiece
    · exact h.below.sealed b hb
    · exact h.ordered.active b hb piece hpiece
  · exact (h.below.mono (Nat.le_succ next)).sealed
  · show active.maxLsn < next + 1
    omega
  · intro packed hpacked
    exact (h.below.mono (Nat.le_succ next)).packed packed (hmax.2 ▸ hpacked)
  · intro piece hpiece
    rw [pieces_eq] at hpiece
    rcases mem_append.mp hpiece with hpiece | hpiece
    · have hin : piece ∈ sh.pieces := by
        rw [pieces_eq]
        exact mem_append_left _ hpiece
      exact (h.pieces piece hin).mono (Nat.le_succ next)
    rcases hmem piece hpiece with rfl | hpiece
    · exact hok
    · have hin : piece ∈ sh.pieces := by
        rw [pieces_eq]
        exact mem_append_right _ hpiece
      exact (h.pieces piece hin).mono (Nat.le_succ next)
  · intro piece hpiece
    have habove := h.above
    simp only [Shard.bufferedLog, flatMap_append, mem_append] at hpiece habove
    rcases hpiece with hpiece | hpiece
    · exact habove piece (.inl hpiece)
    · rcases hmem piece hpiece with rfl | hpiece
      · exact h.durable
      · exact habove piece (.inr hpiece)
  · refine ⟨sh.sealedBuffers.flatMap SealedBuffer.pieces ++ before, behind, oldLsn, old, ?_, ?_⟩
    · rw [pieces_eq, hactive, append_assoc]
    · rw [pieces_eq, append_assoc]
      exact congrArg _ hactive'

theorem syncOldest_spec {bs bs' : List SealedBuffer} {maxLsn : Nat}
    (h : syncOldest bs = some (bs', maxLsn)) :
    ∃ (done rest : List SealedBuffer) (b : SealedBuffer), bs = done ++ b :: rest ∧
      (∀ x ∈ done, x.synced = true) ∧ b.synced = false ∧ maxLsn = b.maxLsn ∧
      bs' = done ++ { b with phase := .returned, synced := true } :: rest := by
  induction bs generalizing bs' with
  | nil => cases h
  | cons b bs ih =>
    unfold syncOldest at h
    split at h
    · rename_i hb
      obtain ⟨⟨bs₁, maxLsn₁⟩, hrest, heq⟩ := Option.map_eq_some_iff.mp h
      cases heq
      obtain ⟨done, rest, b₁, rfl, hdone, hb₁, hmax, rfl⟩ := ih hrest
      refine ⟨b :: done, rest, b₁, rfl, ?_, hb₁, hmax, rfl⟩
      intro x hx
      rcases mem_cons.mp hx with rfl | hx
      · exact hb
      · exact hdone x hx
    · rename_i hb
      cases h
      exact ⟨[], bs, b, rfl, by simp, by simpa using hb, rfl, rfl⟩

/-- Syncing a buffer moves its slots from the buffered to the durable part. -/
theorem LogInv.writeAndSync (h : LogInv ps first next sh) (hsync : sh.writeAndSync = some sh') :
    LogInv ps first next sh' ∧ sh'.pieces = sh.pieces ∧
      ∃ more, sh'.durableLog = sh.durableLog ++ more := by
  obtain ⟨⟨bs, maxLsn⟩, hbs, rfl⟩ := Option.map_eq_some_iff.mp hsync
  obtain ⟨done, rest, b, hold, hdone, hb, rfl, rfl⟩ := syncOldest_spec hbs
  have hpair := h.synced
  rw [hold, pairwise_append, pairwise_cons] at hpair
  have hrest : ∀ x ∈ rest, x.synced = false := by
    intro x hx
    cases hx' : x.synced with
    | false => rfl
    | true => exact absurd (hpair.2.1.1 x hx hx') (by simp [hb])
  have hnone : rest.filter (·.synced) = [] := by
    rw [filter_eq_nil_iff]
    intro x hx
    simp [hrest x hx]
  have hquiet : Quiet sh ({ sh with
      sealedBuffers := done ++ { b with phase := .returned, synced := true } :: rest
      spareBuffers := sh.spareBuffers + 1
      writtenLsn := max sh.writtenLsn b.maxLsn
      durableLsn := max sh.durableLsn b.maxLsn } : Shard) :=
    ⟨rfl, by simp [hold, SealedBuffer.content], rfl⟩
  have hmem : b ∈ sh.sealedBuffers := by simp [hold]
  have hcontent : ∀ x ∈ done ++ ({ b with phase := .returned, synced := true } :: rest :
      List SealedBuffer), ∃ y ∈ sh.sealedBuffers, y.maxLsn = x.maxLsn ∧ y.slots = x.slots := by
    intro x hx
    rw [hold]
    simp only [mem_append, mem_cons] at hx ⊢
    rcases hx with hx | rfl | hx
    · exact ⟨x, .inl hx, rfl, rfl⟩
    · exact ⟨b, .inr (.inl rfl), rfl, rfl⟩
    · exact ⟨x, .inr (.inr hx), rfl, rfl⟩
  have hpieces : ({ sh with
      sealedBuffers := done ++ { b with phase := .returned, synced := true } :: rest
      spareBuffers := sh.spareBuffers + 1
      writtenLsn := max sh.writtenLsn b.maxLsn
      durableLsn := max sh.durableLsn b.maxLsn } : Shard).pieces = sh.pieces := by
    simp [Shard.pieces, Shard.log, hold, SealedBuffer.slots]
  refine ⟨⟨⟨h.wf.active, ?_⟩, hquiet.ordered h.ordered,
    ⟨?_, h.below.active, h.below.packed⟩, ?_, ?_, ?_, ?_⟩, hpieces, ?_⟩
  · intro x hx slot hslot
    obtain ⟨y, hy, -, hslots⟩ := hcontent x hx
    exact h.wf.sealed y hy slot (hslots ▸ hslot)
  · intro x hx
    obtain ⟨y, hy, hmax, -⟩ := hcontent x hx
    exact hmax ▸ h.below.sealed y hy
  · show max sh.durableLsn b.maxLsn < next
    have h₁ := h.durable
    have h₂ := h.below.sealed b hmem
    omega
  · rw [hpieces]
    exact h.pieces
  · rw [pairwise_append, pairwise_cons]
    refine ⟨hpair.1, ⟨?_, hpair.2.1.2⟩, ?_⟩
    · intro x hx hx'
      rfl
    · intro x hx y _ _
      exact hdone x hx
  · -- what is left lies behind the buffer
    intro piece hpiece
    show max sh.durableLsn b.maxLsn < piece.lsn
    have hin : piece ∈ rest.flatMap SealedBuffer.pieces ∨ piece ∈ sh.active.pieces := by
      have hleft : (done ++ ({ b with phase := .returned, synced := true } :: rest :
          List SealedBuffer)).filter (!·.synced) = rest.filter (!·.synced) := by
        rw [filter_append, filter_eq_nil_iff.mpr (by simpa using hdone)]
        simp
      have hpiece : piece ∈ (((done ++ ({ b with phase := .returned, synced := true } :: rest :
          List SealedBuffer)).filter (!·.synced)).flatMap SealedBuffer.slots ++
            sh.active.slots).flatMap slotPieces := hpiece
      rw [hleft, filter_eq_self.mpr (by simpa using hrest), flatMap_append, flatMap_assoc] at hpiece
      exact mem_append.mp hpiece
    have habove : sh.durableLsn < piece.lsn := by
      apply h.above
      rw [Shard.bufferedLog, flatMap_append, flatMap_assoc, mem_append]
      refine hin.imp_left fun hin => ?_
      obtain ⟨x, hx, hpx⟩ := mem_flatMap.mp hin
      refine mem_flatMap.mpr ⟨x, mem_filter.mpr ⟨?_, by simp [hrest x hx]⟩, hpx⟩
      simp [hold, hx]
    have hbehind : b.maxLsn < piece.lsn := by
      have hord := h.ordered.sealed
      rw [hold, pairwise_append, pairwise_cons] at hord
      rcases hin with hin | hin
      · obtain ⟨x, hx, hpx⟩ := mem_flatMap.mp hin
        exact hord.2.1.1 x hx piece hpx
      · exact h.ordered.active b hmem piece hin
    omega
  · refine ⟨b.slots, ?_⟩
    show ((done ++ _ :: rest).filter (·.synced)).flatMap SealedBuffer.slots = _
    rw [Shard.durableLog, hold]
    simp [filter_append, hb, hnone]
    rfl

/-- No data page of the log is taken for a meta page. -/
theorem LogInv.data_not_meta (h : LogInv ps first next sh) {slot : Slot}
    (hslot : slot ∈ sh.active.slots) : batchMetaCountUnchecked ps slot.data = none := by
  have hwf := h.wf.active.slots slot hslot
  have hpieces : ∀ piece ∈ slotPieces slot, ∃ n < 2 ^ 48, piece.start = leBytes 8 n := by
    intro piece hpiece
    refine (h.pieces piece ?_).start
    rw [pieces_eq]
    exact mem_append_right _ (mem_flatMap.mpr ⟨slot, hslot, hpiece⟩)
  -- a chunk or a packed page holds at least its first eight bytes
  have hlong : ∀ n, (slot.data.take slot.entry.len).take 8 = leBytes 8 n →
      slot.data.take 8 = leBytes 8 n := by
    intro n hn
    have hlen := congrArg List.length hn
    rw [length_leBytes, length_take, length_take] at hlen
    rw [take_take, Nat.min_eq_left (by omega)] at hn
    exact hn
  cases hkind : slot.entry.kind with
  | pageImage =>
    obtain ⟨n, hn, hstart⟩ := hpieces _ (by simp [slotPieces, hkind]; rfl)
    exact Wal.data_not_meta hn hstart
  | logical =>
    obtain ⟨n, hn, hstart⟩ := hpieces _ (by simp [slotPieces, hkind]; rfl)
    exact Wal.data_not_meta hn (hlong n hstart)
  | logicalPacked =>
    obtain ⟨rs, hne, hrs, hbytes⟩ := hwf.records hkind
    obtain ⟨r, rs, rfl⟩ := exists_cons_of_ne_nil hne
    have hmem : .packed r ∈ slotPieces slot := by
      simp only [slotPieces, hkind, hbytes, packedLogicalRecords_flatMap hrs]
      exact mem_cons_self
    obtain ⟨n, hn, hstart⟩ := hpieces _ hmem
    refine Wal.data_not_meta hn (hlong n ?_)
    rw [hbytes, ← hstart, flatMap_cons, encodePackedLogicalEntry]
    simp only [append_assoc]
    exact take_left' (by simp)

theorem LogInv.misreads_false (h : LogInv ps first next sh) (epoch offset : Nat) :
    sh.active.misreads ps epoch offset = false := by
  refine decide_eq_false fun ⟨_, hany⟩ => ?_
  cases hpage : sh.active.dataPages[(decodeRecordOffset offset).1]?.join with
  | none =>
    rw [hpage] at hany
    cases hany
  | some data =>
    rw [hpage] at hany
    obtain ⟨batch, hbatch, hmem⟩ :=
      mem_flatMap.mp (mem_of_getElem? (Option.join_eq_some_iff.mp hpage))
    obtain ⟨slot, hslot, heq⟩ := mem_map.mp ((mem_cons.mp hmem).resolve_left (by simp))
    have hnone := h.data_not_meta (mem_flatMap.mpr ⟨batch, hbatch, hslot⟩)
    rw [Option.some.inj heq] at hnone
    simp [hnone] at hany

end Preservation

/-! ## The payloads of page records -/

theorem imagePayload_pieces (ps : PageSize) (lsn pid : Nat) (page : Page ps) :
    (Payload.pageImage pid page.bytes).pieces ps lsn = [.image lsn pid page.bytes] := by
  simp [Payload.pieces, Payload.slots, imageSlot, slotPieces, BatchEntry.pageImage]

theorem pageRecord?_image (ps : PageSize) (lsn pid : Nat) (page : Page ps) :
    pageRecord? ps (.image lsn pid page.bytes) = some ⟨lsn, pid, .image page⟩ := by
  simp [pageRecord?, Page.ofBytes?, page.size]

theorem chunkCount_one {ps : PageSize} {len : Nat} (hpos : 0 < len) (hlen : len < ps.bytes) :
    chunkCount ps len = 1 := by
  unfold chunkCount logicalChunkMaxLen
  rw [Nat.div_eq_of_lt_le (by omega : 1 * ps.bytes ≤ _) (by omega)]
  rfl

/-- A patch is logged as one piece, packed or as a single chunk. -/
theorem patchPayload_pieces {ps : PageSize} {lsn : Nat} {payload : Bytes} (hlsn : lsn < u64Limit)
    (hne : payload ≠ []) (hlen : payload.length < ps.bytes) :
    ∃ piece, (Payload.logical logicalKindPagePatch payload).pieces ps lsn = [piece] ∧
      piece.lsn = lsn ∧
      pageRecord? ps piece = patchRecord? ps ⟨lsn, logicalKindPagePatch, payload⟩ ∧
      (piece.start = leBytes 8 lsn ∨ piece.start = payload.take 8) := by
  by_cases hpacked : isPacked ps ⟨lsn, logicalKindPagePatch, payload⟩ = true
  · have hkind : logicalKindPagePatch < 2 ^ 64 := by decide
    obtain ⟨henc, -⟩ := isPacked_encodable hlsn hkind hpacked
    refine ⟨.packed ⟨lsn, logicalKindPagePatch, payload⟩, ?_, rfl, rfl, .inl rfl⟩
    rw [Payload.pieces, Payload.slots, if_pos hpacked, flatMap_singleton]
    exact slotPieces_packedSlot ps henc
  refine ⟨.chunk lsn logicalKindPagePatch true true payload, ?_, rfl, by simp [pageRecord?],
    .inr rfl⟩
  have hpos : 0 < payload.length := length_pos_iff.mpr hne
  have hcount := chunkCount_one hpos hlen
  rw [Payload.pieces, Payload.slots, if_neg hpacked, flatMap_chunkSlots]
  have htake : payload.take (logicalChunkMaxLen ps) = payload :=
    take_of_length_le (by unfold logicalChunkMaxLen; omega)
  simp [hcount, chunkPiece, htake]

theorem patchPayload_record {ps : PageSize} {lsn pid : Nat} {ranges : List PatchRange}
    {payload : Bytes} (hlsn : lsn < u64Limit) (hpid : pid < u64Limit)
    (hpayload : encodePagePatchRangesPayload ps pid ranges = some payload) :
    (Payload.logical logicalKindPagePatch payload).Valid ps ∧
      ∃ piece, (Payload.logical logicalKindPagePatch payload).pieces ps lsn = [piece] ∧
        piece.lsn = lsn ∧ pageRecord? ps piece = some ⟨lsn, pid, .patch ranges⟩ ∧
        (piece.start = leBytes 8 lsn ∨ piece.start = leBytes 8 pid) := by
  obtain ⟨hlen, hstart, -⟩ := encodePagePatchRangesPayload_some hpayload
  have hdecode := decode_encodePagePatchRangesPayload hpid hpayload
  have hne : payload ≠ [] := by
    rintro rfl
    simp [leBytes] at hstart
  obtain ⟨piece, hpieces, hpieceLsn, hrecord, hpieceStart⟩ := patchPayload_pieces hlsn hne hlen
  rw [patchRecord?, if_pos rfl, hdecode] at hrecord
  rw [hstart] at hpieceStart
  have := PageSize.bytes_le ps
  exact ⟨⟨by decide, by decide, by unfold u64Limit; omega⟩, piece, hpieces, hpieceLsn, hrecord,
    hpieceStart⟩

/-- The payload of a patch fills one slot, if it does not join a packed page. -/
theorem patchPayload_slot {ps : PageSize} {pid : Nat} {ranges : List PatchRange} {payload : Bytes}
    (hpayload : encodePagePatchRangesPayload ps pid ranges = some payload) (lsn : Nat) :
    ∃ slot, (Payload.logical logicalKindPagePatch payload).slots ps lsn = [slot] := by
  obtain ⟨hlen, hstart, -⟩ := encodePagePatchRangesPayload_some hpayload
  have hpos : 0 < payload.length := by
    refine length_pos_iff.mpr ?_
    rintro rfl
    simp [leBytes] at hstart
  by_cases hpacked : isPacked ps ⟨lsn, logicalKindPagePatch, payload⟩ = true
  · exact ⟨_, if_pos hpacked⟩
  · refine ⟨chunkSlot ps ⟨lsn, logicalKindPagePatch, payload⟩ 1 0, ?_⟩
    simp [Payload.slots, hpacked, chunkSlots, chunkCount_one hpos hlen]

end Pagebox.Wal
