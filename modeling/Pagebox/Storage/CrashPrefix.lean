import Pagebox.Storage.PageRecovery
import Pagebox.Wal.FileBatches

/-!
# What a crash keeps of the page history

A crash keeps the log file up to the end of some batch.  If a record of LSN `L` is
kept, so is every mutation below `L`, or a later image of its page, as long as an
image is only overwritten in the batch that was begun last.  An overwrite in an
earlier batch brings a new LSN in front of records with smaller ones.
-/

namespace Pagebox.Storage.LoggedPages

open Pagebox.Base Pagebox.Wal List Option

variable {cfg : Config}

structure Mutation where
  lsn : Nat
  pid : Nat
  deriving DecidableEq

structure Traced (cfg : Config) where
  state : State cfg
  mutations : List Mutation

def mutation? (s : State cfg) : Action cfg → Option Mutation
  | .markDirty pid _ => some ⟨s.nextLsn, pid⟩
  | .markDirtyRanges pid _ _ => some ⟨s.nextLsn, pid⟩
  | _ => none

def tracedStep (t : Traced cfg) (a : Action cfg) : Option (Traced cfg) :=
  (step t.state a).map fun s => ⟨s, (mutation? t.state a).toList ++ t.mutations⟩

/-- The log has the record of the mutation, or a later image of its page. -/
def Mutation.In (ps : PageSize) (m : Mutation) (pieces : List Piece) : Prop :=
  ∃ piece ∈ pieces, ∃ r, pageRecord? ps piece = some r ∧ r.pid = m.pid ∧
    (r.lsn = m.lsn ∨ (m.lsn < r.lsn ∧ ∃ page, r.change = .image page))

namespace Traced

/-- The last mutation of its page below an LSN. -/
def LatestBelow (t : Traced cfg) (m : Mutation) (lsn : Nat) : Prop :=
  m.lsn < lsn ∧ ∀ m' ∈ t.mutations, m'.pid = m.pid → m'.lsn < lsn → m'.lsn ≤ m.lsn

/-- With a record every crash keeps, for each page, its last mutation below the LSN of
the record, or a later image of the page. -/
def PrefixKept (t : Traced cfg) : Prop :=
  ∀ kept, kept <+: t.state.shard.fileBatches → ∀ piece ∈ batchPieces kept,
    ∀ m ∈ t.mutations, t.LatestBelow m piece.lsn → m.In cfg.pageSize (batchPieces kept)

end Traced

/-! ## Where an image is overwritten -/

/-- An image of the page that is still in the active buffer is in its last batch. -/
def State.ImageInLastBatch (s : State cfg) (pid : Nat) : Prop :=
  ∀ fr, s.frames pid = some fr → fr.core.dirty = true →
    fr.core.walRecord.epoch = s.shard.active.epoch → fr.core.walRecord.offset ≠ 0 →
      (decodeRecordOffset fr.core.walRecord.offset).1 = s.shard.active.lastMetaPage

/-- A full image of a page is logged only when the image it overwrites, if there is one,
lies in the last batch. -/
def OverwritesLast (t : Traced cfg) : Action cfg → Prop
  | .markDirty pid _ => t.state.ImageInLastBatch pid
  | .markDirtyRanges pid page m =>
    t.state.logsPatch pid page m = false → t.state.ImageInLastBatch pid
  | _ => True

section Overwrites

variable {s s' : State cfg} {pid : Nat}

/-- The image is written into the last batch or behind it. -/
theorem ImageLogged.lastOnly {fr : Frame cfg.pageSize} {page : Page cfg.pageSize} {shard : Shard}
    (h : ImageLogged s fr.core pid page shard) (hwf : ShardWf cfg.pageSize s.shard)
    (hfr : s.frames pid = some fr) (hlast : s.ImageInLastBatch pid) :
    LastOnly s.shard.fileBatches shard.fileBatches := by
  rcases h with ⟨active, hdirty, hoffset, hover, rfl⟩ | happ
  · have hepoch : fr.core.walRecord.epoch = s.shard.active.epoch := by
      by_contra hne
      rw [WalBuffer.overwritePageImage, if_pos (Ne.symm hne)] at hover
      cases hover
    exact lastOnly_overwrite (hlast fr hfr hdirty hepoch hoffset) hover
  · exact lastOnly_beginAppend hwf rfl happ

end Overwrites

structure PrefixInv (first : Nat) (t : Traced cfg) : Prop where
  log : LogInv cfg.pageSize first t.state.nextLsn t.state.shard
  started : first ≤ t.state.nextLsn
  below : ∀ m ∈ t.mutations, m.lsn < t.state.nextLsn
  all : ∀ m ∈ t.mutations, m.In cfg.pageSize t.state.shard.pieces
  cut : ∀ kept, kept <+: t.state.shard.fileBatches → ∀ piece ∈ batchPieces kept,
    ∀ m ∈ t.mutations, m.lsn < piece.lsn → m.In cfg.pageSize (batchPieces kept)

section Preservation

variable {first pid : Nat} {t : Traced cfg} {s' : State cfg}

theorem PrefixInv.prefixKept (h : PrefixInv first t) : t.PrefixKept :=
  fun kept hkept piece hpiece m hm hlatest => h.cut kept hkept piece hpiece m hm hlatest.1

theorem PrefixInv.logged (h : PrefixInv first t) (hnext : s'.nextLsn = t.state.nextLsn + 1)
    (hlog : LogInv cfg.pageSize first (t.state.nextLsn + 1) s'.shard)
    (hlast : LastOnly t.state.shard.fileBatches s'.shard.fileBatches)
    (hold : ∀ m : Mutation, m.lsn < t.state.nextLsn → m.In cfg.pageSize t.state.shard.pieces →
      m.In cfg.pageSize s'.shard.pieces)
    (hnew : Mutation.In cfg.pageSize ⟨t.state.nextLsn, pid⟩ s'.shard.pieces) :
    PrefixInv first ⟨s', ⟨t.state.nextLsn, pid⟩ :: t.mutations⟩ := by
  have hall : ∀ m ∈ (⟨t.state.nextLsn, pid⟩ : Mutation) :: t.mutations,
      m.In cfg.pageSize s'.shard.pieces := by
    intro m hm
    rcases mem_cons.mp hm with rfl | hmem
    · exact hnew
    · exact hold m (h.below m hmem) (h.all m hmem)
  have hstarted := h.started
  refine ⟨hnext ▸ hlog, ?_, ?_, hall, ?_⟩
  · show first ≤ s'.nextLsn
    omega
  · intro m hm
    show m.lsn < s'.nextLsn
    rcases mem_cons.mp hm with rfl | hmem
    · rw [hnext]
      exact Nat.lt_succ_self _
    · have := h.below m hmem
      omega
  intro kept hkept piece hpiece m hm hlt
  rcases hlast.cut hkept with hpre | rfl
  · -- the new mutation has the largest LSN
    have hin := (batchPieces_mono hpre).subset hpiece
    rw [batchPieces_fileBatches] at hin
    have hbound := (h.log.pieces piece hin).next
    rcases mem_cons.mp hm with rfl | hmem
    · have : t.state.nextLsn < piece.lsn := hlt
      omega
    · exact h.cut kept hpre piece hpiece m hmem hlt
  · rw [batchPieces_fileBatches]
    exact hall m hm

theorem PrefixInv.quiet (h : PrefixInv first t) (hnext : s'.nextLsn = t.state.nextLsn)
    (hlog : LogInv cfg.pageSize first t.state.nextLsn s'.shard)
    (hbatches : s'.shard.fileBatches = t.state.shard.fileBatches) :
    PrefixInv first ⟨s', t.mutations⟩ := by
  have hpieces : s'.shard.pieces = t.state.shard.pieces := by
    rw [← batchPieces_fileBatches, hbatches, batchPieces_fileBatches]
  refine ⟨?_, ?_, ?_, ?_, ?_⟩
  · rw [hnext]
    exact hlog
  · rw [hnext]
    exact h.started
  · rw [hnext]
    exact h.below
  · rw [hpieces]
    exact h.all
  · rw [hbatches]
    exact h.cut

theorem Mutation.In.append {ps : PageSize} {m : Mutation} {pieces more : List Piece}
    (h : m.In ps pieces) : m.In ps (pieces ++ more) := by
  obtain ⟨piece, hpiece, hr⟩ := h
  exact ⟨piece, mem_append_left _ hpiece, hr⟩

theorem PrefixInv.image (h : PrefixInv first t) (hlimit : t.state.nextLsn < numberLimit)
    (hpid : pid < numberLimit) (new : Page cfg.pageSize) {shard : Shard} {core : FrameCore}
    {old : FrameCore} (himage : ImageLogged t.state old pid (new.writeLsn t.state.nextLsn) shard)
    (hlast : LastOnly t.state.shard.fileBatches shard.fileBatches) :
    PrefixInv first ⟨t.state.logged pid core (new.writeLsn t.state.nextLsn) shard,
      ⟨t.state.nextLsn, pid⟩ :: t.mutations⟩ := by
  have hnext : t.state.nextLsn < 2 ^ 48 := hlimit
  have hstart := Page.take_writeLsn new t.state.nextLsn
  generalize new.writeLsn t.state.nextLsn = page at himage hstart
  have hrecord := pageRecord?_image cfg.pageSize t.state.nextLsn pid page
  rcases himage with ⟨active, -, -, hover, rfl⟩ | happ
  · obtain ⟨hlog, -, before, behind, oldLsn, old, hpieces, hpieces'⟩ :=
      h.log.overwrite h.started hnext hstart hover
    have hnew : Piece.image t.state.nextLsn pid page.bytes ∈
        (({ t.state.shard with active } : Shard).publishAppended t.state.nextLsn).pieces := by
      rw [hpieces']
      simp
    refine h.logged (nextLsn_logged hlimit) hlog hlast ?_ ⟨_, hnew, _, hrecord, rfl, .inl rfl⟩
    rintro m hlt ⟨piece, hpiece, r, hr, hrpid, hrlsn⟩
    rw [hpieces] at hpiece
    -- the overwritten image is replaced by a later one of the same page
    by_cases hsame : piece = .image oldLsn pid old
    · subst hsame
      obtain ⟨oldPage, -, rfl⟩ := map_eq_some_iff.mp hr
      exact ⟨_, hnew, _, hrecord, hrpid, .inr ⟨hlt, page, rfl⟩⟩
    refine ⟨piece, ?_, r, hr, hrpid, hrlsn⟩
    show piece ∈ (({ t.state.shard with active } : Shard).publishAppended
      t.state.nextLsn).pieces
    rw [hpieces']
    simp only [mem_append, mem_cons] at hpiece ⊢
    tauto
  have hvalid : (Payload.pageImage pid page.bytes).Valid cfg.pageSize :=
    ⟨hpid.trans (by decide), page.size⟩
  have hok : PieceOk cfg.pageSize first (t.state.nextLsn + 1)
      (.image t.state.nextLsn pid page.bytes) :=
    ⟨by rw [hrecord]; rfl, h.started, Nat.lt_succ_self _, t.state.nextLsn, hnext, hstart⟩
  obtain ⟨hlog, hpieces, -⟩ := h.log.append hnext hvalid
    (imagePayload_pieces cfg.pageSize t.state.nextLsn pid page) hok rfl happ
  refine h.logged (nextLsn_logged hlimit) hlog hlast ?_ ?_
  · intro m _ hm
    show m.In cfg.pageSize (shard.publishAppended t.state.nextLsn).pieces
    rw [hpieces]
    exact hm.append
  · show Mutation.In cfg.pageSize _ (shard.publishAppended t.state.nextLsn).pieces
    rw [hpieces]
    exact ⟨_, mem_append_right _ (mem_singleton.mpr rfl), _, hrecord, rfl, .inl rfl⟩

theorem PrefixInv.patch (h : PrefixInv first t) (hlimit : t.state.nextLsn < numberLimit)
    (hpid : pid < numberLimit) {ranges : List PatchRange} {payload : Bytes} {shard : Shard}
    {core : FrameCore} {page : Page cfg.pageSize}
    (hpayload : encodePagePatchRangesPayload cfg.pageSize pid ranges = some payload)
    (happ : t.state.shard.beginAppend cfg t.state.nextLsn (.logical logicalKindPagePatch payload) =
      some (shard, [])) :
    PrefixInv first ⟨t.state.logged pid core page shard,
      ⟨t.state.nextLsn, pid⟩ :: t.mutations⟩ := by
  obtain ⟨hvalid, piece, hpieces₁, hpieceLsn, hrecord, hok⟩ :=
    patchPayload_logged h.started hlimit hpid hpayload
  obtain ⟨slot, hslot⟩ := patchPayload_slot hpayload t.state.nextLsn
  obtain ⟨hlog, hpieces, -⟩ := h.log.append hlimit hvalid hpieces₁ hok hpieceLsn happ
  have hlast : LastOnly t.state.shard.fileBatches shard.fileBatches :=
    lastOnly_beginAppend h.log.wf hslot happ
  refine h.logged (nextLsn_logged hlimit) hlog hlast ?_ ?_
  · intro m _ hm
    show m.In cfg.pageSize (shard.publishAppended t.state.nextLsn).pieces
    rw [hpieces]
    exact hm.append
  · show Mutation.In cfg.pageSize _ (shard.publishAppended t.state.nextLsn).pieces
    rw [hpieces]
    exact ⟨_, mem_append_right _ (mem_singleton.mpr rfl), _, hrecord, rfl, .inl rfl⟩

/-- The steps of the pool that do not log anything. -/
theorem shard_kept {s : State cfg} {a : Action cfg} (hquiet : mutation? s a = none)
    (hpool : a ≠ .sealActive ∧ a ≠ .writeAndSync) (h : LoggedPages.step s a = some s') :
    s'.shard = s.shard ∧ s'.nextLsn = s.nextLsn := by
  cases a with
  | create pid =>
    simp only [LoggedPages.step, State.create] at h
    split at h
    · cases h
      exact ⟨rfl, rfl⟩
    · cases h
  | markDirty pid page => cases hquiet
  | markDirtyRanges pid page m => cases hquiet
  | clean pid =>
    obtain ⟨fr, -, h⟩ := bind_eq_some_iff.mp h
    split at h
    · cases h
      exact ⟨rfl, rfl⟩
    · cases h
  | flush =>
    simp only [LoggedPages.step, State.flush] at h
    split at h
    · split at h
      · cases h
        exact ⟨rfl, rfl⟩
      · cases h
        exact ⟨rfl, rfl⟩
    · cases h
  | evict pid =>
    obtain ⟨fr, -, h⟩ := bind_eq_some_iff.mp h
    split at h
    · cases h
      exact ⟨rfl, rfl⟩
    · cases h
  | fault pid core =>
    simp only [LoggedPages.step, State.fault] at h
    split at h
    · obtain ⟨page, -, h⟩ := bind_eq_some_iff.mp h
      cases h
      exact ⟨rfl, rfl⟩
    · cases h
  | sealActive => exact absurd rfl hpool.1
  | writeAndSync => exact absurd rfl hpool.2

theorem PrefixInv.step {t' : Traced cfg} {a : Action cfg} (h : PrefixInv first t)
    (hok : Bounded t.state a ∧ OverwritesLast t a) (hstep : tracedStep t a = some t') :
    PrefixInv first t' := by
  obtain ⟨s', hs, rfl⟩ := map_eq_some_iff.mp hstep
  have hkeep : mutation? t.state a = none → a ≠ .sealActive ∧ a ≠ .writeAndSync →
      PrefixInv first ⟨s', t.mutations⟩ := by
    intro hquiet hpool
    obtain ⟨hshard, hnext⟩ := shard_kept hquiet hpool hs
    exact h.quiet hnext (hshard ▸ h.log) (by rw [hshard])
  cases a with
  | markDirty pid page =>
    obtain ⟨⟨hlimit, hpid⟩, hinLast⟩ := hok
    obtain ⟨fr, hfr, hfull⟩ := bind_eq_some_iff.mp hs
    obtain ⟨record, shard, himage, rfl⟩ := appendFullPageImage_cases hfull
    exact h.image hlimit hpid page himage (himage.lastOnly h.log.wf hfr hinLast)
  | markDirtyRanges pid page m =>
    obtain ⟨⟨hlimit, hpid⟩, hinLast⟩ := hok
    obtain ⟨fr, hfr, hpaths⟩ := markDirtyRanges_paths hs
    rcases hpaths with ⟨hnot, hfull⟩ | ⟨payload, shard, -, -, hpayload, happ, rfl⟩
    · obtain ⟨record, shard, himage, rfl⟩ := appendFullPageImage_cases hfull
      exact h.image hlimit hpid page himage (himage.lastOnly h.log.wf hfr (hinLast hnot))
    · exact h.patch hlimit hpid hpayload happ
  | sealActive =>
    obtain ⟨shard, hseal, rfl⟩ := map_eq_some_iff.mp hs
    exact h.quiet rfl (h.log.sealActive hseal).1 (fileBatches_sealActive hseal)
  | writeAndSync =>
    obtain ⟨shard, hsync, rfl⟩ := map_eq_some_iff.mp hs
    exact h.quiet rfl (h.log.writeAndSync hsync).1 (fileBatches_writeAndSync hsync)
  | create pid => exact hkeep rfl ⟨by simp, by simp⟩
  | clean pid => exact hkeep rfl ⟨by simp, by simp⟩
  | flush => exact hkeep rfl ⟨by simp, by simp⟩
  | evict pid => exact hkeep rfl ⟨by simp, by simp⟩
  | fault pid core => exact hkeep rfl ⟨by simp, by simp⟩

end Preservation

theorem PrefixInv.opened (cfg : Config) (initial : Nat → Option (Page cfg.pageSize))
    {durableLsn nextLsn : Nat} (hdurable : durableLsn < nextLsn) :
    PrefixInv nextLsn ⟨opened cfg initial durableLsn nextLsn, []⟩ where
  log := .new cfg nextLsn hdurable
  started := le_rfl
  below := by simp
  all := by simp
  cut := by simp

/-- When images are only overwritten in the last batch, and LSNs and page ids stay below
the limit, every crash keeps, with a record of LSN `L`, the last mutation below `L` of
every page or a later image of it. -/
theorem crash_keeps_prefix (cfg : Config) {initial : Nat → Option (Page cfg.pageSize)}
    {durableLsn nextLsn : Nat} (hdurable : durableLsn < nextLsn) {t : Traced cfg}
    (hreach : Reach tracedStep (fun t a => Bounded t.state a ∧ OverwritesLast t a)
      ⟨opened cfg initial durableLsn nextLsn, []⟩ t) : t.PrefixKept := by
  have hinv : PrefixInv nextLsn t :=
    hreach.invariant (I := PrefixInv nextLsn) (.opened cfg initial hdurable)
      fun _ _ _ h hok hstep => h.step hok hstep
  exact hinv.prefixKept

section Example

/-- Whether the page has no image in the active buffer, or has it in the last batch. -/
def imageInLastBatch (s : State cfg) (pid : Nat) : Bool :=
  (s.frames pid).all fun fr =>
    !fr.core.dirty || fr.core.walRecord.epoch ≠ s.shard.active.epoch ||
      fr.core.walRecord.offset = 0 ||
      (decodeRecordOffset fr.core.walRecord.offset).1 = s.shard.active.lastMetaPage

theorem imageInLastBatch_spec {s : State cfg} {pid : Nat} (h : imageInLastBatch s pid = true) :
    s.ImageInLastBatch pid := by
  intro fr hfr hdirty hepoch hoffset
  simp only [imageInLastBatch, hfr, all_some, hdirty, hepoch] at h
  simpa [hoffset] using h

def overwritesLast (t : Traced cfg) (a : Action cfg) : Bool :=
  plainStep t.state a && match a with
    | .markDirty pid _ => imageInLastBatch t.state pid
    | _ => true

theorem overwritesLast_spec {t : Traced cfg} {a : Action cfg} (h : overwritesLast t a = true) :
    Bounded t.state a ∧ OverwritesLast t a := by
  obtain ⟨hplain, hlast⟩ := Bool.and_eq_true_iff.mp h
  refine ⟨(plainStep_spec hplain).1, ?_⟩
  cases a with
  | markDirty pid page => exact imageInLastBatch_spec hlast
  | markDirtyRanges pid page m => cases hplain
  | _ => trivial

/-- Two pages, the second one logged twice before the buffer is written. -/
def overwriteInPlace : List (Action smallConfig) :=
  [.create 1, .create 2, .markDirty 1 (.zero .k4), .markDirty 2 (.zero .k4),
    .markDirty 2 (.zero .k4), .sealActive]

theorem crash_keeps_prefix_overwritten : ∃ t : Traced smallConfig,
      Reach tracedStep (fun t a => Bounded t.state a ∧ OverwritesLast t a)
        ⟨opened smallConfig (fun _ => none) 0 1, []⟩ t ∧
      t.mutations.length = 3 ∧ t.state.shard.pieces.map Piece.lsn = [1, 3] ∧ t.PrefixKept := by
  have hrun : ((exec (guarded overwritesLast tracedStep)
      ⟨opened smallConfig (fun _ => none) 0 1, []⟩ overwriteInPlace).map fun t =>
        (t.mutations.length, t.state.shard.pieces.map Piece.lsn)) = some (3, [1, 3]) := by
    decide +kernel
  obtain ⟨t, hexec, ht⟩ := map_eq_some_iff.mp hrun
  have hreach := Reach.of_exec hexec fun _ _ => overwritesLast_spec
  obtain ⟨hlength, hlsns⟩ := Prod.mk.inj ht
  exact ⟨t, hreach, hlength, hlsns, crash_keeps_prefix smallConfig (by decide) hreach⟩

def twoBatches : Config := ⟨.k4, 200, .fdatasync⟩

/-- One page more than a batch has records; then page 2, whose image is in the first
batch, is logged again and the buffer is written. -/
def overwriteAcross : List (Action twoBatches) :=
  (List.range 146).map (fun i => .create (i + 1)) ++
    (List.range 146).map (fun i => .markDirty (i + 1) (.zero .k4)) ++
    [.markDirty 2 (.zero .k4), .sealActive]

def Traced.entries (t : Traced cfg) : List (List (RecordKind × Nat × Nat)) :=
  t.state.shard.fileBatches.map
    (·.map fun slot => (slot.entry.kind, slot.entry.lsn, slot.entry.arg))

theorem overwriteAcross_run :
    ∃ t, exec tracedStep ⟨opened twoBatches (fun _ => none) 0 1, []⟩ overwriteAcross = some t ∧
      t.state.shard.active.batches = [] ∧ ⟨146, 146⟩ ∈ t.mutations ∧
      t.entries = [(List.range 145).map fun i => (.pageImage, if i = 1 then 147 else i + 1, i + 1),
        [(.pageImage, 146, 146)]] := by
  have hrun : ((exec tracedStep ⟨opened twoBatches (fun _ => none) 0 1, []⟩ overwriteAcross).map
      fun t => (t.state.shard.active.batches.isEmpty && t.mutations.contains ⟨146, 146⟩,
        t.entries)) =
      some (true, [(List.range 145).map fun i => (.pageImage, if i = 1 then 147 else i + 1, i + 1),
        [(.pageImage, 146, 146)]]) := by
    decide +kernel
  obtain ⟨t, hexec, ht⟩ := map_eq_some_iff.mp hrun
  obtain ⟨htests, hentries⟩ := Prod.mk.inj ht
  obtain ⟨hactive, hlast⟩ := Bool.and_eq_true_iff.mp htests
  exact ⟨t, hexec, List.isEmpty_iff.mp hactive, contains_iff_mem.mp hlast, hentries⟩

/-- A crash that keeps the first batch keeps the image of page 2 at LSN 147 and loses the
only record of page 146, at LSN 146. -/
theorem overwrite_across_batches_loses_record : ∃ t : Traced twoBatches,
      Reach tracedStep anyStep ⟨opened twoBatches (fun _ => none) 0 1, []⟩ t ∧
        t.state.shard.active.batches = [] ∧ ¬t.PrefixKept := by
  obtain ⟨t, hexec, hactive, hlast, hentries⟩ := overwriteAcross_run
  refine ⟨t, .of_exec_any hexec, hactive, fun hkept => ?_⟩
  obtain ⟨first, rest, hfile, hfirst, -⟩ := map_eq_cons_iff.mp hentries
  have hentry : ∀ slot ∈ first, ∃ i < 145, slotPieces slot =
      [.image (if i = 1 then 147 else i + 1) (i + 1) slot.data] := by
    intro slot hslot
    have hmem : (slot.entry.kind, slot.entry.lsn, slot.entry.arg) ∈ first.map fun slot =>
        (slot.entry.kind, slot.entry.lsn, slot.entry.arg) := mem_map.mpr ⟨slot, hslot, rfl⟩
    rw [hfirst] at hmem
    obtain ⟨i, hi, heq⟩ := mem_map.mp hmem
    obtain ⟨hkind, heq⟩ := Prod.mk.inj heq
    obtain ⟨hlsn, harg⟩ := Prod.mk.inj heq
    refine ⟨i, mem_range.mp hi, ?_⟩
    simp [slotPieces, ← hkind, ← hlsn, ← harg]
  have hpieces : batchPieces [first] = first.flatMap slotPieces := by simp [batchPieces]
  -- the overwritten image is in the first batch
  have hover : (RecordKind.pageImage, 147, 2) ∈ first.map fun slot : Slot =>
      (slot.entry.kind, slot.entry.lsn, slot.entry.arg) := by
    rw [hfirst]
    exact mem_map.mpr ⟨1, by decide, rfl⟩
  obtain ⟨slot, hslot, heq⟩ := mem_map.mp hover
  obtain ⟨hkind, heq⟩ := Prod.mk.inj heq
  obtain ⟨hlsn, harg⟩ := Prod.mk.inj heq
  have himage : Piece.image 147 2 slot.data ∈ batchPieces [first] := by
    rw [hpieces]
    refine mem_flatMap.mpr ⟨slot, hslot, ?_⟩
    simp [slotPieces, hkind, hlsn, harg]
  have hlatest : t.LatestBelow ⟨146, 146⟩ 147 := by
    refine ⟨by decide, fun m _ _ hlt => ?_⟩
    show m.lsn ≤ 146
    omega
  obtain ⟨piece, hpiece, r, hr, hpid, -⟩ := hkept [first] (hfile ▸ ⟨rest, rfl⟩)
    (.image 147 2 slot.data) himage ⟨146, 146⟩ hlast hlatest
  rw [hpieces] at hpiece
  obtain ⟨other, hother, hpiece⟩ := mem_flatMap.mp hpiece
  obtain ⟨i, hi, hslots⟩ := hentry other hother
  rw [hslots, mem_singleton] at hpiece
  subst hpiece
  obtain ⟨page, -, rfl⟩ := map_eq_some_iff.mp hr
  have : i + 1 = 146 := hpid
  omega

end Example

end Pagebox.Storage.LoggedPages
