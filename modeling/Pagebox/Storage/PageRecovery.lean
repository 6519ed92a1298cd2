import Pagebox.Storage.LoggedPages

/-!
# Page recovery is exact

After any run of logged mutations, cleaning, flushes and evictions, and a crash
that keeps the synced log and some version of each page since its last sync,
`recover_pages` brings every page to its bytes after its last durable record.

The records of a page form a chain from the page at the start of the run to its
latest version.  A page that has a frame holds the latest version in the frame, a
page without a dirty frame in the store; and whatever version is in the store was
made by durable records.
-/

namespace Pagebox.Storage.LoggedPages

open Pagebox.Base Pagebox.Wal Function List Option

variable {cfg : Config}

/-! ## The records of a page -/

def pieceRecords (ps : PageSize) (pid : Nat) (pieces : List Piece) : List (PageRecord ps) :=
  recordsOf pid (pieces.filterMap (pageRecord? ps))

section Records

variable {ps : PageSize} {pid : Nat} {pieces : List Piece}

theorem pieceRecords_append (ps : PageSize) (pid : Nat) (xs ys : List Piece) :
    pieceRecords ps pid (xs ++ ys) = pieceRecords ps pid xs ++ pieceRecords ps pid ys := by
  simp [pieceRecords, recordsOf]

theorem pieceRecords_cons {piece : Piece} {r : PageRecord ps} (h : pageRecord? ps piece = some r)
    (pieces : List Piece) :
    pieceRecords ps pid (piece :: pieces) =
      if r.pid = pid then r :: pieceRecords ps pid pieces else pieceRecords ps pid pieces := by
  rw [pieceRecords, filterMap_cons_some h, recordsOf, filter_cons]
  simp only [decide_eq_true_eq]
  rfl

theorem exists_piece {r : PageRecord ps} (h : r ∈ pieceRecords ps pid pieces) :
    ∃ piece ∈ pieces, pageRecord? ps piece = some r := by
  obtain ⟨hmem, -⟩ := mem_filter.mp h
  exact mem_filterMap.mp hmem

end Records

namespace State

def records (s : State cfg) (pid : Nat) : List (PageRecord cfg.pageSize) :=
  pieceRecords cfg.pageSize pid s.shard.pieces

def durableRecords (s : State cfg) (pid : Nat) : List (PageRecord cfg.pageSize) :=
  pieceRecords cfg.pageSize pid (s.shard.durableLog.flatMap slotPieces)

end State

/-- A version of a page in the store: made by durable records, or zeros where a
new page was allocated. -/
def OnDisk {ps : PageSize} (after : Nat → Option (Page ps)) (base : Option (Page ps))
    (rs : List (PageRecord ps)) (v : Option (Page ps)) : Prop :=
  (∃ pre post, rs = pre ++ post ∧ Chain after base pre v) ∨
    (base = none ∧ ∀ p, v = some p → p.lsn = 0)

structure PageInv (s : State cfg) (pid : Nat) (latest : Option (Page cfg.pageSize)) : Prop where
  chain : Chain s.after (s.initial pid) (s.records pid) latest
  frame : ∀ fr, s.frames pid = some fr → fr.core.pageLsn = fr.page.lsn ∧
    (latest = some fr.page ∨ (latest = none ∧ fr.page.lsn = 0 ∧
      fr.core.hasPageImageBase = false ∧ fr.core.dirty = false))
  stored : s.isDirty pid = false → s.stored pid = latest ∨
    (latest = none ∧ ∀ p, s.stored pid = some p → p.lsn = 0)
  survivors : ∀ v ∈ s.survivors pid, OnDisk s.after (s.initial pid) (s.durableRecords pid) v
  synced : s.initial pid ≠ none → s.synced pid ≠ none

structure Inv (first : Nat) (s : State cfg) : Prop where
  log : LogInv cfg.pageSize first s.nextLsn s.shard
  started : first ≤ s.nextLsn
  initial : ∀ pid p, s.initial pid = some p → p.lsn < first
  carries : CarriesLsn s.after
  fresh : ∀ lsn, s.nextLsn ≤ lsn → s.after lsn = none
  pages : ∀ pid, ∃ latest, PageInv s pid latest

section OnDisk

variable {ps : PageSize} {after after' : Nat → Option (Page ps)} {base v fin : Option (Page ps)}
  {rs more : List (PageRecord ps)}

theorem OnDisk.mono (hsub : ∀ lsn p, after lsn = some p → after' lsn = some p)
    (h : OnDisk after base rs v) : OnDisk after' base rs v := by
  rcases h with ⟨pre, post, hrs, hchain⟩ | h
  · exact .inl ⟨pre, post, hrs, hchain.mono hsub⟩
  · exact .inr h

theorem OnDisk.extend (h : OnDisk after base rs v) (more : List (PageRecord ps)) :
    OnDisk after base (rs ++ more) v := by
  rcases h with ⟨pre, post, rfl, hchain⟩ | h
  · exact .inl ⟨pre, post ++ more, by simp, hchain⟩
  · exact .inr h

theorem OnDisk.of_chain (h : Chain after base rs v) : OnDisk after base rs v :=
  .inl ⟨rs, [], by simp, h⟩

/-- Recovery from a version in the store reaches the end of the chain. -/
theorem OnDisk.ready (hlsn : CarriesLsn after) (h : OnDisk after base rs v)
    (hchain : Chain after base rs fin) : Ready after v rs fin := by
  rcases h with ⟨pre, post, rfl, hpre⟩ | ⟨rfl, hzero⟩
  · obtain ⟨mid, hmid, hpost⟩ := hchain.split
    obtain rfl : mid = v := hmid.unique hpre
    cases mid with
    | none =>
      obtain ⟨rfl, -⟩ := hpre.nil_of_none hlsn
      exact .inl hpost
    | some p => exact .inl (hpre.absorb hlsn hpost)
  · exact .inr ⟨hchain, hzero⟩

end OnDisk

section Facts

variable {first pid : Nat} {s : State cfg} {latest : Option (Page cfg.pageSize)}

theorem Inv.latest_lt (h : Inv first s) (hpage : PageInv s pid latest) :
    ∀ p, latest = some p → p.lsn < s.nextLsn := by
  intro p hp
  rcases hpage.chain.end_cases with hend | ⟨r, -, q, hq, hafter⟩
  · exact (h.initial pid p (hend ▸ hp)).trans_le h.started
  rw [hp] at hq
  cases hq
  rw [h.carries _ _ hafter]
  by_contra hle
  rw [h.fresh _ (Nat.not_lt.mp hle)] at hafter
  cases hafter

theorem Inv.record_lsn (h : Inv first s) {r : PageRecord cfg.pageSize} (hr : r ∈ s.records pid) :
    first ≤ r.lsn ∧ r.lsn < s.nextLsn := by
  obtain ⟨piece, hpiece, hrecord⟩ := exists_piece hr
  have hok := h.log.pieces piece hpiece
  rw [pageRecord?_lsn hrecord]
  exact ⟨hok.first, hok.next⟩

theorem Inv.records_split (h : Inv first s) (pid : Nat) : s.records pid = s.durableRecords pid ++
      pieceRecords cfg.pageSize pid (s.shard.bufferedLog.flatMap slotPieces) := by
  rw [State.records, pieces_split h.log.synced, pieceRecords_append]
  rfl

/-- A version whose LSN is durable contains no record that is still buffered. -/
theorem Inv.records_durable (h : Inv first s) {p : Page cfg.pageSize}
    (hpage : PageInv s pid (some p)) (hle : p.lsn ≤ s.shard.durableLsn) :
    s.records pid = s.durableRecords pid := by
  have hnone : pieceRecords cfg.pageSize pid (s.shard.bufferedLog.flatMap slotPieces) = [] := by
    rw [eq_nil_iff_forall_not_mem]
    intro r hr
    obtain ⟨piece, hpiece, hrecord⟩ := exists_piece hr
    have habove := h.log.above piece hpiece
    have hmem : r ∈ s.records pid := by
      rw [h.records_split]
      exact mem_append_right _ hr
    obtain ⟨q, hq, hrq⟩ := hpage.chain.record_le h.carries r hmem
    cases hq
    rw [pageRecord?_lsn hrecord] at hrq
    omega
  rw [h.records_split, hnone, append_nil]

/-- What a dirty frame with a durable LSN holds was made by durable records. -/
theorem Inv.onDisk_of_dirty (h : Inv first s) (hpage : PageInv s pid latest)
    {fr : Frame cfg.pageSize} (hfr : s.frames pid = some fr) (hdirty : fr.core.dirty = true)
    (hle : fr.core.pageLsn ≤ s.shard.durableLsn) :
    latest = some fr.page ∧
      OnDisk s.after (s.initial pid) (s.durableRecords pid) (some fr.page) := by
  obtain ⟨hlsn, hlatest⟩ := hpage.frame fr hfr
  rcases hlatest with rfl | ⟨-, -, -, hclean⟩
  · refine ⟨rfl, ?_⟩
    rw [← h.records_durable hpage (hlsn ▸ hle)]
    exact .of_chain hpage.chain
  · rw [hdirty] at hclean
    cases hclean

end Facts

/-! ## Steps that log a mutation -/

section Logged

variable {first pid : Nat} {s : State cfg} {core : FrameCore} {page : Page cfg.pageSize}
  {shard : Shard}

theorem after_update (h : Inv first s) (page : Page cfg.pageSize) : ∀ lsn p, s.after lsn = some p →
      update s.after s.nextLsn (some page) lsn = some p := by
  intro lsn p hp
  have hne : lsn ≠ s.nextLsn := by
    rintro rfl
    rw [h.fresh _ le_rfl] at hp
    cases hp
  rw [update_of_ne hne]
  exact hp

theorem carries_update (h : Inv first s) (hpage : page.lsn = s.nextLsn) :
    CarriesLsn (update s.after s.nextLsn (some page)) := by
  intro lsn p hp
  by_cases hlsn : lsn = s.nextLsn
  · subst hlsn
    rw [update_self] at hp
    cases hp
    exact hpage
  · rw [update_of_ne hlsn] at hp
    exact h.carries lsn p hp

theorem nextLsn_logged (hlimit : s.nextLsn < numberLimit) :
    (s.logged pid core page shard).nextLsn = s.nextLsn + 1 :=
  Nat.mod_eq_of_lt (by unfold numberLimit u64Limit at *; omega)

/-- A mutation that is logged at the next LSN, when the records of its page then
lead to the new version and those of the other pages are the same. -/
theorem Inv.logged (h : Inv first s) (hlimit : s.nextLsn < numberLimit)
    (hpage : page.lsn = s.nextLsn)
    (hcore : core.pageLsn = s.nextLsn)
    (hlog : LogInv cfg.pageSize first (s.nextLsn + 1) (shard.publishAppended s.nextLsn))
    (hdurable : (shard.publishAppended s.nextLsn).durableLog = s.shard.durableLog)
    (hother : ∀ q ≠ pid, pieceRecords cfg.pageSize q
      (shard.publishAppended s.nextLsn).pieces = s.records q)
    (hchain : Chain (update s.after s.nextLsn (some page)) (s.initial pid)
      (pieceRecords cfg.pageSize pid (shard.publishAppended s.nextLsn).pieces) (some page)) :
    Inv first (s.logged pid core page shard) := by
  have hsub := after_update h page
  have hnext : (s.logged pid core page shard).nextLsn = s.nextLsn + 1 := nextLsn_logged hlimit
  have hrecords : ∀ q, (s.logged pid core page shard).durableRecords q = s.durableRecords q := by
    intro q
    exact congrArg (fun log => pieceRecords cfg.pageSize q (log.flatMap slotPieces)) hdurable
  refine ⟨hnext ▸ hlog, hnext ▸ h.started.trans (Nat.le_succ _), h.initial,
    carries_update h hpage, ?_, ?_⟩
  · intro lsn hlsn
    rw [hnext] at hlsn
    show update s.after s.nextLsn (some page) lsn = none
    rw [update_of_ne (by omega)]
    exact h.fresh lsn (by omega)
  intro q
  obtain ⟨latest, hold⟩ := h.pages q
  have hsurvivors : ∀ v ∈ (s.logged pid core page shard).survivors q,
      OnDisk (s.logged pid core page shard).after (s.initial q)
        ((s.logged pid core page shard).durableRecords q) v := by
    intro v hv
    rw [hrecords]
    exact (hold.survivors v hv).mono hsub
  by_cases hq : q = pid
  · subst hq
    have hframe : (s.logged q core page shard).frames q =
        some ⟨core.finishDirtyMark, page⟩ := update_self ..
    refine ⟨some page, hchain, ?_, ?_, hsurvivors, hold.synced⟩
    · intro fr hfr
      rw [hframe] at hfr
      cases hfr
      exact ⟨hcore.trans hpage.symm, .inl rfl⟩
    · intro hclean
      simp [State.isDirty, hframe, FrameCore.finishDirtyMark] at hclean
  have hframe : (s.logged pid core page shard).frames q = s.frames q :=
    update_of_ne hq ..
  refine ⟨latest, ?_, ?_, ?_, hsurvivors, hold.synced⟩
  · have hrec : (s.logged pid core page shard).records q = s.records q := hother q hq
    rw [hrec]
    exact hold.chain.mono hsub
  · intro fr hfr
    rw [hframe] at hfr
    exact hold.frame fr hfr
  · intro hclean
    have hsame : s.isDirty q = false := by
      rw [State.isDirty, ← hframe]
      exact hclean
    exact hold.stored hsame

theorem Inv.image (h : Inv first s) (hlimit : s.nextLsn < numberLimit) (hpid : pid < numberLimit)
    (new : Page cfg.pageSize) (hcore : core.pageLsn = s.nextLsn)
    {old : FrameCore} (himage : ImageLogged s old pid (new.writeLsn s.nextLsn) shard) :
    Inv first (s.logged pid core (new.writeLsn s.nextLsn) shard) := by
  obtain ⟨latest, hold⟩ := h.pages pid
  have hnext : s.nextLsn < 2 ^ 48 := hlimit
  have hlsn : (new.writeLsn s.nextLsn).lsn = s.nextLsn :=
    Page.lsn_writeLsn new (hnext.trans (by decide))
  have hstart := Page.take_writeLsn new s.nextLsn
  generalize new.writeLsn s.nextLsn = page at himage hlsn hstart
  have hrecord := pageRecord?_image cfg.pageSize s.nextLsn pid page
  have hafter : update s.after s.nextLsn (some page) s.nextLsn = some page :=
    update_self ..
  have hchain := hold.chain.mono (after_update h page)
  rcases himage with ⟨active, -, -, hover, rfl⟩ | happ
  · obtain ⟨hlog, hdurable, before, behind, oldLsn, old, hpieces, hpieces'⟩ :=
      h.log.overwrite h.started hnext hstart hover
    -- the overwritten piece is an older record of the page
    obtain ⟨r, hr⟩ := isSome_iff_exists.mp (h.log.pieces (.image oldLsn pid old)
      (by simp [hpieces])).record
    have hrpid : r.pid = pid := by
      obtain ⟨oldPage, -, rfl⟩ := map_eq_some_iff.mp hr
      rfl
    refine h.logged hlimit hlsn hcore hlog hdurable ?_ ?_
    · intro q hq
      rw [State.records, hpieces, hpieces', pieceRecords_append, pieceRecords_append,
        pieceRecords_cons hr, pieceRecords_cons hrecord, if_neg hq.symm,
        if_neg (by rw [hrpid]; exact hq.symm)]
    have hrecords : s.records pid = pieceRecords cfg.pageSize pid before ++
        r :: pieceRecords cfg.pageSize pid behind := by
      rw [State.records, hpieces, pieceRecords_append, pieceRecords_cons hr, if_pos hrpid]
    have hbound : ∀ x ∈ s.records pid, x.lsn < s.nextLsn := fun x hx => (h.record_lsn hx).2
    rw [hrecords] at hchain hbound
    rw [hpieces', pieceRecords_append, pieceRecords_cons hrecord, if_pos rfl]
    refine hchain.overwrite (carries_update h hlsn) hafter ?_ hbound
    exact fun p hp => (h.initial pid p hp).trans_le h.started
  have hvalid : (Payload.pageImage pid page.bytes).Valid cfg.pageSize :=
    ⟨hpid.trans (by decide), page.size⟩
  have hok : PieceOk cfg.pageSize first (s.nextLsn + 1) (.image s.nextLsn pid page.bytes) :=
    ⟨by rw [hrecord]; rfl, h.started, Nat.lt_succ_self _, s.nextLsn, hnext, hstart⟩
  obtain ⟨hlog, hpieces, hdurable, -⟩ := h.log.append hnext hvalid
    (imagePayload_pieces cfg.pageSize s.nextLsn pid page) hok rfl happ
  refine h.logged hlimit hlsn hcore hlog hdurable ?_ ?_
  · intro q hq
    rw [State.records, hpieces, pieceRecords_append, pieceRecords_cons hrecord, if_neg hq.symm]
    exact append_nil _
  · rw [hpieces, pieceRecords_append, pieceRecords_cons hrecord, if_pos rfl]
    exact hchain.append (.image (h.latest_lt hold) hafter (.nil _))

theorem patchPayload_logged {ps : PageSize} {first lsn pid : Nat} {ranges : List PatchRange}
    {payload : Bytes} (hfirst : first ≤ lsn) (hlsn : lsn < numberLimit) (hpid : pid < numberLimit)
    (hpayload : encodePagePatchRangesPayload ps pid ranges = some payload) :
    (Payload.logical logicalKindPagePatch payload).Valid ps ∧
      ∃ piece, (Payload.logical logicalKindPagePatch payload).pieces ps lsn = [piece] ∧
        piece.lsn = lsn ∧ pageRecord? ps piece = some ⟨lsn, pid, .patch ranges⟩ ∧
        PieceOk ps first (lsn + 1) piece := by
  have hlimit : numberLimit < u64Limit := by decide
  obtain ⟨hvalid, piece, hpieces, hpieceLsn, hrecord, hstart⟩ :=
    patchPayload_record (hlsn.trans hlimit) (hpid.trans hlimit) hpayload
  refine ⟨hvalid, piece, hpieces, hpieceLsn, hrecord, by rw [hrecord]; rfl, hpieceLsn ▸ hfirst,
    by omega, ?_⟩
  rcases hstart with hstart | hstart
  · exact ⟨lsn, hlsn, hstart⟩
  · exact ⟨pid, hpid, hstart⟩

/-- The ranges of a mutation that covers every changed byte turn the old page into
the new one. -/
theorem applyRanges_patchRanges {ps : PageSize} {m : PageMutation ps}
    {old new : Page ps} (lsn : Nat) (hcovers : m.Covers old new) (hfull : m.fullImage = false) :
    applyRanges old (m.patchRanges lsn (new.writeLsn lsn)) = new.writeLsn lsn := by
  apply applyRanges_eq
  · intro range hrange
    rcases mem_cons.mp hrange with rfl | hrange
    · have hlsn := carries_slice (new.writeLsn lsn) (Page.eight_le_bytes ps) (Nat.zero_le 8)
      rw [Page.slice_writeLsn] at hlsn
      exact hlsn
    · obtain ⟨bounds, hbounds, rfl⟩ := mem_map.mp hrange
      obtain ⟨-, hlt, hle⟩ := m.bounds bounds hbounds
      exact carries_slice _ hle hlt.le
  intro i hne
  by_cases hi : i < 8
  · exact ⟨_, mem_cons_self, Nat.zero_le i, by simpa using hi⟩
  rw [Page.getElem?_writeLsn new lsn (by omega)] at hne
  rcases hcovers with hcovers | hcovers
  · rw [hfull] at hcovers
    cases hcovers
  obtain ⟨bounds, hbounds, hlo, hhi⟩ := hcovers i (by omega) hne
  obtain ⟨-, hlt, hle⟩ := m.bounds bounds hbounds
  refine ⟨_, mem_cons_of_mem _ (mem_map_of_mem hbounds), hlo, ?_⟩
  rw [Page.length_slice hle]
  omega

theorem Inv.patch (h : Inv first s) (hlimit : s.nextLsn < numberLimit) (hpid : pid < numberLimit)
    {fr : Frame cfg.pageSize} (hfr : s.frames pid = some fr) {m : PageMutation cfg.pageSize}
    {new : Page cfg.pageSize} {payload : Bytes} (hcovers : m.Covers fr.page new)
    (hfull : m.fullImage = false) (hbase : fr.core.hasPageImageBase = true)
    (hpayload : encodePagePatchRangesPayload cfg.pageSize pid
      (m.patchRanges s.nextLsn (new.writeLsn s.nextLsn)) = some payload)
    (happ : s.shard.beginAppend cfg s.nextLsn (.logical logicalKindPagePatch payload) =
      some (shard, [])) :
    Inv first (s.logged pid (fr.core.patchLogged s.nextLsn) (new.writeLsn s.nextLsn) shard) := by
  obtain ⟨latest, hold⟩ := h.pages pid
  have hnext : s.nextLsn < 2 ^ 48 := hlimit
  have hnextLimit : s.nextLsn < u64Limit := hnext.trans (by decide)
  -- the frame holds the latest version, because it has a base
  obtain rfl : latest = some fr.page := by
    rcases (hold.frame fr hfr).2 with hlatest | ⟨-, -, hnone, -⟩
    · exact hlatest
    · rw [hbase] at hnone
      cases hnone
  have hlsn : (new.writeLsn s.nextLsn).lsn = s.nextLsn := Page.lsn_writeLsn new hnextLimit
  have happly := applyRanges_patchRanges s.nextLsn hcovers hfull
  obtain ⟨hvalid, piece, hpieces₁, hpieceLsn, hrecord, hok⟩ :=
    patchPayload_logged h.started hlimit hpid hpayload
  generalize m.patchRanges s.nextLsn (new.writeLsn s.nextLsn) = ranges at hrecord happly
  generalize new.writeLsn s.nextLsn = page at hlsn happly
  obtain ⟨hlog, hpieces, hdurable, -⟩ := h.log.append hnext hvalid hpieces₁ hok hpieceLsn happ
  have hafter : update s.after s.nextLsn (some page) s.nextLsn = some page :=
    update_self ..
  refine h.logged hlimit hlsn rfl hlog hdurable ?_ ?_
  · intro q hq
    rw [State.records, hpieces, pieceRecords_append, pieceRecords_cons hrecord, if_neg hq.symm]
    exact append_nil _
  · rw [hpieces, pieceRecords_append, pieceRecords_cons hrecord, if_pos rfl]
    refine (hold.chain.mono (after_update h page)).append ?_
    rw [← happly] at hafter ⊢
    exact .patch (h.latest_lt hold _ rfl) hafter (.nil _)

end Logged

/-! ## Steps of the pool and the driver -/

section Steps

variable {first pid : Nat} {s s' : State cfg}

/-- A step that keeps the log: the pages it concerns have to be looked at. -/
theorem Inv.of_pages (h : Inv first s) (hshard : s'.shard = s.shard)
    (hnext : s'.nextLsn = s.nextLsn) (hinitial : s'.initial = s.initial)
    (hafter : s'.after = s.after) (hpages : ∀ q, ∃ latest, PageInv s' q latest) : Inv first s' where
  log := by rw [hshard, hnext]; exact h.log
  started := by rw [hnext]; exact h.started
  initial := by rw [hinitial]; exact h.initial
  carries := by rw [hafter]; exact h.carries
  fresh := by rw [hnext, hafter]; exact h.fresh
  pages := hpages

theorem PageInv.congr {latest : Option (Page cfg.pageSize)} (h : PageInv s pid latest)
    (hshard : s'.shard = s.shard) (hinitial : s'.initial = s.initial) (hafter : s'.after = s.after)
    (hframe : s'.frames pid = s.frames pid) (hsynced : s'.synced pid = s.synced pid)
    (hwritten : s'.written pid = s.written pid) : PageInv s' pid latest where
  chain := by rw [State.records, hafter, hinitial, hshard]; exact h.chain
  frame := by rw [hframe]; exact h.frame
  stored := by rw [State.isDirty, State.stored, hframe, hsynced, hwritten]; exact h.stored
  survivors := by
    rw [State.survivors, State.durableRecords, hafter, hinitial, hshard, hsynced, hwritten]
    exact h.survivors
  synced := by rw [hinitial, hsynced]; exact h.synced

theorem Inv.of_page (h : Inv first s) (pid : Nat) (hshard : s'.shard = s.shard)
    (hnext : s'.nextLsn = s.nextLsn) (hinitial : s'.initial = s.initial)
    (hafter : s'.after = s.after)
    (hother : ∀ q ≠ pid, s'.frames q = s.frames q ∧ s'.synced q = s.synced q ∧
      s'.written q = s.written q)
    (hpage : ∀ latest, PageInv s pid latest → PageInv s' pid latest) : Inv first s' := by
  refine h.of_pages hshard hnext hinitial hafter ?_
  intro q
  obtain ⟨latest, hold⟩ := h.pages q
  by_cases hq : q = pid
  · subst hq
    exact ⟨latest, hpage latest hold⟩
  · obtain ⟨hframe, hsynced, hwritten⟩ := hother q hq
    exact ⟨latest, hold.congr hshard hinitial hafter hframe hsynced hwritten⟩

theorem Inv.create (h : Inv first s) (hstep : s.create pid = some s') : Inv first s' := by
  unfold State.create at hstep
  split at hstep
  · rename_i hguard
    cases hstep
    obtain ⟨-, hframe, hstored⟩ := hguard
    refine h.of_page pid rfl rfl rfl rfl ?_ ?_
    · intro q hq
      exact ⟨update_of_ne hq .., rfl, update_of_ne hq ..⟩
    intro latest hold
    obtain ⟨hwritten, hsynced⟩ := or_eq_none_iff.mp hstored
    -- nothing of the page is in the store, so it has no version yet
    obtain rfl : latest = none := by
      rcases hold.stored (by simp [State.isDirty, hframe]) with heq | ⟨hnone, -⟩
      · exact heq.symm.trans hstored
      · exact hnone
    obtain ⟨-, hinitial⟩ := hold.chain.nil_of_none h.carries
    refine ⟨hold.chain, ?_, ?_, ?_, hold.synced⟩
    · intro fr hfr
      simp only [State.setFrame, update_self] at hfr
      cases hfr
      exact ⟨(lsn_zero _).symm, .inr ⟨rfl, lsn_zero _, rfl, rfl⟩⟩
    · intro _
      refine .inr ⟨rfl, ?_⟩
      intro p hp
      simp only [State.stored, update_self, List.head?_cons, some_or] at hp
      cases hp
      exact lsn_zero _
    intro v hv
    refine .inr ⟨hinitial, ?_⟩
    rintro p rfl
    simp only [State.survivors, State.setFrame, update_self, hsynced, map_cons,
      map_nil, mem_cons, reduceCtorEq, not_mem_nil, or_false, false_or] at hv
    cases hv
    exact lsn_zero _
  · cases hstep

theorem Inv.clean (h : Inv first s) (hstep : s.clean pid = some s') : Inv first s' := by
  obtain ⟨fr, hfr, hstep⟩ := bind_eq_some_iff.mp hstep
  split at hstep
  · rename_i hguard
    cases hstep
    obtain ⟨hdirty, hle⟩ := hguard
    refine h.of_page pid rfl rfl rfl rfl ?_ ?_
    · intro q hq
      exact ⟨update_of_ne hq .., rfl, update_of_ne hq ..⟩
    intro latest hold
    obtain ⟨rfl, hdisk⟩ := h.onDisk_of_dirty hold hfr hdirty hle
    refine ⟨hold.chain, ?_, ?_, ?_, hold.synced⟩
    · intro fr' hfr'
      simp only [State.setFrame, update_self] at hfr'
      cases hfr'
      exact ⟨(hold.frame fr hfr).1, .inl rfl⟩
    · intro _
      left
      simp [State.stored]
    intro v hv
    simp only [State.survivors, update_self, map_cons, mem_cons] at hv
    rcases hv with hv | rfl | hv
    · exact hold.survivors v (hv ▸ mem_cons_self)
    · exact hdisk
    · exact hold.survivors v (mem_cons_of_mem _ hv)
  · cases hstep

theorem Inv.evict (h : Inv first s) (hstep : s.evict pid = some s') : Inv first s' := by
  obtain ⟨fr, hfr, hstep⟩ := bind_eq_some_iff.mp hstep
  split at hstep
  · rename_i hclean
    cases hstep
    refine h.of_page pid rfl rfl rfl rfl ?_ ?_
    · intro q hq
      exact ⟨update_of_ne hq .., rfl, rfl⟩
    intro latest hold
    refine ⟨hold.chain, ?_, ?_, hold.survivors, hold.synced⟩
    · intro fr' hfr'
      simp [State.setFrame] at hfr'
    · intro _
      exact hold.stored (by simp [State.isDirty, hfr, hclean])
  · cases hstep

theorem Inv.fault {core : FrameCore} (h : Inv first s) (hstep : s.fault pid core = some s') :
    Inv first s' := by
  unfold State.fault at hstep
  split at hstep
  · rename_i hnone
    obtain ⟨page, hpage, hstep⟩ := bind_eq_some_iff.mp hstep
    cases hstep
    refine h.of_page pid rfl rfl rfl rfl ?_ ?_
    · intro q hq
      exact ⟨update_of_ne hq .., rfl, rfl⟩
    intro latest hold
    have hstored := hold.stored (by simp [State.isDirty, hnone])
    refine ⟨hold.chain, ?_, fun _ => hstored, hold.survivors, hold.synced⟩
    intro fr hfr
    simp only [State.setFrame, update_self] at hfr
    cases hfr
    refine ⟨rfl, ?_⟩
    rcases hstored with heq | ⟨hlatest, hzero⟩
    · exact .inl (heq ▸ hpage)
    · have hlsn := hzero page hpage
      exact .inr ⟨hlatest, hlsn, by simp [FrameCore.installLoaded, hlsn], rfl⟩
  · cases hstep

theorem stored_mem_survivors (s : State cfg) (pid : Nat) : s.stored pid ∈ s.survivors pid := by
  unfold State.stored State.survivors
  cases s.written pid with
  | nil => exact mem_cons_self
  | cons page written => exact mem_cons_of_mem _ mem_cons_self

theorem isDirty_iff {s : State cfg} {pid : Nat} :
    s.isDirty pid = true ↔ ∃ fr, s.frames pid = some fr ∧ fr.core.dirty = true := by
  unfold State.isDirty
  cases s.frames pid <;> simp

theorem Inv.flush (h : Inv first s) (hstep : s.flush = some s') : Inv first s' := by
  unfold State.flush at hstep
  simp only at hstep
  have hall : ∀ q ∈ s.resident.filter s.isDirty, s.isDirty q = true :=
    fun q hq => (mem_filter.mp hq).2
  generalize s.resident.filter s.isDirty = dirty at hstep hall
  split at hstep
  · rename_i hdurable
    split at hstep
    · cases hstep
      exact h
    cases hstep
    refine h.of_pages rfl rfl rfl rfl ?_
    intro q
    obtain ⟨latest, hold⟩ := h.pages q
    refine ⟨latest, ?_⟩
    by_cases hq : q ∈ dirty
    · -- a page that is written
      obtain ⟨fr, hfr, hdirty⟩ := isDirty_iff.mp (hall q hq)
      have hle : fr.core.pageLsn ≤ s.shard.durableLsn := by
        have := all_eq_true.mp hdurable q hq
        simpa [hfr] using this
      obtain ⟨rfl, hdisk⟩ := h.onDisk_of_dirty hold hfr hdirty hle
      refine ⟨hold.chain, ?_, ?_, ?_, ?_⟩
      · intro fr' hfr'
        simp only [if_pos hq, hfr, map_some] at hfr'
        cases hfr'
        exact ⟨(hold.frame fr hfr).1, .inl rfl⟩
      · intro _
        left
        simp [State.stored, if_pos hq, hfr]
      · intro v hv
        simp only [State.survivors, if_pos hq, hfr, map_some, map_nil, mem_singleton] at hv
        rw [hv]
        exact hdisk
      · intro _
        simp [if_pos hq, hfr]
    -- a page that is only synced
    have hsurvivors := hold.survivors _ (stored_mem_survivors s q)
    refine ⟨hold.chain, ?_, ?_, ?_, ?_⟩
    · intro fr hfr
      simp only [if_neg hq] at hfr
      exact hold.frame fr hfr
    · intro hclean
      have hsame : s.isDirty q = false := by
        simp only [State.isDirty, if_neg hq] at hclean ⊢
        exact hclean
      have hstored := hold.stored hsame
      simpa [State.stored, if_neg hq] using hstored
    · intro v hv
      simp only [State.survivors, if_neg hq, map_nil, mem_singleton] at hv
      rw [hv]
      exact hsurvivors
    · intro hinitial
      simp only [if_neg hq, State.stored]
      have hsynced := hold.synced hinitial
      simp [or_eq_none_iff, hsynced]
  · cases hstep

/-- The shard keeps its records, and more of them are durable. -/
theorem Inv.setShard (h : Inv first s) {shard : Shard} {more : List Slot}
    (hlog : LogInv cfg.pageSize first s.nextLsn shard) (hpieces : shard.pieces = s.shard.pieces)
    (hdurable : shard.durableLog = s.shard.durableLog ++ more) : Inv first { s with shard } := by
  refine ⟨hlog, h.started, h.initial, h.carries, h.fresh, ?_⟩
  intro q
  obtain ⟨latest, hold⟩ := h.pages q
  refine ⟨latest, ?_, hold.frame, hold.stored, ?_, hold.synced⟩
  · show Chain s.after (s.initial q) (pieceRecords cfg.pageSize q shard.pieces) latest
    rw [hpieces]
    exact hold.chain
  · show ∀ v ∈ s.survivors q, OnDisk s.after (s.initial q)
      (pieceRecords cfg.pageSize q (shard.durableLog.flatMap slotPieces)) v
    intro v hv
    rw [hdurable, flatMap_append, pieceRecords_append]
    exact (hold.survivors v hv).extend _

theorem Inv.sealActive (h : Inv first s) (hstep : s.onShard Shard.sealActive = some s') :
    Inv first s' := by
  obtain ⟨shard, hseal, rfl⟩ := map_eq_some_iff.mp hstep
  obtain ⟨hlog, hpieces, hdurable, -⟩ := h.log.sealActive hseal
  exact h.setShard hlog hpieces (hdurable.trans (append_nil _).symm)

theorem Inv.writeAndSync (h : Inv first s) (hstep : s.onShard Shard.writeAndSync = some s') :
    Inv first s' := by
  obtain ⟨shard, hsync, rfl⟩ := map_eq_some_iff.mp hstep
  obtain ⟨hlog, hpieces, more, hdurable⟩ := h.log.writeAndSync hsync
  exact h.setShard hlog hpieces hdurable

theorem Inv.step {a : Action cfg} (h : Inv first s) (hok : Bounded s a ∧ Reported s a)
    (hstep : step s a = some s') : Inv first s' := by
  cases a with
  | create pid => exact h.create hstep
  | markDirty pid page =>
    obtain ⟨⟨hlimit, hpid⟩, -⟩ := hok
    obtain ⟨fr, -, hfull⟩ := bind_eq_some_iff.mp hstep
    obtain ⟨record, shard, himage, rfl⟩ := appendFullPageImage_cases hfull
    exact h.image hlimit hpid page rfl himage
  | markDirtyRanges pid page m =>
    obtain ⟨⟨hlimit, hpid⟩, hcovers⟩ := hok
    obtain ⟨fr, hfr, hpaths⟩ := markDirtyRanges_paths hstep
    rcases hpaths with ⟨-, hfull⟩ | ⟨payload, shard, hfull, hbase, hpayload, happ, rfl⟩
    · obtain ⟨record, shard, himage, rfl⟩ := appendFullPageImage_cases hfull
      exact h.image hlimit hpid page rfl himage
    · exact h.patch hlimit hpid hfr (hcovers fr hfr) hfull hbase hpayload happ
  | clean pid => exact h.clean hstep
  | flush => exact h.flush hstep
  | evict pid => exact h.evict hstep
  | fault pid core => exact h.fault hstep
  | sealActive => exact h.sealActive hstep
  | writeAndSync => exact h.writeAndSync hstep

theorem Inv.opened (cfg : Config) {initial : Nat → Option (Page cfg.pageSize)}
    {durableLsn nextLsn : Nat} (hdurable : durableLsn < nextLsn)
    (hinitial : ∀ pid p, initial pid = some p → p.lsn < nextLsn) :
    Inv nextLsn (opened cfg initial durableLsn nextLsn) := by
  refine ⟨.new cfg nextLsn hdurable, le_rfl, hinitial, ?_, fun _ _ => rfl, ?_⟩
  · intro lsn p hp
    cases hp
  intro pid
  refine ⟨initial pid, .nil _, ?_, fun _ => .inl rfl, ?_, id⟩
  · intro fr hfr
    cases hfr
  · intro v hv
    rw [mem_singleton.mp hv]
    exact .of_chain (.nil _)

end Steps

section Crash

variable {first : Nat} {s : State cfg}

/-- The durable records of a page lead to the page after its last one. -/
theorem Inv.durable_chain (h : Inv first s) (pid : Nat) :
    Chain s.after (s.initial pid) (s.durableRecords pid) (s.lastDurable pid) := by
  obtain ⟨latest, hold⟩ := h.pages pid
  have hsplit := hold.chain
  rw [h.records_split] at hsplit
  obtain ⟨fin, hfin, -⟩ := hsplit.split
  have hbase : ∀ p, s.initial pid = some p → ∀ r ∈ s.durableRecords pid, p.lsn < r.lsn := by
    intro p hp r hr
    have hmem : r ∈ s.records pid := by
      rw [h.records_split]
      exact mem_append_left _ hr
    exact (h.initial pid p hp).trans_le (h.record_lsn hmem).1
  have hend := hfin.end_eq_max h.carries hbase
  have hlast : s.lastDurable pid = fin := hend.symm
  rw [hlast]
  exact hfin

/-- The data file a crash leaves is one from which recovery succeeds. -/
theorem Inv.ready (h : Inv first s) {file : PageFile cfg.pageSize}
    (hpages : ∀ pid, file.pages pid ∈ s.survivors pid)
    (hnext : ∀ pid, s.synced pid ≠ none → pid < file.nextPageId) :
    Recovering.Ready s.after s.lastDurable (pageRecords cfg.pageSize s.shard.durableLog)
      ⟨file, file.nextPageId, .zero cfg.pageSize⟩ := by
  refine ⟨rfl, ?_, ?_⟩
  · intro pid
    obtain ⟨latest, hold⟩ := h.pages pid
    exact (hold.survivors _ (hpages pid)).ready h.carries (h.durable_chain pid)
  intro pid hbeyond
  obtain ⟨latest, hold⟩ := h.pages pid
  have hnone : s.initial pid = none := by
    by_contra hsome
    exact absurd (hnext pid (hold.synced hsome)) (Nat.not_lt.mpr hbeyond)
  have hchain := h.durable_chain pid
  rw [hnone] at hchain
  exact hchain

end Crash

section Runs

variable {initial : Nat → Option (Page cfg.pageSize)} {durableLsn nextLsn : Nat} {s : State cfg}

theorem inv_of_reach (hdurable : durableLsn < nextLsn)
    (hinitial : ∀ pid p, initial pid = some p → p.lsn < nextLsn)
    (hrun : Reach step (fun s a => Bounded s a ∧ Reported s a)
      (opened cfg initial durableLsn nextLsn) s) : Inv nextLsn s :=
  hrun.invariant (Inv.opened cfg hdurable hinitial) fun _ _ _ h hok hstep => h.step hok hstep

/-- Below the limit no handle names a data page that reads as a meta page, so every run
is followed. -/
theorem misreads_false (hdurable : durableLsn < nextLsn)
    (hinitial : ∀ pid p, initial pid = some p → p.lsn < nextLsn)
    (hrun : Reach step (fun s a => Bounded s a ∧ Reported s a)
      (opened cfg initial durableLsn nextLsn) s) (epoch offset : Nat) :
    s.shard.active.misreads cfg.pageSize epoch offset = false :=
  (inv_of_reach hdurable hinitial hrun).log.misreads_false epoch offset

end Runs

/-- After every run from an opened pool and store whose LSNs and page ids stay below the
limit, a crash that keeps the synced log and, for each page, its last synced version or
one written later, and recovery, every page is what it was after its last durable
record. -/
theorem recoverPages_lastDurable (cfg : Config) {initial : Nat → Option (Page cfg.pageSize)}
    {durableLsn nextLsn checkpointLsn : Nat} {s : State cfg} (hdurable : durableLsn < nextLsn)
    (hinitial : ∀ pid p, initial pid = some p → p.lsn < nextLsn)
    (hcheckpoint : checkpointLsn < nextLsn)
    (hrun : Reach step (fun s a => Bounded s a ∧ Reported s a)
      (opened cfg initial durableLsn nextLsn) s) (crc : Bytes → Nat)
    {file : PageFile cfg.pageSize} (hpages : ∀ pid, file.pages pid ∈ s.survivors pid)
    (hnext : ∀ pid, s.synced pid ≠ none → pid < file.nextPageId) :
    let result := recoverPages (filePageStore cfg.pageSize) crc checkpointLsn
      (s.shard.durableLog.map (finalizeSlot crc)) file
    result.ok = true ∧ ∀ pid p, s.lastDurable pid = some p →
      result.recovery.disk.store.pages pid = some p := by
  intro result
  have hinv := inv_of_reach hdurable hinitial hrun
  have hdurablePieces : ∀ piece ∈ s.shard.durableLog.flatMap slotPieces,
      piece ∈ s.shard.pieces := by
    intro piece hpiece
    rw [pieces_split hinv.log.synced]
    exact mem_append_left _ hpiece
  have hwf : ∀ slot ∈ s.shard.durableLog, SlotWf cfg.pageSize slot := by
    intro slot hslot
    obtain ⟨b, hb, hin⟩ := mem_flatMap.mp hslot
    exact hinv.log.wf.sealed b (mem_filter.mp hb).1 slot hin
  have hrecords : ∀ piece ∈ s.shard.durableLog.flatMap slotPieces,
      (pageRecord? cfg.pageSize piece).isSome :=
    fun piece hpiece => (hinv.log.pieces piece (hdurablePieces piece hpiece)).record
  obtain ⟨hok, hdisk⟩ := recoverPages_finalized (filePageStore cfg.pageSize) checkpointLsn crc hwf
    hrecords file
  refine ⟨hok, ?_⟩
  intro pid p hp
  have habove : ∀ r ∈ pageRecords cfg.pageSize s.shard.durableLog, checkpointLsn < r.lsn := by
    intro r hr
    obtain ⟨piece, hpiece, hrecord⟩ := mem_filterMap.mp hr
    rw [pageRecord?_lsn hrecord]
    exact hcheckpoint.trans_le (hinv.log.pieces piece (hdurablePieces piece hpiece)).first
  have hpage := ((hinv.ready hpages hnext).recover habove).page pid
  rw [hp] at hpage
  have hdisk : result.recovery.disk = _ := hdisk
  rw [hdisk]
  exact hpage.done

section Example

def smallConfig : Config := ⟨.k4, 4, .fdatasync⟩

def cleanedRun : List (Action smallConfig) :=
  [.create 1, .markDirty 1 (.zero .k4), .sealActive, .writeAndSync, .clean 1]

def patchAction : Action smallConfig :=
  .markDirtyRanges 1 (.zero .k4) ⟨[(8, 9)], false, by decide, by decide⟩

def durableRun : List (Action smallConfig) := [.sealActive, .writeAndSync]

/-- A step within the limit, and not a ranged mutation. -/
def plainStep (s : State cfg) : Action cfg → Bool
  | .markDirty pid _ => s.nextLsn < numberLimit ∧ pid < numberLimit
  | .markDirtyRanges _ _ _ => false
  | _ => true

theorem plainStep_spec {s : State cfg} {a : Action cfg} (h : plainStep s a = true) :
    Bounded s a ∧ Reported s a := by
  cases a with
  | markDirty pid page => exact ⟨by simpa [plainStep, Bounded] using h, trivial⟩
  | markDirtyRanges pid page m => cases h
  | _ => exact ⟨trivial, trivial⟩

def patchedRun (s : State smallConfig) : Option (State smallConfig) :=
  (exec (guarded plainStep step) s cleanedRun).bind fun s =>
    (step s patchAction).bind fun s => exec (guarded plainStep step) s durableRun

theorem recoverPages_after_patch : ∃ s : State smallConfig,
      Reach step (fun s a => Bounded s a ∧ Reported s a)
        (opened smallConfig (fun _ => none) 0 1) s ∧
      s.durableLsns 1 = [1, 2] ∧ ∃ p, s.lastDurable 1 = some p ∧
        (recoverPages (filePageStore .k4) (fun _ => 0) 0
          (s.shard.durableLog.map (finalizeSlot fun _ => 0))
          ⟨fun _ => none, 1⟩).recovery.disk.store.pages 1 = some p := by
  have hcleaned : ((exec (guarded plainStep step) (opened smallConfig (fun _ => none) 0 1)
      cleanedRun).bind fun s => (s.frames 1).map fun fr => (s.nextLsn, fr.page)) =
        some (2, (Page.zero .k4).writeLsn 1) := by
    rfl
  have hrun : ((patchedRun (opened smallConfig (fun _ => none) 0 1)).map fun s =>
      (s.durableLsns 1, (s.lastDurable 1).isSome)) = some ([1, 2], true) := by
    decide +kernel
  have hsynced : (patchedRun (opened smallConfig (fun _ => none) 0 1)).map (·.synced) =
      some fun _ => none := by
    rfl
  obtain ⟨s₁, hexec₁, hframe⟩ := bind_eq_some_iff.mp hcleaned
  obtain ⟨fr, hfr, hpage⟩ := map_eq_some_iff.mp hframe
  obtain ⟨hlsn, hpage⟩ := Prod.mk.inj hpage
  rw [patchedRun, hexec₁, bind_some] at hrun hsynced
  obtain ⟨s, hexec, hs⟩ := map_eq_some_iff.mp hrun
  rw [hexec] at hsynced
  obtain ⟨s₂, hpatch, hexec₂⟩ := bind_eq_some_iff.mp hexec
  -- the patch changes no byte behind the page LSN
  have hreported : Reported s₁ patchAction := by
    intro fr' hfr'
    rw [hfr] at hfr'
    cases hfr'
    refine .inr ?_
    intro i hi hne
    rw [hpage] at hne
    exact absurd (Page.getElem?_writeLsn _ 1 hi) hne
  have hbounded : Bounded s₁ patchAction := ⟨hlsn ▸ by decide, by decide⟩
  have hreach₁ := Reach.of_exec hexec₁ fun _ _ => plainStep_spec
  have hreach₂ := Reach.of_exec hexec₂ fun _ _ => plainStep_spec
  have hreach := (Reach.tail patchAction hreach₁ ⟨hbounded, hreported⟩ hpatch).trans hreach₂
  obtain ⟨hlsns, hsome⟩ := Prod.mk.inj hs
  obtain ⟨p, hp⟩ := isSome_iff_exists.mp hsome
  have hnone : s.synced = fun _ => none := Option.some.inj hsynced
  refine ⟨s, hreach, hlsns, p, hp, ?_⟩
  refine (recoverPages_lastDurable smallConfig (by decide) (by simp) (by decide) hreach
    (fun _ => 0) ?_ (by simp [hnone])).2 1 p hp
  intro pid
  rw [State.survivors, hnone]
  exact mem_cons_self

/-- Page 1 is logged at the last LSN there is, page 2 at LSN 0. -/
def wrappedRun : List (Action smallConfig) :=
  [.create 1, .create 2, .markDirty 1 (.zero .k4), .markDirty 2 ((Page.zero .k4).write 100 [7]),
    .sealActive, .writeAndSync]

/-- Recovery takes the record at LSN 0 for one below the checkpoint and skips it. -/
theorem wrapped_lsn_not_recovered : ∃ s : State smallConfig,
      Reach step Reported (opened smallConfig (fun _ => none) 0 (2 ^ 64 - 1)) s ∧
      s.synced = (fun _ => none) ∧ s.durableLsns 2 = [0] ∧ ∃ p, s.lastDurable 2 = some p ∧
        (recoverPages (filePageStore .k4) (fun _ => 0) 0
          (s.shard.durableLog.map (finalizeSlot fun _ => 0))
          ⟨fun _ => none, 1⟩).recovery.disk.store.pages 2 ≠ some p := by
  have hrun : ((exec step (opened smallConfig (fun _ => none) 0 (2 ^ 64 - 1)) wrappedRun).map
      fun s => (s.durableLsns 2, (s.lastDurable 2).isSome,
        ((recoverPages (filePageStore .k4) (fun _ => 0) 0
          (s.shard.durableLog.map (finalizeSlot fun _ => 0))
          ⟨fun _ => none, 1⟩).recovery.disk.store.pages 2).isSome)) = some ([0], true, false) := by
    decide +kernel
  have hsynced : ((exec step (opened smallConfig (fun _ => none) 0 (2 ^ 64 - 1)) wrappedRun).map
      (·.synced)) = some fun _ => none := by
    rfl
  obtain ⟨s, hexec, hs⟩ := map_eq_some_iff.mp hrun
  rw [hexec] at hsynced
  simp only [Prod.mk.injEq] at hs
  obtain ⟨hlsns, hsome, hnone⟩ := hs
  obtain ⟨p, hp⟩ := isSome_iff_exists.mp hsome
  refine ⟨s, Reach.of_exec_forall hexec (by simp [wrappedRun, Reported]), Option.some.inj hsynced,
    hlsns, p, hp, fun heq => ?_⟩
  rw [heq] at hnone
  cases hnone

end Example

end Pagebox.Storage.LoggedPages
