import Pagebox.Wal.Contiguity
import Pagebox.Wal.RecoverySync

/-!
# The order in which recovery hands over logical records

With several shards recovery sorts the records by LSN.  With one shard it takes them in
file order, and that is the order in which appenders entered the shard, not the order in
which they claimed their LSNs before.
-/

namespace Pagebox.Wal

open Pagebox.Base List
open scoped List

/-- The kinds that recovery keeps to itself. -/
def ReservedKind (kind : Nat) : Prop :=
  kind = logicalKindPageImageBytes ∨ kind = logicalKindPagePatch

instance (kind : Nat) : Decidable (ReservedKind kind) := inferInstanceAs (Decidable (_ ∨ _))

/-- The record is handed to the caller's callback. -/
def Payload.OfCaller : Payload → Prop
  | .logical kind _ => ¬ReservedKind kind
  | _ => False

instance (p : Payload) : Decidable p.OfCaller :=
  match p with
  | .logical _ _ => inferInstanceAs (Decidable (¬_))
  | .pageImage _ _ | .pageImageBytes _ _ => inferInstanceAs (Decidable False)

/-- The LSN of a piece of a caller's record. -/
def Piece.callerLsn? : Piece → Option Nat
  | .image _ _ _ => none
  | .chunk lsn kind _ _ _ => if ReservedKind kind then none else some lsn
  | .packed r => if ReservedKind r.kind then none else some r.lsn

def callerLsns (pieces : List Piece) : List Nat := pieces.filterMap Piece.callerLsn?

/-- The LSN of the caller's record that a section of its append call puts into the log. -/
def Action.callerLsn? (s : State) : Action → Option Nat
  | .append t p => if p.OfCaller then some (s.threads t).lsn else none
  | .resume t =>
    match s.threads t with
    | .waiting lsn p _ => if p.OfCaller then some lsn else none
    | _ => none
  | _ => none

/-- With one shard, whose file held the slots `old` when it was opened, a caller's record
is put into the log only while no other caller's record with a higher LSN is in it. -/
def EntersInOrder (su : Setup) (old : List Slot) (s : State) (a : Action) : Prop :=
  su.shardCount = 1 → ∀ lsn ∈ a.callerLsn? s,
    ∀ l ∈ callerLsns (old.flatMap slotPieces ++ (s.shards 0).pieces), l ≤ lsn

instance (su : Setup) (old : List Slot) (s : State) (a : Action) :
    Decidable (EntersInOrder su old s a) :=
  inferInstanceAs (Decidable (_ → _))

/-- The entries of a shard file that recovery finds after a crash: a first part of the log
and, behind it, nothing or something that starts with a torn entry. -/
def Survives (ps : PageSize) (crc : Bytes → Nat) (log : List Slot)
    (entries : List (RawEntry × Bytes)) : Prop :=
  ∃ kept tail, kept <+: log ∧ entries = kept.map (Slot.rawFinal crc) ++ tail ∧
    ∀ x ∈ tail.head?, validateRawEntry ps crc x.1 x.2 = none

/-! ## What recovery hands over -/

theorem ReplayRecord.caller?_lsn {k : Nat} {x : ReplayRecord} {r : LogicalRecord}
    (h : x.caller? k = some r) : r.lsn = x.lsn := by
  cases x with
  | pageImage lsn pageId data => cases h
  | logical lsn kind payload =>
    rw [ReplayRecord.caller?] at h
    split at h
    · cases h
    · cases h
      rfl

namespace RecoveryRun

variable {ps : PageSize} {c : RecoveryArgs ps} {items : List ReplayRecord} {whole : Bool}
  {r : RecoveryRun ps} {next : Next}

@[simp] theorem handedOver_finish (c : RecoveryArgs ps) (p : Progress (RecoveryRun ps))
    (next : Next) : handedOver (finish c p next).1.state.calls = handedOver p.state.calls := by
  cases next with
  | go part =>
    rw [finish]
    split
    · rw [call, handedOver_append]
      exact append_nil _
    · rfl
  | stop => rfl
  | fail => rfl

/-- The records handed over come in the order in which recovery takes them. -/
theorem Ended.handed (h : Ended c [] items whole r next) :
    handedOver r.calls <+: callers c.checkpointLsn items := by
  have hfront : ∀ {pre : List ReplayRecord}, pre <+: items →
      callers c.checkpointLsn pre <+: callers c.checkpointLsn items := by
    rintro pre ⟨rest, rfl⟩
    rw [callers_append]
    exact prefix_append ..
  cases next with
  | go part =>
    rw [h.2.handed]
    exact prefix_rfl
  | stop =>
    obtain ⟨pre, hhandled, hpre⟩ := h
    rw [hhandled.handed, nil_append]
    rcases hpre with ⟨rfl, -⟩ | ⟨x, hpre, -⟩
    · exact prefix_rfl
    · exact hfront ((prefix_append pre [x]).trans hpre)
  | fail =>
    obtain ⟨pre, x, hpre, hfailed⟩ := h
    exact hfailed.handed.trans (hfront hpre)

/-- If the log can be read and decoded and neither the store nor the callback refuses,
all of them are handed over. -/
theorem Ended.handed_all (h : Ended c [] items true r next) (hwilling : c.store.Willing)
    (hdecodable : ∀ x ∈ items, x.Decodable ps)
    (haccepted : Accepted c.applyLogical (callers c.checkpointLsn items)) :
    handedOver r.calls = callers c.checkpointLsn items := by
  cases next with
  | go part => exact h.2.handed
  | stop =>
    obtain ⟨pre, -, ⟨-, hwhole⟩ | ⟨x, hpre, hx⟩⟩ := h
    · cases hwhole
    · exact absurd (hdecodable x (hpre.subset (by simp))) hx
  | fail =>
    obtain ⟨pre, x, ⟨rest, rfl⟩, hfailed⟩ := h
    refine absurd (haccepted.of_prefix ?_) (hfailed.refused hwilling)
    rw [callers_append c.checkpointLsn (pre ++ [x]), nil_append]
    exact prefix_append ..

end RecoveryRun

section Reading

variable {ps : PageSize} {crc : Bytes → Nat}

theorem callers_pairwise (k : Nat) {items : List ReplayRecord}
    (h : items.Pairwise fun a b => a.lsn ≤ b.lsn) :
    (callers k items).Pairwise fun a b => a.lsn ≤ b.lsn := by
  refine List.Pairwise.filterMap _ ?_ h
  intro a b hle r hr r' hr'
  rw [ReplayRecord.caller?_lsn hr, ReplayRecord.caller?_lsn hr']
  exact hle

theorem callers_logical (k lsn kind : Nat) (payload : Bytes) :
    (callers k [.logical lsn kind payload]).map LogicalRecord.lsn <+
      (if ReservedKind kind then none else some lsn).toList := by
  rw [callers, filterMap_cons, ReplayRecord.caller?, filterMap_nil]
  by_cases hkind : ReservedKind kind
  · rw [if_pos (hkind.imp_right .inl)]
    exact nil_sublist _
  rw [if_neg hkind]
  split
  · exact nil_sublist _
  · rename_i r hr
    split at hr
    · cases hr
    · cases hr
      exact List.Sublist.refl _

theorem deliver_callers (k : Nat) {part : Partial} {lsn kind : Nat} (hlsn : part.lsn = lsn)
    (hkind : part.kind = kind) :
    (callers k (deliver ps part).1).map LogicalRecord.lsn <+
      (if ReservedKind kind then none else some lsn).toList := by
  unfold deliver
  split
  · split
    · exact nil_sublist _
    · exact nil_sublist _
  · rw [hlsn, hkind]
    exact callers_logical k lsn kind part.payload

/-- What a piece makes the replay deliver has the LSN of the piece. -/
theorem replayPiece_callers (k : Nat) (part : Partial) (piece : Piece) :
    (callers k (replayPiece ps part piece).1).map LogicalRecord.lsn <+ piece.callerLsn?.toList := by
  cases piece with
  | image lsn pageId page => exact nil_sublist _
  | packed r => exact callers_logical k r.lsn r.kind r.payload
  | chunk lsn kind first last payload =>
    rw [replayPiece, replayChunk]
    split
    · exact nil_sublist _
    rename_i hjoins
    dsimp only
    split
    · -- the record under way is the one this chunk belongs to
      have hsame : (if first then (⟨lsn, kind, []⟩ : Partial) else part).lsn = lsn ∧
          (if first then (⟨lsn, kind, []⟩ : Partial) else part).kind = kind := by
        cases first with
        | true => exact ⟨rfl, rfl⟩
        | false =>
          rw [not_and, not_or, not_or, not_not, not_not] at hjoins
          obtain ⟨-, hlsn, hkind⟩ := hjoins rfl
          exact ⟨hlsn.symm, hkind.symm⟩
      exact deliver_callers k hsame.1 hsame.2
    · exact nil_sublist _

theorem scan_callers (k : Nat) (part : Partial) (pieces : List Piece) :
    (callers k (scan (replayPiece ps) part pieces).1).map LogicalRecord.lsn <+
    callerLsns pieces := by
  induction pieces generalizing part with
  | nil => exact nil_sublist _
  | cons piece pieces ih =>
    have hpiece : (callers k (replayPiece ps part piece).1).map LogicalRecord.lsn <+
        piece.callerLsn?.toList := replayPiece_callers k part piece
    have hsplit : callerLsns (piece :: pieces) = piece.callerLsn?.toList ++ callerLsns pieces := by
      cases h : piece.callerLsn? with
      | none => exact filterMap_cons_none h
      | some lsn => exact filterMap_cons_some h
    rw [hsplit]
    cases hf : replayPiece ps part piece with
    | mk out next =>
      rw [hf] at hpiece
      cases next with
      | none =>
        rw [scan_cons_of_none hf]
        exact hpiece.trans (sublist_append_left _ _)
      | some part' =>
        rw [scan_cons_of_some hf, callers_append, map_append]
        exact hpiece.append (ih part')

/-- What is read of a file that survives is read from its first part. -/
theorem scan_survives {kept : List Slot} {tail : List (RawEntry × Bytes)}
    (hwf : ∀ slot ∈ kept, SlotWf ps slot)
    (htail : ∀ x ∈ tail.head?, validateRawEntry ps crc x.1 x.2 = none) (part : Partial) :
    (scan (readEntry ps) part ((kept.map (Slot.rawFinal crc) ++ tail).map (checkRaw ps crc))).1 =
      (scan (replayPiece ps) part (kept.flatMap slotPieces)).1 := by
  have hread := scan_readEntry crc hwf part
  rw [map_append]
  cases hscan : scan (replayPiece ps) part (kept.flatMap slotPieces) with
  | mk out next =>
    rw [hscan] at hread
    cases next with
    | none => rw [scan_append_of_none hread]
    | some part' =>
      rw [scan_append_of_some hread]
      cases tail with
      | nil => exact append_nil _
      | cons x tail =>
        have hx : readEntry ps part' (checkRaw ps crc x) = ([], none) := by
          rw [checkRaw, htail x rfl]
          rfl
        rw [map_cons, scan_cons_of_none hx]
        exact append_nil _

end Reading

/-! ## The order of the log -/

section Appending

variable {ps : PageSize} {lsn : Nat} {p : Payload}

theorem callerLsn?_chunkSlots {r : LogicalRecord} {piece : Piece} {l : Nat}
    (hpiece : piece ∈ (chunkSlots ps r).flatMap slotPieces) (hl : piece.callerLsn? = some l) :
    ¬ReservedKind r.kind ∧ l = r.lsn := by
  obtain ⟨slot, hslot, hpiece⟩ := mem_flatMap.mp hpiece
  obtain ⟨i, -, rfl⟩ := mem_map.mp hslot
  rw [slotPieces_chunkSlot, mem_singleton] at hpiece
  rw [hpiece, Piece.callerLsn?] at hl
  split at hl
  · cases hl
  · rename_i hkind
    cases hl
    exact ⟨hkind, rfl⟩

/-- The pieces of a call are a caller's pieces only if the call is for a caller's record. -/
theorem Payload.callerLsn?_pieces (hlsn : lsn < u64Limit) (h : p.Valid ps) {piece : Piece} {l : Nat}
    (hpiece : piece ∈ p.pieces ps lsn) (hl : piece.callerLsn? = some l) : p.OfCaller ∧ l = lsn := by
  cases p with
  | pageImage pageId page =>
    have himage : piece = .image lsn pageId page := by
      simpa [Payload.pieces, Payload.slots, imageSlot, slotPieces,
        BatchEntry.pageImage] using hpiece
    rw [himage] at hl
    cases hl
  | pageImageBytes pageId page =>
    obtain ⟨hkind, -⟩ := callerLsn?_chunkSlots
      (r := ⟨lsn, logicalKindPageImageBytes, encodePageImageBytesPayload pageId page⟩) hpiece hl
    exact absurd (.inl rfl) hkind
  | logical kind bytes =>
    rw [Payload.pieces, Payload.slots] at hpiece
    split at hpiece
    · rename_i hpacked
      obtain ⟨hr, -⟩ := isPacked_encodable (r := ⟨lsn, kind, bytes⟩) hlsn h.1 hpacked
      rw [flatMap_singleton, slotPieces_packedSlot ps hr, mem_singleton] at hpiece
      rw [hpiece, Piece.callerLsn?] at hl
      split at hl
      · cases hl
      · rename_i hkind
        cases hl
        exact ⟨hkind, rfl⟩
    · exact callerLsn?_chunkSlots (r := ⟨lsn, kind, bytes⟩) hpiece hl

end Appending

/-- The pieces of callers' records come in LSN order. -/
def InLsnOrder (pieces : List Piece) : Prop := (callerLsns pieces).Pairwise (· ≤ ·)

section Runs

variable {su : Setup} {old : List Slot} {s s' : State}

/-- A section that adds pieces of a record keeps the order, if the pieces of a caller's
record are not below those in the log. -/
theorem InLsnOrder.extend {lsn : Nat} {p : Payload} {log done : List Piece} (h : InLsnOrder log)
    (hlsn : lsn < u64Limit) (hp : p.Valid su.cfg.pageSize)
    (hdone : done ⊆ p.pieces su.cfg.pageSize lsn)
    (henters : p.OfCaller → ∀ l ∈ callerLsns log, l ≤ lsn) : InLsnOrder (log ++ done) := by
  have hof : ∀ l ∈ callerLsns done, p.OfCaller ∧ l = lsn := by
    intro l hl
    obtain ⟨piece, hpiece, hl⟩ := mem_filterMap.mp hl
    exact Payload.callerLsn?_pieces hlsn hp (hdone hpiece) hl
  rw [InLsnOrder, callerLsns, filterMap_append]
  refine pairwise_append.mpr ⟨h, pairwise_of_forall_mem_list ?_, ?_⟩
  · intro l hl l' hl'
    rw [(hof l hl).2, (hof l' hl').2]
  · intro l hl l' hl'
    rw [(hof l' hl').2]
    exact henters (hof l' hl').1 l hl

theorem InLsnOrder.append (hone : su.shardCount = 1) (hwf : CallsWf su s) {t : Nat} {p : Payload}
    (h : InLsnOrder (old.flatMap slotPieces ++ (s.shards 0).pieces))
    (henters : EntersInOrder su old s (.append t p)) (hstep : s.append su t p = some s') :
    InLsnOrder (old.flatMap slotPieces ++ (s'.shards 0).pieces) := by
  obtain ⟨lsn, sh, rest, hpc, hp, happ, rfl⟩ := append_cases hstep
  have hlsn : lsn < u64Limit := by
    have := hwf.threads t
    rwa [hpc] at this
  rw [ownerShard_eq_zero hone] at happ
  obtain ⟨-, -, hplaced⟩ := beginAppend_spec hwf.shard hlsn hp happ
  have hadds : ∃ done, sh.pieces = (s.shards 0).pieces ++ done ∧
      done ⊆ p.pieces su.cfg.pageSize lsn := by
    rcases hplaced with ⟨-, -, hext⟩ | ⟨placed, hplaced, -, hext⟩
    · exact ⟨_, hext.pieces, List.Subset.refl _⟩
    · refine ⟨_, hext.pieces, ?_⟩
      rw [Payload.pieces, ← hplaced, flatMap_append]
      exact subset_append_left _ _
  obtain ⟨done, hpieces, hdone⟩ := hadds
  rw [Shard.pieces, afterSection_log hone, ← Shard.pieces, hpieces, ← append_assoc]
  refine h.extend hlsn hp hdone fun hcaller => henters hone lsn ?_
  rw [Action.callerLsn?, if_pos hcaller, hpc]
  rfl

theorem InLsnOrder.resume (hone : su.shardCount = 1) (hwf : CallsWf su s) {t : Nat}
    (h : InLsnOrder (old.flatMap slotPieces ++ (s.shards 0).pieces))
    (henters : EntersInOrder su old s (.resume t)) (hstep : s.resume su t = some s') :
    InLsnOrder (old.flatMap slotPieces ++ (s'.shards 0).pieces) := by
  obtain ⟨lsn, p, slots, sh, rest, hpc, happ, rfl⟩ := resume_cases hstep
  have hlsn : lsn < u64Limit := by
    have := hwf.threads t
    rwa [hpc] at this
  rw [ownerShard_eq_zero hone] at happ
  obtain ⟨hp, -, before, hbefore⟩ := hwf.waiting t lsn p slots hpc
  have hslots := Payload.slots_slotsOf hlsn hp
  rw [← hbefore] at hslots
  obtain ⟨-, -, placed, hplaced, -, hext⟩ := appendSlots_spec hwf.shard hslots.append_right happ
  rw [Shard.pieces, afterSection_log hone, ← Shard.pieces, hext.pieces, ← append_assoc]
  refine h.extend hlsn hp ?_ fun hcaller => henters hone lsn ?_
  · rw [Payload.pieces, ← hbefore, ← hplaced, flatMap_append, flatMap_append]
    exact subset_append_of_subset_right _ (subset_append_left _ _)
  · rw [Action.callerLsn?, hpc]
    dsimp only
    rw [if_pos hcaller]
    rfl

theorem InLsnOrder.step (hone : su.shardCount = 1) (hwf : CallsWf su s) {a : Action}
    (h : InLsnOrder (old.flatMap slotPieces ++ (s.shards 0).pieces))
    (henters : EntersInOrder su old s a)
    (hstep : step su s a = some s') :
    InLsnOrder (old.flatMap slotPieces ++ (s'.shards 0).pieces) := by
  have hdriver : a.isDriver = true →
      InLsnOrder (old.flatMap slotPieces ++ (s'.shards 0).pieces) := by
    intro ha
    rw [Shard.pieces, (Frame.of_step ha hstep).log 0]
    exact h
  cases a with
  | claim t =>
    obtain ⟨-, rfl⟩ := claim_cases hstep
    exact h
  | append t p => exact h.append hone hwf henters hstep
  | resume t => exact h.resume hone hwf henters hstep
  | sealActive _ | submit _ | diskWrite _ _ | complete _ _ | storeWritten _ _ | storeDurable _ _
  | syncStart _ | syncDone _ => exact hdriver rfl

end Runs

/-! ## Recovery of what a run has written -/

/-- Recovery from several files hands over in LSN order whatever the files hold. -/
theorem handedOver_sharded {ps : PageSize} (c : RecoveryArgs ps) (crc : Bytes → Nat)
    {files : List (List (RawEntry × Bytes))} (hmany : 1 < files.length) :
    (handedOver (recoverWithLogical c crc files).1.state.calls).Pairwise fun a b =>
    a.lsn ≤ b.lsn := by
  obtain ⟨p, next, heq, hended⟩ := recoverWithLogical_ended c crc files
  have hsorted : (readLog ps crc files).1.Pairwise fun a b => a.lsn ≤ b.lsn := by
    rw [readLog, if_pos hmany]
    refine (pairwise_mergeSort ?_ ?_ _).imp of_decide_eq_true
    · intro a b d hab hbd
      exact decide_eq_true (Nat.le_trans (of_decide_eq_true hab) (of_decide_eq_true hbd))
    · intro a b
      rw [Bool.or_eq_true, decide_eq_true_eq, decide_eq_true_eq]
      exact Nat.le_total a.lsn b.lsn
  rw [heq, RecoveryRun.handedOver_finish]
  exact (callers_pairwise c.checkpointLsn hsorted).sublist hended.handed.sublist

/-- Recovery from one file hands over in the order of its log. -/
theorem handedOver_single {ps : PageSize} (c : RecoveryArgs ps) {crc : Bytes → Nat}
    {log : List Slot} {entries : List (RawEntry × Bytes)} (hwf : ∀ slot ∈ log, SlotWf ps slot)
    (horder : InLsnOrder (log.flatMap slotPieces)) (h : Survives ps crc log entries) :
    (handedOver (recoverWithLogical c crc [entries]).1.state.calls).Pairwise fun a b =>
    a.lsn ≤ b.lsn := by
  obtain ⟨kept, tail, hkept, rfl, htail⟩ := h
  obtain ⟨p, next, heq, hended⟩ := recoverWithLogical_ended c crc
    [kept.map (Slot.rawFinal crc) ++ tail]
  have hhanded := hended.handed
  rw [readLog_single, scan_survives (fun slot hslot => hwf slot (hkept.subset hslot))
    htail] at hhanded
  rw [heq, RecoveryRun.handedOver_finish, ← pairwise_map (f := LogicalRecord.lsn)]
  have hlog : callerLsns (kept.flatMap slotPieces) <+ callerLsns (log.flatMap slotPieces) := by
    obtain ⟨rest, rfl⟩ := hkept
    rw [flatMap_append, callerLsns, callerLsns, filterMap_append]
    exact sublist_append_left _ _
  exact horder.sublist ((hhanded.sublist.map _).trans ((scan_callers _ _ _).trans hlog))

/-- In every run in which callers' records enter the log of a single shard in LSN order,
recovery from what survives of the files hands the logical records to the callback in
LSN order, for every store, callback and checkpoint LSN. -/
theorem logical_records_in_order {su : Setup} {old : List Slot} {maxLsn : Nat → Nat} {nextLsn : Nat}
    {s : State} (hnext : nextLsn < u64Limit)
    (hold : ∀ slot ∈ old, SlotWf su.cfg.pageSize slot)
    (horder : InLsnOrder (old.flatMap slotPieces))
    (h : Reach (step su) (EntersInOrder su old) (su.opened maxLsn nextLsn) s) (crc : Bytes → Nat)
    {files : List (List (RawEntry × Bytes))} (hfiles : files.length = su.shardCount)
    (hsurvives : su.shardCount = 1 → ∀ entries ∈ files,
      Survives su.cfg.pageSize crc (old ++ (s.shards 0).log) entries)
    (c : RecoveryArgs su.cfg.pageSize) :
    (handedOver (recoverWithLogical c crc files).1.state.calls).Pairwise fun a b =>
    a.lsn ≤ b.lsn := by
  rcases files with _ | ⟨entries, _ | ⟨entries', files⟩⟩
  · exact .nil
  · have hone : su.shardCount = 1 := hfiles.symm
    have hinv : CallsWf su s ∧ InLsnOrder (old.flatMap slotPieces ++ (s.shards 0).pieces) := by
      refine h.invariant
        (I := fun s => CallsWf su s ∧ InLsnOrder (old.flatMap slotPieces ++ (s.shards 0).pieces))
        ⟨.opened hnext, ?_⟩ ?_
      · have hempty : ((su.opened maxLsn nextLsn).shards 0).pieces = [] := rfl
        rw [hempty, append_nil]
        exact horder
      · rintro s a s' ⟨hwf, hin⟩ henters hstep
        exact ⟨hwf.step hone hstep, hin.step hone hwf henters hstep⟩
    obtain ⟨hwf, hin⟩ := hinv
    rw [Shard.pieces, ← flatMap_append] at hin
    refine handedOver_single c ?_ hin (hsurvives hone entries mem_cons_self)
    intro slot hslot
    rcases mem_append.mp hslot with hslot | hslot
    · exact hold slot hslot
    · exact hwf.shard.log_wf slot hslot
  · exact handedOver_sharded c crc (Nat.succ_lt_succ (Nat.succ_pos _))

/-- Two threads append one after the other; the file is recovered whole. -/
theorem logical_records_in_order_two :
    ∃ s, Reach (step tinyBuffers) (EntersInOrder tinyBuffers [])
      (tinyBuffers.opened (fun _ => 0) 1) s ∧
      callerLsns (s.shards 0).pieces = [1, 2] ∧
      ∀ (crc : Bytes → Nat) (c : RecoveryArgs .k4),
        (handedOver (recoverWithLogical c crc
        [(s.shards 0).log.map (Slot.rawFinal crc)]).1.state.calls).Pairwise
          fun a b => a.lsn ≤ b.lsn := by
  have hrun : (exec (guarded (fun s a => decide (EntersInOrder tinyBuffers [] s a))
      (step tinyBuffers))
      (tinyBuffers.opened (fun _ => 0) 1)
        [.claim 0, .claim 1, .append 0 shortRecord, .append 1 shortRecord]).map
        (fun s => callerLsns (s.shards 0).pieces) = some [1, 2] := by
    decide +kernel
  obtain ⟨s, hexec, hs⟩ := Option.map_eq_some_iff.mp hrun
  have hreach := Reach.of_exec hexec fun _ _ => of_decide_eq_true
  refine ⟨s, hreach, hs, fun crc c => ?_⟩
  have hold : ∀ slot ∈ ([] : List Slot), SlotWf tinyBuffers.cfg.pageSize slot := nofun
  have horder : InLsnOrder (([] : List Slot).flatMap slotPieces) := List.Pairwise.nil
  refine logical_records_in_order (by decide) hold horder hreach crc rfl ?_ c
  intro _ entries hentries
  exact ⟨(s.shards 0).log, [], prefix_rfl, by rw [mem_singleton.mp hentries, append_nil], nofun⟩

def laterFirstRun : List Action :=
  [.claim 0, .claim 1, .append 1 shortRecord, .append 0 shortRecord]

/-- Recovery hands over LSN 2 and then LSN 1. -/
theorem overtaken_out_of_order :
    ∃ s, exec (step tinyBuffers) (tinyBuffers.opened (fun _ => 0) 1) laterFirstRun = some s ∧
      ∀ crc : Bytes → Nat,
        (handedOver (recoverWithLogical ⟨emptyStore .k4, 0, Page.lsn, fun _ _ => true⟩ crc
          [(s.shards 0).log.map (Slot.rawFinal crc)]).1.state.calls).map LogicalRecord.lsn =
          [2, 1] := by
  have hrun : (exec (step tinyBuffers) (tinyBuffers.opened (fun _ => 0) 1) laterFirstRun).map
      (fun s => (s.shards 0).pieces) = some [.packed ⟨2, 8, [2]⟩, .packed ⟨1, 8, [2]⟩] := by
    decide +kernel
  obtain ⟨s, hexec, hpieces⟩ := Option.map_eq_some_iff.mp hrun
  have hwf : CallsWf tinyBuffers s :=
    (Reach.of_exec_any hexec).invariant (.opened (by decide)) fun _ _ _ h _ hstep =>
      h.step rfl hstep
  refine ⟨s, hexec, fun crc => ?_⟩
  obtain ⟨p, next, heq, hended⟩ := recoverWithLogical_ended
    (⟨emptyStore .k4, 0, Page.lsn, fun _ _ => true⟩ : RecoveryArgs .k4) crc
    [(s.shards 0).log.map (Slot.rawFinal crc)]
  have hread : readLog .k4 crc [(s.shards 0).log.map (Slot.rawFinal crc)] =
      ([.logical 2 8 [2], .logical 1 8 [2]], true) := by
    have hlog : ∀ slot ∈ (s.shards 0).log, SlotWf .k4 slot := hwf.shard.log_wf
    rw [readLog_single, scan_readEntry crc hlog, ← Shard.pieces, hpieces]
    rfl
  rw [hread] at hended
  rw [heq, RecoveryRun.handedOver_finish,
    hended.handed_all (emptyStore_willing .k4) (by decide) fun _ _ _ _ => rfl]
  rfl

end Pagebox.Wal
