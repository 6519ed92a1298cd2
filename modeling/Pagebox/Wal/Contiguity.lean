import Mathlib.Data.List.TakeWhile
import Pagebox.Wal.Driver
import Pagebox.Wal.Replay

/-!
# Replaying what concurrent appenders have written

The appenders of one shard place whole records between two releases of the shard
lock, except for a chunked record that has to wait for a spare buffer.  As long as
no other record is placed while a call waits between two of its chunks, the log
is the sequence of the appended records, and the replay of the flushed file
delivers each of them once.
-/

namespace Pagebox.Wal

open Pagebox.Base Function List

/-- The log ends in a chunk of a record that is still being appended. -/
def Shard.endsUnfinished (sh : Shard) : Bool := sh.log.getLast?.any Slot.unfinished

/-- The call waits with some of its slots placed and some not. -/
def Pc.partway (ps : PageSize) : Pc → Bool
  | .waiting lsn p rest => rest ≠ p.slots ps lsn
  | _ => false

/-- No append section of another call runs while a call waits between two of its
chunks. -/
def ChunksTogether (su : Setup) (s : State) : Action → Prop
  | .append t _ => (s.shards (su.ownerShard (s.threads t).lsn)).endsUnfinished = false
  | .resume t =>
    (s.shards (su.ownerShard (s.threads t).lsn)).endsUnfinished = true →
      (s.threads t).partway su.cfg.pageSize = true
  | _ => True

instance (su : Setup) (s : State) (a : Action) : Decidable (ChunksTogether su s a) :=
  match a with
  | .append _ _ => inferInstanceAs (Decidable (_ = _))
  | .resume _ => inferInstanceAs (Decidable (_ → _))
  | .claim _ | .syncStart _ | .sealActive _ | .submit _ | .diskWrite _ _ | .complete _ _
  | .storeWritten _ _ | .storeDurable _ _ | .syncDone _ => inferInstanceAs (Decidable True)

def Shard.flushed (sh : Shard) : Bool :=
  sh.active.batches.isEmpty && sh.sealedBuffers.all (·.phase.written)

def Shard.file (crc : Bytes → Nat) (sh : Shard) : List Slot :=
  ((sh.sealedBuffers.takeWhile (·.phase.written)).flatMap SealedBuffer.slots).map
    (finalizeSlot crc)

theorem file_of_flushed {sh : Shard} (h : sh.flushed = true) (crc : Bytes → Nat) :
    sh.file crc = sh.log.map (finalizeSlot crc) := by
  simp only [Shard.flushed, Bool.and_eq_true, List.isEmpty_iff, all_eq_true] at h
  have hwritten : sh.sealedBuffers.takeWhile (·.phase.written) = sh.sealedBuffers :=
    takeWhile_eq_self_iff.mpr h.2
  have hactive : sh.active.slots = [] := by simp [WalBuffer.slots, h.1]
  rw [Shard.file, hwritten, Shard.log, hactive, append_nil]

theorem ShardWf.log_wf {ps : PageSize} {sh : Shard} (h : ShardWf ps sh) :
    ∀ slot ∈ sh.log, SlotWf ps slot := by
  intro slot hslot
  rcases mem_append.mp hslot with hslot | hslot
  · obtain ⟨b, hb, hslot⟩ := mem_flatMap.mp hslot
    exact h.sealed b hb slot hslot
  · exact h.active.slots slot hslot

/-! ## What every run keeps -/

/-- The log is well formed and the calls are at valid LSNs with valid arguments,
for a WAL of one shard. -/
structure CallsWf (su : Setup) (s : State) : Prop where
  shard : ShardWf su.cfg.pageSize (s.shards 0)
  next : s.nextLsn < u64Limit
  threads : ∀ t, (s.threads t).lsn < u64Limit
  waiting : ∀ t lsn p rest, s.threads t = .waiting lsn p rest →
    p.Valid su.cfg.pageSize ∧ rest ≠ [] ∧ ∃ placed, placed ++ rest = p.slots su.cfg.pageSize lsn
  appended : ∀ a ∈ s.appended, a.lsn < u64Limit ∧ a.payload.Valid su.cfg.pageSize

theorem SlotsOf.append_right {ps : PageSize} {lsn : Nat} {placed rest : List Slot}
    (h : SlotsOf ps lsn (placed ++ rest)) : SlotsOf ps lsn rest := by
  induction placed with
  | nil => exact h
  | cons slot placed ih => exact ih h.tail

/-- Slots that have successors are chunks that do not end their record. -/
theorem SlotsOf.unfinished {ps : PageSize} {lsn : Nat} {placed rest : List Slot}
    (h : SlotsOf ps lsn (placed ++ rest)) (hrest : rest ≠ []) :
    ∀ slot ∈ placed, slot.unfinished = true := by
  intro slot hslot
  refine h.inner slot ?_
  rw [dropLast_append_of_ne_nil hrest]
  exact mem_append_left _ hslot

section OneShard

variable {su : Setup} {s s' : State} (hone : su.shardCount = 1)

include hone

theorem ownerShard_eq_zero (lsn : Nat) : su.ownerShard lsn = 0 := by
  simp [Setup.ownerShard, shardIdxForLsn, hone]

/-- The shard after a section, which the end of the call does not touch further. -/
theorem afterSection_shard (s : State) (t lsn : Nat) (p : Payload) (sh : Shard)
    (rest : List Slot) :
    ((s.afterSection su t lsn p sh rest).shards 0).active = sh.active ∧
      ((s.afterSection su t lsn p sh rest).shards 0).sealedBuffers = sh.sealedBuffers := by
  unfold State.afterSection
  simp only [ownerShard_eq_zero hone]
  split
  · simp [State.setShard, State.setPc, Shard.publishAppended]
  · simp [State.setShard, State.setPc]

theorem afterSection_log (s : State) (t lsn : Nat) (p : Payload) (sh : Shard)
    (rest : List Slot) : ((s.afterSection su t lsn p sh rest).shards 0).log = sh.log := by
  obtain ⟨hactive, hsealed⟩ := afterSection_shard hone s t lsn p sh rest
  rw [Shard.log, hactive, hsealed, Shard.log]

omit hone in
theorem afterSection_threads (su : Setup) (s : State) (t lsn : Nat) (p : Payload) (sh : Shard)
    (rest : List Slot) :
    (s.afterSection su t lsn p sh rest).threads =
      update s.threads t (if rest = [] then .idle else .waiting lsn p rest) := by
  unfold State.afterSection
  split
  · rfl
  · rfl

omit hone in
theorem afterSection_history (su : Setup) (s : State) (t lsn : Nat) (p : Payload) (sh : Shard)
    (rest : List Slot) :
    (s.afterSection su t lsn p sh rest).nextLsn = s.nextLsn ∧
      (s.afterSection su t lsn p sh rest).appended =
        s.appended ++ if rest = [] then [⟨lsn, p⟩] else [] := by
  unfold State.afterSection
  split
  · exact ⟨rfl, rfl⟩
  · exact ⟨rfl, by simp [State.setShard, State.setPc]⟩

theorem CallsWf.afterSection {t lsn : Nat} {p : Payload} {sh : Shard}
    {rest : List Slot} (h : CallsWf su s) (hlsn : lsn < u64Limit) (hp : p.Valid su.cfg.pageSize)
    (hwf : ShardWf su.cfg.pageSize sh)
    (hrest : ∃ placed, placed ++ rest = p.slots su.cfg.pageSize lsn) :
    CallsWf su (s.afterSection su t lsn p sh rest) := by
  obtain ⟨hactive, hsealed⟩ := afterSection_shard hone s t lsn p sh rest
  obtain ⟨hnext, happended⟩ := afterSection_history su s t lsn p sh rest
  have hthreads := afterSection_threads su s t lsn p sh rest
  refine ⟨⟨?_, ?_⟩, ?_, ?_, ?_, ?_⟩
  · rw [hactive]
    exact hwf.active
  · rw [hsealed]
    exact hwf.sealed
  · rw [hnext]
    exact h.next
  · intro t'
    rw [hthreads]
    by_cases ht : t' = t
    · rw [ht, update_self]
      split
      · exact Nat.two_pow_pos 64
      · exact hlsn
    · rw [update_of_ne ht]
      exact h.threads t'
  · intro t' lsn' p' rest' ht'
    rw [hthreads] at ht'
    by_cases ht : t' = t
    · rw [ht, update_self] at ht'
      split at ht'
      · cases ht'
      · rename_i hne
        cases ht'
        exact ⟨hp, hne, hrest⟩
    · rw [update_of_ne ht] at ht'
      exact h.waiting t' lsn' p' rest' ht'
  intro a ha
  rw [happended, mem_append] at ha
  rcases ha with ha | ha
  · exact h.appended a ha
  · split at ha
    · rw [mem_singleton.mp ha]
      exact ⟨hlsn, hp⟩
    · cases ha

theorem CallsWf.append {t : Nat} {p : Payload} (h : CallsWf su s)
    (hstep : s.append su t p = some s') : CallsWf su s' := by
  obtain ⟨lsn, sh, rest, hpc, hp, happ, rfl⟩ := append_cases hstep
  have hlsn : lsn < u64Limit := by
    have := h.threads t
    rwa [hpc] at this
  rw [ownerShard_eq_zero hone] at happ
  obtain ⟨hwf, -, hplaced⟩ := beginAppend_spec h.shard hlsn hp happ
  refine h.afterSection hone hlsn hp hwf ?_
  rcases hplaced with ⟨rfl, -, -⟩ | ⟨placed, hplaced, -, -⟩
  · exact ⟨_, append_nil _⟩
  · exact ⟨placed, hplaced⟩

theorem CallsWf.resume {t : Nat} (h : CallsWf su s)
    (hstep : s.resume su t = some s') : CallsWf su s' := by
  obtain ⟨lsn, p, slots, sh, rest, hpc, happ, rfl⟩ := resume_cases hstep
  have hlsn : lsn < u64Limit := by
    have := h.threads t
    rwa [hpc] at this
  rw [ownerShard_eq_zero hone] at happ
  obtain ⟨hp, -, placed, hplaced⟩ := h.waiting t lsn p slots hpc
  have hslots : SlotsOf su.cfg.pageSize lsn slots := by
    have := Payload.slots_slotsOf hlsn hp
    rw [← hplaced] at this
    exact this.append_right
  obtain ⟨hwf, -, placed', hplaced', -, -⟩ := appendSlots_spec h.shard hslots happ
  refine h.afterSection hone hlsn hp hwf ⟨placed ++ placed', ?_⟩
  rw [append_assoc, hplaced', hplaced]

theorem lsnFor_eq_nextLsn (s : State) (t : Nat) :
    s.lsnFor su t = s.nextLsn := by
  simp [State.lsnFor, hone]

theorem CallsWf.claim {t : Nat} (h : CallsWf su s)
    (hstep : s.claim su t = some s') : CallsWf su s' := by
  obtain ⟨-, rfl⟩ := claim_cases hstep
  rw [lsnFor_eq_nextLsn hone]
  refine ⟨h.shard, Nat.mod_lt _ (Nat.two_pow_pos 64), ?_, ?_, h.appended⟩
  · intro t'
    simp only [State.setPc]
    by_cases ht : t' = t
    · rw [ht, update_self]
      exact h.next
    · rw [update_of_ne ht]
      exact h.threads t'
  intro t' lsn p rest ht'
  simp only [State.setPc] at ht'
  by_cases ht : t' = t
  · rw [ht, update_self] at ht'
    cases ht'
  · rw [update_of_ne ht] at ht'
    exact h.waiting t' lsn p rest ht'

theorem CallsWf.step {a : Action} (h : CallsWf su s)
    (hstep : step su s a = some s') : CallsWf su s' := by
  have hdriver : a.isDriver = true → CallsWf su s' := by
    intro ha
    have hframe := Frame.of_step ha hstep
    refine ⟨hframe.wf 0 _ h.shard, ?_, ?_, ?_, ?_⟩
    · rw [hframe.nextLsn]
      exact h.next
    · rw [hframe.threads]
      exact h.threads
    · rw [hframe.threads]
      exact h.waiting
    · rw [hframe.appended]
      exact h.appended
  cases a with
  | claim t => exact h.claim hone hstep
  | append t p => exact h.append hone hstep
  | resume t => exact h.resume hone hstep
  | sealActive _ | submit _ | diskWrite _ _ | complete _ _ | storeWritten _ _ | storeDurable _ _
  | syncStart _ | syncDone _ => exact hdriver rfl

omit hone in
theorem CallsWf.opened {maxLsn : Nat → Nat} {nextLsn : Nat} (hnext : nextLsn < u64Limit) :
    CallsWf su (su.opened maxLsn nextLsn) where
  shard := ⟨bufferWf_reset _ _, by simp [Setup.opened, Shard.new]⟩
  next := hnext
  threads := fun _ => Nat.two_pow_pos 64
  waiting := by simp [Setup.opened]
  appended := by simp [Setup.opened]

/-! ## The log as a sequence of records -/

def Appended.pieces (ps : PageSize) (a : Appended) : List Piece := a.payload.pieces ps a.lsn

/-- The log is the appended records in the order in which their calls returned,
and then what the call of a thread `t` that waits has placed of its record. -/
structure InOrder (su : Setup) (s : State) (t : Nat) (placed : List Slot) : Prop where
  pieces : (s.shards 0).pieces =
    s.appended.flatMap (Appended.pieces su.cfg.pageSize) ++ placed.flatMap slotPieces
  waiting : placed ≠ [] → ∃ lsn p rest, s.threads t = .waiting lsn p rest ∧
    placed ++ rest = p.slots su.cfg.pageSize lsn
  partway : ∀ t', (s.threads t').partway su.cfg.pageSize = true → t' = t ∧ placed ≠ []
  unfinished : (s.shards 0).endsUnfinished = !placed.isEmpty

omit hone in
theorem endsUnfinished_append {sh sh₀ : Shard} {placed : List Slot}
    (hlog : sh.log = sh₀.log ++ placed) :
    sh.endsUnfinished = (placed.getLast?.any Slot.unfinished || placed.isEmpty &&
      sh₀.endsUnfinished) := by
  unfold Shard.endsUnfinished
  rw [hlog, List.getLast?_append]
  cases hlast : placed.getLast? with
  | none =>
    have hnil : placed = [] := List.getLast?_eq_none_iff.mp hlast
    simp [hnil]
  | some slot =>
    have hne : placed ≠ [] := by
      rintro rfl
      cases hlast
    simp [hne]

theorem InOrder.returned {t lsn : Nat} {p : Payload} {sh : Shard}
    {before : List Slot} {done : List Piece} (h : InOrder su s t before)
    (hpieces : sh.pieces = (s.shards 0).pieces ++ done)
    (hdone : before.flatMap slotPieces ++ done = p.pieces su.cfg.pageSize lsn)
    (hend : sh.endsUnfinished = false) : InOrder su (s.afterSection su t lsn p sh []) t [] := by
  have hlog := afterSection_log hone s t lsn p sh []
  have hthreads := afterSection_threads su s t lsn p sh []
  obtain ⟨-, happended⟩ := afterSection_history su s t lsn p sh []
  refine ⟨?_, fun hne => absurd rfl hne, ?_, ?_⟩
  · rw [Shard.pieces, hlog, ← Shard.pieces, hpieces, h.pieces, happended, if_pos rfl,
      flatMap_append, append_assoc, hdone]
    simp [Appended.pieces]
  · intro t' ht'
    rw [hthreads] at ht'
    by_cases ht : t' = t
    · rw [ht, update_self, if_pos rfl] at ht'
      cases ht'
    · rw [update_of_ne ht] at ht'
      exact absurd (h.partway t' ht').1 ht
  · rw [Shard.endsUnfinished, hlog]
    exact hend

theorem InOrder.waits {t lsn : Nat} {p : Payload} {sh : Shard}
    {before placed rest : List Slot} (h : InOrder su s t before) (hrest : rest ≠ [])
    (hslots : SlotsOf su.cfg.pageSize lsn (before ++ placed ++ rest))
    (hwhole : before ++ placed ++ rest = p.slots su.cfg.pageSize lsn)
    (hlog : sh.log = (s.shards 0).log ++ placed) :
    InOrder su (s.afterSection su t lsn p sh rest) t (before ++ placed) := by
  have hlog' := afterSection_log hone s t lsn p sh rest
  have hthreads := afterSection_threads su s t lsn p sh rest
  obtain ⟨-, happended⟩ := afterSection_history su s t lsn p sh rest
  rw [if_neg hrest] at hthreads happended
  have hself : (s.afterSection su t lsn p sh rest).threads t = .waiting lsn p rest := by
    rw [hthreads, update_self]
  refine ⟨?_, fun _ => ⟨lsn, p, rest, hself, hwhole⟩, ?_, ?_⟩
  · have hold := h.pieces
    unfold Shard.pieces at hold ⊢
    rw [hlog', hlog, flatMap_append, hold, happended, append_nil, flatMap_append, append_assoc]
  · intro t' ht'
    by_cases ht : t' = t
    · refine ⟨ht, fun hnil => ?_⟩
      rw [ht, hself] at ht'
      rw [hnil, nil_append] at hwhole
      simp [Pc.partway, hwhole] at ht'
    · rw [hthreads, update_of_ne ht] at ht'
      exact absurd (h.partway t' ht').1 ht
  rw [Shard.endsUnfinished, hlog', ← Shard.endsUnfinished, endsUnfinished_append hlog,
    h.unfinished]
  cases hlast : placed.getLast? with
  | none =>
    have hnil : placed = [] := List.getLast?_eq_none_iff.mp hlast
    simp [hnil]
  | some slot =>
    have hmem : slot ∈ placed := mem_of_getLast? hlast
    have hne : placed ≠ [] := ne_nil_of_mem hmem
    have hun := hslots.unfinished hrest slot (mem_append_right _ hmem)
    simp [hun, hne]

theorem InOrder.place {t lsn : Nat} {p : Payload} {sh : Shard}
    {before slots placed rest : List Slot} (h : InOrder su s t before) (hne : slots ≠ [])
    (hwhole : before ++ slots = p.slots su.cfg.pageSize lsn)
    (hslots : SlotsOf su.cfg.pageSize lsn (p.slots su.cfg.pageSize lsn))
    (hplaced : placed ++ rest = slots) (hlog : sh.log = (s.shards 0).log ++ placed) :
    ∃ t' placed', InOrder su (s.afterSection su t lsn p sh rest) t' placed' := by
  subst hplaced
  by_cases hrest : rest = []
  · subst hrest
    rw [append_nil] at hwhole hne
    have hpieces : sh.pieces = (s.shards 0).pieces ++ placed.flatMap slotPieces := by
      rw [Shard.pieces, hlog, flatMap_append, Shard.pieces]
    refine ⟨t, [], h.returned hone hpieces ?_ ?_⟩
    · rw [← flatMap_append, hwhole, Payload.pieces]
    rw [endsUnfinished_append hlog]
    have hlast : ∀ slot ∈ placed.getLast?, slot.unfinished = false := by
      rw [← hwhole] at hslots
      exact hslots.append_right.last
    cases hget : placed.getLast? with
    | none => exact absurd (List.getLast?_eq_none_iff.mp hget) hne
    | some slot => simp [hlast slot hget, hne]
  · rw [← append_assoc] at hwhole
    exact ⟨t, before ++ placed, h.waits hone hrest (hwhole ▸ hslots) hwhole hlog⟩

omit hone in
/-- When the log does not end inside a record, no call is between two chunks. -/
theorem InOrder.finished {t : Nat} {placed : List Slot} (h : InOrder su s t placed)
    (hend : (s.shards 0).endsUnfinished = false) (t' : Nat) : InOrder su s t' [] := by
  have hnil : placed = [] := by
    have := h.unfinished
    rw [hend] at this
    simpa using this.symm
  subst hnil
  exact ⟨h.pieces, fun hne => absurd rfl hne, fun x hx => absurd rfl (h.partway x hx).2,
    h.unfinished⟩

omit hone in
theorem slots_ne_nil (ps : PageSize) (lsn : Nat) (p : Payload) : p.slots ps lsn ≠ [] := by
  have hchunks : ∀ r, chunkSlots ps r ≠ [] := by
    intro r
    have : 0 < chunkCount ps r.payload.length :=
      Nat.lt_of_lt_of_le Nat.one_pos (Nat.le_max_right _ _)
    simp [chunkSlots]
    omega
  cases p with
  | pageImage pageId page => simp [Payload.slots]
  | pageImageBytes pageId page => exact hchunks _
  | logical kind bytes =>
    rw [Payload.slots]
    split
    · simp
    · exact hchunks _

theorem InOrder.append {t t₀ : Nat} {placed₀ : List Slot} {p : Payload}
    (hwf : CallsWf su s) (h : InOrder su s t₀ placed₀)
    (hsafe : ChunksTogether su s (.append t p)) (hstep : s.append su t p = some s') :
    ∃ t' placed', InOrder su s' t' placed' := by
  obtain ⟨lsn, sh, rest, hpc, hp, happ, rfl⟩ := append_cases hstep
  have hlsn : lsn < u64Limit := by
    have := hwf.threads t
    rwa [hpc] at this
  simp only [ChunksTogether, ownerShard_eq_zero hone] at hsafe
  rw [ownerShard_eq_zero hone] at happ
  have hclear := h.finished hsafe t
  have hslots := Payload.slots_slotsOf hlsn hp
  obtain ⟨-, -, hsection⟩ := beginAppend_spec hwf.shard hlsn hp happ
  rcases hsection with ⟨rfl, hlast, hext⟩ | ⟨placed, hplaced, hlog, -⟩
  · refine ⟨t, [], hclear.returned hone hext.pieces rfl ?_⟩
    unfold Shard.endsUnfinished
    cases hget : sh.log.getLast? with
    | none => rfl
    | some slot => exact hlast slot hget
  · exact hclear.place hone (slots_ne_nil _ _ p) rfl hslots hplaced hlog

theorem InOrder.resume {t t₀ : Nat} {placed₀ : List Slot}
    (hwf : CallsWf su s) (h : InOrder su s t₀ placed₀)
    (hsafe : ChunksTogether su s (.resume t)) (hstep : s.resume su t = some s') :
    ∃ t' placed', InOrder su s' t' placed' := by
  obtain ⟨lsn, p, slots, sh, rest, hpc, happ, rfl⟩ := resume_cases hstep
  have hlsn : lsn < u64Limit := by
    have := hwf.threads t
    rwa [hpc] at this
  simp only [ChunksTogether, ownerShard_eq_zero hone] at hsafe
  rw [ownerShard_eq_zero hone] at happ
  obtain ⟨hp, hne, before, hbefore⟩ := hwf.waiting t lsn p slots hpc
  have hslots := Payload.slots_slotsOf hlsn hp
  have hin : InOrder su s t before := by
    cases hend : (s.shards 0).endsUnfinished with
    | true =>
      -- the unfinished record is the one of this call
      obtain ⟨rfl, hne₀⟩ := h.partway t (hsafe hend)
      obtain ⟨lsn', p', rest', hpc', hplaced⟩ := h.waiting hne₀
      rw [hpc] at hpc'
      cases hpc'
      rw [← hbefore] at hplaced
      rwa [← append_cancel_right hplaced]
    | false =>
      have hclear := h.finished hend t
      have hnil : before = [] := by
        have hstart : ¬(s.threads t).partway su.cfg.pageSize = true :=
          fun hpart => (hclear.partway t hpart).2 rfl
        simp only [hpc, Pc.partway, decide_eq_true_eq, not_not] at hstart
        rw [← hstart] at hbefore
        simpa using hbefore
      rwa [hnil]
  have hslots' : SlotsOf su.cfg.pageSize lsn slots := by
    rw [← hbefore] at hslots
    exact hslots.append_right
  obtain ⟨-, -, placed, hplaced, hlog, -⟩ := appendSlots_spec hwf.shard hslots' happ
  exact hin.place hone hne hbefore hslots hplaced hlog

theorem InOrder.step {a : Action} {t₀ : Nat} {placed₀ : List Slot}
    (hwf : CallsWf su s) (h : InOrder su s t₀ placed₀) (hsafe : ChunksTogether su s a)
    (hstep : step su s a = some s') : ∃ t' placed', InOrder su s' t' placed' := by
  have hdriver : a.isDriver = true → ∃ t' placed', InOrder su s' t' placed' := by
    intro ha
    have hframe := Frame.of_step ha hstep
    refine ⟨t₀, placed₀, ?_, ?_, ?_, ?_⟩
    · rw [Shard.pieces, hframe.log, hframe.appended]
      exact h.pieces
    · rw [hframe.threads]
      exact h.waiting
    · rw [hframe.threads]
      exact h.partway
    · rw [Shard.endsUnfinished, hframe.log]
      exact h.unfinished
  cases a with
  | claim t =>
    obtain ⟨hidle, rfl⟩ := claim_cases hstep
    refine ⟨t₀, placed₀, h.pieces, ?_, ?_, h.unfinished⟩
    · intro hne
      obtain ⟨lsn, p, rest, hpc, hplaced⟩ := h.waiting hne
      have ht : t₀ ≠ t := by
        rintro rfl
        rw [hidle] at hpc
        cases hpc
      refine ⟨lsn, p, rest, ?_, hplaced⟩
      rw [← hpc]
      exact update_of_ne ht _ _
    intro t' ht'
    simp only [State.setPc] at ht'
    by_cases ht : t' = t
    · rw [ht, update_self] at ht'
      cases ht'
    · rw [update_of_ne ht] at ht'
      exact h.partway t' ht'
  | append t p => exact h.append hone hwf hsafe hstep
  | resume t => exact h.resume hone hwf hsafe hstep
  | sealActive _ | submit _ | diskWrite _ _ | complete _ _ | storeWritten _ _ | storeDurable _ _
  | syncStart _ | syncDone _ => exact hdriver rfl

end OneShard

theorem scan_appended {ps : PageSize} {as : List Appended}
    (h : ∀ a ∈ as, a.lsn < u64Limit ∧ a.payload.Valid ps) (part : Partial) :
    ∃ part', scan (replayPiece ps) part (as.flatMap (Appended.pieces ps)) =
      (as.map (fun a => a.payload.delivered a.lsn), some part') := by
  induction as generalizing part with
  | nil => exact ⟨part, rfl⟩
  | cons a as ih =>
    obtain ⟨hlsn, hvalid⟩ := h a mem_cons_self
    obtain ⟨part₁, hfirst⟩ := scan_payload hlsn hvalid part
    obtain ⟨part₂, hrest⟩ := ih (fun x hx => h x (mem_cons_of_mem _ hx)) part₁
    refine ⟨part₂, ?_⟩
    rw [flatMap_cons, Appended.pieces, scan_append_of_some hfirst, hrest]
    rfl

theorem replayPiece_unfinished {ps : PageSize} {slot : Slot} (h : slot.unfinished = true) :
    ∀ piece ∈ slotPieces slot, ∀ part, (replayPiece ps part piece).1 = [] := by
  simp only [Slot.unfinished, decide_eq_true_eq] at h
  obtain ⟨hkind, hlast⟩ := h
  intro piece hpiece part
  simp only [slotPieces, hkind, mem_singleton] at hpiece
  rw [hpiece, replayPiece, replayChunk, hlast]
  split
  · rfl
  · rfl

/-- In every run in which chunks stay together, the replay of the flushed file of
the shard delivers every appended record once, in order and complete. -/
theorem replay_delivers_appended {su : Setup} {maxLsn : Nat → Nat} {nextLsn : Nat} {s : State}
    (hone : su.shardCount = 1) (hnext : nextLsn < u64Limit)
    (h : Reach (step su) (ChunksTogether su) (su.opened maxLsn nextLsn) s)
    (hflushed : (s.shards 0).flushed = true) (crc : Bytes → Nat) :
    replayRecords su.cfg.pageSize crc ((s.shards 0).file crc) =
      s.appended.map fun a => a.payload.delivered a.lsn := by
  have hinv : CallsWf su s ∧ ∃ t placed, InOrder su s t placed := by
    refine h.invariant (I := fun s => CallsWf su s ∧ ∃ t placed, InOrder su s t placed)
      ⟨.opened hnext, 0, [], ?_⟩ ?_
    · exact ⟨rfl, fun hne => absurd rfl hne, fun _ ht => (by cases ht), rfl⟩
    · rintro s a s' ⟨hwf, t, placed, hin⟩ hsafe hstep
      exact ⟨hwf.step hone hstep, hin.step hone hwf hsafe hstep⟩
  obtain ⟨hwf, t, placed, hin⟩ := hinv
  rw [file_of_flushed hflushed, replayRecords_finalized crc hwf.shard.log_wf, ← Shard.pieces,
    hin.pieces]
  obtain ⟨part, hscan⟩ := scan_appended hwf.appended .empty
  rw [scan_append_of_some hscan]
  -- a record that is still being appended delivers nothing
  have hsilent : (scan (replayPiece su.cfg.pageSize) part (placed.flatMap slotPieces)).1 = [] := by
    refine scan_silent ?_ part
    intro piece hpiece
    obtain ⟨slot, hslot, hpiece⟩ := mem_flatMap.mp hpiece
    obtain ⟨lsn, p, rest, hpc, hplaced⟩ := hin.waiting (ne_nil_of_mem hslot)
    obtain ⟨hp, hne, -⟩ := hwf.waiting t lsn p rest hpc
    have hlsn : lsn < u64Limit := by
      have := hwf.threads t
      rwa [hpc] at this
    have hof := Payload.slots_slotsOf hlsn hp
    rw [← hplaced] at hof
    exact replayPiece_unfinished (hof.unfinished hne slot hslot) piece hpiece
  rw [hsilent, append_nil]

def tinyBuffers : Setup := ⟨⟨.k4, 1, .fdatasync⟩, 1, fun _ => 0⟩

def threeChunks : Payload := .logical 7 (replicate 8193 1)

def shortRecord : Payload := .logical 8 [2]

def writeActions (k : Nat) : List Action := [.submit 0, .diskWrite 0 k, .complete 0 k]

/-- A record of three chunks waits for a buffer and is completed before a short
record follows. -/
def togetherRun : List Action :=
  [.claim 0, .append 0 threeChunks] ++ writeActions 0 ++ [.resume 0] ++ writeActions 1 ++
    [.sealActive 0] ++ writeActions 2 ++ [.claim 1, .append 1 shortRecord, .sealActive 0] ++
    writeActions 3

theorem replay_delivers_three_chunks :
    ∃ s, Reach (step tinyBuffers) (ChunksTogether tinyBuffers)
      (tinyBuffers.opened (fun _ => 0) 1) s ∧
      s.appended.map Appended.lsn = [1, 2] ∧
      ∀ crc, replayRecords .k4 crc ((s.shards 0).file crc) =
        s.appended.map fun a => a.payload.delivered a.lsn := by
  have hrun : (exec (guarded (fun s a => decide (ChunksTogether tinyBuffers s a))
      (step tinyBuffers))
      (tinyBuffers.opened (fun _ => 0) 1) togetherRun).map
        (fun s => ((s.shards 0).flushed, s.appended.map Appended.lsn)) = some (true, [1, 2]) := by
    decide +kernel
  obtain ⟨s, hexec, hs⟩ := Option.map_eq_some_iff.mp hrun
  simp only [Prod.mk.injEq] at hs
  have hreach := Reach.of_exec hexec fun _ _ => of_decide_eq_true
  exact ⟨s, hreach, hs.2, fun crc => replay_delivers_appended rfl (by decide) hreach hs.1 crc⟩

/-! ## A record in the middle of another

A buffer holds one data page.  The first thread appends a record of three chunks:
the first chunk fills the active buffer, the second the spare one, and the call
waits for the first buffer to come back.  When it does, the second thread takes
it for a short record, and the third chunk follows after that record.  The replay
drops the two chunks at the short record and stops at the third one. -/

def interleavedRun : List Action :=
  [.claim 0, .append 0 threeChunks] ++ writeActions 0 ++ [.claim 1, .append 1 shortRecord] ++
    writeActions 1 ++ [.resume 0] ++ writeActions 2 ++ [.sealActive 0] ++ writeActions 3

theorem interleavedRun_loses_record :
    ∃ s, exec (step tinyBuffers) (tinyBuffers.opened (fun _ => 0) 1) interleavedRun = some s ∧
      (s.shards 0).flushed = true ∧ s.appended.map Appended.lsn = [2, 1] ∧
      ∀ crc, (replayRecords .k4 crc ((s.shards 0).file crc)).map ReplayRecord.lsn = [2] := by
  have hrun : (exec (step tinyBuffers) (tinyBuffers.opened (fun _ => 0) 1) interleavedRun).map
      (fun s => ((s.shards 0).flushed, s.appended.map Appended.lsn,
        (scan (replayPiece .k4) .empty (s.shards 0).pieces).1.map ReplayRecord.lsn)) =
      some (true, [2, 1], [2]) := by
    decide +kernel
  obtain ⟨s, hexec, hs⟩ := Option.map_eq_some_iff.mp hrun
  simp only [Prod.mk.injEq] at hs
  obtain ⟨hflushed, happended, hscan⟩ := hs
  have hwf : CallsWf tinyBuffers s :=
    (Reach.of_exec_any hexec).invariant (.opened (by decide)) fun _ _ _ h _ hstep =>
      h.step rfl hstep
  refine ⟨s, hexec, hflushed, happended, fun crc => ?_⟩
  have hreplay := replayRecords_finalized crc hwf.shard.log_wf
  rw [← file_of_flushed hflushed] at hreplay
  exact (congrArg (List.map ReplayRecord.lsn) hreplay).trans hscan

end Pagebox.Wal
