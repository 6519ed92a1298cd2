import Pagebox.Base.Runs
import Pagebox.Wal.Appender
import Pagebox.Wal.Driver

/-!
# Where the buffers of a shard are

A shard has a fixed number of append buffers.  Each is the active one, spare, sealed
and waiting to be written, or being written.  Appenders and the driver take a spare
buffer when they seal the active one, in sections of the state mutex; an appender that
finds no spare buffer waits with the mutex released, and seals when it is woken without
looking at the active buffer again.
-/

namespace Pagebox.Wal

open Pagebox.Base List

namespace Shard

def pendingWrites (sh : Shard) : Nat := sh.sealedBuffers.countP (·.phase = .pending)

/-- The buffers that the backend has, or whose completion is not handled yet. -/
def inFlight (sh : Shard) : Nat :=
  sh.sealedBuffers.countP fun b => b.phase = .inFlight ∨ b.phase = .onDisk

/-- The section of `driver_loop` that seals and takes the next write.  `wanted` says
that a write was requested, is due in relaxed mode or comes with shutdown; no result is
the panic of `empty_buffer_locked`. -/
def driverSection (cfg : Config) (wanted : Bool) (sh : Shard) : Option Shard :=
  if sh.writesInProgress < cfg.backend.maxInFlightWrites ∧
      (sh.pendingWrites ≠ 0 ∨ sh.spareBuffers ≠ 0) ∧ (wanted = true ∨ sh.pendingWrites ≠ 0) then do
    let sh ← if sh.pendingWrites = 0 then sh.sealActive else some sh
    some ((sh.submit cfg).getD sh)
  else some sh

end Shard

/-- A shard and the slots that threads have still to append when they are woken. -/
structure BufferRun where
  shard : Shard
  waiting : Nat → List Slot

namespace BufferRun

inductive Action
  | append (t lsn : Nat) (p : Payload)
  | resume (t : Nat)
  | driver (wanted : Bool)
  | diskWrite (k : Nat)
  | complete (k : Nat)

variable (cfg : Config)

def start (maxLsn : Nat) : BufferRun := ⟨Shard.new cfg maxLsn, fun _ => []⟩

def afterSection (s : BufferRun) (t : Nat) (r : Shard × List Slot) : BufferRun :=
  ⟨r.1, Function.update s.waiting t r.2⟩

/-- What an action does: nothing when it is not enabled; no state when it asks for a
spare buffer and there is none. -/
def attempt (s : BufferRun) : Action → Option (Option BufferRun)
  | .append t lsn p =>
    if s.waiting t = [] ∧ p.Valid cfg.pageSize then
      some ((s.shard.beginAppend cfg lsn p).map (s.afterSection t))
    else none
  | .resume t =>
    if s.waiting t ≠ [] then
      some ((s.shard.appendSlots cfg true (s.waiting t)).map (s.afterSection t))
    else none
  | .driver wanted => some ((s.shard.driverSection cfg wanted).map fun shard => { s with shard })
  | .diskWrite k => (s.shard.diskWrite cfg k).map fun shard => some { s with shard }
  | .complete k => (s.shard.complete cfg k).map fun shard => some { s with shard }

def step (s : BufferRun) (act : Action) : Option BufferRun := (s.attempt cfg act).join

end BufferRun

/-! ## Buffers within their bounds -/

/-- A buffer that does not exceed its capacity, with no batch beyond the limit. -/
structure WalBuffer.InBounds (cfg : Config) (b : WalBuffer) : Prop where
  used : b.used cfg.pageSize ≤ cfg.capacity
  batches : ∀ batch ∈ b.batches, batch.length ≤ batchMaxRecords cfg.pageSize
  openBatch : b.openBatch = true →
    ∃ batch rest, b.batches = batch :: rest ∧ batch.length < batchMaxRecords cfg.pageSize

namespace WalBuffer.InBounds

variable {cfg : Config} {b : WalBuffer}

theorem reset (cfg : Config) (epoch : Nat) : InBounds cfg (WalBuffer.reset epoch) :=
  ⟨Nat.zero_le _, nofun, nofun⟩

/-- The batch that the next slot goes into, and the bytes that both take. -/
theorem openBatchIfNeeded (h : InBounds cfg b) :
    ∃ batch rest, (b.openBatchIfNeeded cfg.pageSize).batches = batch :: rest ∧
      batch.length < batchMaxRecords cfg.pageSize ∧
      (∀ x ∈ rest, x.length ≤ batchMaxRecords cfg.pageSize) ∧
      (batchPages (batch :: rest) + 1) * cfg.pageSize.bytes =
        b.used cfg.pageSize + b.needed cfg.pageSize := by
  rw [used_eq, WalBuffer.needed, WalBuffer.openBatchIfNeeded]
  cases hnew : b.needsNewBatch cfg.pageSize with
  | true =>
    refine ⟨[], b.batches, by rw [if_pos rfl], batchMaxRecords_pos _, h.batches, ?_⟩
    rw [if_pos rfl, batchPages_cons, length_nil]
    ring
  | false =>
    have hopen : b.openBatch = true := by
      rw [WalBuffer.needsNewBatch, Bool.or_eq_false_iff] at hnew
      simpa using hnew.1
    obtain ⟨batch, rest, hbatches, hlt⟩ := h.openBatch hopen
    refine ⟨batch, rest, ?_, hlt, fun x hx => h.batches x (hbatches ▸ mem_cons_of_mem _ hx), ?_⟩
    · rw [if_neg Bool.false_ne_true, hbatches]
    · rw [if_neg Bool.false_ne_true, hbatches]
      ring

theorem pushSlot (h : InBounds cfg b) (hfits : b.fits cfg = true) (slot : Slot) :
    InBounds cfg (b.pushSlot cfg.pageSize slot) := by
  obtain ⟨batch, rest, hbatches, hlt, hrest, hbytes⟩ := h.openBatchIfNeeded
  have hroom : b.used cfg.pageSize + b.needed cfg.pageSize ≤ cfg.capacity := of_decide_eq_true hfits
  have hpages : batchPages ((slot :: batch) :: rest) = batchPages (batch :: rest) + 1 := by
    rw [batchPages_cons, batchPages_cons, length_cons]
    omega
  rw [WalBuffer.pushSlot, WalBuffer.finishSlot, hbatches]
  refine ⟨?_, ?_, ?_⟩
  · rw [used_eq, hpages, hbytes]
    exact hroom
  · intro x hx
    rcases mem_cons.mp hx with rfl | hx
    · exact hlt
    · exact hrest x hx
  · intro hopen
    refine ⟨slot :: batch, rest, rfl, ?_⟩
    have hne : batch.length + 1 ≠ batchMaxRecords cfg.pageSize := by simpa using hopen
    rw [length_cons]
    omega

theorem congr {b' : WalBuffer} (h : InBounds cfg b)
    (hshape : b'.batches.map List.length = b.batches.map List.length)
    (hopen : b'.openBatch = b.openBatch) : InBounds cfg b' := by
  have hpages : batchPages b'.batches = batchPages b.batches := batchPages_congr hshape
  refine ⟨by rw [used_eq, hpages, ← used_eq]; exact h.used, ?_, ?_⟩
  · intro batch hbatch
    have hmem : batch.length ∈ b.batches.map List.length :=
      hshape ▸ mem_map_of_mem (f := List.length) hbatch
    obtain ⟨old, hold, heq⟩ := mem_map.mp hmem
    exact heq ▸ h.batches old hold
  · intro htrue
    obtain ⟨batch, rest, hbatches, hlt⟩ := h.openBatch (hopen ▸ htrue)
    rw [hbatches, map_cons] at hshape
    obtain ⟨batch', rest', hbatches', heq, -⟩ := map_eq_cons_iff.mp hshape
    exact ⟨batch', rest', hbatches', heq ▸ hlt⟩

end WalBuffer.InBounds

/-! ## The accounts of a shard -/

/-- Every buffer is somewhere, and all are within their bounds. -/
structure Shard.Accounted (cfg : Config) (sh : Shard) : Prop where
  count : 1 + sh.spareBuffers + sh.pendingWrites + sh.inFlight = cfg.bufferCountLimit
  writes : sh.writesInProgress = sh.inFlight
  active : sh.active.InBounds cfg
  sealedUsed : ∀ b ∈ sh.sealedBuffers, batchPages b.batches * cfg.pageSize.bytes ≤ cfg.capacity
  sealedBatches : ∀ b ∈ sh.sealedBuffers, ∀ batch ∈ b.batches,
    batch.length ≤ batchMaxRecords cfg.pageSize

namespace Shard.Accounted

variable {cfg : Config} {sh sh' : Shard}

theorem new (cfg : Config) (maxLsn : Nat) : (Shard.new cfg maxLsn).Accounted cfg where
  count := by
    have hlimit : 1 ≤ cfg.bufferCountLimit := by
      rw [Config.bufferCountLimit]
      split <;> omega
    show 1 + (cfg.bufferCountLimit - 1) + 0 + 0 = cfg.bufferCountLimit
    omega
  writes := rfl
  active := .reset cfg 1
  sealedUsed := nofun
  sealedBatches := nofun

theorem setActive (h : sh.Accounted cfg) {active : WalBuffer} (hactive : active.InBounds cfg) :
    ({ sh with active } : Shard).Accounted cfg :=
  ⟨h.count, h.writes, hactive, h.sealedUsed, h.sealedBatches⟩

theorem sealActive (h : sh.Accounted cfg) (hspare : sh.spareBuffers ≠ 0) :
    ∃ sh', sh.sealActive = some sh' ∧ sh'.Accounted cfg ∧ sh'.active.batches = [] ∧
      sh'.writesInProgress = sh.writesInProgress := by
  by_cases hempty : sh.active.batches = []
  · exact ⟨sh, by rw [Shard.sealActive, if_pos hempty], h, hempty, rfl⟩
  have hseal : sh.sealActive = some { sh with
      active := WalBuffer.reset sh.nextBufferEpoch
      spareBuffers := sh.spareBuffers - 1
      nextBufferEpoch := sh.nextBufferEpoch + 1
      sealedBuffers := sh.sealedBuffers ++
        [⟨sh.active.batches, sh.active.maxLsn, .pending, false⟩] } := by
    rw [Shard.sealActive, if_neg hempty, if_neg hspare]
  refine ⟨_, hseal, ?_, rfl, rfl⟩
  have hcount := h.count
  refine ⟨?_, ?_, .reset cfg _, ?_, ?_⟩
  · simp only [pendingWrites, inFlight, countP_append, countP_singleton] at hcount ⊢
    simp only [decide_true, if_true, reduceCtorEq, or_self, decide_false,
      Bool.false_eq_true, if_false]
    omega
  · simp only [inFlight, countP_append, countP_singleton, reduceCtorEq, or_self,
      decide_false, Bool.false_eq_true, if_false, Nat.add_zero]
    exact h.writes
  · intro b hb
    rcases mem_append.mp hb with hb | hb
    · exact h.sealedUsed b hb
    · rw [mem_singleton.mp hb, ← used_eq]
      exact h.active.used
  · intro b hb
    rcases mem_append.mp hb with hb | hb
    · exact h.sealedBatches b hb
    · rw [mem_singleton.mp hb]
      exact h.active.batches

theorem clearPacked (h : sh.Accounted cfg) : sh.clearPacked.Accounted cfg :=
  h.setActive (h.active.congr rfl rfl)

theorem push (h : sh.Accounted cfg) (hfits : sh.active.fits cfg = true) (slot : Slot) :
    (sh.push cfg slot).Accounted cfg :=
  h.setActive ((h.active.pushSlot hfits slot).congr rfl rfl)

/-- The loop of an append finds a spare buffer when it takes one. -/
theorem appendSlots (h : sh.Accounted cfg) (woken : Bool) (slots : List Slot) :
    ∃ sh' rest, sh.appendSlots cfg woken slots = some (sh', rest) ∧ sh'.Accounted cfg := by
  induction slots generalizing sh woken with
  | nil => exact ⟨sh, [], rfl, h⟩
  | cons slot rest ih =>
    rw [Shard.appendSlots]
    have hsh : (if woken then sh else sh.clearPacked).Accounted cfg := by
      split
      · exact h
      · exact h.clearPacked
    generalize (if woken then sh else sh.clearPacked) = sh₁ at hsh ⊢
    split
    · split
      · exact ⟨sh₁, slot :: rest, rfl, hsh⟩
      · rename_i hspare
        obtain ⟨sh₂, hseal, hsh₂, hempty, -⟩ := hsh.sealActive hspare
        obtain ⟨sh₃, rest', happ, hsh₃⟩ := ih (hsh₂.push (fits_of_empty hempty) slot) false
        exact ⟨sh₃, rest', by rw [hseal]; exact happ, hsh₃⟩
    · rename_i hroom
      rw [not_or, Bool.not_eq_false] at hroom
      exact ih (hsh.push hroom.2 slot) false

theorem beginAppend (h : sh.Accounted cfg) (lsn : Nat) (p : Payload) :
    ∃ sh' rest, sh.beginAppend cfg lsn p = some (sh', rest) ∧ sh'.Accounted cfg := by
  rw [Shard.beginAppend]
  split
  · split
    · rename_i active hjoin
      refine ⟨_, [], rfl, h.setActive (h.active.congr ?_ ?_)⟩
      all_goals
        unfold WalBuffer.tryAppendPackedLogical at hjoin
        split at hjoin
        · rename_i packed slot batch rest hopen hbatches
          simp only at hjoin
          split at hjoin
          · cases hjoin
          · cases hjoin
            simp [hbatches]
        · cases hjoin
    · exact h.appendSlots false _
  · exact h.appendSlots false _

theorem setSealed (h : sh.Accounted cfg) {k : Nat} {b : SealedBuffer} (b' : SealedBuffer)
    (hk : sh.sealedBuffers[k]? = some b) (hbatches : b'.batches = b.batches)
    {spare epoch writes : Nat} {submitted : SubmittedWrites} {written durable : List Nat}
    (hcount : 1 + spare + (sh.sealedBuffers.set k b').countP (·.phase = .pending) +
      (sh.sealedBuffers.set k b').countP (fun b => b.phase = .inFlight ∨ b.phase = .onDisk) =
        cfg.bufferCountLimit)
    (hwrites : writes = (sh.sealedBuffers.set k b').countP
      fun b => b.phase = .inFlight ∨ b.phase = .onDisk) :
    ({ sh with
      sealedBuffers := sh.sealedBuffers.set k b'
      submittedWrites := submitted
      spareBuffers := spare
      nextBufferEpoch := epoch
      writesInProgress := writes
      publishWritten := written
      publishDurable := durable } : Shard).Accounted cfg := by
  have hmem := mem_of_getElem? hk
  refine ⟨hcount, hwrites, h.active, ?_, ?_⟩
  · intro x hx
    rcases mem_or_eq_of_mem_set hx with hx | rfl
    · exact h.sealedUsed x hx
    · rw [hbatches]
      exact h.sealedUsed b hmem
  · intro x hx
    rcases mem_or_eq_of_mem_set hx with hx | rfl
    · exact h.sealedBatches x hx
    · rw [hbatches]
      exact h.sealedBatches b hmem

theorem countP_set_phase {bs : List SealedBuffer} {k : Nat} {b : SealedBuffer}
    (hk : bs[k]? = some b) (b' : SealedBuffer) (test : SealedBuffer → Bool) :
    (bs.set k b').countP test + (if test b then 1 else 0) =
      bs.countP test + (if test b' then 1 else 0) := by
  obtain ⟨hlt, hget⟩ := List.getElem?_eq_some_iff.mp hk
  have hpos : test b = true → 0 < bs.countP test := fun hb =>
    countP_pos_iff.mpr ⟨b, mem_of_getElem? hk, hb⟩
  rw [countP_set hlt, hget]
  split
  · rename_i hb
    have := hpos hb
    omega
  · omega

theorem submit (h : sh.Accounted cfg) (hsubmit : sh.submit cfg = some sh') : sh'.Accounted cfg := by
  obtain ⟨-, k, b, hk, hphase, -, rfl⟩ := Shard.submit_spec hsubmit
  have hcount := h.count
  have hwrites := h.writes
  have hpending := countP_set_phase hk { b with phase := .inFlight } (·.phase = .pending)
  have hflight := countP_set_phase hk { b with phase := .inFlight }
    fun b => b.phase = .inFlight ∨ b.phase = .onDisk
  simp only [hphase, reduceCtorEq, or_self, or_false, decide_true, decide_false, if_true,
    Bool.false_eq_true, if_false] at hpending hflight
  simp only [pendingWrites, inFlight] at hcount hwrites
  exact h.setSealed { b with phase := .inFlight } hk rfl (by omega) (by omega)

theorem diskWrite {k : Nat} (h : sh.Accounted cfg) (hwrite : sh.diskWrite cfg k = some sh') :
    sh'.Accounted cfg := by
  obtain ⟨b, hk, hphase, rfl⟩ := Shard.diskWrite_spec hwrite
  have hcount := h.count
  have hwrites := h.writes
  set b' : SealedBuffer := { b with
    phase := .onDisk, synced := b.synced || cfg.backend = .pwritev2Dsync }
  have hphase' : b'.phase = .onDisk := rfl
  have hpending := countP_set_phase hk b' (·.phase = .pending)
  have hflight := countP_set_phase hk b' fun b => b.phase = .inFlight ∨ b.phase = .onDisk
  simp only [hphase', hphase, reduceCtorEq, or_false, or_true, decide_true, decide_false, if_true,
    Bool.false_eq_true, if_false] at hpending hflight
  simp only [pendingWrites, inFlight] at hcount hwrites
  exact h.setSealed b' hk rfl (by omega) (by omega)

theorem complete {k : Nat} (h : sh.Accounted cfg) (hcomplete : sh.complete cfg k = some sh') :
    sh'.Accounted cfg := by
  obtain ⟨b, w, contiguous, hk, hphase, -, rfl⟩ := Shard.complete_spec hcomplete
  have hcount := h.count
  have hwrites := h.writes
  have hpending := countP_set_phase hk { b with phase := .returned } (·.phase = .pending)
  have hflight := countP_set_phase hk { b with phase := .returned }
    fun b => b.phase = .inFlight ∨ b.phase = .onDisk
  simp only [hphase, reduceCtorEq, or_self, or_true, decide_true, decide_false, if_true,
    Bool.false_eq_true, if_false] at hpending hflight
  simp only [pendingWrites, inFlight] at hcount hwrites
  exact h.setSealed { b with phase := .returned } hk rfl (by omega) (by omega)

/-- The driver seals only when it has seen a spare buffer. -/
theorem driverSection (h : sh.Accounted cfg) (wanted : Bool) :
    ∃ sh', sh.driverSection cfg wanted = some sh' ∧ sh'.Accounted cfg := by
  have hsubmit : ∀ {sh₁ : Shard}, sh₁.Accounted cfg →
      ((sh₁.submit cfg).getD sh₁).Accounted cfg := by
    intro sh₁ h₁
    cases hs : sh₁.submit cfg with
    | none => exact h₁
    | some sh₂ => exact h₁.submit hs
  rw [Shard.driverSection]
  split
  · rename_i hwrite
    by_cases hpending : sh.pendingWrites = 0
    · obtain ⟨sh₁, hseal, h₁, -⟩ := h.sealActive (hwrite.2.1.resolve_left fun hne => hne hpending)
      exact ⟨_, by rw [if_pos hpending, hseal]; rfl, hsubmit h₁⟩
    · exact ⟨_, by rw [if_neg hpending]; rfl, hsubmit h⟩
  · exact ⟨sh, rfl, h⟩

end Shard.Accounted

namespace BufferRun

variable {cfg : Config} {s s' : BufferRun}

/-- No section asks for a spare buffer in vain. -/
theorem attempt_ne_panic (h : s.shard.Accounted cfg) (act : Action) :
    s.attempt cfg act ≠ some none := by
  cases act with
  | append t lsn p =>
    rw [attempt]
    split
    · obtain ⟨sh, rest, happ, -⟩ := h.beginAppend lsn p
      rw [happ]
      exact nofun
    · exact nofun
  | resume t =>
    rw [attempt]
    split
    · obtain ⟨sh, rest, happ, -⟩ := h.appendSlots true (s.waiting t)
      rw [happ]
      exact nofun
    · exact nofun
  | driver wanted =>
    obtain ⟨sh, hsection, -⟩ := h.driverSection wanted
    rw [attempt, hsection]
    exact nofun
  | diskWrite k =>
    rw [attempt]
    cases s.shard.diskWrite cfg k <;> exact nofun
  | complete k =>
    rw [attempt]
    cases s.shard.complete cfg k <;> exact nofun

theorem accounted_step (h : s.shard.Accounted cfg) {act : Action}
    (hstep : s.step cfg act = some s') :
    s'.shard.Accounted cfg := by
  rw [step, Option.join_eq_some_iff] at hstep
  cases act with
  | append t lsn p =>
    rw [attempt] at hstep
    split at hstep
    · obtain ⟨sh, rest, happ, hsh⟩ := h.beginAppend lsn p
      rw [happ] at hstep
      cases hstep
      exact hsh
    · cases hstep
  | resume t =>
    rw [attempt] at hstep
    split at hstep
    · obtain ⟨sh, rest, happ, hsh⟩ := h.appendSlots true (s.waiting t)
      rw [happ] at hstep
      cases hstep
      exact hsh
    · cases hstep
  | driver wanted =>
    obtain ⟨sh, hsection, hsh⟩ := h.driverSection wanted
    rw [attempt, hsection] at hstep
    cases hstep
    exact hsh
  | diskWrite k =>
    obtain ⟨sh, hsh, heq⟩ := Option.map_eq_some_iff.mp hstep
    cases heq
    exact h.diskWrite hsh
  | complete k =>
    obtain ⟨sh, hsh, heq⟩ := Option.map_eq_some_iff.mp hstep
    cases heq
    exact h.complete hsh

end BufferRun

/-- In every state of every run the buffers add up to the limit, none exceeds its
capacity or holds a batch beyond the limit, and no section panics for want of a spare
buffer. -/
theorem buffers_accounted (cfg : Config) (maxLsn : Nat) {s : BufferRun}
    (hrun : Reach (BufferRun.step cfg) anyStep (.start cfg maxLsn) s) :
    1 + s.shard.spareBuffers + s.shard.pendingWrites + s.shard.inFlight = cfg.bufferCountLimit ∧
      s.shard.writesInProgress = s.shard.inFlight ∧
      s.shard.active.used cfg.pageSize ≤ cfg.capacity ∧
      (∀ b ∈ s.shard.sealedBuffers, batchPages b.batches * cfg.pageSize.bytes ≤ cfg.capacity) ∧
      (∀ batch ∈ s.shard.active.batches, batch.length ≤ batchMaxRecords cfg.pageSize) ∧
      (∀ b ∈ s.shard.sealedBuffers, ∀ batch ∈ b.batches,
        batch.length ≤ batchMaxRecords cfg.pageSize) ∧
      ∀ act, s.attempt cfg act ≠ some none := by
  have h : s.shard.Accounted cfg :=
    hrun.invariant (.new cfg maxLsn) fun _ _ _ ih _ hstep => BufferRun.accounted_step ih hstep
  exact ⟨h.count, h.writes, h.active.used, h.sealedUsed, h.active.batches, h.sealedBatches,
    BufferRun.attempt_ne_panic h⟩

/-- Buffers of one record: the third append waits until the driver has given a buffer
back, and seals the second one then. -/
def waitingRun : List BufferRun.Action :=
  let image : Payload := .pageImage 7 (replicate PageSize.k4.bytes 0)
  [.append 0 1 image, .append 1 2 image, .append 2 3 image, .driver true, .diskWrite 0, .complete 0,
    .resume 2]

theorem buffers_accounted_waiting : ∃ s : BufferRun, s.shard.sealedBuffers.length = 2 ∧
      1 + s.shard.spareBuffers + s.shard.pendingWrites + s.shard.inFlight = 2 := by
  have hrun : ((exec (BufferRun.step ⟨.k4, 1, .fdatasync⟩) (.start ⟨.k4, 1, .fdatasync⟩ 0)
      waitingRun).any
      fun s => decide (s.shard.sealedBuffers.length = 2)) = true := by
    decide +kernel
  obtain ⟨s, hexec, hsealed⟩ := (Option.any_eq_true _ _).mp hrun
  exact ⟨s, of_decide_eq_true hsealed,
    (buffers_accounted ⟨.k4, 1, .fdatasync⟩ 0 (.of_exec_any hexec)).1⟩

end Pagebox.Wal
