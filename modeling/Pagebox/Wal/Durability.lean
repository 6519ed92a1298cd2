import Pagebox.Wal.Driver

/-!
# Strict durability

When the durable LSN of a shard has reached an appended record, the record is in
buffers that a completed sync covers.  This rests on the order of LSNs in the
file: a buffer that was sealed ends below every piece that comes after it.  The
code does not ensure that order, because an LSN is claimed before the shard lock
is taken; `StepSafe` says when it is kept.
-/

namespace Pagebox.Wal

open Pagebox.Base Function List

/-- The slots all fit into the active buffer, by the room test of the append
path. -/
def Shard.roomFor (cfg : Config) : List Slot → Shard → Bool
  | [], _ => true
  | slot :: rest, sh =>
    sh.clearPacked.active.fits cfg && roomFor cfg rest (sh.clearPacked.push cfg slot)

/-- The record joins the packed page that was written last. -/
def Shard.joins (cfg : Config) (sh : Shard) (lsn : Nat) (p : Payload) : Bool :=
  (p.packed cfg.pageSize lsn).any fun r =>
    (sh.active.tryAppendPackedLogical cfg.pageSize r).isSome

def Shard.SealedBelow (sh : Shard) (lsn : Nat) : Prop :=
  ∀ b ∈ sh.sealedBuffers, b.maxLsn < lsn

instance (sh : Shard) (lsn : Nat) : Decidable (sh.SealedBelow lsn) :=
  inferInstanceAs (Decidable (∀ b ∈ sh.sealedBuffers, _))

/-- An append section places its record in LSN order with respect to the buffers
sealed before and during the section; a first section places the claimed LSN
above the sealed buffers and, unless the record fits into the active buffer,
above the active one.  A claim does not exhaust the LSNs.  An io_uring sync
starts when the barrier that the shards share has no request above the shard's
own written LSN. -/
def StepSafe (su : Setup) (s : State) : Action → Prop
  | .claim t => s.lsnFor su t + 1 < u64Limit
  | .append t p =>
    let lsn := (s.threads t).lsn
    let sh := s.shards (su.ownerShard lsn)
    sh.SealedBelow lsn ∧ (sh.active.maxLsn < lsn ∨ sh.joins su.cfg lsn p = true ∨
        sh.roomFor su.cfg (p.slots su.cfg.pageSize lsn) = true)
  | .resume t =>
    let lsn := (s.threads t).lsn
    let sh := s.shards (su.ownerShard lsn)
    sh.SealedBelow lsn ∧ sh.active.maxLsn < lsn
  | .syncStart i =>
    su.cfg.backend = .ioUring → s.barrier.requestedLsn ≤ (s.shards i).writtenLsn
  | _ => True

instance (su : Setup) (s : State) (a : Action) : Decidable (StepSafe su s a) :=
  match a with
  | .claim _ => inferInstanceAs (Decidable (_ < _))
  | .append _ _ => inferInstanceAs (Decidable (_ ∧ _))
  | .resume _ => inferInstanceAs (Decidable (_ ∧ _))
  | .syncStart _ => inferInstanceAs (Decidable (_ → _))
  | .sealActive _ | .submit _ | .diskWrite _ _ | .complete _ _ | .storeWritten _ _
  | .storeDurable _ _ | .syncDone _ => inferInstanceAs (Decidable True)

/-! ## LSN order in the file -/

def SealedBuffer.pieces (b : SealedBuffer) : List Piece := b.slots.flatMap slotPieces

def WalBuffer.pieces (b : WalBuffer) : List Piece := b.slots.flatMap slotPieces

theorem pieces_eq (sh : Shard) :
    sh.pieces = sh.sealedBuffers.flatMap SealedBuffer.pieces ++ sh.active.pieces := by
  simp only [Shard.pieces, Shard.log, flatMap_append, flatMap_assoc, WalBuffer.pieces]
  rfl

/-- A sealed buffer ends below every piece that comes after it. -/
structure Ordered (sh : Shard) : Prop where
  sealed : sh.sealedBuffers.Pairwise fun a b => ∀ p ∈ b.pieces, a.maxLsn < p.lsn
  active : ∀ a ∈ sh.sealedBuffers, ∀ p ∈ sh.active.pieces, a.maxLsn < p.lsn

section Order

variable {cfg : Config} {sh sh' : Shard} {lsn : Nat}

theorem Ordered.sealActive (h : Ordered sh) (hseal : sh.sealActive = some sh') : Ordered sh' := by
  rcases sealActive_cases hseal with ⟨-, rfl⟩ | ⟨-, rfl⟩
  · exact h
  constructor
  · rw [pairwise_append]
    refine ⟨h.sealed, pairwise_singleton _ _, ?_⟩
    intro a ha b hb p hp
    rw [mem_singleton.mp hb] at hp
    exact h.active a ha p hp
  · intro a _ p hp
    simp [WalBuffer.pieces] at hp

theorem sealedBelow_sealActive (h : sh.SealedBelow lsn) (hactive : sh.active.maxLsn < lsn)
    (hseal : sh.sealActive = some sh') : sh'.SealedBelow lsn ∧ sh'.active.maxLsn < lsn := by
  rcases sealActive_cases hseal with ⟨-, rfl⟩ | ⟨-, rfl⟩
  · exact ⟨h, hactive⟩
  refine ⟨?_, Nat.zero_lt_of_lt hactive⟩
  intro b hb
  rcases mem_append.mp hb with hb | hb
  · exact h b hb
  · rw [mem_singleton.mp hb]
    exact hactive

/-- Pieces above every sealed buffer may go to the active one. -/
theorem Ordered.extendActive (h : Ordered sh) (hbelow : sh.SealedBelow lsn)
    (hsealed : sh'.sealedBuffers = sh.sealedBuffers) {new : List Piece}
    (hactive : sh'.active.pieces = sh.active.pieces ++ new) (hnew : ∀ p ∈ new, p.lsn = lsn) :
    Ordered sh' := by
  constructor
  · rw [hsealed]
    exact h.sealed
  rw [hsealed, hactive]
  intro a ha p hp
  rcases mem_append.mp hp with hp | hp
  · exact h.active a ha p hp
  · rw [hnew p hp]
    exact hbelow a ha

theorem activePieces_push (hwf : BufferWf cfg.pageSize sh.active) (slot : Slot) :
    (sh.push cfg slot).active.pieces = sh.active.pieces ++ slotPieces slot := by
  obtain ⟨hslots, -⟩ := pushSlot_spec hwf slot
  have hactive : (sh.push cfg slot).active.slots = sh.active.slots ++ [slot] := hslots
  simp [WalBuffer.pieces, hactive]

/-- A slot of a record that is not its last leaves the LSN of the buffer. -/
theorem maxLsn_push (hwf : BufferWf cfg.pageSize sh.active) {slot : Slot} {rest : List Slot}
    (hslots : SlotsOf cfg.pageSize lsn (slot :: rest)) (hrest : rest ≠ []) :
    (sh.push cfg slot).active.maxLsn = sh.active.maxLsn := by
  obtain ⟨-, hmax, -⟩ := pushSlot_spec hwf slot
  obtain ⟨next, rest, rfl⟩ := exists_cons_of_ne_nil hrest
  have hinner := hslots.inner slot (by simp)
  simp only [Slot.unfinished, decide_eq_true_eq] at hinner
  obtain ⟨hkind, hlast⟩ := hinner
  have hactive : (sh.push cfg slot).active.maxLsn =
      (sh.active.pushSlot cfg.pageSize slot).maxLsn := rfl
  rw [hactive, hmax, if_neg (by simp [hkind, hlast])]

/-- A record keeps the order if its LSN is above the active buffer, also where the loop
seals, or if it has not waited and the active buffer has room for it. -/
theorem appendSlots_ordered {woken : Bool} {slots rest : List Slot}
    (hwf : ShardWf cfg.pageSize sh) (hslots : SlotsOf cfg.pageSize lsn slots)
    (hord : Ordered sh) (hbelow : sh.SealedBelow lsn)
    (hsafe : sh.active.maxLsn < lsn ∨ woken = false ∧ sh.roomFor cfg slots = true)
    (happ : sh.appendSlots cfg woken slots = some (sh', rest)) : Ordered sh' := by
  let P : Shard → List Slot → Prop := fun sh₁ rest₁ =>
    ShardWf cfg.pageSize sh₁ ∧ SlotsOf cfg.pageSize lsn rest₁ ∧ Ordered sh₁ ∧
      sh₁.SealedBelow lsn ∧
      ((rest₁ ≠ [] → sh₁.active.maxLsn < lsn) ∨
        woken = false ∧ sh₁.roomFor cfg rest₁ = true)
  have hstart : P sh slots := ⟨hwf, hslots, hord, hbelow, hsafe.imp_left fun h _ => h⟩
  have hend : P sh' rest := by
    refine appendSlots_rule ?_ ?_ ?_ (fun sh₁ rest₁ h => h.1.active) hstart happ
    · rintro sh₁ rest₁ ⟨h₁, h₂, h₃, h₄, h₅⟩
      refine ⟨h₁.clearPacked, h₂, ⟨h₃.sealed, h₃.active⟩, h₄,
        h₅.imp_right (.imp_right fun hroom => ?_)⟩
      cases rest₁ with
      | nil => rfl
      | cons slot rest₁ => exact hroom
    · rintro sh₁ sh₂ slot rest₁ ⟨h₁, h₂, h₃, h₄, habove | ⟨rfl, hroom⟩⟩ hfull hseal
      · obtain ⟨h₄, h₅⟩ := sealedBelow_sealActive h₄ (habove (by simp)) hseal
        exact ⟨h₁.sealActive hseal, h₂, h₃.sealActive hseal, h₄, .inl fun _ => h₅⟩
      · -- the active buffer has room, so nothing is sealed
        rw [Shard.roomFor, Bool.and_eq_true] at hroom
        have hfits : sh₁.active.fits cfg = true := hroom.1
        simp [hfits] at hfull
    rintro sh₁ slot rest₁ ⟨h₁, h₂, h₃, h₄, h₅⟩ hclosed
    refine ⟨h₁.push (h₂.wf slot mem_cons_self) hclosed, h₂.tail,
      h₃.extendActive h₄ rfl (activePieces_push h₁.active slot)
        (h₂.lsn slot mem_cons_self), h₄, h₅.imp (fun habove hne => ?_) (.imp_right fun hroom => ?_)⟩
    · rw [maxLsn_push h₁.active h₂ hne]
      exact habove (by simp)
    · have hclear : sh₁.clearPacked = sh₁ := by
        simp only [Shard.clearPacked, ← hclosed]
      rw [Shard.roomFor, Bool.and_eq_true, hclear] at hroom
      exact hroom.2
  exact hend.2.2.1

theorem beginAppend_ordered {p : Payload} {rest : List Slot} (hwf : ShardWf cfg.pageSize sh)
    (hlsn : lsn < u64Limit) (hp : p.Valid cfg.pageSize) (hord : Ordered sh)
    (hbelow : sh.SealedBelow lsn)
    (hsafe : sh.active.maxLsn < lsn ∨ sh.joins cfg lsn p = true ∨
      sh.roomFor cfg (p.slots cfg.pageSize lsn) = true)
    (happ : sh.beginAppend cfg lsn p = some (sh', rest)) : Ordered sh' := by
  have hslots := Payload.slots_slotsOf hlsn hp
  unfold Shard.beginAppend at happ
  unfold Shard.joins at hsafe
  cases hpacked : p.packed cfg.pageSize lsn with
  | none =>
    rw [hpacked] at happ hsafe
    exact appendSlots_ordered hwf hslots hord hbelow (by simpa using hsafe) happ
  | some r =>
    rw [hpacked] at happ hsafe
    obtain ⟨hr, hrlsn, -⟩ := Payload.packed_spec hlsn hp hpacked
    cases hjoin : sh.active.tryAppendPackedLogical cfg.pageSize r with
    | none =>
      simp only [hjoin] at happ
      exact appendSlots_ordered hwf hslots hord hbelow (by simpa [hjoin] using hsafe) happ
    | some active =>
      simp only [hjoin] at happ
      cases happ
      obtain ⟨-, hnew, -⟩ := tryAppendPackedLogical_spec hwf.active hr hjoin
      refine hord.extendActive hbelow rfl hnew ?_
      intro q hq
      rw [mem_singleton.mp hq]
      exact hrlsn

end Order

/-! ## Steps of the driver -/

section Frame

variable {sh sh' : Shard}

theorem Quiet.ordered (h : Quiet sh sh') (hord : Ordered sh) : Ordered sh' := by
  constructor
  · have hmapped : (sh.sealedBuffers.map SealedBuffer.content).Pairwise fun a c =>
        ∀ p ∈ (c.1.reverse.flatMap List.reverse).flatMap slotPieces, a.2 < p.lsn :=
      pairwise_map.mpr hord.sealed
    rw [← h.content] at hmapped
    exact pairwise_map.mp hmapped
  intro a ha p hp
  have hmem : a.content ∈ sh.sealedBuffers.map SealedBuffer.content := by
    rw [← h.content]
    exact mem_map_of_mem ha
  obtain ⟨a₀, ha₀, heq⟩ := mem_map.mp hmem
  have hmax : a₀.maxLsn = a.maxLsn := congrArg Prod.snd heq
  rw [h.active] at hp
  rw [← hmax]
  exact hord.active a₀ ha₀ p hp

end Frame

/-! ## The records of a run -/

def recordPieces (su : Setup) (s : State) (lsn : Nat) : List Piece :=
  (s.shards (su.ownerShard lsn)).pieces.filter (·.lsn = lsn)

/-- Every LSN is used by one record, and the log holds what each append has
placed so far. -/
structure Ledger (su : Setup) (init : Nat → Nat) (s : State) : Prop where
  next : s.nextLsn ≤ u64Limit
  floor : ∀ i, init i < s.nextLsn
  pieceLsn : ∀ i, ∀ p ∈ (s.shards i).pieces, p.lsn < s.nextLsn
  threadLsn : ∀ t, s.threads t ≠ .idle →
    (∀ i, init i < (s.threads t).lsn) ∧ (s.threads t).lsn < s.nextLsn
  distinct : ∀ t t', t ≠ t' → s.threads t ≠ .idle → s.threads t' ≠ .idle →
    (s.threads t).lsn ≠ (s.threads t').lsn
  appendedLsn : ∀ a ∈ s.appended, (∀ i, init i < a.lsn) ∧ a.lsn < s.nextLsn
  unclaimed : ∀ a ∈ s.appended, ∀ t, s.threads t ≠ .idle → (s.threads t).lsn ≠ a.lsn
  claimed : ∀ t lsn, s.threads t = .claimed lsn → recordPieces su s lsn = []
  waiting : ∀ t lsn p rest, s.threads t = .waiting lsn p rest → SlotsOf su.cfg.pageSize lsn rest ∧
      recordPieces su s lsn ++ rest.flatMap slotPieces = p.pieces su.cfg.pageSize lsn
  records : ∀ a ∈ s.appended, recordPieces su s a.lsn = a.payload.pieces su.cfg.pageSize a.lsn
  flushTarget : ∀ a ∈ s.appended, a.lsn ≤ (s.shards (su.ownerShard a.lsn)).appendedLsn

section Records

variable {su : Setup} {init : Nat → Nat} {s s' : State}

theorem Ledger.congr (h : Ledger su init s)
    (hpieces : ∀ i, (s'.shards i).pieces = (s.shards i).pieces)
    (happ : ∀ i, (s'.shards i).appendedLsn = (s.shards i).appendedLsn)
    (hnext : s'.nextLsn = s.nextLsn) (hthreads : s'.threads = s.threads)
    (happended : s'.appended = s.appended) : Ledger su init s' := by
  have hrec : ∀ lsn, recordPieces su s' lsn = recordPieces su s lsn := by
    intro lsn
    rw [recordPieces, recordPieces, hpieces]
  constructor
  · rw [hnext]
    exact h.next
  · rw [hnext]
    exact h.floor
  · simp only [hpieces, hnext]
    exact h.pieceLsn
  · rw [hthreads, hnext]
    exact h.threadLsn
  · rw [hthreads]
    exact h.distinct
  · rw [happended, hnext]
    exact h.appendedLsn
  · rw [happended, hthreads]
    exact h.unclaimed
  · simp only [hthreads, hrec]
    exact h.claimed
  · simp only [hthreads, hrec]
    exact h.waiting
  · simp only [happended, hrec]
    exact h.records
  · simp only [happended, happ]
    exact h.flushTarget

theorem le_alignLsnToShard (lsn shardIdx shardCount : Nat) :
    lsn ≤ alignLsnToShard lsn shardIdx shardCount := by
  exact (Nat.le_max_left lsn 1).trans (Nat.le_add_right _ _)

theorem nextLsn_le_lsnFor (su : Setup) (s : State) (t : Nat) : s.nextLsn ≤ s.lsnFor su t := by
  unfold State.lsnFor
  split
  · exact le_rfl
  · exact le_alignLsnToShard _ _ _

/-- The LSNs of the calls, after thread `t` has moved to `pc`. -/
theorem forall_active_update {R : Nat → Prop} {threads : Nat → Pc} {t t' : Nat} {pc : Pc}
    (hother : t' ≠ t → threads t' ≠ .idle → R (threads t').lsn) (hself : pc ≠ .idle → R pc.lsn)
    (ht' : update threads t pc t' ≠ .idle) : R (update threads t pc t').lsn := by
  by_cases hne : t' = t
  · rw [hne, update_self] at ht' ⊢
    exact hself ht'
  · rw [update_of_ne hne] at ht' ⊢
    exact hother hne ht'

/-- The LSNs of the calls stay distinct if that of the call that moves is no other call's. -/
theorem distinct_update {threads : Nat → Pc} {t : Nat} {pc : Pc}
    (h : ∀ t₁ t₂, t₁ ≠ t₂ → threads t₁ ≠ .idle → threads t₂ ≠ .idle →
      (threads t₁).lsn ≠ (threads t₂).lsn)
    (hpc : pc ≠ .idle → ∀ t', t' ≠ t → threads t' ≠ .idle → (threads t').lsn ≠ pc.lsn)
    (t₁ t₂ : Nat) (hne : t₁ ≠ t₂) (h₁ : update threads t pc t₁ ≠ .idle)
    (h₂ : update threads t pc t₂ ≠ .idle) :
    (update threads t pc t₁).lsn ≠ (update threads t pc t₂).lsn := by
  by_cases ht₁ : t₁ = t
  · have ht₂ : t₂ ≠ t := fun heq => hne (ht₁.trans heq.symm)
    rw [ht₁, update_self] at h₁ ⊢
    rw [update_of_ne ht₂] at h₂ ⊢
    exact (hpc h₁ t₂ ht₂ h₂).symm
  rw [update_of_ne ht₁] at h₁ ⊢
  by_cases ht₂ : t₂ = t
  · rw [ht₂, update_self] at h₂ ⊢
    exact hpc h₂ t₁ ht₁ h₁
  · rw [update_of_ne ht₂] at h₂ ⊢
    exact h t₁ t₂ hne h₁ h₂

theorem Ledger.claim {t : Nat} (h : Ledger su init s) (hroom : s.lsnFor su t + 1 < u64Limit)
    (hclaim : s.claim su t = some s') : Ledger su init s' := by
  obtain ⟨-, rfl⟩ := claim_cases hclaim
  have hle := nextLsn_le_lsnFor su s t
  set lsn := s.lsnFor su t
  have hmod : (lsn + 1) % u64Limit = lsn + 1 := Nat.mod_eq_of_lt hroom
  have hfloor : ∀ i, init i < lsn := fun i => lt_of_lt_of_le (h.floor i) hle
  -- the threads other than the claiming one are as before
  have hother : ∀ t', t' ≠ t → update s.threads t (.claimed lsn) t' = s.threads t' :=
    fun t' hne => update_of_ne hne _ _
  have hself : update s.threads t (.claimed lsn) t = .claimed lsn :=
    update_self t _ _
  constructor
  · simp only [hmod]
    omega
  · intro i
    simp only [hmod]
    have := hfloor i
    omega
  · intro i p hp
    have := h.pieceLsn i p hp
    simp only [hmod]
    omega
  · intro t'
    simp only [State.setPc, hmod]
    refine forall_active_update (R := fun k => (∀ i, init i < k) ∧ k < lsn + 1)
      (fun _ hactive => ?_) fun _ => ⟨hfloor, Nat.lt_succ_self lsn⟩
    obtain ⟨h₁, h₂⟩ := h.threadLsn t' hactive
    exact ⟨h₁, by omega⟩
  · refine distinct_update h.distinct fun _ t' _ hactive => ?_
    have := (h.threadLsn t' hactive).2
    simp only [Pc.lsn] at this ⊢
    omega
  · intro a ha
    obtain ⟨h₁, h₂⟩ := h.appendedLsn a ha
    simp only [hmod]
    exact ⟨h₁, by omega⟩
  · intro a ha t'
    refine forall_active_update (R := (· ≠ a.lsn)) (fun _ => h.unclaimed a ha t') fun _ => ?_
    have := (h.appendedLsn a ha).2
    simp only [Pc.lsn]
    omega
  · intro t' lsn' ht'
    simp only [State.setPc] at ht'
    by_cases hne : t' = t
    · -- no piece has reached the new LSN yet
      subst hne
      rw [hself, Pc.claimed.injEq] at ht'
      rw [← ht', recordPieces, filter_eq_nil_iff]
      intro p hp
      have := h.pieceLsn _ p hp
      simp only [decide_eq_true_eq]
      omega
    · rw [hother t' hne] at ht'
      exact h.claimed t' lsn' ht'
  · intro t' lsn' p rest ht'
    simp only [State.setPc] at ht'
    by_cases hne : t' = t
    · subst hne
      rw [hself] at ht'
      cases ht'
    · rw [hother t' hne] at ht'
      exact h.waiting t' lsn' p rest ht'
  · exact h.records
  · exact h.flushTarget

/-- The call of an append after one of its sections: it has returned and the record
counts as appended, or it waits with slots left. -/
def SectionEnd (lsn : Nat) (p : Payload) (rest : List Slot) (sh : Shard) (pc : Pc)
    (new : List Appended) : Prop :=
  (pc = .idle ∧ new = [⟨lsn, p⟩] ∧ rest = [] ∧ lsn ≤ sh.appendedLsn) ∨
    (pc = .waiting lsn p rest ∧ new = [])

/-- One section of an append: thread `t` adds the pieces `done` to its record, and the
slots `rest` are left. -/
structure AppendSection (su : Setup) (s : State) (t lsn : Nat) (p : Payload) (sh : Shard)
    (done : List Piece) (rest : List Slot) : Prop where
  active : s.threads t ≠ .idle
  threadLsn : (s.threads t).lsn = lsn
  record : recordPieces su s lsn ++ (done ++ rest.flatMap slotPieces) =
    p.pieces su.cfg.pageSize lsn
  slots : SlotsOf su.cfg.pageSize lsn rest
  pieces : sh.pieces = (s.shards (su.ownerShard lsn)).pieces ++ done
  doneLsn : ∀ q ∈ done, q.lsn = lsn
  appended : (s.shards (su.ownerShard lsn)).appendedLsn ≤ sh.appendedLsn

/-- The state after a section. -/
def State.place (su : Setup) (s : State) (t lsn : Nat) (sh : Shard) (pc : Pc)
    (new : List Appended) : State :=
  { s with
    shards := update s.shards (su.ownerShard lsn) sh
    threads := update s.threads t pc
    appended := s.appended ++ new }

namespace AppendSection

variable {t lsn : Nat} {p : Payload} {sh : Shard} {done : List Piece} {rest : List Slot}
  {pc : Pc} {new : List Appended}

/-- The LSN that the call of the section still has is that of its record. -/
theorem pc_lsn (hend : SectionEnd lsn p rest sh pc new) (hpc : pc ≠ .idle) : pc.lsn = lsn := by
  rcases hend with ⟨rfl, -⟩ | ⟨rfl, -⟩
  · exact absurd rfl hpc
  · rfl

/-- An appended record was there before or is that of the section, whose call then has
returned. -/
theorem mem_appended (hend : SectionEnd lsn p rest sh pc new) {a : Appended}
    (ha : a ∈ (s.place su t lsn sh pc new).appended) :
    a ∈ s.appended ∨ a = ⟨lsn, p⟩ ∧ pc = .idle ∧ rest = [] ∧ lsn ≤ sh.appendedLsn := by
  rcases mem_append.mp ha with ha | ha
  · exact .inl ha
  · rcases hend with ⟨hpc, rfl, hrest, hpub⟩ | ⟨-, rfl⟩
    · exact .inr ⟨mem_singleton.mp ha, hpc, hrest, hpub⟩
    · cases ha

variable (hsec : AppendSection su s t lsn p sh done rest) (h : Ledger su init s)
  (hend : SectionEnd lsn p rest sh pc new)

include hsec

theorem recordPieces_self :
    recordPieces su (s.place su t lsn sh pc new) lsn = recordPieces su s lsn ++ done := by
  have hall : done.filter (·.lsn = lsn) = done :=
    filter_eq_self.mpr fun q hq => by simpa using hsec.doneLsn q hq
  simp only [recordPieces, State.place, update_self, hsec.pieces, filter_append, hall]

theorem recordPieces_of_ne {k : Nat} (hk : k ≠ lsn) :
    recordPieces su (s.place su t lsn sh pc new) k = recordPieces su s k := by
  simp only [recordPieces, State.place]
  by_cases howner : su.ownerShard k = su.ownerShard lsn
  · have hnone : done.filter (·.lsn = k) = [] := by
      rw [filter_eq_nil_iff]
      intro q hq
      simpa [hsec.doneLsn q hq] using Ne.symm hk
    rw [howner, update_self, hsec.pieces, filter_append, hnone, append_nil]
  · rw [update_of_ne howner]

include h

theorem lsn_range : (∀ i, init i < lsn) ∧ lsn < s.nextLsn := by
  have := h.threadLsn t hsec.active
  rwa [hsec.threadLsn] at this

theorem lsn_ne_of_active {t' : Nat} (hne : t' ≠ t) (ht' : s.threads t' ≠ .idle) :
    (s.threads t').lsn ≠ lsn := by
  rw [← hsec.threadLsn]
  exact h.distinct t' t hne ht' hsec.active

theorem lsn_ne_of_appended {a : Appended} (ha : a ∈ s.appended) : a.lsn ≠ lsn := by
  intro heq
  exact h.unclaimed a ha t hsec.active (hsec.threadLsn.trans heq.symm)

theorem pieceLsn (i : Nat) :
    ∀ q ∈ ((s.place su t lsn sh pc new).shards i).pieces, q.lsn < s.nextLsn := by
  refine forall_update (P := fun _ sh => ∀ q ∈ sh.pieces, q.lsn < s.nextLsn) h.pieceLsn ?_ i
  intro q hq
  rw [hsec.pieces, mem_append] at hq
  rcases hq with hq | hq
  · exact h.pieceLsn _ q hq
  · rw [hsec.doneLsn q hq]
    exact (hsec.lsn_range h).2

include hend

/-- A call that has not started its record is another one, and its record is as before. -/
theorem claimed {t' k : Nat} (ht' : (s.place su t lsn sh pc new).threads t' = .claimed k) :
    recordPieces su (s.place su t lsn sh pc new) k = [] := by
  simp only [State.place] at ht'
  by_cases hne : t' = t
  · rw [hne, update_self] at ht'
    rcases hend with ⟨rfl, -⟩ | ⟨rfl, -⟩ <;> cases ht'
  · rw [update_of_ne hne] at ht'
    have hk : k ≠ lsn := by
      have := hsec.lsn_ne_of_active h hne (by simp [ht'])
      rwa [ht'] at this
    rw [hsec.recordPieces_of_ne hk]
    exact h.claimed t' k ht'

/-- The pieces placed and the slots left are those of the payload, for the call of the
section as for the others. -/
theorem waiting {t' k : Nat} {q : Payload} {rest' : List Slot}
    (ht' : (s.place su t lsn sh pc new).threads t' = .waiting k q rest') :
    SlotsOf su.cfg.pageSize k rest' ∧
      recordPieces su (s.place su t lsn sh pc new) k ++ rest'.flatMap slotPieces =
        q.pieces su.cfg.pageSize k := by
  simp only [State.place] at ht'
  by_cases hne : t' = t
  · rw [hne, update_self] at ht'
    rcases hend with ⟨rfl, -⟩ | ⟨rfl, -⟩
    · cases ht'
    · cases ht'
      rw [hsec.recordPieces_self, append_assoc]
      exact ⟨hsec.slots, hsec.record⟩
  · rw [update_of_ne hne] at ht'
    have hk : k ≠ lsn := by
      have := hsec.lsn_ne_of_active h hne (by simp [ht'])
      rwa [ht'] at this
    rw [hsec.recordPieces_of_ne hk]
    exact h.waiting t' k q rest' ht'

theorem records {a : Appended} (ha : a ∈ (s.place su t lsn sh pc new).appended) :
    recordPieces su (s.place su t lsn sh pc new) a.lsn =
      a.payload.pieces su.cfg.pageSize a.lsn := by
  rcases mem_appended hend ha with ha | ⟨rfl, -, rfl, -⟩
  · rw [hsec.recordPieces_of_ne (hsec.lsn_ne_of_appended h ha)]
    exact h.records a ha
  · rw [hsec.recordPieces_self, ← hsec.record]
    simp

theorem flushTarget {a : Appended} (ha : a ∈ (s.place su t lsn sh pc new).appended) :
    a.lsn ≤ ((s.place su t lsn sh pc new).shards (su.ownerShard a.lsn)).appendedLsn := by
  simp only [State.place]
  rcases mem_appended hend ha with ha | ⟨rfl, -, -, hpub⟩
  · have hle := h.flushTarget a ha
    by_cases howner : su.ownerShard a.lsn = su.ownerShard lsn
    · rw [howner] at hle
      rw [howner, update_self]
      exact hle.trans hsec.appended
    · rwa [update_of_ne howner]
  · rwa [update_self]

/-- After a section the record has grown by the pieces placed, and no other has changed. -/
theorem ledger : Ledger su init (s.place su t lsn sh pc new) where
  next := h.next
  floor := h.floor
  pieceLsn := hsec.pieceLsn h
  threadLsn t' := by
    refine forall_active_update (R := fun k => (∀ i, init i < k) ∧ k < s.nextLsn)
      (fun _ => h.threadLsn t') fun hpc => ?_
    rw [pc_lsn hend hpc]
    exact hsec.lsn_range h
  distinct := distinct_update h.distinct fun hpc t' hne ht' => by
    rw [pc_lsn hend hpc]
    exact hsec.lsn_ne_of_active h hne ht'
  appendedLsn a ha := by
    rcases mem_appended hend ha with ha | ⟨rfl, -⟩
    · exact h.appendedLsn a ha
    · exact hsec.lsn_range h
  unclaimed a ha t' := by
    rcases mem_appended hend ha with ha | ⟨rfl, hidle, -⟩
    · refine forall_active_update (R := (· ≠ a.lsn)) (fun _ => h.unclaimed a ha t') fun hpc => ?_
      rw [pc_lsn hend hpc]
      exact (hsec.lsn_ne_of_appended h ha).symm
    · exact forall_active_update (R := (· ≠ lsn)) (hsec.lsn_ne_of_active h)
        fun hpc => absurd hidle hpc
  claimed _ _ ht' := hsec.claimed h hend ht'
  waiting _ _ _ _ ht' := hsec.waiting h hend ht'
  records _ ha := hsec.records h hend ha
  flushTarget _ ha := hsec.flushTarget h hend ha

end AppendSection

end Records

structure Inv (su : Setup) (init : Nat → Nat) (s : State) : Prop where
  wf : ∀ i, ShardWf su.cfg.pageSize (s.shards i)
  ordered : ∀ i, Ordered (s.shards i)
  driver : ∀ i, DriverInv su.cfg (init i) (s.shards i)
  ledger : Ledger su init s

section Runs

variable {su : Setup} {init : Nat → Nat} {s s' : State}

theorem Inv.setShard {i : Nat} {sh : Shard} (h : Inv su init s)
    (hwf : ShardWf su.cfg.pageSize sh) (hord : Ordered sh) (hdriver : DriverInv su.cfg (init i) sh)
    (hpieces : sh.pieces = (s.shards i).pieces)
    (happ : sh.appendedLsn = (s.shards i).appendedLsn) (barrier : SyncBarrier) :
    Inv su init { s.setShard i sh with barrier := barrier } := by
  refine ⟨forall_update h.wf hwf, forall_update h.ordered hord, forall_update h.driver hdriver, ?_⟩
  refine h.ledger.congr ?_ ?_ rfl rfl rfl
  · intro j
    exact forall_update (P := fun j sh => sh.pieces = (s.shards j).pieces) (fun _ => rfl) hpieces j
  · intro j
    exact forall_update (P := fun j sh => sh.appendedLsn = (s.shards j).appendedLsn)
      (fun _ => rfl) happ j

theorem Inv.quiet {i : Nat} {sh : Shard} (h : Inv su init s) (hq : Quiet (s.shards i) sh)
    (hdriver : DriverInv su.cfg (init i) sh) (barrier : SyncBarrier) :
    Inv su init { s.setShard i sh with barrier := barrier } :=
  h.setShard (hq.wf (h.wf i)) (hq.ordered (h.ordered i)) hdriver hq.pieces hq.appendedLsn barrier

theorem Inv.sealActive {i : Nat} (h : Inv su init s)
    (hstep : s.onShard su i Shard.sealActive = some s') : Inv su init s' := by
  obtain ⟨sh, hseal, rfl⟩ := onShard_spec hstep
  have hext := (Extends.refl (s.shards i)).sealActive hseal
  have hdriver := hext.driver
  simp only [Shard.driver, Prod.mk.injEq] at hdriver
  exact h.setShard ((h.wf i).sealActive hseal) ((h.ordered i).sealActive hseal)
    ((h.driver i).extend hext) (pieces_sealActive hseal) hdriver.2.2.1 s.barrier

theorem Inv.section {t lsn : Nat} {p : Payload} {sh : Shard} {rest : List Slot}
    {done before : List Piece} (h : Inv su init s) (hactive : s.threads t ≠ .idle)
    (hlsn : (s.threads t).lsn = lsn)
    (hbefore : recordPieces su s lsn ++ before = p.pieces su.cfg.pageSize lsn)
    (hwf : ShardWf su.cfg.pageSize sh) (hrest : SlotsOf su.cfg.pageSize lsn rest)
    (hext : Extends (s.shards (su.ownerShard lsn)) sh done)
    (hdone : done ++ rest.flatMap slotPieces = before) (hdoneLsn : ∀ q ∈ done, q.lsn = lsn)
    (hord : Ordered sh) : Inv su init (s.afterSection su t lsn p sh rest) := by
  have hdriver := (h.driver (su.ownerShard lsn)).extend hext
  have happ : sh.appendedLsn = (s.shards (su.ownerShard lsn)).appendedLsn := by
    have := hext.driver
    simp only [Shard.driver, Prod.mk.injEq] at this
    exact this.2.2.1
  have hsec : AppendSection su s t lsn p sh done rest :=
    ⟨hactive, hlsn, hdone ▸ hbefore, hrest, hext.pieces, hdoneLsn, happ.ge⟩
  unfold State.afterSection
  split
  · rename_i hnil
    refine ⟨forall_update h.wf ⟨hwf.active, hwf.sealed⟩,
      forall_update h.ordered ⟨hord.sealed, hord.active⟩, forall_update h.driver ?_, ?_⟩
    · have hn := hdriver.numbers
      exact ⟨⟨hn.entries, hn.highWater, hn.publishWritten, hn.writtenLsn, hn.sync,
        hn.publishDurable, hn.durableLsn⟩, hdriver.fileOrder, hdriver.oneWrite, hdriver.dsync,
        hdriver.syncedWritten, hdriver.syncWritten⟩
    have hend : SectionEnd lsn p rest (sh.publishAppended lsn) .idle [⟨lsn, p⟩] :=
      .inl ⟨rfl, rfl, hnil, Nat.le_max_right _ _⟩
    have hsec' : AppendSection su s t lsn p (sh.publishAppended lsn) done rest :=
      { hsec with appended := hsec.appended.trans (Nat.le_max_left _ _) }
    exact hsec'.ledger h.ledger hend
  · refine ⟨forall_update h.wf hwf, forall_update h.ordered hord,
      forall_update h.driver hdriver, ?_⟩
    have hend : SectionEnd lsn p rest sh (.waiting lsn p rest) [] := .inr ⟨rfl, rfl⟩
    have hledger := hsec.ledger h.ledger hend
    rwa [State.place, append_nil] at hledger

theorem Inv.append {t : Nat} {p : Payload} (h : Inv su init s)
    (hsafe : StepSafe su s (.append t p)) (hstep : s.append su t p = some s') :
    Inv su init s' := by
  obtain ⟨lsn, sh, rest, hpc, hvalid, happ, rfl⟩ := append_cases hstep
  have hactive : s.threads t ≠ .idle := by simp [hpc]
  have hlsn : (s.threads t).lsn = lsn := by rw [hpc]; rfl
  have hbound : lsn < u64Limit := by
    have := (h.ledger.threadLsn t hactive).2
    have := h.ledger.next
    omega
  simp only [StepSafe, hlsn] at hsafe
  have hwf := h.wf (su.ownerShard lsn)
  have hslots := Payload.slots_slotsOf hbound hvalid
  obtain ⟨hwf', hrest, -⟩ := beginAppend_spec hwf hbound hvalid happ
  obtain ⟨done, hext, hdone⟩ := beginAppend_pieces hwf hbound hvalid happ
  refine h.section hactive hlsn ?_ hwf' hrest hext hdone ?_
    (beginAppend_ordered hwf hbound hvalid (h.ordered _) hsafe.1 hsafe.2 happ)
  · rw [h.ledger.claimed t lsn hpc]
    rfl
  intro q hq
  have hmem : q ∈ p.pieces su.cfg.pageSize lsn := by
    rw [← hdone]
    exact mem_append_left _ hq
  obtain ⟨slot, hslot, hq⟩ := mem_flatMap.mp hmem
  exact hslots.lsn slot hslot q hq

theorem Inv.resume {t : Nat} (h : Inv su init s) (hsafe : StepSafe su s (.resume t))
    (hstep : s.resume su t = some s') : Inv su init s' := by
  obtain ⟨lsn, p, slots, sh, rest, hpc, happ, rfl⟩ := resume_cases hstep
  have hactive : s.threads t ≠ .idle := by simp [hpc]
  have hlsn : (s.threads t).lsn = lsn := by rw [hpc]; rfl
  simp only [StepSafe, hlsn] at hsafe
  have hwf := h.wf (su.ownerShard lsn)
  obtain ⟨hslots, hbefore⟩ := h.ledger.waiting t lsn p slots hpc
  obtain ⟨hwf', hrest, placed, hplaced, -, hext⟩ := appendSlots_spec hwf hslots happ
  have hdone : placed.flatMap slotPieces ++ rest.flatMap slotPieces = slots.flatMap slotPieces := by
    rw [← flatMap_append, hplaced]
  refine h.section hactive hlsn hbefore hwf' hrest hext hdone ?_
    (appendSlots_ordered hwf hslots (h.ordered _) hsafe.1 (.inl hsafe.2) happ)
  intro q hq
  obtain ⟨slot, hslot, hq⟩ := mem_flatMap.mp hq
  refine hslots.lsn slot ?_ q hq
  rw [← hplaced]
  exact mem_append_left _ hslot

theorem Inv.syncStart {i : Nat} (h : Inv su init s) (hsafe : StepSafe su s (.syncStart i))
    (hstep : s.syncStart su i = some s') : Inv su init s' := by
  unfold State.syncStart at hstep
  simp only at hstep
  split at hstep
  · cases hstep
  split at hstep
  · rename_i hbackend hnone
    cases hstep
    have hcovers : ∀ (k : Nat) (b : SealedBuffer), (s.shards i).sealedBuffers[k]? = some b →
        PublishedWritten su.cfg.backend k b →
        k ∈ Shard.placesWhere (·.phase.written) (s.shards i).sealedBuffers := by
      intro k b hk hb
      rw [hbackend] at hb
      exact mem_placesWhere.mpr ⟨b, hk, hb⟩
    have hdriver := (h.driver i).startSync
      (y := ⟨(s.shards i).writtenLsn, _⟩) rfl hcovers fun _ k hk => mem_placesWhere.mp hk
    exact h.quiet (.startSync _ _) hdriver s.barrier
  · rename_i hbackend hnone
    split at hstep
    · cases hstep
      have hcovers : ∀ (k : Nat) (b : SealedBuffer), (s.shards i).sealedBuffers[k]? = some b →
          PublishedWritten su.cfg.backend k b →
          k ∈ Shard.placesWhere (·.phase ≠ .pending) (s.shards i).sealedBuffers := by
        intro k b hk hb
        rw [hbackend] at hb
        exact mem_placesWhere.mpr ⟨b, hk, decide_eq_true hb⟩
      have hdriver := (h.driver i).startSync
        (y := ⟨max s.barrier.requestedLsn (s.shards i).writtenLsn, _⟩)
        (Nat.max_eq_right (hsafe hbackend)) hcovers fun hne => absurd hbackend hne
      exact h.quiet (.startSync _ _) hdriver _
    · cases hstep
      exact ⟨h.wf, h.ordered, h.driver, h.ledger.congr (fun _ => rfl) (fun _ => rfl) rfl rfl rfl⟩
  · cases hstep

theorem Inv.syncDone {i : Nat} (h : Inv su init s) (hstep : s.syncDone su i = some s') :
    Inv su init s' := by
  unfold State.syncDone at hstep
  simp only at hstep
  split at hstep
  · cases hstep
  split at hstep
  · rename_i y hbackend hsync
    cases hstep
    refine h.quiet (Quiet.finishSync _ y) ((h.driver i).finishSync hsync fun hio => ?_) s.barrier
    rw [hbackend] at hio
    cases hio
  · rename_i y hbackend hsync
    split at hstep
    · rename_i hdrained
      cases hstep
      refine h.quiet (Quiet.finishSync _ y) ((h.driver i).finishSync hsync fun _ => ?_) _
      intro k hk
      have hk' := all_eq_true.mp hdrained k hk
      exact (Option.any_eq_true _ _).mp hk'
    · cases hstep
  · cases hstep

theorem Inv.step {a : Action} (h : Inv su init s) (hsafe : StepSafe su s a)
    (hstep : step su s a = some s') : Inv su init s' := by
  cases a with simp only [Wal.step] at hstep
  | claim t =>
    have hledger := h.ledger.claim hsafe hstep
    obtain ⟨-, rfl⟩ := claim_cases hstep
    exact ⟨h.wf, h.ordered, h.driver, hledger⟩
  | append t p => exact h.append hsafe hstep
  | resume t => exact h.resume hsafe hstep
  | sealActive i => exact h.sealActive hstep
  | submit i =>
    obtain ⟨sh, hsh, rfl⟩ := onShard_spec hstep
    exact h.quiet (.submit hsh) ((h.driver i).submit hsh) s.barrier
  | diskWrite i k =>
    obtain ⟨sh, hsh, rfl⟩ := onShard_spec hstep
    exact h.quiet (.diskWrite hsh) ((h.driver i).diskWrite hsh) s.barrier
  | complete i k =>
    obtain ⟨sh, hsh, rfl⟩ := onShard_spec hstep
    exact h.quiet (.complete hsh) ((h.driver i).complete hsh) s.barrier
  | storeWritten i lsn =>
    obtain ⟨sh, hsh, rfl⟩ := onShard_spec hstep
    exact h.quiet (.storeWritten hsh) ((h.driver i).storeWritten hsh) s.barrier
  | storeDurable i lsn =>
    obtain ⟨sh, hsh, rfl⟩ := onShard_spec hstep
    exact h.quiet (.storeDurable hsh) ((h.driver i).storeDurable hsh) s.barrier
  | syncStart i => exact h.syncStart hsafe hstep
  | syncDone i => exact h.syncDone hstep

theorem Inv.opened (su : Setup) {maxLsn : Nat → Nat} {nextLsn : Nat}
    (hopen : ∀ i, maxLsn i < nextLsn) (hnext : nextLsn ≤ u64Limit) :
    Inv su maxLsn (su.opened maxLsn nextLsn) where
  wf i := ⟨bufferWf_reset _ _, by simp [Setup.opened, Shard.new]⟩
  ordered i := ⟨by simp [Setup.opened, Shard.new], by simp [Setup.opened, Shard.new]⟩
  driver i := .new su.cfg (maxLsn i)
  ledger := {
    next := hnext
    floor := hopen
    pieceLsn := by simp [Setup.opened, Shard.new, Shard.pieces, Shard.log]
    threadLsn := by simp [Setup.opened]
    distinct := by simp [Setup.opened]
    appendedLsn := by simp [Setup.opened]
    unclaimed := by simp [Setup.opened]
    claimed := by simp [Setup.opened]
    waiting := by simp [Setup.opened]
    records := by simp [Setup.opened]
    flushTarget := by simp [Setup.opened] }

/-- The pieces that a completed sync covers. -/
def durablePieces (sh : Shard) : List Piece :=
  (sh.sealedBuffers.filter fun b => b.synced && b.phase.written).flatMap SealedBuffer.pieces

/-- An LSN whose coverage is synced has all its pieces in synced buffers. -/
theorem filter_durablePieces {sh : Shard} {cfg : Config} {init lsn : Nat} (hord : Ordered sh)
    (hdriver : DriverInv cfg init sh) (hinit : init < lsn)
    (hcov : Covered init (fun _ b => b.synced = true) sh.sealedBuffers lsn) :
    (durablePieces sh).filter (·.lsn = lsn) = sh.pieces.filter (·.lsn = lsn) := by
  rcases hcov with hle | ⟨j, b, hj, hv, hsynced⟩
  · omega
  -- the file up to the buffer that ends at `lsn`, and what comes after it
  set front := sh.sealedBuffers.take (j + 1) with hfront
  set back := sh.sealedBuffers.drop (j + 1) with hback
  have hsplit : sh.sealedBuffers = front ++ back := (take_append_drop _ _).symm
  have hmem : b ∈ front := by
    rw [hfront, take_add_one, hj]
    simp
  have hall : ∀ x ∈ front, (x.synced && x.phase.written) = true := by
    intro x hx
    obtain ⟨i, hi⟩ := mem_iff_getElem?.mp hx
    have hij : i ≤ j := by
      have := (List.getElem?_eq_some_iff.mp hi).1
      simp [hfront] at this
      omega
    rw [hfront, List.getElem?_take_of_lt (by omega)] at hi
    have hs := hsynced i hij x hi
    rw [hs, hdriver.syncedWritten x (mem_of_getElem? hi) hs]
    rfl
  have hpair := hord.sealed
  rw [hsplit, pairwise_append] at hpair
  have hlate : ∀ x ∈ back, ∀ p ∈ x.pieces, p.lsn ≠ lsn := by
    intro x hx p hp
    have := hpair.2.2 b hmem x hx p hp
    omega
  have hbackNone : ∀ bs : List SealedBuffer, (∀ x ∈ bs, x ∈ back) →
      (bs.flatMap SealedBuffer.pieces).filter (·.lsn = lsn) = [] := by
    intro bs hbs
    rw [filter_eq_nil_iff]
    intro p hp
    obtain ⟨x, hx, hp⟩ := mem_flatMap.mp hp
    simpa using hlate x (hbs x hx) p hp
  have hactiveNone : sh.active.pieces.filter (·.lsn = lsn) = [] := by
    rw [filter_eq_nil_iff]
    intro p hp
    have := hord.active b (mem_of_getElem? hj) p hp
    simp only [decide_eq_true_eq]
    omega
  have hleft : (durablePieces sh).filter (·.lsn = lsn) =
      (front.flatMap SealedBuffer.pieces).filter (·.lsn = lsn) := by
    rw [durablePieces, hsplit, filter_append, filter_eq_self.mpr hall,
      flatMap_append, filter_append,
      hbackNone _ fun x hx => mem_of_mem_filter hx, append_nil]
  have hright : sh.pieces.filter (·.lsn = lsn) =
      (front.flatMap SealedBuffer.pieces).filter (·.lsn = lsn) := by
    rw [pieces_eq, hsplit, flatMap_append, filter_append, filter_append,
      hactiveNone, hbackNone back fun x hx => hx, append_nil, append_nil]
  rw [hleft, hright]

/-- The record is in the part of its shard's file that a completed sync covers. -/
def RecordDurable (su : Setup) (s : State) (a : Appended) : Prop :=
  (durablePieces (s.shards (su.ownerShard a.lsn))).filter (·.lsn = a.lsn) =
    a.payload.pieces su.cfg.pageSize a.lsn

instance (su : Setup) (s : State) (a : Appended) : Decidable (RecordDurable su s a) :=
  inferInstanceAs (Decidable (_ = _))

theorem Inv.recordDurable {a : Appended} (h : Inv su init s) (ha : a ∈ s.appended)
    (hdurable : a.lsn ≤ (s.shards (su.ownerShard a.lsn)).durableLsn) : RecordDurable su s a := by
  have hdriver := h.driver (su.ownerShard a.lsn)
  have hcov := hdriver.numbers.durableLsn.of_le hdurable
  have hfloor := (h.ledger.appendedLsn a ha).1 (su.ownerShard a.lsn)
  rw [RecordDurable, filter_durablePieces (h.ordered _) hdriver hfloor hcov]
  exact h.ledger.records a ha

theorem afterSection_appended (su : Setup) (s : State) (t lsn : Nat) (p : Payload) (sh : Shard)
    (rest : List Slot) {a : Appended} (ha : a ∈ s.appended) :
    a ∈ (s.afterSection su t lsn p sh rest).appended := by
  unfold State.afterSection
  split
  · exact mem_append_left _ ha
  · exact ha

theorem step_appended {act : Action} {a : Appended} (ha : a ∈ s.appended)
    (hstep : step su s act = some s') : a ∈ s'.appended := by
  cases act with
  | claim t =>
    obtain ⟨-, rfl⟩ := claim_cases hstep
    exact ha
  | append t p =>
    obtain ⟨lsn, sh, rest, -, -, -, rfl⟩ := append_cases hstep
    exact afterSection_appended su s t lsn p sh rest ha
  | resume t =>
    obtain ⟨lsn, p, slots, sh, rest, -, -, rfl⟩ := resume_cases hstep
    exact afterSection_appended su s t lsn p sh rest ha
  | sealActive _ | submit _ | diskWrite _ _ | complete _ _ | storeWritten _ _ | storeDurable _ _
  | syncStart _ | syncDone _ =>
    rw [(Frame.of_step rfl hstep).appended]
    exact ha

theorem ownerShard_lt (hshards : 0 < su.shardCount) (lsn : Nat) :
    su.ownerShard lsn < su.shardCount := by
  unfold Setup.ownerShard shardIdxForLsn
  split
  · exact hshards
  · exact Nat.mod_lt _ hshards

/-- In every run whose steps are safe, a record whose append had returned when a
strict flush or commit was called is durable when the call returns, or when the
record is reported as durable. -/
theorem record_durable_of_flush {su : Setup} {maxLsn : Nat → Nat} {nextLsn : Nat}
    {s₁ s₂ : State} {a : Appended} (hshards : 0 < su.shardCount)
    (hopen : ∀ i, maxLsn i < nextLsn) (hnext : nextLsn ≤ u64Limit)
    (h₁ : Reach (step su) (StepSafe su) (su.opened maxLsn nextLsn) s₁)
    (h₂ : Reach (step su) (StepSafe su) s₁ s₂) (ha : a ∈ s₁.appended)
    (hreturns : flushReturns su s₂ a.lsn = true ∨ commitReturns su s₁ s₂ = true ∨
      isLsnDurable su s₂ a.lsn = true) : RecordDurable su s₂ a := by
  have hinv₁ : Inv su maxLsn s₁ :=
    h₁.invariant (Inv.opened su hopen hnext) fun _ _ _ hi hok hs => hi.step hok hs
  have hinv₂ : Inv su maxLsn s₂ :=
    h₂.invariant hinv₁ fun _ _ _ hi hok hs => hi.step hok hs
  have ha₂ : a ∈ s₂.appended :=
    h₂.invariant (I := fun s => a ∈ s.appended) ha fun _ _ _ hi _ hs => step_appended hi hs
  refine hinv₂.recordDurable ha₂ ?_
  rcases hreturns with h | h | h
  · simpa [flushReturns] using h
  · have hall := all_eq_true.mp h (su.ownerShard a.lsn)
      (mem_range.mpr (ownerShard_lt hshards a.lsn))
    exact (hinv₁.ledger.flushTarget a ha).trans (by simpa using hall)
  · have hpos : a.lsn ≠ 0 := by
      have := (hinv₂.ledger.appendedLsn a ha₂).1 0
      omega
    simpa [isLsnDurable, hpos] using h

def oneShard (backend : Backend) : Setup := ⟨⟨.k4, 4, backend⟩, 1, fun _ => 0⟩

def smallRecord : Payload := .logical 7 [1, 2, 3]

def flushActions (i k lsn : Nat) : List Action :=
  [.sealActive i, .submit i, .diskWrite i k, .complete i k, .storeWritten i lsn, .syncStart i,
    .syncDone i, .storeDurable i lsn]

/-- The step function restricted to safe steps. -/
def safeStep (su : Setup) : State → Action → Option State :=
  guarded (fun s a => decide (StepSafe su s a)) (step su)

def twoShards : Setup := ⟨⟨.k4, 4, .fdatasync⟩, 2, fun t => t⟩

/-- Too long for one page. -/
def largeRecord : Payload := .logical 7 (replicate 5000 1)

/-- Two threads append to two shards, the later LSN first; a commit is called, another
record is appended, and both shards are flushed. -/
theorem record_durable_after_commit :
    ∃ s₁ s₂, Reach (step twoShards) (StepSafe twoShards) (twoShards.opened (fun _ => 0) 1) s₁ ∧
      Reach (step twoShards) (StepSafe twoShards) s₁ s₂ ∧
      s₁.appended.map Appended.lsn = [2, 1] ∧ commitReturns twoShards s₁ s₂ = true ∧
      ∀ a ∈ s₁.appended, RecordDurable twoShards s₂ a := by
  have hrun : ((exec (safeStep twoShards) (twoShards.opened (fun _ => 0) 1)
      [.claim 0, .claim 1, .append 1 smallRecord, .append 0 largeRecord]).bind fun s₁ =>
        (exec (safeStep twoShards) s₁ ([.claim 1, .append 1 smallRecord] ++ flushActions 0 0 1 ++
          flushActions 1 0 4)).map fun s₂ =>
            (s₁.appended.map Appended.lsn, commitReturns twoShards s₁ s₂)) =
      some ([2, 1], true) := by
    decide +kernel
  obtain ⟨s₁, hexec₁, hrest⟩ := Option.bind_eq_some_iff.mp hrun
  obtain ⟨s₂, hexec₂, hs⟩ := Option.map_eq_some_iff.mp hrest
  obtain ⟨happended, hcommit⟩ := Prod.mk.inj hs
  have h₁ := Reach.of_exec hexec₁ fun _ _ => of_decide_eq_true
  have h₂ := Reach.of_exec hexec₂ fun _ _ => of_decide_eq_true
  exact ⟨s₁, s₂, h₁, h₂, happended, hcommit, fun a ha => record_durable_of_flush (by decide)
    (fun _ => Nat.one_pos) (by decide) h₁ h₂ ha (.inr (.inl hcommit))⟩

end Runs

/-! ## A run out of LSN order

Two threads claim LSNs 1 and 2 in a WAL of one shard.  The second appends first;
its buffer is sealed, written and synced, and the durable LSN becomes 2.  Only
then does the first append its record, which lands in the active buffer: a flush
at LSN 1 returns at once although no byte of the record has left the process. -/

def lateAppendRun : List Action :=
  [.claim 0, .claim 1, .append 1 smallRecord] ++ flushActions 0 0 2 ++ [.append 0 smallRecord]

theorem lateAppendRun_loses_record :
    ∃ s, exec (step (oneShard .fdatasync)) ((oneShard .fdatasync).opened (fun _ => 0) 1)
        lateAppendRun = some s ∧
      ⟨1, smallRecord⟩ ∈ s.appended ∧ flushReturns (oneShard .fdatasync) s 1 = true ∧
      isLsnDurable (oneShard .fdatasync) s 1 = true ∧
      ¬RecordDurable (oneShard .fdatasync) s ⟨1, smallRecord⟩ := by
  have hrun : (exec (step (oneShard .fdatasync)) ((oneShard .fdatasync).opened (fun _ => 0) 1)
      lateAppendRun).map (fun s => (decide (⟨1, smallRecord⟩ ∈ s.appended),
        flushReturns (oneShard .fdatasync) s 1, isLsnDurable (oneShard .fdatasync) s 1,
        decide (RecordDurable (oneShard .fdatasync) s ⟨1, smallRecord⟩))) =
      some (true, true, true, false) := by
    decide +kernel
  obtain ⟨s, hexec, hs⟩ := Option.map_eq_some_iff.mp hrun
  simp only [Prod.mk.injEq, decide_eq_true_eq, decide_eq_false_iff_not] at hs
  exact ⟨s, hexec, hs⟩

end Pagebox.Wal
