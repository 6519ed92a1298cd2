import Pagebox.Kv.CheckpointLsn
import Pagebox.Storage.WriteAhead

/-!
# Every LSN is above the pages of the data file

Recovery skips a record whose LSN is not above the LSN of its page, so an LSN that
is claimed after a restart has to be above every page LSN in the data file.  The
next LSN is rebuilt from the log and from the checkpoint LSN of the header.

The invariant is a floor under every checkpoint LSN a crash may leave in the header:
a page LSN above the floor has its record in the log, and if the page is in the
data file the record is durable.  A reset raises the floor to the checkpoint LSN,
which is in the synced header by then; it is sound when nothing was logged since
the checkpoint has flushed the WAL.
-/

namespace Pagebox.Kv

open Pagebox.Base Pagebox.Storage Pagebox.Storage.Writeback Function List

variable {n m : Nat} {β : Type}

/-- A reset cuts off nothing that was logged after the WAL flush of its checkpoint;
a header is written with the checkpoint LSN that is current, and that one never
goes down; a batch is handed over when its records are durable; and no LSN wraps
around. -/
def LsnSafe (su : Setup n β) (s : State n m β) : Action n m β → Prop
  | .pool a => batchSafe su.wal s.pool a = true ∧ LsnLeft su.wal s.pool a
  | .headerWrite t => s.sync t = .loaded s.checkpointLsn
  | .setCheckpointLsn t => s.checkpointLsn ≤ (s.job t).lsn
  | .resetNext t => ∀ lsn shard, s.job t = .resetting lsn shard → shard < su.wal.shardCount →
      s.pool.nextLsn ≤ lsn + 1
  | _ => True

def Known (s : State n m β) (floor lsn : Nat) : Prop :=
  lsn ≤ floor ∨ ∃ r ∈ s.log, r.lsn = lsn

structure Floor (su : Setup n β) (s : State n m β) (floor : Nat) : Prop where
  header : ∀ h, s.header.Survives () h → floor ≤ h
  memory : floor ≤ s.checkpointLsn
  pages : ∀ pid v, s.pages.Survives pid v →
    Known s floor v.lsn ∧ (v.lsn ≤ floor ∨ s.pool.isLsnDurable su.wal v.lsn = true)
  frames : ∀ f, Known s floor (s.pool.frames f).page.lsn
  copies : ∀ t d, d ∈ (s.pool.threads t).unwritten → Known s floor d.copy.lsn
  log : ∀ r ∈ s.log, r.lsn < s.pool.nextLsn
  next : s.opening = none → floor < s.pool.nextLsn

/-- How far checkpoint LSN `c` has come on its way into the synced header. -/
def HeaderStage (header : WriteCache Unit Nat) (c : Nat) : SyncPc → Prop
  | .idle | .loaded _ => True
  | .written => c ≤ header.read ()
  | .syncing _ mark => mark ≤ header.issued ∧ ∀ h, (header.sync mark).Survives () h → c ≤ h
  | .done => ∀ h, header.Survives () h → c ≤ h

/-- The checkpoint of thread `t` resets the log only after its LSN is in the synced
header. -/
def Announced (s : State n m β) (t : Fin n) : Prop :=
  match s.job t with
  | .storeSyncing c => c ≤ s.checkpointLsn ∧ HeaderStage s.header c (s.sync t)
  | .resetFlushing c _ | .resetting c _ =>
    c ≤ s.checkpointLsn ∧ ∀ h, s.header.Survives () h → c ≤ h
  | _ => True

/-- What a step of `open_with` needs. -/
def openPre (s : State n m β) : OpenOp m β → Prop
  | .write r => r ∈ s.log
  | .reset _ => ∃ c, (∀ h, s.header.Survives () h → c ≤ h) ∧ c ≤ s.checkpointLsn ∧
      ∀ r ∈ s.log, r.lsn ≤ c
  | .setCheckpointLsn lsn => s.checkpointLsn ≤ lsn
  | _ => True

def OpenOk (su : Setup n β) : List (OpenOp m β) → State n m β → Prop
  | [], _ => True
  | op :: ops, s => openPre s op ∧ OpenOk su ops (s.openStep su op)

structure Fresh (su : Setup n β) (s : State n m β) : Prop where
  owned : Owned s.pool
  logged : Logged su.wal s.pool
  store : s.opening = none → s.pool.store = s.pages.read
  floor : ∃ floor, Floor su s floor
  announced : ∀ t, Announced s t
  opening : ∀ ops, s.opening = some ops → OpenOk su ops s ∧
    ∀ r ∈ s.log, s.pool.isLsnDurable su.wal r.lsn = true

/-! ## A step of the pool -/

section Pool

variable {su : Setup n β} {s s' : State n m β} {a : Writeback.Action n m β} {floor lsn : Nat}

theorem Known.mono (h : Known s floor lsn) (hlog : ∀ r ∈ s.log, r ∈ s'.log) :
    Known s' floor lsn := by
  rcases h with hle | ⟨r, hr, hlsn⟩
  · exact .inl hle
  · exact .inr ⟨r, hlog r hr, hlsn⟩

theorem Known.raise {floor' : Nat} (h : Known s floor lsn) (hle : floor ≤ floor')
    (hlog : ∀ r ∈ s.log, r.lsn ≤ floor') : lsn ≤ floor' := by
  rcases h with h | ⟨r, hr, rfl⟩
  · exact h.trans hle
  · exact hlog r hr

theorem log_subset (h : AfterPool su s a (State.storedBy s.pool a)
    (State.loggedBy s.pool s'.pool a) s') : ∀ r ∈ s.log, r ∈ s'.log := by
  intro r hr
  rw [h.log]
  cases State.loggedBy s.pool s'.pool a with
  | none => exact hr
  | some x => exact mem_cons_of_mem _ hr

/-- The page a pool step writes has a durable record, or an LSN within the floor. -/
theorem Floor.stored (hf : Floor su s floor) (hlogged : Logged su.wal s.pool)
    {pool : Writeback.State n m β} (hstep : Writeback.step su.wal s.pool a = some pool)
    {w : Nat × Writeback.Page m β} (hw : State.storedBy s.pool a = some w) :
    Known s floor w.2.lsn ∧ s.pool.isLsnDurable su.wal w.2.lsn = true := by
  cases a with
  | storeNext t =>
    obtain ⟨d, todo, done, hpc, -⟩ := storeNext_cases hstep
    simp only [State.storedBy, hpc, Option.some.injEq] at hw
    subst hw
    refine ⟨hf.copies t d (by simp [hpc, Pc.unwritten]), hlogged.handedOver (t := t) ?_⟩
    simp [Writeback.State.handedOver, hpc]
  | flushStoreNext t =>
    obtain ⟨f, todo, done, hpc, -⟩ := flushStoreNext_cases hstep
    simp only [State.storedBy, hpc, Option.some.injEq] at hw
    subst hw
    refine ⟨hf.frames f, hlogged.handedOver (t := t) ?_⟩
    simp [Writeback.State.handedOver, hpc]
  | _ => cases hw

theorem Floor.poolStep (hf : Floor su s floor) (hi : Fresh su s) (hopen : s.opening = none)
    (h : s.poolStep su a = some s') (hleft : LsnLeft su.wal s.pool a) : Floor su s' floor := by
  obtain ⟨-, hstep, hafter⟩ := afterPool h
  have heffect := poolEffect hstep
  have hmono := nextLsn_mono hstep hleft
  have hlog := log_subset hafter
  have hdurable : ∀ lsn, s.pool.isLsnDurable su.wal lsn = true →
      s'.pool.isLsnDurable su.wal lsn = true :=
    fun lsn => isLsnDurable_mono fun i => (heffect.durable i).1
  constructor
  · rw [hafter.header]
    exact hf.header
  · rw [hafter.checkpointLsn]
    exact hf.memory
  · intro pid v hv
    rw [hafter.pages] at hv
    have hold : s.pages.Survives pid v →
        Known s' floor v.lsn ∧ (v.lsn ≤ floor ∨ s'.pool.isLsnDurable su.wal v.lsn = true) :=
      fun hv => ⟨(hf.pages pid v hv).1.mono hlog, (hf.pages pid v hv).2.imp_right (hdurable _)⟩
    cases hw : State.storedBy s.pool a with
    | none =>
      rw [hw] at hv
      exact hold hv
    | some w =>
      rw [hw, Option.elim_some, WriteCache.survives_write] at hv
      rcases hv with hv | ⟨-, rfl⟩
      · exact hold hv
      · obtain ⟨hknown, hlsn⟩ := hf.stored hi.logged hstep hw
        exact ⟨hknown.mono hlog, .inr (hdurable _ hlsn)⟩
  · intro f
    rcases frameLsn_step hstep f with hold | ⟨pid, hread⟩ | ⟨x, hx, hlsn⟩
    · rw [hold]
      exact (hf.frames f).mono hlog
    · rw [hread, hi.store hopen]
      exact (hf.pages pid _ (s.pages.survives_read pid)).1.mono hlog
    · refine .inr ⟨x.2, ?_, hlsn.symm⟩
      rw [hafter.log, hx]
      exact mem_cons_self
  · intro t d hd
    rcases heffect.unwritten t d hd with hold | ⟨f, -, -, -, -, hcopy⟩
    · exact (hf.copies t d hold).mono hlog
    · rw [hcopy]
      exact (hf.frames f).mono hlog
  · intro r hr
    rw [hafter.log] at hr
    cases hx : State.loggedBy s.pool s'.pool a with
    | none =>
      rw [hx] at hr
      exact (hf.log r hr).trans_le hmono
    | some x =>
      rw [hx, Option.elim_some] at hr
      obtain ⟨-, hnext⟩ := logged_lsn hstep hleft hx
      rcases mem_cons.mp hr with rfl | hr
      · omega
      · exact (hf.log r hr).trans_le hmono
  · exact fun _ => (hf.next hopen).trans_le hmono

theorem Fresh.poolStep (hi : Fresh su s) (hopen : s.opening = none)
    (h : s.poolStep su a = some s') (hsafe : batchSafe su.wal s.pool a = true)
    (hleft : LsnLeft su.wal s.pool a) : Fresh su s' := by
  obtain ⟨-, hstep, hafter⟩ := afterPool h
  obtain ⟨floor, hf⟩ := hi.floor
  refine ⟨hi.owned.step hstep, hi.logged.step hi.owned hsafe hstep,
    fun _ => store_eq_read (hi.store hopen) h, ⟨floor, hf.poolStep hi hopen h hleft⟩, ?_, ?_⟩
  · intro t
    have hold := hi.announced t
    unfold Announced at hold ⊢
    rw [hafter.job, hafter.checkpointLsn, hafter.header]
    split at hold
    · refine ⟨hold.1, ?_⟩
      rcases hafter.sync t with hsame | hidle
      · rw [hsame]
        exact hold.2
      · rw [hidle]
        trivial
    · exact hold
    · exact hold
    · trivial
  · intro ops hops
    rw [hafter.opening, hopen] at hops
    cases hops

end Pool

section Header

variable {s s' : State n m β} {t : Fin n} {header : WriteCache Unit Nat} {c lsn : Nat} {pc : SyncPc}

theorem HeaderStage.write (h : HeaderStage header c pc) (hc : c ≤ lsn) :
    HeaderStage (header.write () lsn) c pc := by
  cases pc with
  | idle => trivial
  | loaded _ => trivial
  | written =>
    rw [HeaderStage, WriteCache.read_write, update_self]
    exact hc
  | syncing pages mark =>
    obtain ⟨hmark, hsurvives⟩ := h
    refine ⟨by rw [WriteCache.issued_write]; omega, fun v hv => ?_⟩
    rw [WriteCache.sync_write hmark] at hv
    rcases WriteCache.survives_write.mp hv with hv | ⟨-, rfl⟩
    · exact hsurvives v hv
    · exact hc
  | done =>
    intro v hv
    rcases WriteCache.survives_write.mp hv with hv | ⟨-, rfl⟩
    · exact h v hv
    · exact hc

theorem HeaderStage.sync (h : HeaderStage header c pc) (mark : Nat) :
    HeaderStage (header.sync mark) c pc := by
  cases pc with
  | idle => trivial
  | loaded _ => trivial
  | written =>
    rw [HeaderStage, WriteCache.read_sync]
    exact h
  | syncing pages mark' =>
    refine ⟨by rw [WriteCache.issued_sync]; exact h.1, fun v hv => ?_⟩
    rw [WriteCache.sync_comm] at hv
    exact h.2 v hv.of_sync
  | done => exact fun v hv => h v hv.of_sync

/-- A thread does not move, and the header gets a current checkpoint LSN or is
synced. -/
theorem Announced.keep (h : Announced s t) (hjob : s'.job t = s.job t)
    (hsync : s'.sync t = s.sync t) (hmemory : s.checkpointLsn ≤ s'.checkpointLsn)
    (hheader : s'.header = s.header ∨ (∃ lsn, s.checkpointLsn ≤ lsn ∧
      s'.header = s.header.write () lsn) ∨ ∃ mark, s'.header = s.header.sync mark) :
    Announced s' t := by
  have hstage : ∀ {c pc}, c ≤ s.checkpointLsn → HeaderStage s.header c pc →
      HeaderStage s'.header c pc := by
    intro c pc hc hstage
    rcases hheader with hheader | ⟨lsn, hlsn, hheader⟩ | ⟨mark, hheader⟩ <;> rw [hheader]
    · exact hstage
    · exact hstage.write (hc.trans hlsn)
    · exact hstage.sync mark
  have hdone : ∀ {c}, c ≤ s.checkpointLsn → HeaderStage s.header c .done →
      HeaderStage s'.header c .done := hstage
  unfold Announced at h ⊢
  rw [hjob, hsync]
  split at h
  · exact ⟨h.1.trans hmemory, hstage h.1 h.2⟩
  · exact ⟨h.1.trans hmemory, hdone h.1 h.2⟩
  · exact ⟨h.1.trans hmemory, hdone h.1 h.2⟩
  · trivial

end Header

section Steps

variable {su : Setup n β} {s s' : State n m β} {t : Fin n} {floor lsn : Nat}

/-- The floor stays when neither the pool nor the log moves, and the files get at
most a header above it. -/
theorem Floor.congr (hf : Floor su s floor) (hpool : s'.pool = s.pool) (hlog : s'.log = s.log)
    (hopening : s'.opening = s.opening) (hmemory : floor ≤ s'.checkpointLsn)
    (hpages : ∀ pid v, s'.pages.Survives pid v → s.pages.Survives pid v)
    (hheader : ∀ h, s'.header.Survives () h → s.header.Survives () h ∨ floor ≤ h) :
    Floor su s' floor := by
  have hknown : ∀ {lsn}, Known s floor lsn → Known s' floor lsn :=
    fun h => h.mono (by rw [hlog]; exact fun _ hr => hr)
  constructor
  · intro h hh
    rcases hheader h hh with hold | hle
    · exact hf.header h hold
    · exact hle
  · exact hmemory
  · intro pid v hv
    rw [hpool]
    exact ⟨hknown (hf.pages pid v (hpages pid v hv)).1, (hf.pages pid v (hpages pid v hv)).2⟩
  · rw [hpool]
    exact fun f => hknown (hf.frames f)
  · rw [hpool]
    exact fun t d hd => hknown (hf.copies t d hd)
  · rw [hpool, hlog]
    exact hf.log
  · rw [hpool, hopening]
    exact hf.next

/-- What a checkpoint has announced when its sync stands at `pc`. -/
theorem announced_setSync {pc : SyncPc} (h : Announced s t)
    (hstage : ∀ c, s.job t = .storeSyncing c → c ≤ s.checkpointLsn →
      HeaderStage s.header c (s.sync t) → HeaderStage s.header c pc) :
    Announced (s.setSync t pc) t := by
  have hpc : (s.setSync t pc).sync t = pc := by simp [State.setSync]
  unfold Announced at h ⊢
  rw [hpc]
  change match s.job t with
    | .storeSyncing c => c ≤ s.checkpointLsn ∧ HeaderStage s.header c pc
    | .resetFlushing c _ | .resetting c _ =>
      c ≤ s.checkpointLsn ∧ ∀ h, s.header.Survives () h → c ≤ h
    | _ => True
  split at h
  · rename_i c hjob
    exact ⟨h.1, hstage c hjob h.1 h.2⟩
  · exact h
  · exact h
  · trivial

/-- Once everything in the log is within a floor under the headers, a shard can be
cut. -/
theorem Floor.resetShard {floor' : Nat} (hf : Floor su s floor) (hle : floor ≤ floor')
    (hlog : ∀ r ∈ s.log, r.lsn ≤ floor') (hheader : ∀ h, s.header.Survives () h → floor' ≤ h)
    (hmemory : floor' ≤ s.checkpointLsn) (hnext : s.opening = none → floor' < s.pool.nextLsn)
    (shard : Nat) : Floor su (s.resetShard su shard) floor' where
  header := hheader
  memory := hmemory
  pages := fun pid v hv =>
    have hv := ((hf.pages pid v hv).1).raise hle hlog
    ⟨.inl hv, .inl hv⟩
  frames := fun f => .inl ((hf.frames f).raise hle hlog)
  copies := fun t d hd => .inl ((hf.copies t d hd).raise hle hlog)
  log := fun r hr => hf.log r (mem_of_mem_filter hr)
  next := hnext

variable (hi : Fresh su s) (hopen : s.opening = none)

include hi hopen

/-- A step of the open store that moves neither the pool nor the log. -/
theorem Fresh.of_floor (hpool : s'.pool = s.pool)
    (hopening : s'.opening = s.opening) (hread : s'.pages.read = s.pages.read)
    (hfloor : ∃ floor, Floor su s' floor) (hannounced : ∀ t, Announced s' t) : Fresh su s' where
  owned := hpool ▸ hi.owned
  logged := hpool ▸ hi.logged
  store := fun _ => by rw [hpool, hread, hi.store hopen]
  floor := hfloor
  announced := hannounced
  opening := fun ops hops => by rw [hopening, hopen] at hops; cases hops

theorem Fresh.of_thread (hpool : s'.pool = s.pool)
    (hpages : s'.pages = s.pages) (hheader : s'.header = s.header) (hlog : s'.log = s.log)
    (hmemory : s'.checkpointLsn = s.checkpointLsn) (hopening : s'.opening = s.opening)
    (hother : ∀ u, u ≠ t → s'.job u = s.job u ∧ s'.sync u = s.sync u)
    (hself : Announced s' t) : Fresh su s' := by
  obtain ⟨floor, hf⟩ := hi.floor
  apply hi.of_floor hopen hpool hopening (by rw [hpages])
  · refine ⟨floor, hf.congr hpool hlog hopening (hmemory ▸ hf.memory) ?_ ?_⟩
    · rw [hpages]
      exact fun _ _ hv => hv
    · rw [hheader]
      exact fun _ hh => .inl hh
  · intro u
    by_cases hu : u = t
    · rw [hu]
      exact hself
    · exact (hi.announced u).keep (hother u hu).1 (hother u hu).2 hmemory.ge (.inl hheader)

theorem Fresh.setJob {job : Job} (hself : Announced (s.setJob t job) t) :
    Fresh su (s.setJob t job) := by
  refine hi.of_thread (t := t) hopen rfl rfl rfl rfl rfl rfl ?_ hself
  exact fun u hu => ⟨by simp [State.setJob, hu], rfl⟩

theorem Fresh.setSync {pc : SyncPc} (hself : Announced (s.setSync t pc) t) :
    Fresh su (s.setSync t pc) := by
  refine hi.of_thread (t := t) hopen rfl rfl rfl rfl rfl rfl ?_ hself
  exact fun u hu => ⟨rfl, by simp [State.setSync, hu]⟩

theorem Fresh.headerWrite (hcurrent : s.sync t = .loaded s.checkpointLsn)
    (h : s.headerWrite t = some s') :
    Fresh su s' := by
  obtain ⟨lsn, hsync, rfl⟩ := headerWrite_cases h
  obtain rfl := SyncPc.loaded.inj (hcurrent.symm.trans hsync)
  obtain ⟨floor, hf⟩ := hi.floor
  refine hi.of_floor hopen rfl rfl rfl ⟨floor, hf.congr rfl rfl rfl hf.memory ?_ ?_⟩ ?_
  · exact fun _ _ hv => hv
  · intro h hh
    rcases WriteCache.survives_write.mp hh with hh | ⟨-, rfl⟩
    · exact .inl hh
    · exact .inr hf.memory
  intro u
  by_cases hu : u = t
  · subst hu
    -- the header now reads the checkpoint LSN in memory
    have hself : Announced { s with header := s.header.write () s.checkpointLsn } u :=
      (hi.announced u).keep rfl rfl le_rfl (.inr (.inl ⟨_, le_rfl, rfl⟩))
    refine announced_setSync hself fun c _ hc _ => ?_
    change c ≤ (s.header.write () s.checkpointLsn).read ()
    rw [WriteCache.read_write, update_self]
    exact hc
  · refine (hi.announced u).keep rfl ?_ le_rfl (.inr (.inl ⟨_, le_rfl, rfl⟩))
    simp [State.setSync, hu]

theorem Fresh.fsyncBegin (h : s.fsyncBegin t = some s') : Fresh su s' := by
  obtain ⟨hsync, rfl⟩ := fsyncBegin_cases h
  refine hi.setSync hopen (announced_setSync (hi.announced t) fun c _ _ hstage => ?_)
  rw [hsync] at hstage
  refine ⟨le_rfl, fun h hh => ?_⟩
  rw [WriteCache.survives_sync_issued.mp hh]
  exact hstage

theorem Fresh.fsyncEnd (h : s.fsyncEnd t = some s') : Fresh su s' := by
  obtain ⟨pages, header, hsync, rfl⟩ := fsyncEnd_cases h
  obtain ⟨floor, hf⟩ := hi.floor
  refine hi.of_floor hopen rfl rfl (WriteCache.read_sync _ _)
    ⟨floor, hf.congr rfl rfl rfl hf.memory ?_ ?_⟩ ?_
  · exact fun _ _ hv => hv.of_sync
  · exact fun _ hh => .inl hh.of_sync
  intro u
  by_cases hu : u = t
  · subst hu
    have hold := hi.announced u
    have hself : Announced { s with
        pages := s.pages.sync pages, header := s.header.sync header } u :=
      hold.keep rfl rfl le_rfl (.inr (.inr ⟨header, rfl⟩))
    refine announced_setSync hself fun c hjob _ _ => ?_
    rw [Announced, show s.job u = .storeSyncing c from hjob, hsync] at hold
    exact hold.2.2
  · refine (hi.announced u).keep rfl ?_ le_rfl (.inr (.inr ⟨header, rfl⟩))
    simp [State.setSync, hu]

theorem Fresh.setCheckpointLsn (hup : s.checkpointLsn ≤ (s.job t).lsn)
    (h : s.setCheckpointLsn t = some s') :
    Fresh su s' := by
  obtain ⟨lsn, hjob, hsync, rfl⟩ := setCheckpointLsn_cases h
  obtain ⟨floor, hf⟩ := hi.floor
  have hle : s.checkpointLsn ≤ lsn := by rwa [hjob] at hup
  refine hi.of_floor hopen rfl rfl rfl ⟨floor, hf.congr rfl rfl rfl (hf.memory.trans hle) ?_ ?_⟩ ?_
  · exact fun _ _ hv => hv
  · exact fun _ hh => .inl hh
  intro u
  by_cases hu : u = t
  · subst hu
    simp only [Announced, State.setJob, update_self, hsync]
    exact ⟨le_rfl, trivial⟩
  · refine (hi.announced u).keep ?_ rfl hle (.inl rfl)
    simp [State.setJob, hu]

theorem Fresh.resetBegin (h : s.resetBegin su t = some s') : Fresh su s' := by
  obtain ⟨lsn, hjob, hsync, rfl⟩ := resetBegin_cases h
  refine hi.of_thread (t := t) hopen rfl rfl rfl rfl rfl rfl ?_ ?_
  · exact fun u hu => ⟨by simp [State.setJob, State.setSync, hu],
      by simp [State.setJob, State.setSync, hu]⟩
  · have hold := hi.announced t
    rw [Announced, hjob, hsync] at hold
    simp only [Announced, State.setSync, State.setJob, update_self]
    exact hold

theorem Fresh.resetFlushReturn (h : s.resetFlushReturn t lsn = some s') : Fresh su s' := by
  obtain ⟨c, targets, hjob, -, rfl⟩ := resetFlushReturn_cases h
  refine hi.setJob hopen ?_
  have hold := hi.announced t
  rw [Announced, hjob] at hold
  simp only [Announced, State.setJob, update_self]
  exact hold

theorem Fresh.resetNext (hnone : ∀ lsn shard, s.job t = .resetting lsn shard →
    shard < su.wal.shardCount →
      s.pool.nextLsn ≤ lsn + 1) (h : s.resetNext su t = some s') : Fresh su s' := by
  obtain ⟨c, shard, hjob, hcase⟩ := resetNext_cases h
  rcases hcase with ⟨hshard, rfl⟩ | rfl
  · obtain ⟨floor, hf⟩ := hi.floor
    have hann := hi.announced t
    rw [Announced, hjob] at hann
    obtain ⟨hmemory, hheader⟩ := hann
    have hc := hnone c shard hjob hshard
    have hnext := hf.next hopen
    have hcut : Fresh su (s.resetShard su shard) := by
      have hfloor : Floor su (s.resetShard su shard) (max floor (s.pool.nextLsn - 1)) := by
        apply hf.resetShard (le_max_left _ _)
        · intro r hr
          exact (Nat.le_sub_one_of_lt (hf.log r hr)).trans (le_max_right _ _)
        · intro h hh
          have hnew := hheader h hh
          omega
        · omega
        · intro _
          omega
      exact hi.of_floor hopen rfl rfl rfl ⟨_, hfloor⟩ fun u =>
        (hi.announced u).keep rfl rfl le_rfl (.inl rfl)
    refine hcut.setJob hopen ?_
    simp only [Announced, State.setJob, update_self]
    exact ⟨hmemory, hheader⟩
  · refine hi.setJob hopen ?_
    simp [Announced, State.setJob]

theorem Fresh.poolFlushBegin (h : s.poolFlushBegin t = some s') : Fresh su s' := by
  obtain ⟨lsn, hjob, hpc, rfl⟩ := poolFlushBegin_cases h
  obtain ⟨floor, hf⟩ := hi.floor
  have hstart : Writeback.step su.wal s.pool (.startFlush t) =
      some (s.pool.setPc t (.flushing [])) := by
    simp [Writeback.step, Writeback.State.start, hpc]
  have hunwritten : ∀ u, ((s.pool.setPc t (.flushing [])).threads u).unwritten ⊆
      (s.pool.threads u).unwritten := subset_setPc Pc.unwritten (by simp [Pc.unwritten])
  refine ⟨hi.owned.step hstart, hi.logged.step hi.owned rfl hstart, hi.store,
    ⟨floor, hf.header, hf.memory, hf.pages, hf.frames, ?_, hf.log, hf.next⟩, ?_, ?_⟩
  · exact fun u d hd => hf.copies u d (hunwritten u hd)
  · intro u
    by_cases hu : u = t
    · subst hu
      simp [Announced, State.setJob]
    · refine (hi.announced u).keep ?_ rfl le_rfl (.inl rfl)
      simp [State.setJob, hu]
  · intro ops hops
    rw [show s.opening = some ops from hops] at hopen
    cases hopen

theorem Fresh.runStep {a : Action n m β} (hsafe : LsnSafe su s a) (h : runStep su s a = some s') :
    Fresh su s' := by
  -- a job of which nothing is announced yet
  have hquiet : ∀ {t job}, (∀ c, job ≠ .storeSyncing c) → (∀ c x, job ≠ .resetFlushing c x) →
      (∀ c x, job ≠ .resetting c x) → Fresh su (s.setJob t job) := by
    intro t job hsync hflush hreset
    refine hi.setJob hopen ?_
    cases job with
    | storeSyncing c => exact absurd rfl (hsync c)
    | resetFlushing c x => exact absurd rfl (hflush c x)
    | resetting c x => exact absurd rfl (hreset c x)
    | _ => simp [Announced, State.setJob]
  cases a with
  | pool a => exact hi.poolStep hopen h hsafe.1 hsafe.2
  | flushSkip t =>
    obtain ⟨held, -, -, -, rfl⟩ := flushSkip_cases h
    refine hi.of_thread (t := t) hopen rfl rfl rfl rfl rfl rfl (fun _ _ => ⟨rfl, rfl⟩) ?_
    exact (hi.announced t).keep rfl rfl le_rfl (.inl rfl)
  | headerLoad t =>
    obtain ⟨-, rfl⟩ := headerLoad_cases h
    exact hi.setSync hopen (announced_setSync (hi.announced t) fun _ _ _ _ => trivial)
  | headerWrite t => exact hi.headerWrite hopen hsafe h
  | headerOnly t =>
    obtain ⟨-, rfl⟩ := headerOnly_cases h
    exact hi.setSync hopen (announced_setSync (hi.announced t) fun _ _ _ _ => trivial)
  | fsyncBegin t => exact hi.fsyncBegin hopen h
  | fsyncEnd t => exact hi.fsyncEnd hopen h
  | commitBegin t =>
    obtain ⟨-, -, rfl⟩ := commitBegin_cases h
    exact hquiet (by simp) (by simp) (by simp)
  | commitReturn t lsn =>
    obtain ⟨targets, -, -, rfl⟩ := commitReturn_cases h
    have hidle : Fresh su (s.setJob t .idle) := hquiet (by simp) (by simp) (by simp)
    refine hidle.of_thread (t := t) hopen rfl rfl rfl rfl rfl rfl (fun _ _ => ⟨rfl, rfl⟩) ?_
    exact (hidle.announced t).keep rfl rfl le_rfl (.inl rfl)
  | checkpointBegin t =>
    obtain ⟨-, -, rfl⟩ := checkpointBegin_cases h
    exact hquiet (by simp) (by simp) (by simp)
  | walFlushReturn t lsn =>
    obtain ⟨targets, -, -, rfl⟩ := walFlushReturn_cases h
    exact hquiet (by simp) (by simp) (by simp)
  | poolFlushBegin t => exact hi.poolFlushBegin hopen h
  | poolFlushReturn t =>
    obtain ⟨lsn, -, -, rfl⟩ := poolFlushReturn_cases h
    exact hquiet (by simp) (by simp) (by simp)
  | setCheckpointLsn t => exact hi.setCheckpointLsn hopen hsafe h
  | resetBegin t => exact hi.resetBegin hopen h
  | resetFlushReturn t lsn => exact hi.resetFlushReturn hopen h
  | resetNext t => exact hi.resetNext hopen hsafe h
  | crash _ _ _ _ => cases h
  | openNext => cases h
  | openReturn => cases h

end Steps

/-! ## Crashes and reopening -/

section Open

variable {su : Setup n β} {s s' : State n m β} {t : Fin n} {floor lsn : Nat}

theorem lsn_le_maxLsn {log : List (Record m β)} {r : Record m β} (hr : r ∈ log) :
    r.lsn ≤ State.maxLsn log :=
  (le_foldl_max _ 0).2 _ (mem_map_of_mem hr)

theorem lsn_le_shardLsns {log : List (Record m β)} {r : Record m β} (hr : r ∈ log) :
    r.lsn ≤ State.shardLsns su log (State.shardOf su r) :=
  lsn_le_maxLsn (mem_filter.mpr ⟨hr, by simp⟩)

theorem replay_subset (checkpointLsn : Nat) (pages : Nat → Writeback.Page m β)
    (rs : List (Record m β)) :
    State.replay checkpointLsn pages rs ⊆ rs := by
  induction rs generalizing pages with
  | nil => simp [State.replay]
  | cons r rs ih =>
    rw [State.replay]
    split
    · exact List.Subset.trans (ih pages) (subset_cons_self r rs)
    · exact cons_subset_cons r (ih _)

/-- The rest of `open_with` does not enter its own steps. -/
theorem openOk_congr {ops : List (OpenOp m β)} (opening : Option (List (OpenOp m β)))
    (h : OpenOk su ops s) : OpenOk su ops { s with opening := opening } := by
  induction ops generalizing s with
  | nil => trivial
  | cons op ops ih =>
    refine ⟨?_, ?_⟩
    · cases op <;> exact h.1
    · have hrest := ih h.2
      cases op <;> exact hrest

theorem openOk_resets {c : Nat} (shards : List Nat) (hheader : ∀ h, s.header.Survives () h → c ≤ h)
    (hmemory : c ≤ s.checkpointLsn) (hlog : ∀ r ∈ s.log, r.lsn ≤ c) :
    OpenOk su (shards.map .reset) s := by
  induction shards generalizing s with
  | nil => trivial
  | cons shard shards ih =>
    refine ⟨⟨c, hheader, hmemory, hlog⟩, ih hheader hmemory ?_⟩
    exact fun r hr => hlog r (mem_of_mem_filter hr)

/-- The end of `open_with`: the largest LSN of the log is in the synced header when
the log is reset. -/
theorem openOk_checkpoint (hlt : s.checkpointLsn < State.maxLsn s.log) (shards : List Nat) :
    OpenOk su ([.writeHeader, .fsync, .setCheckpointLsn (State.maxLsn s.log),
      .writeHeader, .fsync] ++
      shards.map .reset) s := by
  refine ⟨trivial, trivial, hlt.le, trivial, trivial, openOk_resets (c := State.maxLsn s.log)
    shards ?_ le_rfl fun r hr => lsn_le_maxLsn hr⟩
  intro h hh
  have hread := WriteCache.survives_sync_issued.mp hh
  change h = (WriteCache.write _ () (State.maxLsn s.log)).read () at hread
  rw [WriteCache.read_write, update_self] at hread
  exact hread.ge

theorem openOk_writes {rs : List (Record m β)} {rest : List (OpenOp m β)}
    (hrs : ∀ r ∈ rs, r ∈ s.log)
    (hrest : ∀ s' : State n m β, s'.log = s.log → s'.checkpointLsn = s.checkpointLsn →
      OpenOk su rest s') : OpenOk su (rs.map .write ++ rest) s := by
  induction rs generalizing s with
  | nil => exact hrest s rfl rfl
  | cons r rs ih =>
    refine ⟨hrs r mem_cons_self, ih ?_ hrest⟩
    exact fun x hx => hrs x (mem_cons_of_mem r hx)

theorem openOk_openOps (pages : Nat → Writeback.Page m β) :
    OpenOk su (State.openOps su pages s.checkpointLsn s.log) s := by
  unfold State.openOps
  rw [append_assoc]
  apply openOk_writes
  · exact fun r hr => mem_reverse.mp (replay_subset _ _ _ hr)
  intro s' hlog hmemory
  have htail : ∀ s' : State n m β, s'.log = s.log → s'.checkpointLsn = s.checkpointLsn →
      OpenOk su (if s.checkpointLsn < State.maxLsn s.log then
        [.writeHeader, .fsync, .setCheckpointLsn (State.maxLsn s.log), .writeHeader, .fsync] ++
          (List.range su.wal.shardCount).map .reset else []) s' := by
    intro s' hlog hmemory
    split
    · rename_i hlt
      rw [← hlog, ← hmemory] at hlt
      rw [← hlog]
      exact openOk_checkpoint hlt _
    · trivial
  split
  · exact htail s' hlog hmemory
  · exact ⟨trivial, trivial, htail _ hlog hmemory⟩

theorem Fresh.crash (hi : Fresh su s) (keepPages keepHeader keepLog keepCut : List Bool) :
    Fresh su (s.crash su keepPages keepHeader keepLog keepCut) := by
  obtain ⟨floor, hf⟩ := hi.floor
  refine ⟨Owned.opened _ _ _ _, Logged.opened _ _ _ _ _, (fun h => by cases h), ⟨floor, ?_⟩,
    fun _ => trivial, ?_⟩
  · have hheader := hf.header _ (s.header.survives_crash keepHeader ())
    constructor
    · intro h hh
      rw [WriteCache.survives_stored.mp hh]
      exact hheader
    · exact hheader
    · intro pid v hv
      rw [WriteCache.survives_stored.mp hv]
      obtain ⟨hknown, hdurable⟩ := hf.pages pid _ (s.pages.survives_crash keepPages pid)
      -- a page above the floor keeps its record, and what is kept is durable
      rcases hknown with hle | ⟨r, hr, hlsn⟩
      · exact ⟨.inl hle, .inl hle⟩
      rcases hdurable with hle | hdurable
      · exact ⟨.inl hle, .inl hle⟩
      rw [← hlsn] at hdurable
      have hkept : r ∈ (s.crash su keepPages keepHeader keepLog keepCut).log :=
        mem_append_left _ (mem_survive_of_must (by exact hdurable) keepLog hr)
      refine ⟨.inr ⟨r, hkept, hlsn⟩, .inr ?_⟩
      rw [isLsnDurable_iff, ← hlsn]
      exact .inr (lsn_le_shardLsns hkept)
    · exact fun f => .inl (Nat.zero_le floor)
    · intro t d hd
      cases hd
    · exact fun r hr => Nat.lt_succ_of_le (lsn_le_maxLsn hr)
    · exact fun h => by cases h
  · intro ops hops
    cases hops
    refine ⟨openOk_openOps (s := s.crash su keepPages keepHeader keepLog keepCut) _, fun r hr => ?_⟩
    rw [isLsnDurable_iff]
    exact .inr (lsn_le_shardLsns hr)

theorem Floor.openStep {op : OpenOp m β} (hf : Floor su s floor) (hpre : openPre s op)
    (hopening : s.opening ≠ none) (hdurable : ∀ r ∈ s.log,
      s.pool.isLsnDurable su.wal r.lsn = true) : ∃ floor', Floor su (s.openStep su op) floor' := by
  cases op with
  | write r =>
    refine ⟨floor, hf.header, hf.memory, ?_, hf.frames, hf.copies, hf.log, hf.next⟩
    intro pid v hv
    rcases WriteCache.survives_write.mp hv with hv | ⟨-, rfl⟩
    · exact hf.pages pid v hv
    · exact ⟨.inr ⟨r, hpre, rfl⟩, .inr (hdurable r hpre)⟩
  | writeHeader =>
    refine ⟨floor, hf.congr rfl rfl rfl hf.memory (fun _ _ hv => hv) fun h hh => ?_⟩
    rcases WriteCache.survives_write.mp hh with hh | ⟨-, rfl⟩
    · exact .inl hh
    · exact .inr hf.memory
  | fsync =>
    exact ⟨floor, hf.congr rfl rfl rfl hf.memory (fun _ _ hv => hv.of_sync)
      fun _ hh => .inl hh.of_sync⟩
  | setCheckpointLsn lsn =>
    exact ⟨floor, hf.congr rfl rfl rfl (hf.memory.trans hpre) (fun _ _ hv => hv)
      fun _ hh => .inl hh⟩
  | reset shard =>
    obtain ⟨c, hheader, hmemory, hlog⟩ := hpre
    refine ⟨max floor c, hf.resetShard (le_max_left _ _) ?_ ?_ ?_ ?_ shard⟩
    · exact fun r hr => (hlog r hr).trans (le_max_right _ _)
    · exact fun h hh => max_le (hf.header h hh) (hheader h hh)
    · exact max_le hf.memory hmemory
    · exact fun h => absurd h hopening

theorem openStep_pool (s : State n m β) (op : OpenOp m β) : (s.openStep su op).pool = s.pool := by
  cases op <;> rfl

theorem openStep_log {op : OpenOp m β} {r : Record m β} (h : r ∈ (s.openStep su op).log) :
    r ∈ s.log := by
  cases op with
  | reset shard => exact mem_of_mem_filter h
  | _ => exact h

theorem Announced.openStep {op : OpenOp m β} (h : Announced s t) (hpre : openPre s op) :
    Announced (s.openStep su op) t := by
  cases op with
  | write r => exact h.keep rfl rfl le_rfl (.inl rfl)
  | writeHeader => exact h.keep rfl rfl le_rfl (.inr (.inl ⟨_, le_rfl, rfl⟩))
  | fsync => exact h.keep rfl rfl le_rfl (.inr (.inr ⟨_, rfl⟩))
  | setCheckpointLsn lsn => exact h.keep rfl rfl hpre (.inl rfl)
  | reset shard => exact h.keep rfl rfl le_rfl (.inl rfl)

theorem Fresh.openNext (hi : Fresh su s) (h : s.openNext su = some s') : Fresh su s' := by
  obtain ⟨op, ops, hopen, rfl⟩ := openNext_cases h
  obtain ⟨⟨hpre, hrest⟩, hdurable⟩ := hi.opening _ hopen
  obtain ⟨floor, hf⟩ := hi.floor
  obtain ⟨floor', hf'⟩ := hf.openStep hpre (by rw [hopen]; simp) hdurable
  have hpool : ({ s.openStep su op with opening := some ops } : State n m β).pool = s.pool :=
    openStep_pool s op
  refine ⟨hpool ▸ hi.owned, hpool ▸ hi.logged, (fun h => by cases h), ⟨floor', hf'.header,
    hf'.memory, hf'.pages, hf'.frames, hf'.copies, hf'.log, fun h => by cases h⟩, ?_, ?_⟩
  · intro t
    exact ((hi.announced t).openStep hpre).keep rfl rfl le_rfl (.inl rfl)
  · intro rest hops
    cases hops
    refine ⟨openOk_congr _ hrest, fun r hr => ?_⟩
    rw [hpool]
    exact hdurable r (openStep_log hr)

theorem openReturn_cases (h : s.openReturn su = some s') :
    s.opening = some [] ∧ s'.opening = none ∧ s'.pages = s.pages ∧ s'.header = s.header ∧
      s'.checkpointLsn = s.checkpointLsn ∧ s'.log = s.log ∧ s'.job = s.job ∧ s'.sync = s.sync ∧
      s'.pool = .opened s.pages.read su.blank (max s.pool.nextLsn (s.checkpointLsn + 1))
        (fun shard => max (s.pool.durableLsn shard) s.checkpointLsn) := by
  unfold State.openReturn at h
  split at h
  · rename_i hopen
    cases h
    exact ⟨hopen, rfl, rfl, rfl, rfl, rfl, rfl, rfl, rfl⟩
  · cases h

theorem Fresh.openReturn (hi : Fresh su s) (h : s.openReturn su = some s') : Fresh su s' := by
  obtain ⟨hopen, hopen', hpages, hheader, hmemory, hlog, hjob, hsync, hpool⟩ := openReturn_cases h
  obtain ⟨floor, hf⟩ := hi.floor
  have hdurable : ∀ lsn, s.pool.isLsnDurable su.wal lsn = true →
      s'.pool.isLsnDurable su.wal lsn = true := by
    refine fun lsn => isLsnDurable_mono fun i => ?_
    rw [hpool]
    exact le_max_left _ _
  have hknown : ∀ {lsn}, Known s floor lsn → Known s' floor lsn :=
    fun h => h.mono (by rw [hlog]; exact fun _ hr => hr)
  refine ⟨?_, ?_, ?_, ⟨floor, ?_⟩, ?_, ?_⟩
  · rw [hpool]
    exact Owned.opened _ _ _ _
  · rw [hpool]
    exact Logged.opened _ _ _ _ _
  · intro _
    rw [hpool, hpages]
    rfl
  · constructor
    · rw [hheader]
      exact hf.header
    · rw [hmemory]
      exact hf.memory
    · rw [hpages]
      exact fun pid v hv =>
        ⟨hknown (hf.pages pid v hv).1, (hf.pages pid v hv).2.imp_right (hdurable _)⟩
    · rw [hpool]
      exact fun f => .inl (Nat.zero_le floor)
    · rw [hpool]
      intro t d hd
      cases hd
    · rw [hpool, hlog]
      exact fun r hr => (hf.log r hr).trans_le (le_max_left _ _)
    · rw [hpool]
      exact fun _ => (Nat.lt_succ_of_le hf.memory).trans_le (le_max_right _ _)
  · intro t
    exact (hi.announced t).keep (by rw [hjob]) (by rw [hsync]) hmemory.ge (.inl hheader)
  · intro ops hops
    rw [hopen'] at hops
    cases hops

end Open

section Runs

variable {su : Setup n β} {s s' : State n m β} {pages : Nat → Writeback.Page m β} {lsn : Nat}

theorem Fresh.step {a : Action n m β} (hi : Fresh su s) (hsafe : LsnSafe su s a)
    (h : step su s a = some s') : Fresh su s' := by
  have hrun : (if s.opening.isNone then Kv.runStep su s a else none) = some s' → Fresh su s' := by
    intro h
    obtain ⟨hopen, h⟩ := Option.ite_none_right_eq_some.mp h
    exact hi.runStep (Option.isNone_iff_eq_none.mp hopen) hsafe h
  cases a with
  | crash keepPages keepHeader keepLog keepCut =>
    cases h
    exact hi.crash keepPages keepHeader keepLog keepCut
  | openNext => exact hi.openNext h
  | openReturn => exact hi.openReturn h
  | _ => exact hrun h

theorem Fresh.opened (hpages : ∀ pid, (pages pid).lsn ≤ lsn) :
    Fresh su (State.opened su pages lsn : State n m β) := by
  refine ⟨Owned.opened _ _ _ _, Logged.opened _ _ _ _ _, fun _ => rfl, ⟨lsn, ?_⟩, fun _ => trivial,
    fun ops hops => by cases hops⟩
  constructor
  · intro h hh
    exact (WriteCache.survives_stored.mp hh).ge
  · exact le_rfl
  · intro pid v hv
    rw [WriteCache.survives_stored.mp hv]
    exact ⟨.inl (hpages pid), .inl (hpages pid)⟩
  · exact fun f => .inl (Nat.zero_le lsn)
  · intro t d hd
    cases hd
  · intro r hr
    cases hr
  · exact fun _ => Nat.lt_succ_self lsn

/-- An LSN that is claimed while the store is open, after any number of crashes and
restarts, is above the LSN of every page in the data file, whether its last write is
synced or not. -/
theorem claimed_lsn_above_pages (hpages : ∀ pid, (pages pid).lsn ≤ lsn)
    (h : Reach (Kv.step su) (LsnSafe su) (State.opened su pages lsn) s)
    (hopen : s.opening = none) (t : Fin n) (pid : Nat) :
    (s.pages.read pid).lsn < s.pool.lsnFor su.wal t := by
  have hinv : Fresh su s := by
    apply h.invariant (Fresh.opened hpages)
    intro s a s' hi hsafe hstep
    exact hi.step hsafe hstep
  obtain ⟨floor, hf⟩ := hinv.floor
  have hnext : (s.pages.read pid).lsn < s.pool.nextLsn := by
    rcases (hf.pages pid _ (s.pages.survives_read pid)).1 with hle | ⟨r, hr, hlsn⟩
    · exact hle.trans_lt (hf.next hopen)
    · rw [← hlsn]
      exact hf.log r hr
  exact hnext.trans_le (le_lsnFor su.wal s.pool t)

end Runs

/-! ## A mutation during a checkpoint

Thread 0 runs a checkpoint of a new store with one frame, thread 1 changes page 1. -/

def twoThreads : Setup 2 Nat := ⟨⟨1, fun _ => 0⟩, 0⟩

def sharedStore : State 2 1 Nat := State.opened twoThreads (fun _ => ⟨0, [], 0⟩) 0

def changePage (t : Fin 2) (f : Fin 1) : List (Action 2 1 Nat) :=
  [.pool (.load f 1), .pool (.lock t f), .pool (.mutate t [] 7), .pool (.mark t (some ⟨1, 1⟩)),
    .pool (.unlock t), .pool (.publishDurable 0 1)]

def walFlush (t : Fin 2) (lsn : Nat) : List (Action 2 1 Nat) :=
  [.checkpointBegin t, .walFlushReturn t lsn]

def finishCheckpoint (t : Fin 2) (f : Fin 1) : List (Action 2 1 Nat) :=
  [.poolFlushBegin t, .pool (.flushLock t f), .pool (.flushDurable t), .pool (.endFlushScan t),
    .pool (.flushStoreNext t), .headerLoad t, .headerWrite t, .fsyncBegin t, .fsyncEnd t,
    .pool (.nextPhase t), .pool (.flushClearNext t), .pool (.nextPhase t),
    .pool (.flushUnlatchNext t), .pool (.nextPhase t), .poolFlushReturn t, .setCheckpointLsn t,
    .headerLoad t, .headerWrite t, .fsyncBegin t, .fsyncEnd t, .resetBegin t,
    .resetFlushReturn t 1, .resetNext t, .resetNext t]

def restart : List (Action 2 1 Nat) := [.crash [] [] [] [], .openReturn]

def lsnSafe (s : State 2 1 Nat) : Action 2 1 Nat → Bool
  | .pool (.mark t _) => s.pool.lsnFor twoThreads.wal t + 1 < u64Limit
  | .pool a => batchSafe twoThreads.wal s.pool a
  | .headerWrite t => s.sync t = .loaded s.checkpointLsn
  | .setCheckpointLsn t => s.checkpointLsn ≤ (s.job t).lsn
  | .resetNext t => s.pool.nextLsn ≤ (s.job t).lsn + 1
  | _ => true

theorem LsnSafe.of_test {s : State 2 1 Nat} {a : Action 2 1 Nat} (h : lsnSafe s a = true) :
    LsnSafe twoThreads s a := by
  cases a with
  | pool a =>
    cases a with
    | mark t record =>
      simp only [lsnSafe, decide_eq_true_eq] at h
      exact ⟨rfl, h⟩
    | _ => exact ⟨h, trivial⟩
  | headerWrite t =>
    simp only [lsnSafe, decide_eq_true_eq] at h
    exact h
  | setCheckpointLsn t =>
    simp only [lsnSafe, decide_eq_true_eq] at h
    exact h
  | resetNext t =>
    intro lsn shard hjob _
    simpa [lsnSafe, hjob, Job.lsn] using h
  | _ => trivial

def lsns (t : Fin 2) (s : State 2 1 Nat) : Bool × Nat × Nat :=
  (s.opening.isNone, (s.pages.read 1).lsn, s.pool.lsnFor twoThreads.wal t)

/-- The page is changed before the checkpoint. -/
theorem claimed_lsn_above_pages_restarted :
    ∃ s, Reach (step twoThreads) (LsnSafe twoThreads) sharedStore s ∧ lsns 1 s = (true, 1, 2) ∧
      (s.pages.read 1).lsn < s.pool.lsnFor twoThreads.wal 1 := by
  have hrun : (exec (guarded lsnSafe (step twoThreads)) sharedStore
      (changePage 1 0 ++ walFlush 0 1 ++ finishCheckpoint 0 0 ++ restart)).map (lsns 1) =
        some (true, 1, 2) := by
    decide +kernel
  obtain ⟨s, hexec, hobs⟩ := Option.map_eq_some_iff.mp hrun
  have hreach : Reach (step twoThreads) (LsnSafe twoThreads) sharedStore s :=
    Reach.of_exec hexec fun _ _ => LsnSafe.of_test
  have hopen : s.opening = none := Option.isNone_iff_eq_none.mp (Prod.mk.inj hobs).1
  exact ⟨s, hreach, hobs, claimed_lsn_above_pages (fun _ => le_rfl) hreach hopen 1 1⟩

/-- The page is changed after the checkpoint has flushed the WAL: the flush of the
pool writes it with LSN 1, the header gets checkpoint LSN 0, and the reset cuts off
the record.  After a restart LSN 1 is claimed again. -/
theorem lsn_reused_after_restart :
    ∃ s, Reach (step twoThreads) anyStep sharedStore s ∧ s.opening = none ∧
      ¬(s.pages.read 1).lsn < s.pool.lsnFor twoThreads.wal 1 := by
  have hrun : (exec (step twoThreads) sharedStore
      (walFlush 0 0 ++ changePage 1 0 ++ finishCheckpoint 0 0 ++ restart)).map (lsns 1) =
        some (true, 1, 1) := by
    decide +kernel
  obtain ⟨s, hexec, hobs⟩ := Option.map_eq_some_iff.mp hrun
  obtain ⟨hopen, hrest⟩ := Prod.mk.inj hobs
  obtain ⟨hpage, hnext⟩ := Prod.mk.inj hrest
  refine ⟨s, Reach.of_exec_any hexec, Option.isNone_iff_eq_none.mp hopen, ?_⟩
  rw [hpage, hnext]
  decide

end Pagebox.Kv
