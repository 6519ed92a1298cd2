import Pagebox.Kv.FlushScan
import Pagebox.Wal.Durability

/-!
# What a checkpoint LSN in the header promises

If the header of the data file carries checkpoint LSN `c` after a crash, every page
contains the effect of all records up to `c`.  The promise rests on the flush of
the pool: when it returns and no page is changed meanwhile, what the data file
reads is the last version of each page.  But pages that were cleaned before are
written without a sync, and the flush syncs only if it finds a dirty page; the
header with the new checkpoint LSN is then written before the `fsync` that covers
those pages.

The invariant has two bounds: every page version that may survive contains the
records up to the first, and every version that is read, or that a cleaner has
still to write, those up to the second.  The checkpoint LSN in memory is within
the second bound; writing the header moves the first.
-/

namespace Pagebox.Kv

open Pagebox.Base Pagebox.Storage Pagebox.Storage.Writeback Function Option

variable {n m : Nat} {β : Type}

/-- `v` is one of the versions `vs`, newest first, and all newer ones have an LSN
above `lsn`. -/
def Includes (vs : List (Writeback.Page m β)) (v : Writeback.Page m β) (lsn : Nat) : Prop :=
  ∃ newer older, vs = newer ++ v :: older ∧ ∀ p ∈ newer, lsn < p.lsn

def State.versions (s : State n m β) (pid : Nat) : List (Writeback.Page m β) :=
  ((s.records.filter fun r => r.pid = pid).map Record.page) ++ [s.initial pid]

/-- The run goes on without a crash, and no mutation overlaps a checkpoint. -/
def noOverlap (s : State n m β) : Action n m β → Bool
  | .pool (.lock _ _) => ∀ t, (s.job t).checkpoint = false
  | .checkpointBegin _ => ∀ t, isWriter (s.pool.threads t) = false
  | .crash _ _ _ _ | .openNext | .openReturn => false
  | _ => true

/-- No LSN wraps around. -/
def LsnLeft (su : Writeback.Setup n) (s : Writeback.State n m β) : Writeback.Action n m β → Prop
  | .mark t _ => s.lsnFor su t + 1 < u64Limit
  | _ => True

/-- A header with a checkpoint LSN above those the file may already have is written
only when a crash cannot change what the pages read; and a flush never overtakes an
older copy of a cleaner. -/
def PagesFirst (su : Setup n β) (s : State n m β) : Action n m β → Prop
  | .pool a => flushSafe s.pool a = true ∧ LsnLeft su.wal s.pool a
  | .headerWrite t => ∀ lsn, s.sync t = .loaded lsn → (∃ h, s.header.Survives () h ∧ lsn ≤ h) ∨
        ∀ w ∈ s.pages.pending, w.2 = s.pages.synced w.1
  | _ => True

section Includes

variable {vs : List (Writeback.Page m β)} {v : Writeback.Page m β} {lsn lsn' : Nat}

theorem Includes.mono (h : Includes vs v lsn) (hle : lsn' ≤ lsn) : Includes vs v lsn' := by
  obtain ⟨newer, older, hvs, hnewer⟩ := h
  exact ⟨newer, older, hvs, fun p hp => hle.trans_lt (hnewer p hp)⟩

theorem Includes.cons (h : Includes vs v lsn) {p : Writeback.Page m β} (hp : lsn < p.lsn) :
    Includes (p :: vs) v lsn := by
  obtain ⟨newer, older, rfl, hnewer⟩ := h
  exact ⟨p :: newer, older, rfl, List.forall_mem_cons.mpr ⟨hp, hnewer⟩⟩

theorem includes_head (vs : List (Writeback.Page m β)) (v : Writeback.Page m β) (lsn : Nat) :
    Includes (v :: vs) v lsn :=
  ⟨[], vs, rfl, by simp⟩

end Includes

theorem versions_logged {s s' : State n m β} {r : Record m β}
    (hrecords : s'.records = r :: s.records) (hinitial : s'.initial = s.initial) (pid : Nat) :
    s'.versions pid = if r.pid = pid then r.page :: s.versions pid else s.versions pid := by
  simp only [State.versions, hrecords, hinitial, List.filter_cons, decide_eq_true_eq]
  split <;> rfl

theorem versions_congr {s s' : State n m β} (hrecords : s'.records = s.records)
    (hinitial : s'.initial = s.initial) : s'.versions = s.versions := by
  funext pid
  simp [State.versions, hrecords, hinitial]

def Job.lsn : Job → Nat
  | .walFlushed lsn | .poolFlushing lsn | .poolFlushed lsn | .storeSyncing lsn => lsn
  | .resetFlushing lsn _ | .resetting lsn _ => lsn
  | _ => 0

structure Numbered (s : State n m β) : Prop where
  appended : ∀ shard, s.appendedLsn shard < s.pool.nextLsn
  durable : ∀ shard, s.pool.durableLsn shard < s.pool.nextLsn
  job : ∀ t, (s.job t).lsn < s.pool.nextLsn

structure Bounds (s : State n m β) (low high : Nat) : Prop where
  le : low ≤ high
  claimed : high < s.pool.nextLsn
  header : ∀ h, s.header.Survives () h → h ≤ low
  pages : ∀ pid v, s.pages.Survives pid v → Includes (s.versions pid) v low
  read : ∀ pid, Includes (s.versions pid) (s.pages.read pid) high
  copies : ∀ t d, d ∈ (s.pool.threads t).unwritten → Includes (s.versions d.pid) d.copy high
  checkpointLsn : s.checkpointLsn ≤ high
  loaded : ∀ t h, s.sync t = .loaded h → h ≤ high

def Flushed (s : State n m β) (t : Fin n) : Prop :=
  match s.job t with
  | .poolFlushing _ => FlushRest s t
  | .poolFlushed _ => ∀ f, ¬IsDirty (s.pool.frames f)
  | _ => True

structure Promise (s : State n m β) : Prop where
  persisted : Persisted s.pool
  numbered : Numbered s
  store : s.pool.store = s.pages.read
  latest : ∀ pid, ∃ older, s.versions pid = s.pool.latest pid :: older
  quiet : ∀ t u, (s.job t).checkpoint = true → isWriter (s.pool.threads u) = false
  flushed : ∀ t, Flushed s t
  bounds : ∃ low high, Bounds s low high

/-! ## A step of the pool -/

section Pool

variable {su : Setup n β} {s s' : State n m β} {a : Writeback.Action n m β} {low high : Nat}

theorem le_lsnFor (su : Writeback.Setup n) (s : Writeback.State n m β) (t : Fin n) :
    s.nextLsn ≤ s.lsnFor su t := by
  unfold Writeback.State.lsnFor
  split
  · exact le_rfl
  · exact Wal.le_alignLsnToShard _ _ _

theorem logged_lsn {su : Writeback.Setup n} {s s' : Writeback.State n m β} {t : Fin n}
    {r : Record m β} (h : Writeback.step su s a = some s') (hleft : LsnLeft su s a)
    (hr : State.loggedBy s s' a = some (t, r)) :
    s.nextLsn ≤ r.lsn ∧ s'.nextLsn = r.lsn + 1 := by
  obtain ⟨-, ⟨record, rfl⟩, hlsn⟩ := loggedBy_lsn h hr
  refine ⟨hlsn ▸ le_lsnFor su s t, ?_⟩
  rw [(poolEffect h).nextLsn, hr, elim_some]
  exact Nat.mod_eq_of_lt (hlsn ▸ hleft)

theorem nextLsn_mono {su : Writeback.Setup n} {s s' : Writeback.State n m β}
    (h : Writeback.step su s a = some s') (hleft : LsnLeft su s a) : s.nextLsn ≤ s'.nextLsn := by
  cases hr : State.loggedBy s s' a with
  | none => rw [(poolEffect h).nextLsn, hr, elim_none]
  | some tr =>
    obtain ⟨hle, hnext⟩ := logged_lsn h hleft hr
    omega

theorem Numbered.poolStep (hi : Numbered s) (h : s.poolStep su a = some s')
    (hleft : LsnLeft su.wal s.pool a) : Numbered s' := by
  obtain ⟨henabled, hstep, hafter⟩ := afterPool h
  have hmono := nextLsn_mono hstep hleft
  refine ⟨fun shard => ?_, fun shard => ?_, fun t => ?_⟩
  · rw [hafter.appendedLsn]
    have hold := (hi.appended shard).trans_le hmono
    cases hr : State.loggedBy s.pool s'.pool a with
    | none => exact hold
    | some tr =>
      obtain ⟨-, hnext⟩ := logged_lsn hstep hleft hr
      simp only [elim_some, update_apply]
      split
      · rename_i heq
        rw [← heq]
        omega
      · exact hold
  · rcases (poolEffect hstep).durable shard with ⟨-, hsame | rfl⟩
    · rw [hsame]
      exact (hi.durable shard).trans_le hmono
    · have hle : s'.pool.durableLsn shard ≤ s.appendedLsn shard := by
        simpa [State.poolEnabled] using henabled
      exact hle.trans_lt ((hi.appended shard).trans_le hmono)
  · rw [hafter.job]
    exact (hi.job t).trans_le hmono

theorem store_eq_read (hi : s.pool.store = s.pages.read) (h : s.poolStep su a = some s') :
    s'.pool.store = s'.pages.read := by
  obtain ⟨-, hstep, hafter⟩ := afterPool h
  rw [(poolEffect hstep).store, hafter.pages]
  cases State.storedBy s.pool a with
  | none => exact hi
  | some w => rw [elim_some, elim_some, WriteCache.read_write, hi]

theorem latest_is_newest (hi : ∀ pid, ∃ older, s.versions pid = s.pool.latest pid :: older)
    (h : s.poolStep su a = some s') (pid : Nat) :
    ∃ older, s'.versions pid = s'.pool.latest pid :: older := by
  obtain ⟨-, hstep, hafter⟩ := afterPool h
  have hlatest := (poolEffect hstep).latest
  have hrecords := hafter.records
  cases hr : State.loggedBy s.pool s'.pool a with
  | none =>
    rw [hr, elim_none] at hlatest hrecords
    rw [hlatest, versions_congr hrecords hafter.initial]
    exact hi pid
  | some tr =>
    rw [hr, elim_some] at hlatest hrecords
    rw [hlatest, versions_logged hrecords hafter.initial]
    by_cases hpid : tr.2.pid = pid
    · rw [if_pos hpid, ← hpid, update_self]
      exact ⟨_, rfl⟩
    · rw [if_neg hpid, update_of_ne (Ne.symm hpid)]
      exact hi pid

/-- What a version contains is not affected by newer records. -/
theorem Includes.poolStep {pid : Nat} {v : Writeback.Page m β} {lsn : Nat}
    (hi : Includes (s.versions pid) v lsn) (h : s.poolStep su a = some s')
    (hleft : LsnLeft su.wal s.pool a) (hlsn : lsn < s.pool.nextLsn) :
    Includes (s'.versions pid) v lsn := by
  obtain ⟨-, hstep, hafter⟩ := afterPool h
  have hrecords := hafter.records
  cases hr : State.loggedBy s.pool s'.pool a with
  | none =>
    rw [hr, elim_none] at hrecords
    rwa [versions_congr hrecords hafter.initial]
  | some tr =>
    obtain ⟨hclaimed, -⟩ := logged_lsn hstep hleft hr
    rw [hr, elim_some] at hrecords
    rw [versions_logged hrecords hafter.initial]
    split
    · exact hi.cons (hlsn.trans_le hclaimed)
    · exact hi

/-- A frame that nobody changes holds the newest version of its page. -/
theorem Promise.includes_prepared (hi : Promise s) {f : Fin m} (hlive : s.pool.live f)
    (hchanges : ∀ t, f ∉ (s.pool.threads t).changes) (lsn : Nat) :
    Includes (s.versions (s.pool.pidOf f)) (s.pool.prepared f) lsn := by
  obtain ⟨older, holder⟩ := hi.latest (s.pool.pidOf f)
  rw [hi.persisted.content.fresh f hlive hchanges, holder]
  exact includes_head older _ lsn

/-- A page is written as the newest version, or as a copy a cleaner has taken. -/
theorem Promise.includes_stored (hi : Promise s) (hb : Bounds s low high)
    {pool : Writeback.State n m β}
    (hstep : Writeback.step su.wal s.pool a = some pool) {w : Nat × Writeback.Page m β}
    (hw : State.storedBy s.pool a = some w) : Includes (s.versions w.1) w.2 high := by
  cases a with
  | storeNext t =>
    obtain ⟨d, todo, done, hpc, -⟩ := storeNext_cases hstep
    simp only [State.storedBy, hpc, Option.some.injEq] at hw
    subst hw
    apply hb.copies t d
    rw [hpc]
    exact List.mem_cons_self
  | flushStoreNext t =>
    obtain ⟨f, todo, done, hpc, -⟩ := flushStoreNext_cases hstep
    simp only [State.storedBy, hpc, Option.some.injEq] at hw
    subst hw
    have hheld : f ∈ (s.pool.threads t).holds := by simp [hpc, Pc.holds]
    apply hi.includes_prepared (hi.persisted.owned.latched t f hheld).2
    exact hi.persisted.owned.not_changed hheld (by simp [hpc, Pc.changes])
  | _ => cases hw

theorem Promise.boundsPoolStep (hi : Promise s) (hb : Bounds s low high)
    (h : s.poolStep su a = some s') (hleft : LsnLeft su.wal s.pool a) : Bounds s' low high := by
  obtain ⟨-, hstep, hafter⟩ := afterPool h
  have heffect := poolEffect hstep
  have hstored : ∀ w, State.storedBy s.pool a = some w → Includes (s'.versions w.1) w.2 high :=
    fun w hw => (hi.includes_stored hb hstep hw).poolStep h hleft hb.claimed
  refine ⟨hb.le, hb.claimed.trans_le (nextLsn_mono hstep hleft), ?_, ?_, ?_, ?_, ?_, ?_⟩
  · rw [hafter.header]
    exact hb.header
  · intro pid v hv
    rw [hafter.pages] at hv
    have hold : s.pages.Survives pid v → Includes (s'.versions pid) v low := fun hv =>
      (hb.pages pid v hv).poolStep h hleft (hb.le.trans_lt hb.claimed)
    cases hw : State.storedBy s.pool a with
    | none =>
      rw [hw] at hv
      exact hold hv
    | some w =>
      rw [hw, elim_some, WriteCache.survives_write] at hv
      rcases hv with hv | ⟨rfl, rfl⟩
      · exact hold hv
      · exact (hstored w hw).mono hb.le
  · intro pid
    rw [hafter.pages]
    have hold := (hb.read pid).poolStep h hleft hb.claimed
    cases hw : State.storedBy s.pool a with
    | none => exact hold
    | some w =>
      rw [elim_some, WriteCache.read_write]
      by_cases hpid : pid = w.1
      · rw [hpid, update_self]
        exact hstored w hw
      · rwa [update_of_ne hpid]
  · intro t d hd
    rcases heffect.unwritten t d hd with hold | ⟨f, -, hres, hlatch, hpid, hcopy⟩
    · exact (hb.copies t d hold).poolStep h hleft hb.claimed
    have hlive : s.pool.live f := by
      rw [Writeback.State.live, hres]
      decide
    rw [hpid, hcopy]
    refine Includes.poolStep ?_ h hleft hb.claimed
    exact hi.includes_prepared hlive (fun u hu =>
      hi.persisted.owned.not_latched hlatch u (Pc.changes_subset_holds _ hu)) high
  · rw [hafter.checkpointLsn]
    exact hb.checkpointLsn
  · intro t lsn hlsn
    rcases hafter.sync t with hsame | hidle
    · exact hb.loaded t lsn (hsame ▸ hlsn)
    · rw [hidle] at hlsn
      cases hlsn

/-- Nothing becomes dirty while nobody holds a page for a mutation. -/
theorem isDirty_of_quiet {su : Writeback.Setup n} {s s' : Writeback.State n m β}
    (h : Writeback.step su s a = some s') (hquiet : ∀ u, isWriter (s.threads u) = false) {f : Fin m}
    (hf : IsDirty (s'.frames f)) : IsDirty (s.frames f) := by
  rcases (poolEffect h).dirty f hf with hold | ⟨u, record, rfl⟩
  · exact hold
  · obtain ⟨g, changed, core, hpc, -⟩ := mark_cases h
    have hwriter := hquiet u
    rw [hpc] at hwriter
    cases hwriter

theorem Promise.poolStep (hi : Promise s) (h : s.poolStep su a = some s')
    (hquiet : noOverlap s (.pool a) = true) (hsafe : flushSafe s.pool a = true)
    (hleft : LsnLeft su.wal s.pool a) : Promise s' := by
  obtain ⟨-, hstep, hafter⟩ := afterPool h
  obtain ⟨low, high, hb⟩ := hi.bounds
  refine ⟨hi.persisted.step hsafe hstep, hi.numbered.poolStep h hleft, store_eq_read hi.store h,
    latest_is_newest hi.latest h, ?_, ?_, low, high, hi.boundsPoolStep hb h hleft⟩
  · intro t u hjob
    rw [hafter.job] at hjob
    by_contra hwriter
    rw [Bool.not_eq_false] at hwriter
    rcases (poolEffect hstep).writer u hwriter with hold | ⟨f, rfl⟩
    · rw [hi.quiet t u hjob] at hold
      cases hold
    · simp only [noOverlap, decide_eq_true_eq] at hquiet
      rw [hquiet t] at hjob
      cases hjob
  intro t
  have hold := hi.flushed t
  unfold Flushed at hold ⊢
  rw [hafter.job]
  split at hold
  · rename_i lsn hjob
    exact FlushRest.poolStep hold h hjob fun u => hi.quiet t u (by rw [hjob]; rfl)
  · rename_i lsn hjob
    exact fun f hf => hold f (isDirty_of_quiet hstep
      (fun u => hi.quiet t u (by rw [hjob]; rfl)) hf)
  · trivial

end Pool

/-! ## The other steps -/

section Steps

variable {su : Setup n β} {s s' : State n m β} {t : Fin n} {low high lsn : Nat}

theorem Bounds.congr (hb : Bounds s low high) (hpool : s'.pool = s.pool)
    (hpages : s'.pages = s.pages) (hheader : s'.header = s.header)
    (hlsn : s'.checkpointLsn = s.checkpointLsn) (hversions : s'.versions = s.versions)
    (hloaded : ∀ t h, s'.sync t = .loaded h → h ≤ high) : Bounds s' low high := by
  constructor
  · exact hb.le
  · rw [hpool]
    exact hb.claimed
  · rw [hheader]
    exact hb.header
  · rw [hpages, hversions]
    exact hb.pages
  · rw [hpages, hversions]
    exact hb.read
  · rw [hpool, hversions]
    exact hb.copies
  · rw [hlsn]
    exact hb.checkpointLsn
  · exact hloaded

theorem Promise.of_bounds (hi : Promise s) (hpool : s'.pool = s.pool)
    (hread : s'.pages.read = s.pages.read) (hversions : s'.versions = s.versions)
    (happended : s'.appendedLsn = s.appendedLsn)
    (hlsn : ∀ t, (s'.job t).lsn < s.pool.nextLsn)
    (hquiet : ∀ t, (s'.job t).checkpoint = true → ∀ u, isWriter (s.pool.threads u) = false)
    (hflushed : ∀ t, Flushed s' t) (hbounds : ∃ low high, Bounds s' low high) : Promise s' where
  persisted := hpool ▸ hi.persisted
  numbered := ⟨by rw [happended, hpool]; exact hi.numbered.appended,
    by rw [hpool]; exact hi.numbered.durable, by rw [hpool]; exact hlsn⟩
  store := by rw [hpool, hread, hi.store]
  latest := by rw [hpool, hversions]; exact hi.latest
  quiet := fun t u hjob => by rw [hpool]; exact hquiet t hjob u
  flushed := hflushed
  bounds := hbounds

theorem Flushed.congr (h : Flushed s t) (hpool : s'.pool = s.pool) (hscan : s'.scan = s.scan)
    (hjob : s'.job t = s.job t) : Flushed s' t := by
  unfold Flushed FlushRest at h ⊢
  rw [hjob, hpool, hscan]
  exact h

theorem Promise.of_sync (hi : Promise s) (hpool : s'.pool = s.pool) (hjob : s'.job = s.job)
    (hscan : s'.scan = s.scan) (hread : s'.pages.read = s.pages.read)
    (hversions : s'.versions = s.versions) (happended : s'.appendedLsn = s.appendedLsn)
    (hbounds : ∃ low high, Bounds s' low high) : Promise s' := by
  apply hi.of_bounds hpool hread hversions happended
  · rw [hjob]
    exact hi.numbered.job
  · rw [hjob]
    exact fun t ht u => hi.quiet t u ht
  · exact fun t => (hi.flushed t).congr hpool hscan (by rw [hjob])
  · exact hbounds

theorem Promise.setJob {job : Job} (hi : Promise s) (hlsn : job.lsn < s.pool.nextLsn)
    (hquiet : job.checkpoint = true → ∀ u, isWriter (s.pool.threads u) = false)
    (hflushed : Flushed (s.setJob t job) t) : Promise (s.setJob t job) := by
  obtain ⟨low, high, hb⟩ := hi.bounds
  have hother : ∀ u, u ≠ t → (s.setJob t job).job u = s.job u := fun u hu => by
    simp [State.setJob, hu]
  have hself : (s.setJob t job).job t = job := by simp [State.setJob]
  refine hi.of_bounds rfl rfl rfl rfl ?_ ?_ ?_ ?_
  · intro u
    by_cases hu : u = t
    · rw [hu, hself]
      exact hlsn
    · rw [hother u hu]
      exact hi.numbered.job u
  · intro u hjob
    by_cases hu : u = t
    · rw [hu, hself] at hjob
      exact hquiet hjob
    · rw [hother u hu] at hjob
      exact fun v => hi.quiet u v hjob
  · intro u
    by_cases hu : u = t
    · rw [hu]
      exact hflushed
    · exact (hi.flushed u).congr rfl rfl (hother u hu)
  · exact ⟨low, high, hb.congr rfl rfl rfl rfl rfl hb.loaded⟩

theorem Promise.congr (hi : Promise s) (hpool : s'.pool = s.pool) (hpages : s'.pages = s.pages)
    (hheader : s'.header = s.header) (hlsn : s'.checkpointLsn = s.checkpointLsn)
    (hversions : s'.versions = s.versions) (happended : s'.appendedLsn = s.appendedLsn)
    (hjob : s'.job = s.job) (hscan : s'.scan = s.scan)
    (hsync : ∀ t h, s'.sync t = .loaded h → s.sync t = .loaded h ∨ h = s.checkpointLsn) :
    Promise s' := by
  obtain ⟨low, high, hb⟩ := hi.bounds
  refine hi.of_sync hpool hjob hscan (by rw [hpages]) hversions happended
    ⟨low, high, hb.congr hpool hpages hheader hlsn hversions ?_⟩
  intro t h hloaded
  rcases hsync t h hloaded with hold | rfl
  · exact hb.loaded t h hold
  · exact hb.checkpointLsn

theorem Promise.setSync {pc : SyncPc} (hi : Promise s)
    (hpc : ∀ h, pc = .loaded h → h = s.checkpointLsn) : Promise (s.setSync t pc) := by
  refine hi.congr rfl rfl rfl rfl rfl rfl rfl rfl ?_
  intro u h hloaded
  by_cases hu : u = t
  · simp only [State.setSync, hu, update_self] at hloaded
    exact .inr (hpc h hloaded)
  · simp only [State.setSync, update_of_ne hu] at hloaded
    exact .inl hloaded

theorem survives_eq_read {κ ν : Type} [DecidableEq κ] {c : WriteCache κ ν}
    (h : ∀ w ∈ c.pending, w.2 = c.synced w.1) {k : κ} {v : ν} (hv : c.Survives k v) :
    v = c.read k := by
  have hsynced : ∀ u, c.Survives k u → u = c.synced k := by
    rintro u (rfl | hu)
    · rfl
    · exact h (k, u) hu
  rw [hsynced v hv, ← hsynced _ (c.survives_read k)]

/-- The header is written: its checkpoint LSN is within the first bound, or the
pages that survive are those that are read. -/
theorem Promise.headerWrite (hi : Promise s) (hfirst : PagesFirst su s (.headerWrite t))
    (h : s.headerWrite t = some s') : Promise s' := by
  obtain ⟨lsn, hsync, rfl⟩ := headerWrite_cases h
  obtain ⟨low, high, hb⟩ := hi.bounds
  have hloaded : ∀ u h, (s.setSync t .written).sync u = .loaded h → h ≤ high := by
    intro u h hu
    by_cases hut : u = t
    · simp [State.setSync, hut] at hu
    · exact hb.loaded u h (by simpa [State.setSync, hut] using hu)
  have hcopies := hb.copies
  refine hi.of_sync rfl rfl rfl rfl rfl rfl ?_
  rcases hfirst lsn hsync with ⟨old, hold, hle⟩ | hsynced
  · refine ⟨low, high, hb.le, hb.claimed, ?_, hb.pages, hb.read, hcopies, hb.checkpointLsn, hloaded⟩
    intro h hh
    rcases WriteCache.survives_write.mp hh with hh | ⟨-, rfl⟩
    · exact hb.header h hh
    · exact hle.trans (hb.header old hold)
  refine ⟨high, high, le_rfl, hb.claimed, ?_, ?_, hb.read, hcopies, hb.checkpointLsn, hloaded⟩
  · intro h hh
    rcases WriteCache.survives_write.mp hh with hh | ⟨-, rfl⟩
    · exact (hb.header h hh).trans hb.le
    · exact hb.loaded t _ hsync
  · intro pid v hv
    have hread : v = s.pages.read pid := survives_eq_read hsynced hv
    rw [hread]
    exact hb.read pid

theorem Promise.fsyncEnd (hi : Promise s) (h : s.fsyncEnd t = some s') : Promise s' := by
  obtain ⟨pages, header, hsync, rfl⟩ := fsyncEnd_cases h
  obtain ⟨low, high, hb⟩ := hi.bounds
  refine hi.of_sync rfl rfl rfl (WriteCache.read_sync _ _) rfl rfl
    ⟨low, high, hb.le, hb.claimed, ?_, ?_, ?_, hb.copies, hb.checkpointLsn, ?_⟩
  · exact fun h hh => hb.header h hh.of_sync
  · exact fun pid v hv => hb.pages pid v hv.of_sync
  · intro pid
    rw [WriteCache.read_sync]
    exact hb.read pid
  · intro u h hu
    by_cases hut : u = t
    · simp [State.setSync, hut] at hu
    · exact hb.loaded u h (by simpa [State.setSync, hut] using hu)

/-- After the flush every page reads, and is copied, as its newest version. -/
theorem Promise.newest_of_clean (hi : Promise s) (hclean : ∀ f, ¬IsDirty (s.pool.frames f)) :
    (∀ pid, s.pages.read pid = s.pool.latest pid) ∧
      ∀ t d, d ∈ (s.pool.threads t).unwritten → d.copy = s.pool.latest d.pid := by
  have hsettled : ∀ f, s.pool.live f → s.pool.Settled f := fun f hlive =>
    .inl (Bool.eq_false_iff.mpr fun hdirty => hclean f ⟨hlive, hdirty⟩)
  have hcontent := hi.persisted.content
  refine ⟨fun pid => ?_, fun t d hd => ?_⟩
  · rw [← hi.store]
    by_cases hframe : ∃ f, s.pool.live f ∧ s.pool.pidOf f = pid
    · obtain ⟨f, hlive, rfl⟩ := hframe
      exact hcontent.settled f hlive (hsettled f hlive)
    · exact hcontent.absent pid fun f hlive hpid => hframe ⟨f, hlive, hpid⟩
  · have hlive := hi.persisted.owned.live_of_claim (Pc.unwritten_subset_claims _ hd)
    exact hcontent.unwritten t d hd (.inr (hsettled d.frame hlive))

theorem Promise.setCheckpointLsn (hi : Promise s) (h : s.setCheckpointLsn t = some s') :
    Promise s' := by
  obtain ⟨lsn, hjob, hsync, rfl⟩ := setCheckpointLsn_cases h
  obtain ⟨low, high, hb⟩ := hi.bounds
  have hlsn : lsn < s.pool.nextLsn := by
    have hlsn := hi.numbered.job t
    rwa [hjob] at hlsn
  have hclean : ∀ f, ¬IsDirty (s.pool.frames f) := by
    have hflushed := hi.flushed t
    rwa [Flushed, hjob] at hflushed
  obtain ⟨hread, hcopies⟩ := hi.newest_of_clean hclean
  have hnewest : ∀ pid, Includes (s.versions pid) (s.pool.latest pid) (s.pool.nextLsn - 1) := by
    intro pid
    obtain ⟨older, holder⟩ := hi.latest pid
    rw [holder]
    exact includes_head older _ _
  have hhigh := hb.claimed
  have hset : Promise (s.setJob t (.storeSyncing lsn)) := by
    refine hi.setJob ?_ ?_ ?_
    · exact hlsn
    · exact fun _ u => hi.quiet t u (by rw [hjob]; rfl)
    · simp [Flushed, State.setJob]
  refine hset.of_sync rfl rfl rfl rfl rfl rfl
    ⟨low, s.pool.nextLsn - 1, ?_, ?_, hb.header, hb.pages, ?_, ?_, ?_, ?_⟩
  · have hle := hb.le
    omega
  · exact Nat.sub_lt (by omega) one_pos
  · intro pid
    change Includes (s.versions pid) (s.pages.read pid) _
    rw [hread pid]
    exact hnewest pid
  · intro u d hd
    rw [hcopies u d hd]
    exact hnewest d.pid
  · exact Nat.le_sub_one_of_lt hlsn
  · intro u h hu
    have hle := hb.loaded u h hu
    omega

theorem Numbered.lt_of_flush (hi : Numbered s) {targets : List Nat}
    (h : s.flushReturns targets lsn = true) : lsn < s.pool.nextLsn := by
  simp only [State.flushReturns, decide_eq_true_eq] at h
  rcases h.2 with rfl | ⟨x, -, hle⟩
  · exact Nat.zero_lt_of_lt (hi.appended 0)
  · exact hle.trans_lt (hi.durable x.2)

theorem Promise.poolFlushBegin (hi : Promise s) (h : s.poolFlushBegin t = some s') :
    Promise s' := by
  obtain ⟨lsn, hjob, hpc, rfl⟩ := poolFlushBegin_cases h
  obtain ⟨low, high, hb⟩ := hi.bounds
  have hlsn : lsn < s.pool.nextLsn := by
    have hlsn := hi.numbered.job t
    rwa [hjob] at hlsn
  have hwriters : ∀ u, isWriter (s.pool.threads u) = false :=
    fun u => hi.quiet t u (by rw [hjob]; rfl)
  have hstart : Writeback.step ⟨1, fun _ => 0⟩ s.pool (.startFlush t) =
      some (s.pool.setPc t (.flushing [])) := by
    simp [Writeback.step, Writeback.State.start, hpc]
  have hunwritten : ∀ u, ((s.pool.setPc t (.flushing [])).threads u).unwritten ⊆
      (s.pool.threads u).unwritten := subset_setPc Pc.unwritten (by simp [Pc.unwritten])
  have hwriters' : ∀ u, isWriter ((s.pool.setPc t (.flushing [])).threads u) = false := by
    intro u
    by_contra hu
    rw [Bool.not_eq_false] at hu
    have hold := isWriter_setPc (by simp [isWriter]) u hu
    rw [hwriters u] at hold
    cases hold
  refine ⟨hi.persisted.step rfl hstart, ⟨hi.numbered.appended, hi.numbered.durable, ?_⟩, hi.store,
    hi.latest, fun _ u _ => hwriters' u, ?_, low, high, hb.le, hb.claimed, hb.header, hb.pages,
    hb.read, fun u d hd => hb.copies u d (hunwritten u hd), hb.checkpointLsn, hb.loaded⟩
  · intro u
    change (update s.job t (.poolFlushing lsn) u).lsn < s.pool.nextLsn
    by_cases hu : u = t
    · rw [hu, update_self]
      exact hlsn
    · rw [update_of_ne hu]
      exact hi.numbered.job u
  intro u
  by_cases hu : u = t
  · subst hu
    simp only [Flushed, State.setJob, update_self]
    intro f _
    simp [toFlush]
  have hold := hi.flushed u
  simp only [Flushed, State.setJob, update_of_ne hu] at hold ⊢
  split at hold
  · intro f hf
    have hrest := hold f hf
    simpa [update_of_ne hu, setPc_of_ne _ hu] using hrest
  · exact hold
  · trivial

theorem Promise.flushSkip (hi : Promise s) (h : s.flushSkip t = some s') : Promise s' := by
  obtain ⟨low, high, hb⟩ := hi.bounds
  have hrest : ∀ u, FlushRest s u → FlushRest s' u := fun u hu => hu.flushSkip h
  obtain ⟨held, hpc, hm, -, rfl⟩ := flushSkip_cases h
  refine hi.of_bounds rfl rfl rfl rfl hi.numbered.job (fun u hu v => hi.quiet u v hu) ?_ ?_
  · intro u
    have hold := hi.flushed u
    simp only [Flushed] at hold ⊢
    split at hold
    · exact hrest u hold
    · exact hold
    · trivial
  · exact ⟨low, high, hb.congr rfl rfl rfl rfl rfl hb.loaded⟩

theorem Promise.nextJob {job : Job} (hi : Promise s) (hjob : (s.job t).checkpoint = true)
    (hlsn : job.lsn ≤ (s.job t).lsn) (hflushed : Flushed (s.setJob t job) t) :
    Promise (s.setJob t job) :=
  hi.setJob (hlsn.trans_lt (hi.numbered.job t)) (fun _ u => hi.quiet t u hjob) hflushed

theorem Promise.poolFlushReturn (hi : Promise s) (h : s.poolFlushReturn t = some s') :
    Promise s' := by
  obtain ⟨lsn, hjob, hpc, rfl⟩ := poolFlushReturn_cases h
  refine hi.nextJob (by rw [hjob]; rfl) (by rw [hjob]; exact le_rfl) ?_
  have hrest := hi.flushed t
  simp only [Flushed, hjob] at hrest
  simp only [Flushed, State.setJob, update_self]
  -- the flush has returned, so nothing is left to it
  intro f hf
  have hnone := hrest f hf
  rw [hpc] at hnone
  exact hnone

theorem Promise.resetBegin (hi : Promise s) (h : s.resetBegin su t = some s') : Promise s' := by
  obtain ⟨lsn, hjob, -, rfl⟩ := resetBegin_cases h
  refine Promise.setSync (hi.nextJob (by rw [hjob]; rfl) (by rw [hjob]; exact le_rfl) ?_) ?_
  · simp [Flushed, State.setJob]
  · exact fun h heq => by cases heq

theorem Promise.resetFlushReturn (hi : Promise s) (h : s.resetFlushReturn t lsn = some s') :
    Promise s' := by
  obtain ⟨c, targets, hjob, -, rfl⟩ := resetFlushReturn_cases h
  refine hi.nextJob (by rw [hjob]; rfl) (by rw [hjob]; exact le_rfl) ?_
  simp [Flushed, State.setJob]

theorem Promise.resetNext (hi : Promise s) (h : s.resetNext su t = some s') : Promise s' := by
  obtain ⟨c, shard, hjob, hs'⟩ := resetNext_cases h
  have hjobs : ∀ u, (s.job u).lsn < s.pool.nextLsn := hi.numbered.job
  have hc : c < s.pool.nextLsn := by
    have hc := hjobs t
    rwa [hjob] at hc
  have hwriters : ∀ u, isWriter (s.pool.threads u) = false :=
    fun u => hi.quiet t u (by rw [hjob]; rfl)
  rcases hs' with ⟨-, rfl⟩ | rfl
  · have hcut : Promise (s.resetShard su shard) := by
      refine hi.congr rfl rfl rfl rfl rfl rfl rfl rfl ?_
      exact fun _ _ hloaded => .inl hloaded
    refine hcut.setJob ?_ ?_ ?_
    · exact hc
    · exact fun _ => hwriters
    · simp [Flushed, State.setJob]
  · refine hi.setJob ?_ ?_ ?_
    · exact (Nat.zero_le c).trans_lt hc
    · exact fun hjob => by cases hjob
    · simp [Flushed, State.setJob]

theorem Promise.runStep {a : Action n m β} (hi : Promise s) (hquiet : noOverlap s a = true)
    (hfirst : PagesFirst su s a) (h : runStep su s a = some s') : Promise s' := by
  -- a thread without a checkpoint
  have hnoCheckpoint : ∀ {t job}, job.lsn = 0 → job.checkpoint = false →
      Flushed (s.setJob t job) t → Promise (s.setJob t job) := fun hlsn hjob hflushed =>
    hi.setJob (hlsn ▸ Nat.zero_lt_of_lt (hi.numbered.appended 0))
      (fun h => absurd (h.symm.trans hjob) (by decide)) hflushed
  cases a with
  | crash _ _ _ _ | openNext | openReturn => cases hquiet
  | pool a => exact hi.poolStep h hquiet hfirst.1 hfirst.2
  | flushSkip t => exact hi.flushSkip h
  | headerLoad t =>
    obtain ⟨-, rfl⟩ := headerLoad_cases h
    exact hi.setSync fun h heq => (SyncPc.loaded.inj heq).symm
  | headerWrite t => exact hi.headerWrite hfirst h
  | headerOnly t =>
    obtain ⟨-, rfl⟩ := headerOnly_cases h
    exact hi.setSync fun h heq => by cases heq
  | fsyncBegin t =>
    obtain ⟨-, rfl⟩ := fsyncBegin_cases h
    exact hi.setSync fun h heq => by cases heq
  | fsyncEnd t => exact hi.fsyncEnd h
  | commitBegin t =>
    obtain ⟨-, -, rfl⟩ := commitBegin_cases h
    exact hnoCheckpoint rfl rfl (by simp [Flushed, State.setJob])
  | commitReturn t lsn =>
    obtain ⟨targets, -, -, rfl⟩ := commitReturn_cases h
    have hidle : Promise (s.setJob t .idle) :=
      hnoCheckpoint rfl rfl (by simp [Flushed, State.setJob])
    exact hidle.congr rfl rfl rfl rfl rfl rfl rfl rfl fun _ _ hloaded => .inl hloaded
  | checkpointBegin t =>
    obtain ⟨-, -, rfl⟩ := checkpointBegin_cases h
    refine hi.setJob ?_ ?_ ?_
    · exact Nat.zero_lt_of_lt (hi.numbered.appended 0)
    · simp only [noOverlap, decide_eq_true_eq] at hquiet
      exact fun _ => hquiet
    · simp [Flushed, State.setJob]
  | walFlushReturn t lsn =>
    obtain ⟨targets, hjob, hflush, rfl⟩ := walFlushReturn_cases h
    refine hi.setJob ?_ ?_ ?_
    · exact hi.numbered.lt_of_flush hflush
    · exact fun _ u => hi.quiet t u (by rw [hjob]; rfl)
    · simp [Flushed, State.setJob]
  | poolFlushBegin t => exact hi.poolFlushBegin h
  | poolFlushReturn t => exact hi.poolFlushReturn h
  | setCheckpointLsn t => exact hi.setCheckpointLsn h
  | resetBegin t => exact hi.resetBegin h
  | resetFlushReturn t lsn => exact hi.resetFlushReturn h
  | resetNext t => exact hi.resetNext h

theorem Promise.step {a : Action n m β} (hi : Promise s) (hquiet : noOverlap s a = true)
    (hfirst : PagesFirst su s a) (h : step su s a = some s') : Promise s' := by
  have hrun : (if s.opening.isNone then Kv.runStep su s a else none) = some s' → Promise s' :=
    fun h => hi.runStep hquiet hfirst (ite_none_right_eq_some.mp h).2
  cases a with
  | crash _ _ _ _ | openNext | openReturn => cases hquiet
  | _ => exact hrun h

end Steps

section Runs

variable {su : Setup n β} {s : State n m β} {pages : Nat → Writeback.Page m β} {lsn : Nat}

theorem Promise.opened (hplain : ∀ pid, (pages pid).Plain) :
    Promise (State.opened su pages lsn : State n m β) where
  persisted := Persisted.opened hplain
  numbered := ⟨fun _ => Nat.lt_succ_self lsn, fun _ => Nat.lt_succ_self lsn,
    fun _ => Nat.succ_pos lsn⟩
  store := rfl
  latest := fun pid => ⟨[], rfl⟩
  quiet := fun t _ hjob => by cases hjob
  flushed := fun t => trivial
  bounds := by
    refine ⟨lsn, lsn, le_rfl, Nat.lt_succ_self lsn, ?_, ?_, ?_, ?_, le_rfl, ?_⟩
    · intro h hh
      exact (WriteCache.survives_stored.mp hh).le
    · intro pid v hv
      rw [WriteCache.survives_stored.mp hv]
      exact includes_head [] _ lsn
    · exact fun pid => includes_head [] _ lsn
    · intro t d hd
      cases hd
    · intro t h hloaded
      cases hloaded

/-- Whatever a crash leaves of the writes since the last sync: if the header
carries checkpoint LSN `c`, each page contains the effect of every record up to
`c`. -/
theorem surviving_pages_include_checkpoint (hplain : ∀ pid, (pages pid).Plain)
    (h : Reach (step su) (fun s a => noOverlap s a = true ∧ PagesFirst su s a)
      (State.opened su pages lsn) s) (keepPages keepHeader : List Bool) (pid : Nat) :
    Includes (s.versions pid) (s.pages.crash keepPages pid) (s.header.crash keepHeader ()) := by
  have hinv : Promise s := by
    apply h.invariant (Promise.opened hplain)
    intro s a s' hi hok hstep
    exact hi.step hok.1 hok.2 hstep
  obtain ⟨low, high, hb⟩ := hinv.bounds
  have hheader := hb.header _ (s.header.survives_crash keepHeader ())
  exact (hb.pages pid _ (s.pages.survives_crash keepPages pid)).mono hheader

end Runs

/-! ## A page that was cleaned before the checkpoint

One thread, one frame, page 1. -/

def oneThread : Setup 1 Nat := ⟨⟨1, fun _ => 0⟩, 0⟩

def newStore : State 1 1 Nat := State.opened oneThread (fun _ => ⟨0, [], 0⟩) 0

def writePage (t f : Fin 1) (value : Nat) : List (Action 1 1 Nat) :=
  [.pool (.lock t f), .pool (.mutate t [] value), .pool (.mark t (some ⟨1, 1⟩)), .pool (.unlock t)]

def cleanPage (t f : Fin 1) : List (Action 1 1 Nat) :=
  [.pool (.startClean t .background), .pool (.copyDirty t f), .pool (.endScan t),
    .pool (.storeNext t), .pool (.nextPhase t), .pool (.finishNext t), .pool (.nextPhase t),
    .pool (.releaseNext t), .pool (.nextPhase t)]

def syncFile (t : Fin 1) : List (Action 1 1 Nat) :=
  [.headerLoad t, .headerWrite t, .fsyncBegin t, .fsyncEnd t]

def flushPage (t f : Fin 1) : List (Action 1 1 Nat) :=
  [.pool (.flushLock t f), .pool (.flushDurable t), .pool (.endFlushScan t),
    .pool (.flushStoreNext t)] ++ syncFile t ++
  [.pool (.nextPhase t), .pool (.flushClearNext t), .pool (.nextPhase t),
    .pool (.flushUnlatchNext t), .pool (.nextPhase t)]

def pagesFirst (s : State 1 1 Nat) : Action 1 1 Nat → Bool
  | .pool (.mark t record) => flushSafe s.pool (.mark t record) &&
      decide (s.pool.lsnFor oneThread.wal t + 1 < u64Limit)
  | .pool a => flushSafe s.pool a
  | .headerWrite t =>
    match s.sync t with
    | .loaded lsn => lsn ≤ s.header.synced () || s.pages.pending.isEmpty
    | _ => true
  | _ => true

theorem PagesFirst.of_test {s : State 1 1 Nat} {a : Action 1 1 Nat} (h : pagesFirst s a = true) :
    PagesFirst oneThread s a := by
  cases a with
  | pool a =>
    cases a with
    | mark t record =>
      simp only [pagesFirst, Bool.and_eq_true, decide_eq_true_eq] at h
      exact h
    | _ => exact ⟨h, trivial⟩
  | headerWrite t =>
    intro lsn hsync
    simp only [pagesFirst, hsync, Bool.or_eq_true, decide_eq_true_eq, List.isEmpty_iff] at h
    rcases h with hle | hnone
    · exact .inl ⟨_, .inl rfl, hle⟩
    · exact .inr (by simp [hnone])
  | _ => trivial

def leaves (keepPages keepHeader : List Bool) (s : State 1 1 Nat) :
    Nat × Writeback.Page 1 Nat × List (Writeback.Page 1 Nat) :=
  (s.header.crash keepHeader (), s.pages.crash keepPages 1, s.versions 1)

theorem surviving_pages_include_checkpoint_flushed :
    ∃ s, Reach (step oneThread) (fun s a => noOverlap s a = true ∧ PagesFirst oneThread s a)
        newStore s ∧
      leaves [false] [true] s = (1, ⟨1, [], 7⟩, [⟨1, [], 7⟩, ⟨0, [], 0⟩]) ∧
      Includes (s.versions 1) (s.pages.crash [false] 1) (s.header.crash [true] ()) := by
  have hrun : (exec (guarded (fun s a => noOverlap s a && pagesFirst s a) (step oneThread)) newStore
      ([.pool (.load 0 1)] ++ writePage 0 0 7 ++ [.pool (.publishDurable 0 1), .checkpointBegin 0,
        .walFlushReturn 0 1, .poolFlushBegin 0] ++ flushPage 0 0 ++ [.poolFlushReturn 0,
        .setCheckpointLsn 0, .headerLoad 0, .headerWrite 0])).map (leaves [false] [true]) =
      some (1, ⟨1, [], 7⟩, [⟨1, [], 7⟩, ⟨0, [], 0⟩]) := by decide +kernel
  obtain ⟨s, hexec, hobs⟩ := map_eq_some_iff.mp hrun
  have hreach : Reach (step oneThread) (fun s a => noOverlap s a = true ∧ PagesFirst oneThread s a)
      newStore s := by
    apply Reach.of_exec hexec
    intro s a htest
    obtain ⟨hquiet, hfirst⟩ := Bool.and_eq_true_iff.mp htest
    exact ⟨hquiet, .of_test hfirst⟩
  have hplain : ∀ pid : Nat, (⟨0, [], 0⟩ : Writeback.Page 1 Nat).Plain := by
    simp [Writeback.Page.Plain]
  exact ⟨s, hreach, hobs, surviving_pages_include_checkpoint hplain hreach [false] [true] 1⟩

/-- Page 1 is changed at LSN 1 and cleaned, so the checkpoint finds no dirty page and
writes the header with checkpoint LSN 1; a crash keeps the header and loses the
page. -/
theorem header_survives_without_page :
    ∃ s, Reach (step oneThread) (fun s a => noOverlap s a = true) newStore s ∧
      ¬Includes (s.versions 1) (s.pages.crash [false] 1) (s.header.crash [true] ()) := by
  have hrun : (exec (guarded noOverlap (step oneThread)) newStore
      ([.pool (.load 0 1)] ++ writePage 0 0 7 ++ [.pool (.publishDurable 0 1)] ++ cleanPage 0 0 ++
        [.checkpointBegin 0, .walFlushReturn 0 1, .poolFlushBegin 0, .flushSkip 0,
          .pool (.endFlushScan 0), .poolFlushReturn 0, .setCheckpointLsn 0, .headerLoad 0,
          .headerWrite 0])).map (leaves [false] [true]) =
      some (1, ⟨0, [], 0⟩, [⟨1, [], 7⟩, ⟨0, [], 0⟩]) := by decide +kernel
  obtain ⟨s, hexec, hobs⟩ := map_eq_some_iff.mp hrun
  obtain ⟨hheader, hrest⟩ := Prod.mk.inj hobs
  obtain ⟨hpage, hversions⟩ := Prod.mk.inj hrest
  refine ⟨s, Reach.of_exec hexec fun _ _ hquiet => hquiet, ?_⟩
  rw [hheader, hpage, hversions]
  rintro ⟨newer, older, hsplit, hnewer⟩
  match newer with
  | [] => cases hsplit
  | p :: _ =>
    obtain ⟨rfl, -⟩ := List.cons.inj hsplit
    exact absurd (hnewer _ List.mem_cons_self) (by decide)

end Pagebox.Kv
