import Pagebox.Storage.Latches

/-!
# The write-ahead rule

A page copy is handed to the page store only after the WAL record of its page LSN
is durable.  `flush` waits for every page; the background cleaner skips pages that
are not durable.  A foreground batch waits for its largest LSN only, in the one
shard that owns it, so the rule holds for it when the other pages of the batch
belong to that shard or are durable already.
-/

namespace Pagebox.Storage.Writeback

open Pagebox.Base List

variable {n m : Nat} {β : Type}

def State.handedOver (s : State n m β) (t : Fin n) : List (Page m β) :=
  match s.threads t with
  | .storing todo done => (todo ++ done).map (·.copy)
  | .flushStoring todo done => (todo ++ done).map fun f => (s.frames f).page.prepare s.pidOf
  | _ => []

/-- When a foreground batch ends its scan, each of its pages has its LSN in the
shard of the largest one, or is durable. -/
def batchSafe (su : Setup n) (s : State n m β) : Action n m β → Bool
  | .endScan t =>
    match s.threads t with
    | .collecting .foreground batch => batch.all fun d =>
      Wal.shardIdxForLsn su.shardCount d.pageLsn =
          Wal.shardIdxForLsn su.shardCount (State.maxLsn batch) ||
        s.isLsnDurable su d.pageLsn
    | _ => true
  | _ => true

namespace Pc

/-- Claimed pages whose LSN the cleaner has found durable. -/
def ready : Pc m β → List (DirtyPage m β)
  | .collecting .background batch => batch
  | .storing todo done => todo ++ done
  | _ => []

/-- Frames whose LSN a flush has waited for. -/
def waited : Pc m β → List (Fin m)
  | .flushing held => held
  | .flushWaiting held _ => held
  | .flushStoring todo done => todo ++ done
  | _ => []

end Pc

structure Logged (su : Setup n) (s : State n m β) : Prop where
  frameLsn : ∀ f, (s.frames f).page.lsn = (s.frames f).core.pageLsn
  copyLsn : ∀ t d, d ∈ (s.threads t).claims → d.copy.lsn = d.pageLsn
  ready : ∀ t d, d ∈ (s.threads t).ready → s.isLsnDurable su d.pageLsn = true
  waited : ∀ t f, f ∈ (s.threads t).waited → s.isLsnDurable su (s.frames f).core.pageLsn = true

section Invariant

variable {su : Setup n} {s s' : State n m β} {t : Fin n} {f : Fin m}

theorem isLsnDurable_iff {lsn : Nat} : s.isLsnDurable su lsn = true ↔
    lsn = 0 ∨ lsn ≤ s.durableLsn (Wal.shardIdxForLsn su.shardCount lsn) := by
  simp [State.isLsnDurable]

theorem isLsnDurable_mono (h : ∀ i, s.durableLsn i ≤ s'.durableLsn i) {lsn : Nat}
    (hdurable : s.isLsnDurable su lsn = true) : s'.isLsnDurable su lsn = true := by
  rw [isLsnDurable_iff] at *
  rcases hdurable with hzero | hle
  · exact .inl hzero
  · exact .inr (hle.trans (h _))

theorem le_foldl_max (xs : List Nat) (init : Nat) :
    init ≤ xs.foldl max init ∧ ∀ x ∈ xs, x ≤ xs.foldl max init := by
  induction xs generalizing init with
  | nil => simp
  | cons x xs ih =>
    obtain ⟨hinit, hxs⟩ := ih (max init x)
    simp only [foldl_cons, mem_cons, forall_eq_or_imp]
    exact ⟨by omega, by omega, hxs⟩

theorem pageLsn_le_maxLsn {batch : List (DirtyPage m β)} {d : DirtyPage m β} (hd : d ∈ batch) :
    d.pageLsn ≤ State.maxLsn batch := by
  have hbound := (le_foldl_max (batch.map (·.pageLsn)) 0).2
  exact hbound d.pageLsn (mem_map.mpr ⟨d, hd, rfl⟩)

/-- A page of the shard that owns the largest LSN of its batch is durable once
that LSN is. -/
theorem durable_of_maxLsn {batch : List (DirtyPage m β)} {d : DirtyPage m β} (hd : d ∈ batch)
    (hshard : Wal.shardIdxForLsn su.shardCount d.pageLsn =
      Wal.shardIdxForLsn su.shardCount (State.maxLsn batch))
    (hmax : s.isLsnDurable su (State.maxLsn batch) = true) :
    s.isLsnDurable su d.pageLsn = true := by
  have hle := pageLsn_le_maxLsn hd
  rw [isLsnDurable_iff] at *
  rw [hshard]
  omega

theorem waited_subset_holds (pc : Pc m β) : pc.waited ⊆ pc.holds := by
  cases pc <;> simp [Pc.waited, Pc.holds]

namespace Logged

theorem setPc (hi : Logged su s) (t : Fin n) (pc : Pc m β)
    (hclaims : ∀ d ∈ pc.claims, d.copy.lsn = d.pageLsn)
    (hready : ∀ d ∈ pc.ready, s.isLsnDurable su d.pageLsn = true)
    (hwaited : ∀ f ∈ pc.waited, s.isLsnDurable su (s.frames f).core.pageLsn = true) :
    Logged su (s.setPc t pc) := by
  constructor
  · exact hi.frameLsn
  · intro u d hd
    by_cases hu : u = t
    · rw [hu, setPc_self] at hd
      exact hclaims d hd
    · rw [setPc_of_ne s hu] at hd
      exact hi.copyLsn u d hd
  · intro u d hd
    by_cases hu : u = t
    · rw [hu, setPc_self] at hd
      exact hready d hd
    · rw [setPc_of_ne s hu] at hd
      exact hi.ready u d hd
  intro u f hf
  by_cases hu : u = t
  · rw [hu, setPc_self] at hf
    exact hwaited f hf
  · rw [setPc_of_ne s hu] at hf
    exact hi.waited u f hf

/-- A change of one program counter that claims and waits for nothing new. -/
theorem setPc_of_subset (hi : Logged su s) {pc : Pc m β}
    (hclaims : pc.claims ⊆ (s.threads t).claims) (hready : pc.ready ⊆ (s.threads t).ready)
    (hwaited : pc.waited ⊆ (s.threads t).waited) : Logged su (s.setPc t pc) :=
  hi.setPc t pc (fun d hd => hi.copyLsn t d (hclaims hd)) (fun d hd => hi.ready t d (hready hd))
    fun f hf => hi.waited t f (hwaited hf)

/-- A change of one frame; its LSN may change while no flush has its latch. -/
theorem setFrame (hi : Logged su s) {fr : Frame n m β} (hlsn : fr.page.lsn = fr.core.pageLsn)
    (hkept : fr.core.pageLsn = (s.frames f).core.pageLsn ∨ ∀ t, f ∉ (s.threads t).waited) :
    Logged su (s.setFrame f fr) := by
  constructor
  · exact forall_setFrame (P := fun _ fr => fr.page.lsn = fr.core.pageLsn) hlsn
      fun g _ => hi.frameLsn g
  · exact hi.copyLsn
  · exact hi.ready
  intro t g hg
  have hold := hi.waited t g hg
  by_cases hgf : g = f
  · subst hgf
    rcases hkept with hkept | hfree
    · rw [setFrame_self, hkept]
      exact hold
    · exact absurd hg (hfree t)
  · rw [setFrame_of_ne s hgf]
    exact hold

theorem setFrame_of_eq (hi : Logged su s) {fr : Frame n m β}
    (hpage : fr.page.lsn = (s.frames f).page.lsn)
    (hcore : fr.core.pageLsn = (s.frames f).core.pageLsn) : Logged su (s.setFrame f fr) :=
  hi.setFrame (hpage.trans ((hi.frameLsn f).trans hcore.symm)) (.inl hcore)

theorem setFrame_setPc (hi : Logged su s) {fr : Frame n m β} {pc : Pc m β}
    (hpage : fr.page.lsn = (s.frames f).page.lsn)
    (hcore : fr.core.pageLsn = (s.frames f).core.pageLsn)
    (hclaims : pc.claims ⊆ (s.threads t).claims) (hready : pc.ready ⊆ (s.threads t).ready)
    (hwaited : pc.waited ⊆ (s.threads t).waited) : Logged su ((s.setFrame f fr).setPc t pc) :=
  (hi.setFrame_of_eq hpage hcore).setPc_of_subset hclaims hready hwaited

theorem congr (hi : Logged su s) (hframes : s'.frames = s.frames)
    (hthreads : s'.threads = s.threads) (hdurable : ∀ i, s.durableLsn i ≤ s'.durableLsn i) :
    Logged su s' := by
  constructor
  · rw [hframes]
    exact hi.frameLsn
  · rw [hthreads]
    exact hi.copyLsn
  · intro t d hd
    rw [hthreads] at hd
    exact isLsnDurable_mono hdurable (hi.ready t d hd)
  · intro t f hf
    rw [hthreads] at hf
    rw [hframes]
    exact isLsnDurable_mono hdurable (hi.waited t f hf)

theorem mark (hi : Logged su s) (ho : Owned s) {record : Option Wal.BufferedWalRecord}
    (h : s.mark su t record = some s') : Logged su s' := by
  obtain ⟨f, changed, core, hpc, -, hlsn, -, -, rfl⟩ := mark_cases h
  have hheld : f ∈ (s.threads t).holds := by simp [hpc, Pc.holds]
  have hfree : ∀ u, f ∉ (s.threads u).waited := by
    intro u hu
    have hut := ho.eq_of_latched hheld (waited_subset_holds _ hu)
    subst hut
    simp [hpc, Pc.waited] at hu
  have hframe : Logged su (s.setFrame f { s.frames f with
      page := { (s.frames f).page with lsn := s.lsnFor su t }, core := core }) :=
    hi.setFrame hlsn.symm (.inr hfree)
  have hpc' := hframe.setPc t (.writer f false) (by simp [Pc.claims]) (by simp [Pc.ready])
    (by simp [Pc.waited])
  exact hpc'.congr rfl rfl fun _ => le_rfl

theorem copyDirty (hi : Logged su s) (h : s.copyDirty su t f = some s') : Logged su s' := by
  obtain ⟨mode, batch, hpc, ⟨-, -, -, hdurable, -⟩, rfl⟩ := copyDirty_cases h
  have hframe : Logged su (s.setFrame f { s.frames f with pins := t :: (s.frames f).pins }) :=
    hi.setFrame_of_eq rfl rfl
  refine (hframe.setPc t _ ?_ ?_ ?_).congr rfl rfl fun _ => le_rfl
  · intro d hd
    simp only [Pc.claims, mem_append, mem_singleton] at hd
    rcases hd with hd | rfl
    · exact hi.copyLsn t d (by simpa [hpc, Pc.claims] using hd)
    · exact hi.frameLsn f
  · intro d hd
    cases mode with
    | foreground => simp [Pc.ready] at hd
    | background =>
      simp only [Pc.ready, mem_append, mem_singleton] at hd
      rcases hd with hd | rfl
      · exact hi.ready t d (by simpa [hpc, Pc.ready] using hd)
      · exact hdurable rfl
  · simp [Pc.waited]

theorem endScan (hi : Logged su s) (hsafe : batchSafe su s (.endScan t) = true)
    (h : s.endScan su t = some s') : Logged su s' := by
  obtain ⟨mode, batch, hpc, ⟨rfl, rfl⟩ | ⟨hwait, rfl⟩⟩ := endScan_cases h
  · apply hi.setPc_of_subset <;> simp [Pc.claims, Pc.ready, Pc.waited]
  have hbatch : ∀ d ∈ batch, s.isLsnDurable su d.pageLsn = true := by
    intro d hd
    cases mode with
    | background => exact hi.ready t d (by simpa [hpc, Pc.ready] using hd)
    | foreground =>
      have hmax : s.isLsnDurable su (State.maxLsn batch) = true := by simpa using hwait
      simp only [batchSafe, hpc, all_eq_true, Bool.or_eq_true, decide_eq_true_eq] at hsafe
      rcases hsafe d hd with hshard | hdurable
      · exact durable_of_maxLsn hd hshard hmax
      · exact hdurable
  apply hi.setPc
  · intro d hd
    exact hi.copyLsn t d (by simpa [hpc, Pc.claims] using hd)
  · intro d hd
    exact hbatch d (by simpa [Pc.ready] using hd)
  · simp [Pc.waited]

theorem flushDurable (hi : Logged su s) (h : s.flushDurable su t = some s') : Logged su s' := by
  obtain ⟨held, f, hpc, hdurable, rfl⟩ := flushDurable_cases h
  apply hi.setPc
  · simp [Pc.claims]
  · simp [Pc.ready]
  · intro g hg
    simp only [Pc.waited, mem_append, mem_singleton] at hg
    rcases hg with hg | rfl
    · exact hi.waited t g (by simpa [hpc, Pc.waited] using hg)
    · exact hdurable

theorem nextPhase (hi : Logged su s) (h : s.nextPhase t = some s') : Logged su s' := by
  unfold State.nextPhase at h
  split at h
  all_goals first
    | cases h; done
    | skip
  all_goals
    rename_i hpc
    cases h
    apply hi.setPc_of_subset <;> simp [hpc, Pc.claims, Pc.ready, Pc.waited]

theorem load (hi : Logged su s) (ho : Owned s) {pid : Nat} (h : s.load f pid = some s') :
    Logged su s' := by
  obtain ⟨⟨hfree, -⟩, h⟩ := Option.ite_none_right_eq_some.mp h
  cases h
  apply hi.setFrame
  · rfl
  · refine .inr fun t hf => ?_
    exact (ho.latched t f (waited_subset_holds _ hf)).2 hfree

theorem step {a : Action n m β} (hi : Logged su s) (ho : Owned s)
    (hsafe : batchSafe su s a = true) (h : step su s a = some s') : Logged su s' := by
  cases a with
  | lock t f =>
    obtain ⟨-, -, -, rfl⟩ := lock_cases h
    apply hi.setFrame_setPc <;> simp [Pc.claims, Pc.ready, Pc.waited]
  | mutate t links rest =>
    obtain ⟨f, changed, hpc, -, rfl⟩ := mutate_cases h
    apply hi.setFrame_setPc <;> simp [Pc.claims, Pc.ready, Pc.waited]
  | mark t record => exact hi.mark ho h
  | unlock t =>
    obtain ⟨f, -, rfl⟩ := unlock_cases h
    apply hi.setFrame_setPc <;> simp [Pc.claims, Pc.ready, Pc.waited]
  | startClean t mode =>
    obtain ⟨-, rfl⟩ := start_cases h
    cases mode <;> apply hi.setPc_of_subset <;> simp [Pc.claims, Pc.ready, Pc.waited]
  | copyDirty t f => exact hi.copyDirty h
  | endScan t => exact hi.endScan hsafe h
  | storeNext t =>
    obtain ⟨d, todo, done, hpc, rfl⟩ := storeNext_cases h
    have hlogged : Logged su (s.setPc t (.storing todo (done ++ [d]))) := by
      apply hi.setPc_of_subset
      · simp [hpc, Pc.claims]
      · simp [hpc, Pc.ready]
      · simp [Pc.waited]
    exact hlogged.congr rfl rfl fun _ => le_rfl
  | finishNext t =>
    obtain ⟨d, todo, done, hpc, -, ⟨-, rfl⟩ | rfl⟩ := finishNext_cases h
    · apply hi.setFrame_setPc
      · rfl
      · rfl
      · simp [hpc, Pc.claims]
      · simp [Pc.ready]
      · simp [Pc.waited]
    · apply hi.setPc_of_subset
      · simp [hpc, Pc.claims]
      · simp [Pc.ready]
      · simp [Pc.waited]
  | releaseNext t =>
    obtain ⟨d, todo, hpc, rfl⟩ := releaseNext_cases h
    have hlogged : Logged su ((s.setFrame d.frame { s.frames d.frame with
        pins := (s.frames d.frame).pins.erase t }).setPc t (.releasing todo)) := by
      apply hi.setFrame_setPc <;> simp [hpc, Pc.claims, Pc.ready, Pc.waited]
    exact hlogged.congr rfl rfl fun _ => le_rfl
  | startFlush t =>
    obtain ⟨-, rfl⟩ := start_cases h
    apply hi.setPc_of_subset <;> simp [Pc.claims, Pc.ready, Pc.waited]
  | flushLock t f =>
    obtain ⟨held, hpc, -, rfl⟩ := flushLock_cases h
    apply hi.setFrame_setPc <;> simp [hpc, Pc.claims, Pc.ready, Pc.waited]
  | flushDurable t => exact hi.flushDurable h
  | endFlushScan t =>
    obtain ⟨held, hpc, ⟨rfl, rfl⟩ | rfl⟩ := endFlushScan_cases h <;>
      apply hi.setPc_of_subset <;> simp [hpc, Pc.claims, Pc.ready, Pc.waited]
  | flushStoreNext t =>
    obtain ⟨f, todo, done, hpc, rfl⟩ := flushStoreNext_cases h
    have hlogged : Logged su (s.setPc t (.flushStoring todo (done ++ [f]))) := by
      apply hi.setPc_of_subset
      · simp [Pc.claims]
      · simp [Pc.ready]
      · simp [hpc, Pc.waited]
    exact hlogged.congr rfl rfl fun _ => le_rfl
  | flushClearNext t =>
    obtain ⟨f, todo, done, hpc, rfl⟩ := flushClearNext_cases h
    apply hi.setFrame_setPc <;> simp [Pc.claims, Pc.ready, Pc.waited, FrameCore.clearDirty]
  | flushUnlatchNext t =>
    obtain ⟨f, todo, hpc, rfl⟩ := flushUnlatchNext_cases h
    apply hi.setFrame_setPc <;> simp [Pc.claims, Pc.ready, Pc.waited]
  | nextPhase t => exact hi.nextPhase h
  | evictBegin f =>
    obtain ⟨-, h⟩ := Option.ite_none_right_eq_some.mp h
    cases h
    exact hi.setFrame_of_eq rfl rfl
  | evictRevert f =>
    obtain ⟨-, h⟩ := Option.ite_none_right_eq_some.mp h
    cases h
    exact hi.setFrame_of_eq rfl rfl
  | evictFinish f =>
    obtain ⟨-, h⟩ := Option.ite_none_right_eq_some.mp h
    cases h
    exact hi.setFrame_of_eq rfl rfl
  | load f pid => exact hi.load ho h
  | setLink f i link =>
    obtain ⟨-, h⟩ := Option.ite_none_right_eq_some.mp h
    cases h
    exact hi.setFrame_of_eq rfl rfl
  | publishDurable shard lsn =>
    cases h
    refine hi.congr (by rfl) (by rfl) ?_
    intro i
    by_cases hi : i = shard
    · simp [hi]
    · simp [hi]

end Logged

end Invariant

section Runs

variable {su : Setup n} {s : State n m β}

theorem Logged.opened (su : Setup n) (store : Nat → Page m β) (blank : β) (nextLsn : Nat)
    (durableLsn : Nat → Nat) :
    Logged su (State.opened store blank nextLsn durableLsn : State n m β) := by
  constructor <;> simp [State.opened, Pc.claims, Pc.ready, Pc.waited]

theorem Logged.handedOver (hi : Logged su s) {t : Fin n} {p : Page m β}
    (hp : p ∈ s.handedOver t) : s.isLsnDurable su p.lsn = true := by
  unfold State.handedOver at hp
  split at hp
  · rename_i todo done hpc
    obtain ⟨d, hd, rfl⟩ := mem_map.mp hp
    rw [hi.copyLsn t d (by simpa [hpc, Pc.claims] using hd)]
    exact hi.ready t d (by simpa [hpc, Pc.ready] using hd)
  · rename_i todo done hpc
    obtain ⟨f, hf, rfl⟩ := mem_map.mp hp
    have hlsn : ((s.frames f).page.prepare s.pidOf).lsn = (s.frames f).core.pageLsn :=
      hi.frameLsn f
    rw [hlsn]
    exact hi.waited t f (by simpa [hpc, Pc.waited] using hf)
  · cases hp

/-- Every page handed to the page store carries an LSN that is durable in the
shard that owns it. -/
theorem handedOver_durable {store : Nat → Page m β} {blank : β} {nextLsn : Nat}
    {durableLsn : Nat → Nat}
    (h : Reach (step su) (fun s a => batchSafe su s a = true)
      (State.opened store blank nextLsn durableLsn) s)
    {t : Fin n} {p : Page m β} (hp : p ∈ s.handedOver t) :
    s.isLsnDurable su p.lsn = true := by
  have hinv : Owned s ∧ Logged su s := by
    apply h.invariant ⟨Owned.opened store blank nextLsn durableLsn,
      Logged.opened su store blank nextLsn durableLsn⟩
    intro s a s' hi hsafe hstep
    exact ⟨hi.1.step hstep, hi.2.step hi.1 hsafe hstep⟩
  exact hinv.2.handedOver hp

end Runs

/-! ## A batch with pages of two shards

Pages 1 and 2 are marked dirty by threads of shards 0 and 1, at LSNs 1 and 2.
Shard 1 becomes durable through LSN 2 while LSN 1 waits in the buffer of shard
0. -/

def twoShards : Setup 2 := ⟨2, fun t => t.val⟩

def emptyPool : State 2 2 Nat := State.opened (fun _ => ⟨0, [], 0⟩) 0 1 fun _ => 0

def dirtyPage (t f : Fin 2) (pid value : Nat) : List (Action 2 2 Nat) :=
  [.load f pid, .lock t f, .mutate t [] value, .mark t (some ⟨1, 1⟩), .unlock t]

def cleanBatch (t f g : Fin 2) (mode : DirtyFlushMode) : List (Action 2 2 Nat) :=
  [.startClean t mode, .copyDirty t f, .copyDirty t g, .endScan t]

def handedLsns (t : Fin 2) (s : State 2 2 Nat) : List (Nat × Bool) :=
  (s.handedOver t).map fun p => (p.lsn, s.isLsnDurable twoShards p.lsn)

/-- After both shards have become durable the batch is handed over with durable
LSNs. -/
theorem handedOver_durable_two_shards :
    ∃ s, Reach (step twoShards) (fun s a => batchSafe twoShards s a = true) emptyPool s ∧
      (s.handedOver 0).length = 2 ∧
      ∀ p ∈ s.handedOver 0, s.isLsnDurable twoShards p.lsn = true := by
  have hrun : (exec (guarded (fun s a => batchSafe twoShards s a) (step twoShards)) emptyPool
      (dirtyPage 0 0 1 7 ++ dirtyPage 1 1 2 8 ++ [.publishDurable 0 1, .publishDurable 1 2] ++
        cleanBatch 0 0 1 .foreground)).map
        (fun s => (s.handedOver 0).length) = some 2 := by decide +kernel
  obtain ⟨s, hexec, hlen⟩ := Option.map_eq_some_iff.mp hrun
  have hreach := Reach.of_exec hexec fun _ _ hsafe => hsafe
  exact ⟨s, hreach, hlen, fun p hp => handedOver_durable hreach hp⟩

/-- Foreground cleaning hands over page 1 at LSN 1, which is not durable in shard
0: `flush_at_least` waited for LSN 2 in shard 1 only. -/
theorem foreground_batch_not_durable : ∃ s, Reach (step twoShards) anyStep emptyPool s ∧
      ∃ p ∈ s.handedOver 0, s.isLsnDurable twoShards p.lsn = false := by
  have hrun : (exec (step twoShards) emptyPool
      (dirtyPage 0 0 1 7 ++ dirtyPage 1 1 2 8 ++ [.publishDurable 1 2] ++
        cleanBatch 0 0 1 .foreground)).map (handedLsns 0) =
        some [(1, false), (2, true)] := by decide +kernel
  obtain ⟨s, hexec, hlsns⟩ := Option.map_eq_some_iff.mp hrun
  have hmem : (1, false) ∈ handedLsns 0 s := by simp [hlsns]
  obtain ⟨p, hp, heq⟩ := mem_map.mp hmem
  exact ⟨s, Reach.of_exec_any hexec, p, hp, (Prod.mk.inj heq).2⟩

end Pagebox.Storage.Writeback
