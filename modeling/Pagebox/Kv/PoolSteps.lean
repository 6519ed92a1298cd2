import Pagebox.Kv.Model
import Pagebox.Storage.CleanPersisted

/-!
# What a step of the pool does for the store

The data file sees the page a step writes, the log the record it appends; only
`mark_dirty` sets a dirty flag, and only a scan of a cleaner adds a copy.
-/

namespace Pagebox.Kv

open Pagebox.Base Pagebox.Storage Pagebox.Storage.Writeback Function

variable {n m : Nat} {β : Type}

def isWriter : Pc m β → Bool
  | .writer _ _ => true
  | _ => false

def IsDirty (fr : Frame n m β) : Prop := fr.state ≠ .free ∧ fr.core.dirty = true

structure PoolEffect (su : Writeback.Setup n) (s : Writeback.State n m β)
    (a : Writeback.Action n m β) (s' : Writeback.State n m β) : Prop where
  store : s'.store = (State.storedBy s a).elim s.store fun w => update s.store w.1 w.2
  latest : s'.latest = (State.loggedBy s s' a).elim s.latest fun x =>
    update s.latest x.2.pid x.2.page
  nextLsn : s'.nextLsn = (State.loggedBy s s' a).elim s.nextLsn fun x =>
    (x.2.lsn + 1) % u64Limit
  durable : ∀ shard, s.durableLsn shard ≤ s'.durableLsn shard ∧
    (s'.durableLsn shard = s.durableLsn shard ∨ a = .publishDurable shard (s'.durableLsn shard))
  dirty : ∀ f, IsDirty (s'.frames f) → IsDirty (s.frames f) ∨ ∃ t record, a = .mark t record
  unwritten : ∀ t d, d ∈ (s'.threads t).unwritten → d ∈ (s.threads t).unwritten ∨
    ∃ f, a = .copyDirty t f ∧ (s.frames f).state = .resident ∧ (s.frames f).latch = none ∧
      d.pid = s.pidOf f ∧ d.copy = s.prepared f
  writer : ∀ t, isWriter (s'.threads t) = true → isWriter (s.threads t) = true ∨ ∃ f, a = .lock t f

section

variable {su : Writeback.Setup n} {s s' : Writeback.State n m β} {t : Fin n} {f : Fin m}
  {a : Writeback.Action n m β}

theorem loggedBy_lsn {r : Record m β} (h : Writeback.step su s a = some s')
    (hr : State.loggedBy s s' a = some (t, r)) :
    isWriter (s.threads t) = true ∧ (∃ record, a = .mark t record) ∧ r.lsn = s.lsnFor su t := by
  cases a with
  | mark u record =>
    obtain ⟨g, changed, core, hpc, -, -, -, -, rfl⟩ := mark_cases h
    simp only [State.loggedBy, hpc, update_self, Option.some.injEq, Prod.mk.injEq] at hr
    obtain ⟨rfl, rfl⟩ := hr
    exact ⟨by rw [hpc]; rfl, ⟨record, rfl⟩, rfl⟩
  | _ => cases hr

theorem PoolEffect.of_silent (hstored : State.storedBy s a = none)
    (hlogged : State.loggedBy s s' a = none) (hstore : s'.store = s.store)
    (hlatest : s'.latest = s.latest) (hnext : s'.nextLsn = s.nextLsn)
    (hdurable : s'.durableLsn = s.durableLsn)
    (hdirty : ∀ f, IsDirty (s'.frames f) → IsDirty (s.frames f))
    (hunwritten : ∀ t, (s'.threads t).unwritten ⊆ (s.threads t).unwritten)
    (hwriter : ∀ t, isWriter (s'.threads t) = true → isWriter (s.threads t) = true) :
    PoolEffect su s a s' where
  store := by rw [hstored, hstore, Option.elim_none]
  latest := by rw [hlogged, hlatest, Option.elim_none]
  nextLsn := by rw [hlogged, hnext, Option.elim_none]
  durable := fun shard => by rw [hdurable]; exact ⟨le_rfl, .inl rfl⟩
  dirty := fun f hf => .inl (hdirty f hf)
  unwritten := fun t d hd => .inl (hunwritten t hd)
  writer := fun t ht => .inl (hwriter t ht)

theorem dirty_setFrame {fr : Frame n m β}
    (h : IsDirty fr → IsDirty (s.frames f)) (g : Fin m)
    (hg : IsDirty ((s.setFrame f fr).frames g)) : IsDirty (s.frames g) := by
  by_cases hgf : g = f
  · rw [hgf, setFrame_self] at hg
    rw [hgf]
    exact h hg
  · rwa [setFrame_of_ne s hgf] at hg

theorem isWriter_setPc {pc : Pc m β} (h : isWriter pc = true → isWriter (s.threads t) = true)
    (u : Fin n) (hu : isWriter ((s.setPc t pc).threads u) = true) :
    isWriter (s.threads u) = true := by
  by_cases hut : u = t
  · rw [hut, setPc_self] at hu
    rw [hut]
    exact h hu
  · rwa [setPc_of_ne s hut] at hu

/-- The silent step of one thread, which changes one frame at most. -/
theorem PoolEffect.of_move {fr : Frame n m β} {pc : Pc m β}
    (hstored : State.storedBy s a = none)
    (hlogged : State.loggedBy s ((s.setFrame f fr).setPc t pc) a = none)
    (hdirty : IsDirty fr → IsDirty (s.frames f))
    (hunwritten : pc.unwritten ⊆ (s.threads t).unwritten)
    (hwriter : isWriter pc = true → isWriter (s.threads t) = true) :
    PoolEffect su s a ((s.setFrame f fr).setPc t pc) :=
  .of_silent hstored hlogged rfl rfl rfl rfl (dirty_setFrame hdirty)
    (subset_setPc (s := s.setFrame f fr) Pc.unwritten hunwritten)
    (isWriter_setPc (s := s.setFrame f fr) hwriter)

theorem PoolEffect.of_setPc {pc : Pc m β} (hstored : State.storedBy s a = none)
    (hlogged : State.loggedBy s (s.setPc t pc) a = none)
    (hunwritten : pc.unwritten ⊆ (s.threads t).unwritten)
    (hwriter : isWriter pc = true → isWriter (s.threads t) = true) :
    PoolEffect su s a (s.setPc t pc) :=
  .of_silent hstored hlogged rfl rfl rfl rfl (fun _ h => h) (subset_setPc Pc.unwritten hunwritten)
    (isWriter_setPc hwriter)

theorem PoolEffect.of_setFrame {fr : Frame n m β} (hstored : State.storedBy s a = none)
    (hlogged : State.loggedBy s (s.setFrame f fr) a = none)
    (hdirty : IsDirty fr → IsDirty (s.frames f)) :
    PoolEffect su s a (s.setFrame f fr) :=
  .of_silent hstored hlogged rfl rfl rfl rfl (dirty_setFrame hdirty)
    (fun _ => List.Subset.refl _) (fun _ h => h)

theorem PoolEffect.of_lock (h : s.lock t f = some s') : PoolEffect su s (.lock t f) s' := by
  obtain ⟨hpc, -, -, rfl⟩ := lock_cases h
  refine ⟨rfl, rfl, rfl, fun _ => ⟨le_rfl, .inl rfl⟩, ?_, ?_, ?_⟩
  · intro g hg
    refine .inl (dirty_setFrame (f := f) ?_ g hg)
    exact fun h => h
  · intro u d hd
    refine .inl (subset_setPc (s := s.setFrame f _) Pc.unwritten ?_ u hd)
    simp [Pc.unwritten]
  · intro u hu
    by_cases hut : u = t
    · exact .inr ⟨f, by rw [hut]⟩
    · rw [setPc_of_ne _ hut] at hu
      exact .inl hu

theorem PoolEffect.of_mark {record : Option Wal.BufferedWalRecord}
    (h : s.mark su t record = some s') :
    PoolEffect su s (.mark t record) s' := by
  obtain ⟨f, changed, core, hpc, -, -, -, -, rfl⟩ := mark_cases h
  refine ⟨rfl, ?_, ?_, fun _ => ⟨le_rfl, .inl rfl⟩, fun _ _ => .inr ⟨t, record, rfl⟩, ?_, ?_⟩
  · simp [State.loggedBy, hpc]
  · simp [State.loggedBy, hpc, Record.lsn, Writeback.Page.prepare]
  · intro u d hd
    refine .inl (subset_setPc (s := s.setFrame f _) Pc.unwritten ?_ u hd)
    simp [Pc.unwritten]
  · intro u hu
    refine .inl (isWriter_setPc (s := s.setFrame f _) (fun _ => ?_) u hu)
    rw [setFrame_threads, hpc]
    rfl

theorem PoolEffect.of_copyDirty (h : s.copyDirty su t f = some s') :
    PoolEffect su s (.copyDirty t f) s' := by
  obtain ⟨mode, batch, hpc, ⟨hres, -, hlatch, -, -⟩, rfl⟩ := copyDirty_cases h
  refine ⟨rfl, rfl, rfl, fun _ => ⟨le_rfl, .inl rfl⟩, ?_, ?_, ?_⟩
  · intro g hg
    refine .inl (dirty_setFrame (f := f) ?_ g hg)
    exact fun h => h
  · intro u d hd
    by_cases hut : u = t
    · subst hut
      rw [setPc_self] at hd
      rcases List.mem_append.mp hd with hd | hd
      · exact .inl (by rw [hpc]; exact hd)
      · obtain rfl := List.mem_singleton.mp hd
        exact .inr ⟨f, rfl, hres, hlatch, rfl, rfl⟩
    · rw [setPc_of_ne _ hut] at hd
      exact .inl hd
  · exact fun u hu => .inl (isWriter_setPc (s := s.setFrame f _) (by simp [isWriter]) u hu)

theorem PoolEffect.of_storeNext (h : s.storeNext t = some s') :
    PoolEffect su s (.storeNext t) s' := by
  obtain ⟨d, todo, done, hpc, rfl⟩ := storeNext_cases h
  refine ⟨?_, rfl, rfl, fun _ => ⟨le_rfl, .inl rfl⟩, fun _ h => .inl h, ?_, ?_⟩
  · simp [State.storedBy, hpc, Writeback.State.writePage, Writeback.State.setPc]
  · intro u e he
    refine .inl (subset_setPc (s := s.writePage d.pid d.copy) Pc.unwritten ?_ u he)
    change todo ⊆ (s.threads t).unwritten
    rw [hpc]
    exact List.subset_cons_self d todo
  · exact fun u hu => .inl (isWriter_setPc (s := s.writePage d.pid d.copy)
      (by simp [isWriter]) u hu)

theorem PoolEffect.of_flushStoreNext (h : s.flushStoreNext t = some s') :
    PoolEffect su s (.flushStoreNext t) s' := by
  obtain ⟨f, todo, done, hpc, rfl⟩ := flushStoreNext_cases h
  refine ⟨?_, rfl, rfl, fun _ => ⟨le_rfl, .inl rfl⟩, fun _ h => .inl h, ?_, ?_⟩
  · simp [State.storedBy, hpc, Writeback.State.writePage, Writeback.State.setPc]
  · intro u e he
    refine .inl (subset_setPc (s := s.writePage _ _) Pc.unwritten ?_ u he)
    simp [Pc.unwritten]
  · exact fun u hu => .inl (isWriter_setPc (s := s.writePage _ _) (by simp [isWriter]) u hu)

theorem PoolEffect.of_nextPhase (h : s.nextPhase t = some s') :
    PoolEffect su s (.nextPhase t) s' := by
  unfold Writeback.State.nextPhase at h
  split at h
  all_goals first
    | cases h; done
    | skip
  all_goals
    cases h
    exact .of_setPc rfl rfl (by simp [Pc.unwritten]) (by simp [isWriter])

theorem PoolEffect.of_publish (shard lsn : Nat) :
    PoolEffect su s (.publishDurable shard lsn) { s with
      durableLsn := update s.durableLsn shard (max (s.durableLsn shard) lsn) } := by
  refine ⟨rfl, rfl, rfl, fun i => ?_, fun _ h => .inl h, fun _ _ h => .inl h, fun _ h => .inl h⟩
  by_cases hi : i = shard
  · subst hi
    simp only [update_self]
    refine ⟨le_max_left _ _, ?_⟩
    rcases le_total lsn (s.durableLsn i) with hle | hle
    · exact .inl (max_eq_left hle)
    · exact .inr (by rw [max_eq_right hle])
  · simp [update_of_ne hi]

theorem poolEffect (h : Writeback.step su s a = some s') : PoolEffect su s a s' := by
  cases a with
  | lock t f => exact .of_lock h
  | mutate t links rest =>
    obtain ⟨f, changed, hpc, -, rfl⟩ := mutate_cases h
    exact .of_move rfl rfl (fun h => h) (by simp [Pc.unwritten]) (fun _ => by rw [hpc]; rfl)
  | mark t record => exact .of_mark h
  | unlock t =>
    obtain ⟨f, -, rfl⟩ := unlock_cases h
    exact .of_move rfl rfl (fun h => h) (by simp [Pc.unwritten]) (by simp [isWriter])
  | startClean t mode =>
    obtain ⟨-, rfl⟩ := start_cases h
    exact .of_setPc rfl rfl (by simp [Pc.unwritten]) (by simp [isWriter])
  | copyDirty t f => exact .of_copyDirty h
  | endScan t =>
    obtain ⟨mode, batch, hpc, ⟨rfl, rfl⟩ | ⟨-, rfl⟩⟩ := endScan_cases h <;>
      exact .of_setPc rfl rfl (by simp [Pc.unwritten, hpc]) (by simp [isWriter])
  | storeNext t => exact .of_storeNext h
  | finishNext t =>
    obtain ⟨d, todo, done, hpc, -, ⟨-, rfl⟩ | rfl⟩ := finishNext_cases h
    · exact .of_move rfl rfl (by simp [IsDirty, FrameCore.clearDirty]) (by simp [Pc.unwritten])
        (by simp [isWriter])
    · exact .of_setPc rfl rfl (by simp [Pc.unwritten]) (by simp [isWriter])
  | releaseNext t =>
    obtain ⟨d, todo, hpc, rfl⟩ := releaseNext_cases h
    exact .of_silent rfl rfl rfl rfl rfl rfl (dirty_setFrame (f := d.frame) fun h => h)
      (subset_setPc (s := s.setFrame d.frame _) Pc.unwritten (by simp [Pc.unwritten]))
      (isWriter_setPc (s := s.setFrame d.frame _) (by simp [isWriter]))
  | startFlush t =>
    obtain ⟨-, rfl⟩ := start_cases h
    exact .of_setPc rfl rfl (by simp [Pc.unwritten]) (by simp [isWriter])
  | flushLock t f =>
    obtain ⟨held, hpc, -, rfl⟩ := flushLock_cases h
    exact .of_move rfl rfl (fun h => h) (by simp [Pc.unwritten]) (by simp [isWriter])
  | flushDurable t =>
    obtain ⟨held, f, hpc, -, rfl⟩ := flushDurable_cases h
    exact .of_setPc rfl rfl (by simp [Pc.unwritten]) (by simp [isWriter])
  | endFlushScan t =>
    obtain ⟨held, hpc, ⟨rfl, rfl⟩ | rfl⟩ := endFlushScan_cases h <;>
      exact .of_setPc rfl rfl (by simp [Pc.unwritten]) (by simp [isWriter])
  | flushStoreNext t => exact .of_flushStoreNext h
  | flushClearNext t =>
    obtain ⟨f, todo, done, hpc, rfl⟩ := flushClearNext_cases h
    exact .of_move rfl rfl (by simp [IsDirty, FrameCore.clearDirty]) (by simp [Pc.unwritten])
      (by simp [isWriter])
  | flushUnlatchNext t =>
    obtain ⟨f, todo, hpc, rfl⟩ := flushUnlatchNext_cases h
    exact .of_move rfl rfl (fun h => h) (by simp [Pc.unwritten]) (by simp [isWriter])
  | nextPhase t => exact .of_nextPhase h
  | evictBegin f =>
    obtain ⟨⟨hres, -⟩, h⟩ := Option.ite_none_right_eq_some.mp h
    cases h
    exact .of_setFrame rfl rfl fun hd => ⟨by simp [hres], hd.2⟩
  | evictRevert f =>
    obtain ⟨hstate, h⟩ := Option.ite_none_right_eq_some.mp h
    cases h
    exact .of_setFrame rfl rfl fun hd => ⟨by simp [hstate], hd.2⟩
  | evictFinish f =>
    obtain ⟨-, h⟩ := Option.ite_none_right_eq_some.mp h
    cases h
    exact .of_setFrame rfl rfl (by simp [IsDirty])
  | load f pid =>
    obtain ⟨-, -, fr, -, -, -, hclean, -, rfl⟩ := load_cases h
    exact .of_setFrame rfl rfl (by simp [IsDirty, hclean])
  | setLink f i link =>
    obtain ⟨-, page, -, -, -, rfl⟩ := setLink_cases h
    exact .of_setFrame rfl rfl fun h => h
  | publishDurable shard lsn =>
    cases h
    exact .of_publish shard lsn

theorem lsn_setFrame {fr : Frame n m β} (h : fr.page.lsn = (s.frames f).page.lsn) (g : Fin m) :
    ((s.setFrame f fr).frames g).page.lsn = (s.frames g).page.lsn := by
  by_cases hgf : g = f
  · rw [hgf, setFrame_self, h]
  · rw [setFrame_of_ne s hgf]

/-- The LSN of a frame comes from a logged record or with a page that is read. -/
theorem frameLsn_step (h : Writeback.step su s a = some s') (g : Fin m) :
    (s'.frames g).page.lsn = (s.frames g).page.lsn ∨
      (∃ pid, (s'.frames g).page.lsn = (s.store pid).lsn) ∨
      ∃ x, State.loggedBy s s' a = some x ∧ (s'.frames g).page.lsn = x.2.lsn := by
  cases a with
  | lock t f =>
    obtain ⟨-, -, -, rfl⟩ := lock_cases h
    exact .inl (lsn_setFrame (by rfl) g)
  | mutate t links rest =>
    obtain ⟨f, changed, -, -, rfl⟩ := mutate_cases h
    exact .inl (lsn_setFrame (by rfl) g)
  | mark t record =>
    obtain ⟨f, changed, core, hpc, -, -, -, -, rfl⟩ := mark_cases h
    by_cases hgf : g = f
    · refine .inr (.inr ⟨_, by simp only [State.loggedBy, hpc]; rfl, ?_⟩)
      simp [hgf, Record.lsn, Writeback.Page.prepare]
    · exact .inl (by simp [Writeback.State.setFrame, hgf])
  | unlock t =>
    obtain ⟨f, -, rfl⟩ := unlock_cases h
    exact .inl (lsn_setFrame (by rfl) g)
  | startClean t mode =>
    obtain ⟨-, rfl⟩ := start_cases h
    exact .inl rfl
  | copyDirty t f =>
    obtain ⟨mode, batch, -, -, rfl⟩ := copyDirty_cases h
    exact .inl (lsn_setFrame (f := f) (by rfl) g)
  | endScan t =>
    obtain ⟨mode, batch, -, ⟨-, rfl⟩ | ⟨-, rfl⟩⟩ := endScan_cases h <;> exact .inl rfl
  | storeNext t =>
    obtain ⟨d, todo, done, -, rfl⟩ := storeNext_cases h
    exact .inl rfl
  | finishNext t =>
    obtain ⟨d, todo, done, -, -, ⟨-, rfl⟩ | rfl⟩ := finishNext_cases h
    · exact .inl (lsn_setFrame (by rfl) g)
    · exact .inl rfl
  | releaseNext t =>
    obtain ⟨d, todo, -, rfl⟩ := releaseNext_cases h
    exact .inl (lsn_setFrame (f := d.frame) (by rfl) g)
  | startFlush t =>
    obtain ⟨-, rfl⟩ := start_cases h
    exact .inl rfl
  | flushLock t f =>
    obtain ⟨held, -, -, rfl⟩ := flushLock_cases h
    exact .inl (lsn_setFrame (by rfl) g)
  | flushDurable t =>
    obtain ⟨held, f, -, -, rfl⟩ := flushDurable_cases h
    exact .inl rfl
  | endFlushScan t =>
    obtain ⟨held, -, ⟨-, rfl⟩ | rfl⟩ := endFlushScan_cases h <;> exact .inl rfl
  | flushStoreNext t =>
    obtain ⟨f, todo, done, -, rfl⟩ := flushStoreNext_cases h
    exact .inl rfl
  | flushClearNext t =>
    obtain ⟨f, todo, done, -, rfl⟩ := flushClearNext_cases h
    exact .inl (lsn_setFrame (by rfl) g)
  | flushUnlatchNext t =>
    obtain ⟨f, todo, -, rfl⟩ := flushUnlatchNext_cases h
    exact .inl (lsn_setFrame (by rfl) g)
  | nextPhase t =>
    unfold Writeback.step Writeback.State.nextPhase at h
    simp only at h
    split at h
    all_goals first
      | cases h; done
      | skip
    all_goals
      cases h
      exact .inl rfl
  | evictBegin f | evictRevert f | evictFinish f =>
    obtain ⟨-, h⟩ := Option.ite_none_right_eq_some.mp h
    cases h
    exact .inl (lsn_setFrame (by rfl) g)
  | load f pid =>
    obtain ⟨-, -, fr, -, hpage, -, -, -, rfl⟩ := load_cases h
    by_cases hgf : g = f
    · exact .inr (.inl ⟨pid, by rw [hgf, setFrame_self, hpage]⟩)
    · exact .inl (by rw [setFrame_of_ne s hgf])
  | setLink f i link =>
    obtain ⟨-, h⟩ := Option.ite_none_right_eq_some.mp h
    cases h
    exact .inl (lsn_setFrame (by rfl) g)
  | publishDurable shard lsn =>
    cases h
    exact .inl rfl

end

end Pagebox.Kv
