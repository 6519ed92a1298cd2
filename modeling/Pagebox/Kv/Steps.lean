import Pagebox.Kv.Model

/-!
# What each step of the store did
-/

namespace Pagebox.Kv

open Pagebox.Base Pagebox.Storage Option

variable {n m : Nat} {β : Type} {su : Setup n β} {s s' : State n m β} {t : Fin n} {lsn : Nat}

theorem poolStep_cases {a : Writeback.Action n m β} (h : s.poolStep su a = some s') :
    s.poolEnabled a = true ∧ ∃ pool, Writeback.step su.wal s.pool a = some pool ∧
      s' = { ((s.moveScan a).store (State.storedBy s.pool a)).append su
          (State.loggedBy s.pool pool a) with pool := pool } := by
  obtain ⟨henabled, h⟩ := ite_none_right_eq_some.mp h
  obtain ⟨pool, hpool, rfl⟩ := map_eq_some_iff.mp h
  exact ⟨henabled, pool, hpool, rfl⟩

theorem flushSkip_cases (h : s.flushSkip t = some s') :
    ∃ held, s.pool.threads t = .flushing held ∧ ∃ hm : s.scan t < m,
      ((s.pool.frames ⟨s.scan t, hm⟩).state = .free ∨
        (s.pool.frames ⟨s.scan t, hm⟩).core.dirty = false) ∧
      s' = { s with scan := Function.update s.scan t (s.scan t + 1) } := by
  unfold State.flushSkip at h
  split at h
  · rename_i held hpc
    obtain ⟨hm, h⟩ := dite_none_right_eq_some.mp h
    obtain ⟨hskip, h⟩ := ite_none_right_eq_some.mp h
    cases h
    exact ⟨held, hpc, hm, hskip, rfl⟩
  · cases h

theorem headerLoad_cases (h : s.headerLoad t = some s') :
    s.sync t = .idle ∧ s' = s.setSync t (.loaded s.checkpointLsn) := by
  unfold State.headerLoad at h
  split at h
  · rename_i hpc
    cases h
    exact ⟨hpc, rfl⟩
  · cases h

theorem headerWrite_cases (h : s.headerWrite t = some s') : ∃ lsn, s.sync t = .loaded lsn ∧
      s' = { s.setSync t .written with header := s.header.write () lsn } := by
  unfold State.headerWrite at h
  split at h
  · rename_i lsn hpc
    cases h
    exact ⟨lsn, hpc, rfl⟩
  · cases h

theorem headerOnly_cases (h : s.headerOnly t = some s') :
    s.sync t = .written ∧ s' = s.setSync t .idle := by
  unfold State.headerOnly at h
  split at h
  · rename_i hpc
    cases h
    exact ⟨hpc, rfl⟩
  · cases h

theorem fsyncBegin_cases (h : s.fsyncBegin t = some s') :
    s.sync t = .written ∧ s' = s.setSync t (.syncing s.pages.issued s.header.issued) := by
  unfold State.fsyncBegin at h
  split at h
  · rename_i hpc
    cases h
    exact ⟨hpc, rfl⟩
  · cases h

theorem fsyncEnd_cases (h : s.fsyncEnd t = some s') :
    ∃ pages header, s.sync t = .syncing pages header ∧ s' = { s.setSync t .done with
      pages := s.pages.sync pages, header := s.header.sync header } := by
  unfold State.fsyncEnd at h
  split at h
  · rename_i pages header hpc
    cases h
    exact ⟨pages, header, hpc, rfl⟩
  · cases h

theorem commitBegin_cases (h : s.commitBegin su t = some s') :
    s.job t = .idle ∧ s.pool.threads t = .idle ∧
      s' = s.setJob t (.committing (s.flushTargets su)) := by
  unfold State.commitBegin at h
  split at h
  · rename_i hjob hpc
    cases h
    exact ⟨hjob, hpc, rfl⟩
  · cases h

theorem commitReturn_cases (h : s.commitReturn t lsn = some s') :
    ∃ targets, s.job t = .committing targets ∧ s.flushReturns targets lsn = true ∧
      s' = { s.setJob t .idle with
        acked := s.unacked t ++ s.acked
        unacked := Function.update s.unacked t [] } := by
  unfold State.commitReturn at h
  split at h
  · rename_i targets hjob
    obtain ⟨hflush, h⟩ := ite_none_right_eq_some.mp h
    cases h
    exact ⟨targets, hjob, hflush, rfl⟩
  · cases h

theorem checkpointBegin_cases (h : s.checkpointBegin su t = some s') :
    s.job t = .idle ∧ s.pool.threads t = .idle ∧
      s' = s.setJob t (.walFlushing (s.flushTargets su)) := by
  unfold State.checkpointBegin at h
  split at h
  · rename_i hjob hpc
    cases h
    exact ⟨hjob, hpc, rfl⟩
  · cases h

theorem walFlushReturn_cases (h : s.walFlushReturn t lsn = some s') :
    ∃ targets, s.job t = .walFlushing targets ∧ s.flushReturns targets lsn = true ∧
      s' = s.setJob t (.walFlushed lsn) := by
  unfold State.walFlushReturn at h
  split at h
  · rename_i targets hjob
    obtain ⟨hflush, h⟩ := ite_none_right_eq_some.mp h
    cases h
    exact ⟨targets, hjob, hflush, rfl⟩
  · cases h

theorem poolFlushBegin_cases (h : s.poolFlushBegin t = some s') :
    ∃ lsn, s.job t = .walFlushed lsn ∧ s.pool.threads t = .idle ∧
      s' = { s.setJob t (.poolFlushing lsn) with
        pool := s.pool.setPc t (.flushing []), scan := Function.update s.scan t 0 } := by
  unfold State.poolFlushBegin at h
  split at h
  · rename_i lsn hjob
    obtain ⟨pool, hpool, rfl⟩ := map_eq_some_iff.mp h
    obtain ⟨hpc, rfl⟩ := Writeback.start_cases hpool
    exact ⟨lsn, hjob, hpc, rfl⟩
  · cases h

theorem poolFlushReturn_cases (h : s.poolFlushReturn t = some s') :
    ∃ lsn, s.job t = .poolFlushing lsn ∧ s.pool.threads t = .idle ∧
      s' = s.setJob t (.poolFlushed lsn) := by
  unfold State.poolFlushReturn at h
  split at h
  · rename_i lsn hjob hpc
    cases h
    exact ⟨lsn, hjob, hpc, rfl⟩
  · cases h

theorem setCheckpointLsn_cases (h : s.setCheckpointLsn t = some s') :
    ∃ lsn, s.job t = .poolFlushed lsn ∧ s.sync t = .idle ∧
      s' = { s.setJob t (.storeSyncing lsn) with checkpointLsn := lsn } := by
  unfold State.setCheckpointLsn at h
  split at h
  · rename_i lsn hjob hpc
    cases h
    exact ⟨lsn, hjob, hpc, rfl⟩
  · cases h

theorem resetBegin_cases (h : s.resetBegin su t = some s') :
    ∃ lsn, s.job t = .storeSyncing lsn ∧ s.sync t = .done ∧
      s' = (s.setJob t (.resetFlushing lsn (s.flushTargets su))).setSync t .idle := by
  unfold State.resetBegin at h
  split at h
  · rename_i lsn hjob hpc
    cases h
    exact ⟨lsn, hjob, hpc, rfl⟩
  · cases h

theorem resetFlushReturn_cases (h : s.resetFlushReturn t lsn = some s') :
    ∃ c targets, s.job t = .resetFlushing c targets ∧ s.flushReturns targets lsn = true ∧
      s' = s.setJob t (.resetting c 0) := by
  unfold State.resetFlushReturn at h
  split at h
  · rename_i c targets hjob
    obtain ⟨hflush, h⟩ := ite_none_right_eq_some.mp h
    cases h
    exact ⟨c, targets, hjob, hflush, rfl⟩
  · cases h

theorem resetNext_cases (h : s.resetNext su t = some s') : ∃ c shard, s.job t = .resetting c shard ∧
      ((shard < su.wal.shardCount ∧
          s' = (s.resetShard su shard).setJob t (.resetting c (shard + 1))) ∨
        s' = s.setJob t .idle) := by
  unfold State.resetNext at h
  split at h
  · rename_i c shard hjob
    refine ⟨c, shard, hjob, ?_⟩
    split at h
    · rename_i hshard
      cases h
      exact .inl ⟨hshard, rfl⟩
    · cases h
      exact .inr rfl
  · cases h

theorem openNext_cases (h : s.openNext su = some s') : ∃ op ops, s.opening = some (op :: ops) ∧
      s' = { s.openStep su op with opening := some ops } := by
  unfold State.openNext at h
  split at h
  · rename_i op ops hopen
    cases h
    exact ⟨op, ops, hopen, rfl⟩
  · cases h

end Pagebox.Kv
