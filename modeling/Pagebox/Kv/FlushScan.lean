import Pagebox.Kv.PoolSteps
import Pagebox.Kv.Steps

/-!
# A flush reaches every dirty frame

A flush of the pool looks at the frames in order.  While no page is marked dirty,
what is dirty is either ahead of the scan or among the frames the flush holds;
when it returns, no frame is dirty.
-/

namespace Pagebox.Kv

open Pagebox.Base Pagebox.Storage Pagebox.Storage.Writeback Function

variable {n m : Nat} {β : Type}

def toFlush (scan : Nat) : Pc m β → Fin m → Prop
  | .flushing held, f => scan ≤ f.val ∨ f ∈ held
  | .flushWaiting held g, f => scan ≤ f.val ∨ f ∈ held ∨ f = g
  | .flushStoring todo done, f => f ∈ todo ∨ f ∈ done
  | .flushClearing todo _, f => f ∈ todo
  | _, _ => False

def FlushRest (s : State n m β) (t : Fin n) : Prop :=
  ∀ f, IsDirty (s.pool.frames f) → toFlush (s.scan t) (s.pool.threads t) f

/-- What a pool step that stores a page and logs a record does to the other parts
of the store. -/
structure AfterPool (su : Setup n β) (s : State n m β) (a : Writeback.Action n m β)
    (stored : Option (Nat × Writeback.Page m β)) (logged : Option (Fin n × Record m β))
    (s' : State n m β) : Prop where
  header : s'.header = s.header
  checkpointLsn : s'.checkpointLsn = s.checkpointLsn
  cut : s'.cut = s.cut
  job : s'.job = s.job
  opening : s'.opening = s.opening
  initial : s'.initial = s.initial
  acked : s'.acked = s.acked
  pages : s'.pages = stored.elim s.pages fun w => s.pages.write w.1 w.2
  log : s'.log = logged.elim s.log fun x => x.2 :: s.log
  records : s'.records = logged.elim s.records fun x => x.2 :: s.records
  appendedLsn : s'.appendedLsn = logged.elim s.appendedLsn fun x =>
    update s.appendedLsn (State.shardOf su x.2)
      (max (s.appendedLsn (State.shardOf su x.2)) x.2.lsn)
  unacked : s'.unacked = logged.elim s.unacked fun x =>
    update s.unacked x.1 (x.2 :: s.unacked x.1)
  sync : ∀ t, s'.sync t = s.sync t ∨ s'.sync t = .idle
  scan : s'.scan = (s.moveScan a).scan

section

variable {su : Setup n β} {s s' : State n m β} {t : Fin n} {a : Writeback.Action n m β}

theorem moveScan_sync (s : State n m β) (a : Writeback.Action n m β) (t : Fin n) :
    (s.moveScan a).sync t = s.sync t ∨ (s.moveScan a).sync t = .idle := by
  cases a with
  | nextPhase u =>
    rw [State.moveScan]
    split
    · by_cases htu : t = u
      · exact .inr (by simp [htu])
      · exact .inl (by simp [htu])
    · exact .inl rfl
  | _ => exact .inl rfl

theorem moveScan_eq (s : State n m β) (a : Writeback.Action n m β) :
    s.moveScan a = { s with scan := (s.moveScan a).scan, sync := (s.moveScan a).sync } := by
  cases a with
  | nextPhase u =>
    rw [State.moveScan]
    split <;> rfl
  | _ => rfl

theorem afterPool (h : s.poolStep su a = some s') :
    s.poolEnabled a = true ∧ Writeback.step su.wal s.pool a = some s'.pool ∧
      AfterPool su s a (State.storedBy s.pool a) (State.loggedBy s.pool s'.pool a) s' := by
  obtain ⟨henabled, pool, hpool, rfl⟩ := poolStep_cases h
  refine ⟨henabled, hpool, ?_⟩
  generalize State.storedBy s.pool a = stored
  generalize State.loggedBy s.pool pool a = logged
  have hsync := moveScan_sync s a
  rw [moveScan_eq] at hsync ⊢
  rcases stored with _ | ⟨pid, page⟩ <;> rcases logged with _ | ⟨t, r⟩ <;>
    exact ⟨rfl, rfl, rfl, rfl, rfl, rfl, rfl, rfl, rfl, rfl, rfl, rfl, hsync, rfl⟩

def scanAfter (scan : Nat) (t : Fin n) : Writeback.Action n m β → Nat
  | .startFlush u => if t = u then 0 else scan
  | .flushLock u f => if t = u then f.val + 1 else scan
  | _ => scan

theorem moveScan_scan (s : State n m β) (a : Writeback.Action n m β) (t : Fin n) :
    (s.moveScan a).scan t = scanAfter (s.scan t) t a := by
  cases a with
  | startFlush u => simp [State.moveScan, scanAfter, update_apply]
  | flushLock u f => simp [State.moveScan, scanAfter, update_apply]
  | nextPhase u =>
    rw [State.moveScan]
    split <;> rfl
  | _ => rfl

end

section Moves

variable {su : Writeback.Setup n} {s s' : Writeback.State n m β} {t u : Fin n} {f g : Fin m}
  {scan : Nat} {pc : Pc m β}

/-- A thread that is not flushing has nothing to flush, so its move does not matter. -/
theorem toFlush_setPc (h : toFlush scan (s.threads t) f)
    (hpc : t = u → ¬toFlush scan (s.threads u) f) : toFlush scan ((s.setPc u pc).threads t) f := by
  by_cases htu : t = u
  · rw [htu] at h
    exact absurd h (hpc htu)
  · rwa [setPc_of_ne s htu]

theorem toFlush_flushLock (h : s.flushLock u g = some s') (hrest : toFlush scan (s.threads t) f)
    (hg : t = u → g.val = scan) :
    toFlush (scanAfter scan t (.flushLock u g : Writeback.Action n m β)) (s'.threads t) f := by
  obtain ⟨held, hpc, -, rfl⟩ := flushLock_cases h
  by_cases htu : t = u
  · subst htu
    rw [hpc] at hrest
    rw [setPc_self, scanAfter, if_pos rfl]
    rcases hrest with hle | hheld
    · rcases Nat.eq_or_lt_of_le hle with heq | hlt
      · exact .inr (.inr (Fin.ext (by rw [← heq, hg rfl])))
      · exact .inl (by rw [hg rfl]; exact hlt)
    · exact .inr (.inl hheld)
  · rw [scanAfter, if_neg htu, setPc_of_ne _ htu]
    exact hrest

theorem toFlush_flushDurable (h : s.flushDurable su u = some s')
    (hrest : toFlush scan (s.threads t) f) : toFlush scan (s'.threads t) f := by
  obtain ⟨held, g, hpc, -, rfl⟩ := flushDurable_cases h
  by_cases htu : t = u
  · subst htu
    rw [hpc] at hrest
    rw [setPc_self]
    rcases hrest with hle | hheld | rfl
    · exact .inl hle
    · exact .inr (List.mem_append_left _ hheld)
    · exact .inr (by simp)
  · rwa [setPc_of_ne _ htu]

theorem toFlush_endFlushScan (h : s.endFlushScan u = some s')
    (hrest : toFlush scan (s.threads t) f) (hend : t = u → scan = m) :
    toFlush scan (s'.threads t) f := by
  obtain ⟨held, hpc, hs'⟩ := endFlushScan_cases h
  by_cases htu : t = u
  · subst htu
    rw [hpc] at hrest
    have hheld : f ∈ held := by
      rcases hrest with hle | hheld
      · omega
      · exact hheld
    rcases hs' with ⟨rfl, -⟩ | rfl
    · cases hheld
    · rw [setPc_self]
      exact .inl hheld
  · rcases hs' with ⟨-, rfl⟩ | rfl <;> rwa [setPc_of_ne _ htu]

theorem toFlush_flushStoreNext (h : s.flushStoreNext u = some s')
    (hrest : toFlush scan (s.threads t) f) : toFlush scan (s'.threads t) f := by
  obtain ⟨g, todo, done, hpc, rfl⟩ := flushStoreNext_cases h
  by_cases htu : t = u
  · subst htu
    rw [hpc] at hrest
    rw [setPc_self]
    rcases hrest with htodo | hdone
    · rcases List.mem_cons.mp htodo with rfl | htodo
      · exact .inr (by simp)
      · exact .inl htodo
    · exact .inr (List.mem_append_left _ hdone)
  · rw [setPc_of_ne _ htu]
    exact hrest

theorem toFlush_flushClearNext (h : s.flushClearNext u = some s') (hf : IsDirty (s'.frames f))
    (hrest : toFlush scan (s.threads t) f) : toFlush scan (s'.threads t) f := by
  obtain ⟨g, todo, done, hpc, rfl⟩ := flushClearNext_cases h
  by_cases htu : t = u
  · subst htu
    rw [hpc] at hrest
    rw [setPc_self]
    rcases List.mem_cons.mp hrest with rfl | htodo
    · rw [setPc_frames, setFrame_self] at hf
      cases hf.2
    · exact htodo
  · rw [setPc_of_ne _ htu]
    exact hrest

theorem toFlush_nextPhase (h : s.nextPhase u = some s') (hrest : toFlush scan (s.threads t) f) :
    toFlush scan (s'.threads t) f := by
  unfold Writeback.State.nextPhase at h
  split at h
  all_goals first
    | cases h; done
    | skip
  all_goals
    rename_i hpc
    cases h
    by_cases htu : t = u
    · subst htu
      rw [hpc] at hrest
      rw [setPc_self]
      first
        | exact hrest.elim
        | exact absurd hrest List.not_mem_nil
        | exact hrest.resolve_left List.not_mem_nil
    · rwa [setPc_of_ne _ htu]

/-- While nothing is marked dirty, what is dirty stays within reach of a flush. -/
theorem toFlush_step {a : Writeback.Action n m β} (h : Writeback.step su s a = some s')
    (hf : IsDirty (s'.frames f)) (hrest : toFlush scan (s.threads t) f)
    (hstart : ∀ g, a ≠ .lock t g) (hclean : ∀ mode, a ≠ .startClean t mode)
    (hflush : a ≠ .startFlush t) (hlock : ∀ g, a = .flushLock t g → g.val = scan)
    (hend : a = .endFlushScan t → scan = m) :
    toFlush (scanAfter scan t a) (s'.threads t) f := by
  cases a with
  | lock u g =>
    obtain ⟨hpc, -, -, rfl⟩ := lock_cases h
    exact toFlush_setPc (s := s.setFrame g _) hrest fun htu => absurd (by rw [htu]) (hstart g)
  | mutate u links rest =>
    obtain ⟨g, changed, hpc, -, rfl⟩ := mutate_cases h
    exact toFlush_setPc (s := s.setFrame g _) hrest fun _ => by
      rw [setFrame_threads, hpc]
      exact not_false
  | mark u record =>
    obtain ⟨g, changed, core, hpc, -, -, -, -, rfl⟩ := mark_cases h
    exact toFlush_setPc (s := s.setFrame g _) hrest fun _ => by
      rw [setFrame_threads, hpc]
      exact not_false
  | unlock u =>
    obtain ⟨g, hpc, rfl⟩ := unlock_cases h
    exact toFlush_setPc (s := s.setFrame g _) hrest fun _ => by
      rw [setFrame_threads, hpc]
      exact not_false
  | startClean u mode =>
    obtain ⟨hpc, rfl⟩ := start_cases h
    exact toFlush_setPc hrest fun htu => absurd (by rw [htu]) (hclean mode)
  | copyDirty u g =>
    obtain ⟨mode, batch, hpc, -, rfl⟩ := copyDirty_cases h
    exact toFlush_setPc (s := s.setFrame g _) hrest fun _ => by
      rw [setFrame_threads, hpc]
      exact not_false
  | endScan u =>
    obtain ⟨mode, batch, hpc, ⟨-, rfl⟩ | ⟨-, rfl⟩⟩ := endScan_cases h <;>
      exact toFlush_setPc hrest fun _ => by
        rw [hpc]
        exact not_false
  | storeNext u =>
    obtain ⟨d, todo, done, hpc, rfl⟩ := storeNext_cases h
    exact toFlush_setPc (s := s.writePage d.pid d.copy) hrest fun _ => by
      change ¬toFlush scan (s.threads u) f
      rw [hpc]
      exact not_false
  | finishNext u =>
    obtain ⟨d, todo, done, hpc, -, ⟨-, rfl⟩ | rfl⟩ := finishNext_cases h
    · exact toFlush_setPc (s := s.setFrame d.frame _) hrest fun _ => by
        rw [setFrame_threads, hpc]
        exact not_false
    · exact toFlush_setPc hrest fun _ => by
        rw [hpc]
        exact not_false
  | releaseNext u =>
    obtain ⟨d, todo, hpc, rfl⟩ := releaseNext_cases h
    exact toFlush_setPc (s := s.setFrame d.frame _) hrest fun _ => by
      rw [setFrame_threads, hpc]
      exact not_false
  | startFlush u =>
    obtain ⟨hpc, rfl⟩ := start_cases h
    have htu : t ≠ u := fun htu => hflush (by rw [htu])
    rw [scanAfter, if_neg htu, setPc_of_ne s htu]
    exact hrest
  | flushLock u g => exact toFlush_flushLock h hrest fun htu => hlock g (by rw [htu])
  | flushDurable u => exact toFlush_flushDurable h hrest
  | endFlushScan u => exact toFlush_endFlushScan h hrest fun htu => hend (by rw [htu])
  | flushStoreNext u => exact toFlush_flushStoreNext h hrest
  | flushClearNext u => exact toFlush_flushClearNext h hf hrest
  | flushUnlatchNext u =>
    obtain ⟨g, todo, hpc, rfl⟩ := flushUnlatchNext_cases h
    exact toFlush_setPc (s := s.setFrame g _) hrest fun _ => by
      rw [setFrame_threads, hpc]
      exact not_false
  | nextPhase u => exact toFlush_nextPhase h hrest
  | evictBegin g | evictRevert g | evictFinish g =>
    obtain ⟨-, h⟩ := Option.ite_none_right_eq_some.mp h
    cases h
    exact hrest
  | load g pid =>
    obtain ⟨-, -, fr, -, -, -, -, -, rfl⟩ := load_cases h
    exact hrest
  | setLink g i link =>
    obtain ⟨-, page, -, -, -, rfl⟩ := setLink_cases h
    exact hrest
  | publishDurable shard lsn =>
    cases h
    exact hrest

end Moves

section

variable {su : Setup n β} {s s' : State n m β} {t : Fin n} {a : Writeback.Action n m β} {lsn : Nat}

theorem FlushRest.poolStep (hi : FlushRest s t) (h : s.poolStep su a = some s')
    (hjob : s.job t = .poolFlushing lsn) (hquiet : ∀ u, isWriter (s.pool.threads u) = false) :
    FlushRest s' t := by
  obtain ⟨henabled, hstep, hafter⟩ := afterPool h
  intro f hf
  rw [hafter.scan, moveScan_scan]
  have hold : IsDirty (s.pool.frames f) := by
    rcases (poolEffect hstep).dirty f hf with hold | ⟨u, record, rfl⟩
    · exact hold
    · obtain ⟨g, changed, core, hpc, -⟩ := mark_cases hstep
      have hwriter := hquiet u
      rw [hpc] at hwriter
      cases hwriter
  -- a thread in a checkpoint starts no other operation
  apply toFlush_step hstep hf (hi f hold)
  · rintro g rfl
    simp [State.poolEnabled, hjob] at henabled
  · rintro mode rfl
    simp [State.poolEnabled, hjob] at henabled
  · rintro rfl
    simp [State.poolEnabled, hjob] at henabled
  · rintro g rfl
    simpa [State.poolEnabled] using henabled
  · rintro rfl
    simp only [State.poolEnabled, decide_eq_true_eq] at henabled
    exact henabled.1

/-- A scan passes no dirty frame. -/
theorem toFlush_flushSkip {u : Fin n} {f : Fin m} (h : s.flushSkip u = some s')
    (hf : IsDirty (s.pool.frames f)) (hrest : toFlush (s.scan t) (s.pool.threads t) f) :
    toFlush (s'.scan t) (s'.pool.threads t) f := by
  obtain ⟨held, hpc, hm, hskip, rfl⟩ := flushSkip_cases h
  by_cases htu : t = u
  · subst htu
    change toFlush (update s.scan t (s.scan t + 1) t) (s.pool.threads t) f
    rw [hpc] at hrest ⊢
    rw [update_self]
    rcases hrest with hle | hheld
    · rcases Nat.eq_or_lt_of_le hle with heq | hlt
      · have hfm : (⟨s.scan t, hm⟩ : Fin m) = f := Fin.ext heq
        rw [hfm] at hskip
        rcases hskip with hfree | hclean
        · exact absurd hfree hf.1
        · exact absurd hf.2 (by rw [hclean]; decide)
      · exact .inl hlt
    · exact .inr hheld
  · change toFlush (update s.scan u (s.scan u + 1) t) (s.pool.threads t) f
    rw [update_of_ne htu]
    exact hrest

theorem FlushRest.flushSkip {u : Fin n} (hi : FlushRest s t) (h : s.flushSkip u = some s') :
    FlushRest s' t := by
  intro f hf
  have hframes : s'.pool = s.pool := by
    obtain ⟨held, -, hm, -, rfl⟩ := flushSkip_cases h
    rfl
  rw [hframes] at hf
  exact toFlush_flushSkip h hf (hi f hf)

end

end Pagebox.Kv
