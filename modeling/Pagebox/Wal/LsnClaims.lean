import Mathlib.Logic.Function.Basic
import Pagebox.Wal.System

/-!
# Claiming LSNs

All shards draw LSNs from the cursor `next_lsn`.  With one shard a claim is a `fetch_add`;
with several it is a compare-exchange loop, in which a thread takes the next LSN of its
own shard and leaves the ones between unused.  `advance_lsn_past` moves the cursor at any
time.  A step is one access to a shared atomic.
-/

namespace Pagebox.Wal.LsnClaims

open Pagebox.Base Function List

structure ThreadWalState where
  shardIdx : Nat
  lastLsn : Nat

inductive Pc
  | idle
  | looping (shardIdx : Nat)
  | loaded (shardIdx current : Nat)

/-- The shard that a call of `claim_lsn` works for. -/
def Pc.shard : Pc → Option Nat
  | .idle => none
  | .looping i | .loaded i _ => some i

/-- The entry of the WAL in `WAL_THREAD_STATES` of a thread, and its call. -/
structure Thread where
  state : Option ThreadWalState
  pc : Pc

def Thread.shard (th : Thread) : Option Nat := th.state.map ThreadWalState.shardIdx

inductive Event
  | claimed (thread lsn : Nat)
  | advanced (minLsn : Nat)

def Event.lsn : Event → Nat
  | .claimed _ lsn => lsn
  | .advanced minLsn => minLsn

structure State where
  nextLsn : Nat
  nextThreadShard : Nat
  threads : Nat → Thread
  /-- What was claimed and which bounds were set; the last event comes first. -/
  events : List Event

/-- A WAL is opened: `maxLsn` is the largest LSN in its files. -/
def State.opened (maxLsn : Nat) : State :=
  ⟨(maxLsn + 1) % u64Limit, 0, fun _ => ⟨none, .idle⟩, []⟩

def State.setThread (s : State) (t : Nat) (th : Thread) : State :=
  { s with threads := update s.threads t th }

section

variable (n : Nat)

def currentThreadShard (s : State) (t : Nat) : Nat × State :=
  if n = 1 then (0, s)
  else
    match (s.threads t).state with
    | some st => (st.shardIdx, s)
    | none =>
      let i := s.nextThreadShard % n
      (i, { s.setThread t ⟨some ⟨i, 0⟩, (s.threads t).pc⟩ with
        nextThreadShard := (s.nextThreadShard + 1) % u64Limit })

def setCurrentThreadLastLsn (state : Option ThreadWalState) (lsn : Nat) : ThreadWalState :=
  let st := state.getD ⟨shardIdxForLsn n lsn, 0⟩
  { st with lastLsn := max st.lastLsn lsn }

def State.claimed (s : State) (t lsn : Nat) : State :=
  { s.setThread t ⟨some (setCurrentThreadLastLsn n (s.threads t).state lsn), .idle⟩ with
    nextLsn := (lsn + 1) % u64Limit
    events := .claimed t lsn :: s.events }

inductive Action
  | claimLsn (t : Nat)
  /-- The load of `next_lsn`, or the `fetch_add` when there is one shard. -/
  | load (t : Nat)
  /-- A weak compare-exchange may fail without a reason. -/
  | exchange (t : Nat) (spurious : Bool)
  | advanceLsnPast (minLsn : Nat)

def step (s : State) : Action → Option State
  | .claimLsn t =>
    match (s.threads t).pc with
    | .idle =>
      let (i, s) := currentThreadShard n s t
      some (s.setThread t ⟨(s.threads t).state, .looping i⟩)
    | _ => none
  | .load t =>
    match (s.threads t).pc with
    | .looping i =>
      if n = 1 then some (s.claimed n t s.nextLsn)
      else some (s.setThread t ⟨(s.threads t).state, .loaded i s.nextLsn⟩)
    | _ => none
  | .exchange t spurious =>
    match (s.threads t).pc with
    | .loaded i current =>
      if s.nextLsn = current ∧ spurious = false then
        some (s.claimed n t (alignLsnToShard current i n % u64Limit))
      else some (s.setThread t ⟨(s.threads t).state, .looping i⟩)
    | _ => none
  | .advanceLsnPast minLsn =>
    some { s with
      nextLsn := max s.nextLsn ((minLsn + 1) % u64Limit)
      events := .advanced minLsn :: s.events }

def inRange (s : State) : Action → Bool
  | .advanceLsnPast minLsn => minLsn + 1 < u64Limit
  | _ => s.nextLsn + n < u64Limit

end

theorem alignLsnToShard_spec {lsn i n : Nat} (hlsn : 0 < lsn) (hi : i < n) :
    lsn ≤ alignLsnToShard lsn i n ∧ alignLsnToShard lsn i n < lsn + n ∧
      (alignLsnToShard lsn i n - 1) % n = i := by
  have hdelta : (i + n - (lsn - 1) % n) % n < n := Nat.mod_lt _ (by omega)
  have hcurrent : (lsn - 1) % n < n := Nat.mod_lt _ (by omega)
  simp only [alignLsnToShard, Nat.max_eq_left hlsn]
  refine ⟨by omega, by omega, ?_⟩
  have hsum : lsn - 1 + (i + n - (lsn - 1) % n) = i + n * ((lsn - 1) / n + 1) := by
    have := Nat.mod_add_div (lsn - 1) n
    rw [Nat.mul_add]
    omega
  rw [Nat.sub_add_comm hlsn, Nat.add_mod_mod, hsum, Nat.add_mul_mod_self_left, Nat.mod_eq_of_lt hi]

variable {n t lsn : Nat} {s s' : State}

/-- Every claim is nonzero, above every event before it, and belongs to the shard of its
thread; the cursor is above all of them. -/
structure Inv (n : Nat) (s : State) : Prop where
  positive : 0 < s.nextLsn
  above : ∀ e ∈ s.events, e.lsn < s.nextLsn
  ordered : s.events.Pairwise fun e old => ∀ t lsn, e = .claimed t lsn → old.lsn < lsn
  claims : ∀ t lsn, .claimed t lsn ∈ s.events → 0 < lsn ∧
    (s.threads t).shard = some (shardIdxForLsn n lsn)
  shards : ∀ t i, (s.threads t).shard = some i → i < n
  calls : ∀ t i, (s.threads t).pc.shard = some i → (n = 1 ∧ i = 0) ∨
    (s.threads t).shard = some i

/-- A thread moves on; its shard stays the same once it has one. -/
theorem Inv.setThread (h : Inv n s) (th : Thread)
    (hkeep : ∀ i, (s.threads t).shard = some i → th.shard = some i)
    (hshard : ∀ i, th.shard = some i → i < n)
    (hcall : ∀ i, th.pc.shard = some i → (n = 1 ∧ i = 0) ∨ th.shard = some i) :
    Inv n (s.setThread t th) := by
  refine ⟨h.positive, h.above, h.ordered, fun u lsn hmem => ?_, fun u => ?_, fun u => ?_⟩
  all_goals simp only [State.setThread]
  all_goals by_cases hu : u = t
  · rw [hu] at hmem ⊢
    rw [update_self]
    exact (h.claims t lsn hmem).imp_right (hkeep _)
  · rw [update_of_ne hu]
    exact h.claims u lsn hmem
  · rw [hu, update_self]
    exact hshard
  · rw [update_of_ne hu]
    exact h.shards u
  · rw [hu, update_self]
    exact hcall
  · rw [update_of_ne hu]
    exact h.calls u

theorem shardIdxForLsn_lt (hn : 0 < n) (lsn : Nat) : shardIdxForLsn n lsn < n := by
  unfold shardIdxForLsn
  split
  · omega
  · exact Nat.mod_lt _ hn

/-- An LSN from the cursor on is claimed for the shard of the thread. -/
theorem Inv.claimed (h : Inv n s) (hn : 0 < n) (hle : s.nextLsn ≤ lsn) (hlim : lsn + 1 < u64Limit)
    (hroute : ∀ i, (s.threads t).shard = some i → i = shardIdxForLsn n lsn) :
    Inv n (s.claimed n t lsn) := by
  set th : Thread := ⟨some (setCurrentThreadLastLsn n (s.threads t).state lsn), .idle⟩ with hth
  have hnew : th.shard = some (shardIdxForLsn n lsn) := by
    simp only [hth, Thread.shard, setCurrentThreadLastLsn, Option.map_some, Option.some.injEq]
    cases hstate : (s.threads t).state with
    | none => rfl
    | some st => exact hroute _ (by rw [Thread.shard, hstate]; rfl)
  have hmoved := h.setThread th (fun i hi => hroute i hi ▸ hnew)
    (fun i hi => Option.some.inj (hnew.symm.trans hi) ▸ shardIdxForLsn_lt hn lsn)
    (by simp [hth, Pc.shard])
  have hnext : (s.claimed n t lsn).nextLsn = lsn + 1 := Nat.mod_eq_of_lt hlim
  have habove : ∀ e ∈ s.events, e.lsn < lsn := fun e he => (h.above e he).trans_le hle
  refine ⟨by omega, forall_mem_cons.mpr ⟨?_, fun e he => ?_⟩, pairwise_cons.mpr ⟨?_, h.ordered⟩,
    fun u l hmem => ?_, hmoved.shards, hmoved.calls⟩
  · rw [hnext]
    exact Nat.lt_succ_self lsn
  · rw [hnext]
    exact (habove e he).trans (Nat.lt_succ_self lsn)
  · rintro old hold _ _ ⟨⟩
    exact habove old hold
  · rcases mem_cons.mp hmem with heq | hmem
    · obtain ⟨rfl, rfl⟩ := Event.claimed.inj heq
      refine ⟨h.positive.trans_le hle, ?_⟩
      simp only [State.claimed, State.setThread, update_self]
      exact hnew
    · exact hmoved.claims u l hmem

theorem Inv.setPc (h : Inv n s) {pc : Pc} (hcall : ∀ i, pc.shard = some i →
    (n = 1 ∧ i = 0) ∨ (s.threads t).shard = some i) :
    Inv n (s.setThread t ⟨(s.threads t).state, pc⟩) :=
  h.setThread _ (fun _ hi => hi) (h.shards t) hcall

theorem Inv.currentThreadShard (h : Inv n s) (hn : 0 < n) (hidle : (s.threads t).pc = .idle) :
    Inv n (LsnClaims.currentThreadShard n s t).2 ∧
      ((n = 1 ∧ (LsnClaims.currentThreadShard n s t).1 = 0) ∨
        ((LsnClaims.currentThreadShard n s t).2.threads t).shard =
          some (LsnClaims.currentThreadShard n s t).1) := by
  unfold LsnClaims.currentThreadShard
  split
  · exact ⟨h, .inl ⟨‹_›, rfl⟩⟩
  cases hstate : (s.threads t).state with
  | some st => exact ⟨h, .inr (by rw [Thread.shard, hstate]; rfl)⟩
  | none =>
    have hmoved := h.setThread (t := t) ⟨some ⟨s.nextThreadShard % n, 0⟩, (s.threads t).pc⟩
      (fun i hi => by simp [Thread.shard, hstate] at hi)
      (fun i hi => Option.some.inj hi ▸ Nat.mod_lt _ hn)
      (fun i hi => by simp [hidle, Pc.shard] at hi)
    exact ⟨{ hmoved with }, .inr (by simp [State.setThread, Thread.shard])⟩

theorem Inv.step {a : Action} (h : Inv n s) (hn : 0 < n) (hok : inRange n s a = true)
    (hs : LsnClaims.step n s a = some s') : Inv n s' := by
  cases a with
  | claimLsn t =>
    simp only [LsnClaims.step] at hs
    split at hs
    on_goal 2 => cases hs
    obtain ⟨hinv, hshard⟩ := h.currentThreadShard hn ‹_›
    cases hs
    exact hinv.setPc fun i hi => Option.some.inj hi ▸ hshard
  | load t =>
    simp only [LsnClaims.step] at hs
    split at hs
    on_goal 2 => cases hs
    rename_i i hpc
    split at hs
    · rename_i hone
      cases hs
      refine h.claimed hn le_rfl (hone ▸ of_decide_eq_true hok) fun j hj => ?_
      have := h.shards t j hj
      rw [shardIdxForLsn, if_pos hone]
      omega
    · cases hs
      exact h.setPc fun j hj => h.calls t j (by rw [hpc]; exact hj)
  | exchange t spurious =>
    simp only [LsnClaims.step] at hs
    split at hs
    on_goal 2 => cases hs
    rename_i i current hpc
    have hcall := h.calls t i (by rw [hpc]; rfl)
    split at hs
    · rename_i hwon
      cases hs
      obtain ⟨rfl, -⟩ := hwon
      have hi : i < n := by
        rcases hcall with ⟨hone, rfl⟩ | hshard
        · omega
        · exact h.shards t i hshard
      obtain ⟨hle, hlt, hmod⟩ := alignLsnToShard_spec h.positive hi
      have hlim : s.nextLsn + n < u64Limit := of_decide_eq_true hok
      rw [Nat.mod_eq_of_lt (by omega)]
      refine h.claimed hn hle (by omega) fun j hj => ?_
      have hj' := h.shards t j hj
      rw [shardIdxForLsn, hmod]
      split
      · omega
      · have hshard := hcall.resolve_left (by tauto)
        exact Option.some.inj (hj.symm.trans hshard)
    · cases hs
      exact h.setPc fun j hj => Option.some.inj hj ▸ hcall
  | advanceLsnPast minLsn =>
    have hmod : (minLsn + 1) % u64Limit = minLsn + 1 := Nat.mod_eq_of_lt (of_decide_eq_true hok)
    cases hs
    rw [hmod]
    refine ⟨h.positive.trans_le (le_max_left _ _), forall_mem_cons.mpr ⟨?_, fun e he => ?_⟩,
      pairwise_cons.mpr ⟨by simp, h.ordered⟩, fun u l hmem => ?_, h.shards, h.calls⟩
    · exact Nat.lt_of_lt_of_le (Nat.lt_succ_self minLsn) (le_max_right _ _)
    · exact (h.above e he).trans_le (le_max_left _ _)
    · exact h.claims u l ((mem_cons.mp hmem).resolve_left (by simp))

theorem inv_of_reach {maxLsn : Nat} (hn : 0 < n) (hmax : maxLsn + 1 < u64Limit)
    (h : Reach (LsnClaims.step n) (fun s a => inRange n s a = true) (State.opened maxLsn) s) :
    Inv n s := by
  refine h.invariant (I := Inv n) ⟨?_, by simp [State.opened], .nil, by simp [State.opened],
    by simp [State.opened, Thread.shard], by simp [State.opened, Pc.shard]⟩
    fun _ _ _ hinv hok hs => hinv.step hn hok hs
  simp only [State.opened, Nat.mod_eq_of_lt hmax]
  exact Nat.succ_pos maxLsn

/-- While no LSN overflows: every claimed LSN is nonzero, above every LSN claimed before it
by any thread, so that no two are the same, above every bound set before it, and belongs
to the shard of the thread. -/
theorem claims_unique_and_routed {maxLsn : Nat} (hn : 0 < n) (hmax : maxLsn + 1 < u64Limit)
    (h : Reach (step n) (fun s a => inRange n s a = true) (State.opened maxLsn) s)
    {newer older : List Event} (hevents : s.events = newer ++ .claimed t lsn :: older) :
    0 < lsn ∧ (∀ t' lsn', .claimed t' lsn' ∈ older → lsn' < lsn) ∧
      (∀ minLsn, .advanced minLsn ∈ older → minLsn < lsn) ∧
      (s.threads t).shard = some (shardIdxForLsn n lsn) := by
  have hinv := inv_of_reach hn hmax h
  have hclaim := hinv.claims t lsn (hevents ▸ mem_append_right _ mem_cons_self)
  have hbelow : ∀ old ∈ older, old.lsn < lsn := by
    have hordered := hinv.ordered
    rw [hevents] at hordered
    exact fun old hold => (pairwise_cons.mp (pairwise_append.mp hordered).2.1).1 old hold t lsn rfl
  exact ⟨hclaim.1, fun t' lsn' hmem => hbelow _ hmem, fun minLsn hmem => hbelow _ hmem, hclaim.2⟩

/-- Two threads on two shards race for the cursor, which has been moved past LSN 5 between
the load and the exchange of the first one. -/
theorem claims_unique_and_routed_race :
    ∃ s, Reach (step 2) (fun s a => inRange 2 s a = true) (State.opened 0) s ∧
      s.events = [.claimed 0 7, .claimed 1 6, .advanced 5] ∧ 0 < 7 ∧
      (s.threads 0).shard = some (shardIdxForLsn 2 7) := by
  obtain ⟨s, hexec, hs⟩ : ∃ s, exec (guarded (inRange 2) (step 2)) (State.opened 0)
      [.claimLsn 0, .load 0, .claimLsn 1, .advanceLsnPast 5, .exchange 0 false, .load 0, .load 1,
        .exchange 1 false, .exchange 0 false, .load 0, .exchange 0 true, .load 0,
        .exchange 0 false] = some s ∧
      s.events = [.claimed 0 7, .claimed 1 6, .advanced 5] := ⟨_, rfl, rfl⟩
  have hreach := Reach.of_exec hexec fun _ _ hok => hok
  obtain ⟨hpos, -, -, hshard⟩ := claims_unique_and_routed (by decide) (by decide) hreach
    (show s.events = [] ++ .claimed 0 7 :: _ from hs)
  exact ⟨s, hreach, hs, hpos, hshard⟩

/-- The cursor wraps: the claim after the largest LSN gets LSN 0. -/
theorem claims_wrap : ∃ s, Reach (step 1) anyStep (State.opened 0) s ∧
    s.events = [.claimed 0 0, .claimed 0 (2 ^ 64 - 1), .advanced (2 ^ 64 - 2)] := by
  obtain ⟨s, hexec, hs⟩ : ∃ s, exec (step 1) (State.opened 0)
      [.advanceLsnPast (2 ^ 64 - 2), .claimLsn 0, .load 0, .claimLsn 0, .load 0] = some s ∧
      s.events = [.claimed 0 0, .claimed 0 (2 ^ 64 - 1), .advanced (2 ^ 64 - 2)] := ⟨_, rfl, rfl⟩
  exact ⟨s, Reach.of_exec_any hexec, hs⟩

end Pagebox.Wal.LsnClaims
