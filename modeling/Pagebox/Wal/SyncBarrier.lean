import Mathlib.Data.List.MinMax
import Mathlib.Data.Nat.Init
import Mathlib.Logic.Function.Basic
import Mathlib.Order.MinMax
import Mathlib.Order.Nat
import Pagebox.Base.Runs

/-!
# The sync barrier of the io_uring backend

All shards share one ring and one `SyncBarrierState` (`wal/src/io_uring.rs`).  A shard
asks for a sync of the LSN it has written; the request starts a drained fsync, or is
left to the next one while an fsync is in flight.  `submit_sync` and `dispatch_cqe` hold
the ring lock, so each is one step.

Not fields of the code: the `requests` made so far, the fsyncs the ring still has to
complete (`outstanding`), each with the requests made before it was submitted, and the
`reports` of durable LSNs.
-/

namespace Pagebox.Wal.IoUring

open Pagebox.Base Function

structure InFlightSync where
  lsn : Nat
  fd : Nat
  deriving DecidableEq

structure SyncBarrierState where
  requestedLsn : Nat
  completedLsn : Nat
  inFlight : Option InFlightSync
  deriving DecidableEq

namespace SyncBarrierState

def request (b : SyncBarrierState) (lsn : Nat) : SyncBarrierState :=
  { b with requestedLsn := max b.requestedLsn lsn }

def nextTarget (b : SyncBarrierState) : Option Nat :=
  if b.inFlight = none ∧ b.completedLsn < b.requestedLsn then some b.requestedLsn else none

/-- `submitted`; an fsync that is in flight already fails the assertion. -/
def submitted (b : SyncBarrierState) (sync : InFlightSync) : Option SyncBarrierState :=
  if b.inFlight = none then some { b with inFlight := some sync } else none

def complete (b : SyncBarrierState) : Option (InFlightSync × SyncBarrierState) :=
  b.inFlight.map fun sync =>
    (sync, { b with completedLsn := max b.completedLsn sync.lsn, inFlight := none })

end SyncBarrierState

structure Report where
  lsn : Nat
  /-- The requests made before the fsync was submitted. -/
  before : List Nat
  deriving DecidableEq

structure State where
  barrier : SyncBarrierState
  /-- `fd_to_inner`: the files whose shard is still there. -/
  fdToInner : Nat → Bool
  requests : List Nat
  outstanding : List (List Nat)
  reports : List Report

namespace State

def opened (fdToInner : Nat → Bool) : State := ⟨⟨0, 0, none⟩, fdToInner, [], [], []⟩

def largest (s : State) : Nat := s.requests.foldr max 0

/-- `submit_sync` for the shard of `fd`; without `room` in the submission queue the
call fails after it has made its request. -/
def submitSync (s : State) (fd lsn : Nat) (room : Bool) : Option State :=
  let barrier := s.barrier.request lsn
  let requests := lsn :: s.requests
  match barrier.nextTarget with
  | none => some { s with barrier, requests }
  | some target =>
    if room then
      (barrier.submitted ⟨target, fd⟩).map fun barrier =>
        { s with barrier, requests, outstanding := s.outstanding ++ [requests] }
    else some { s with barrier, requests }

/-- `dispatch_cqe` for the `k`th of the outstanding fsyncs, which ended with `res`. -/
def dispatchCqe (s : State) (k : Nat) (res : Int) : Option State :=
  (s.outstanding[k]?).map fun before =>
    let outstanding := s.outstanding.eraseIdx k
    match s.barrier.complete with
    | none => { s with outstanding }
    | some (sync, barrier) =>
      -- a failed fsync is only noted in the shard of its file
      if res < 0 ∨ s.fdToInner sync.fd = false then { s with barrier, outstanding }
      else { s with barrier, outstanding, reports := s.reports ++ [⟨sync.lsn, before⟩] }

end State

inductive Action
  | register (fd : Nat) (there : Bool)
  | submitSync (fd lsn : Nat) (room : Bool)
  | dispatchCqe (k : Nat) (res : Int)

def step (s : State) : Action → Option State
  | .register fd there => some { s with fdToInner := update s.fdToInner fd there }
  | .submitSync fd lsn room => s.submitSync fd lsn room
  | .dispatchCqe k res => s.dispatchCqe k res

/-! ## The three markers -/

/-- The fsync in flight is the only one of the ring; its target is above the completed
LSN and was requested before the fsync was submitted. -/
structure Inv (s : State) : Prop where
  requested : s.barrier.requestedLsn = s.largest
  completed : s.barrier.completedLsn ≤ s.barrier.requestedLsn
  idle : s.barrier.inFlight = none → s.outstanding = []
  flying : ∀ sync, s.barrier.inFlight = some sync →
    s.barrier.completedLsn < sync.lsn ∧ sync.lsn ≤ s.barrier.requestedLsn ∧
      ∃ before, s.outstanding = [before] ∧ sync.lsn ∈ before
  reports : ∀ r ∈ s.reports, r.lsn ∈ r.before

theorem foldr_max_mem {l : List Nat} (h : 0 < l.foldr max 0) : l.foldr max 0 ∈ l := by
  induction l with
  | nil => simp at h
  | cons x l ih =>
    rw [List.foldr_cons] at h ⊢
    rcases le_total (l.foldr max 0) x with hle | hle
    · rw [max_eq_left hle]
      exact List.mem_cons_self
    · rw [max_eq_right hle] at h ⊢
      exact List.mem_cons_of_mem x (ih h)

section Steps

variable {s s' : State}

theorem Inv.submitSync {fd lsn : Nat} {room : Bool} (hi : Inv s)
    (h : s.submitSync fd lsn room = some s') : Inv s' := by
  have hreq : max s.barrier.requestedLsn lsn = max lsn (s.requests.foldr max 0) := by
    rw [hi.requested, max_comm]
    rfl
  have hle := le_max_left s.barrier.requestedLsn lsn
  -- the request alone: only the requested LSN grows
  have hquiet : Inv { s with barrier := s.barrier.request lsn, requests := lsn :: s.requests } := by
    refine ⟨hreq, hi.completed.trans hle, hi.idle, ?_, hi.reports⟩
    intro sync hsync
    obtain ⟨hlow, hhigh, hbefore⟩ := hi.flying sync hsync
    exact ⟨hlow, hhigh.trans hle, hbefore⟩
  unfold State.submitSync at h
  simp only at h
  split at h
  · cases h
    exact hquiet
  rename_i target htarget
  split at h
  · unfold SyncBarrierState.nextTarget at htarget
    split at htarget
    · rename_i hnext
      cases htarget
      rw [SyncBarrierState.submitted, if_pos hnext.1] at h
      cases h
      refine ⟨hreq, hi.completed.trans hle, nofun, ?_, hi.reports⟩
      intro sync hsync
      cases hsync
      refine ⟨hnext.2, le_rfl, lsn :: s.requests, ?_, ?_⟩
      · simp [hi.idle hnext.1]
      · have hpos : 0 < max s.barrier.requestedLsn lsn := Nat.zero_lt_of_lt hnext.2
        simp only [SyncBarrierState.request]
        rw [hreq] at hpos ⊢
        exact foldr_max_mem (l := lsn :: s.requests) hpos
    · cases htarget
  · cases h
    exact hquiet

/-- What the completion of an fsync does: the barrier is free again, and the target of
the fsync is reported when it succeeded and its shard is there. -/
theorem dispatchCqe_cases {k : Nat} {res : Int} (hi : Inv s) (h : s.dispatchCqe k res = some s') :
    ∃ sync before, s.barrier.inFlight = some sync ∧ s.outstanding = [before] ∧ s' = { s with
        barrier := ⟨s.barrier.requestedLsn, sync.lsn, none⟩
        outstanding := []
        reports := if 0 ≤ res ∧ s.fdToInner sync.fd = true
          then s.reports ++ [⟨sync.lsn, before⟩] else s.reports } := by
  obtain ⟨before, hk, h⟩ := Option.map_eq_some_iff.mp h
  cases hfly : s.barrier.inFlight with
  | none => simp [hi.idle hfly] at hk
  | some sync =>
    obtain ⟨hlow, -, before', hout, -⟩ := hi.flying sync hfly
    rw [hout] at hk h
    obtain ⟨rfl, rfl⟩ : k = 0 ∧ before' = before := by
      rw [List.getElem?_singleton] at hk
      split at hk
      · exact ⟨‹_›, Option.some.inj hk⟩
      · cases hk
    refine ⟨sync, before', rfl, hout, ?_⟩
    rw [← h]
    simp only [SyncBarrierState.complete, hfly, Option.map_some, max_eq_right hlow.le]
    by_cases hok : 0 ≤ res ∧ s.fdToInner sync.fd = true
    · rw [if_neg (by simp [hok.1, hok.2]), if_pos hok]
      rfl
    · rw [if_pos (by by_contra hneg; simp at hneg; exact hok hneg), if_neg hok]
      rfl

theorem Inv.dispatchCqe {k : Nat} {res : Int} (hi : Inv s) (h : s.dispatchCqe k res = some s') :
    Inv s' := by
  obtain ⟨sync, before, hfly, hout, rfl⟩ := dispatchCqe_cases hi h
  obtain ⟨-, hhigh, before', hout', hmem⟩ := hi.flying sync hfly
  refine ⟨hi.requested, hhigh, fun _ => rfl, nofun, ?_⟩
  intro r hr
  split at hr
  · rcases List.mem_append.mp hr with hr | hr
    · exact hi.reports r hr
    · rw [List.mem_singleton.mp hr]
      rw [hout] at hout'
      cases hout'
      exact hmem
  · exact hi.reports r hr

theorem Inv.step {a : Action} (hi : Inv s) (h : step s a = some s') : Inv s' := by
  cases a with
  | register fd there =>
    cases h
    exact ⟨hi.requested, hi.completed, hi.idle, hi.flying, hi.reports⟩
  | submitSync fd lsn room => exact hi.submitSync h
  | dispatchCqe k res => exact hi.dispatchCqe h

theorem inv_of_reach {fds : Nat → Bool} (h : Reach IoUring.step anyStep (State.opened fds) s) :
    Inv s :=
  h.invariant ⟨rfl, le_rfl, fun _ => rfl, nofun, nofun⟩ fun _ _ _ hi _ hs => hi.step hs

end Steps

/-! ## What a completion leaves -/

/-- After a completion the largest request is covered by the LSN just reported, or it is
the next target. -/
def NotForgotten (s s' : State) : Prop :=
  (∃ r, s'.reports = s.reports ++ [r] ∧ s'.largest ≤ r.lsn) ∨
    s'.barrier.nextTarget = some s'.largest

/-- The fsync in flight succeeds and its shard is there to be told, or a larger LSN was
requested since it was submitted. -/
def Heard (s : State) (res : Int) : Prop :=
  ∀ sync, s.barrier.inFlight = some sync →
    (0 ≤ res ∧ s.fdToInner sync.fd = true) ∨ sync.lsn < s.largest

theorem notForgotten_iff {s s' : State} {k : Nat} {res : Int} (hi : Inv s)
    (h : s.dispatchCqe k res = some s') : NotForgotten s s' ↔ Heard s res := by
  obtain ⟨sync, before, hfly, hout, rfl⟩ := dispatchCqe_cases hi h
  obtain ⟨-, hhigh, -⟩ := hi.flying sync hfly
  rw [hi.requested] at hhigh
  simp only [NotForgotten, Heard, State.largest, SyncBarrierState.nextTarget, hfly,
    Option.some.injEq, forall_eq', hi.requested]
  change _ ↔ _ ∨ sync.lsn < s.largest
  constructor
  · rintro (⟨r, hr, -⟩ | htarget)
    · split at hr
      · exact .inl ‹_›
      · exact absurd hr (by simp)
    · split at htarget
      · rename_i hlt
        exact .inr hlt.2
      · cases htarget
  · intro hheard
    rcases hhigh.lt_or_eq with hlt | heq
    · exact .inr (if_pos ⟨trivial, hlt⟩)
    · have hok := hheard.resolve_right (by omega)
      exact .inl ⟨⟨sync.lsn, before⟩, if_pos hok, heq.ge⟩

/-- In every run at most one fsync is in flight, and every LSN reported durable was
requested before its fsync was submitted.  A completion forgets no request exactly when
it is `Heard`. -/
theorem syncBarrier_protocol {fds : Nat → Bool} {s : State}
    (h : Reach step anyStep (State.opened fds) s) :
    s.outstanding.length ≤ 1 ∧ (∀ r ∈ s.reports, r.lsn ∈ r.before) ∧
      ∀ k res s', step s (.dispatchCqe k res) = some s' → (NotForgotten s s' ↔ Heard s res) := by
  have hi := inv_of_reach h
  refine ⟨?_, hi.reports, fun k res s' hs => notForgotten_iff hi hs⟩
  cases hfly : s.barrier.inFlight with
  | none => simp [hi.idle hfly]
  | some sync =>
    obtain ⟨-, -, before, hout, -⟩ := hi.flying sync hfly
    simp [hout]

/-- Two requests during one fsync, which then succeeds. -/
theorem syncBarrier_protocol_coalesced : ∃ s, Reach step anyStep (State.opened fun _ => true) s ∧
    s.reports = [⟨5, [5]⟩] ∧ s.barrier.nextTarget = some 9 ∧ s.outstanding.length ≤ 1 := by
  obtain ⟨s, hexec, hs⟩ : ∃ s, exec step (State.opened fun _ => true)
      [.submitSync 0 5 true, .submitSync 0 7 true, .submitSync 0 9 true, .dispatchCqe 0 0] =
        some s ∧
      s.reports = [⟨5, [5]⟩] ∧ s.barrier.nextTarget = some 9 := ⟨_, rfl, rfl, rfl⟩
  have hr := Reach.of_exec_any hexec
  exact ⟨s, hr, hs.1, hs.2, (syncBarrier_protocol hr).1⟩

/-- The only fsync, up to LSN 5, fails: nothing is reported durable and there is no next
target, though LSN 5 was requested.  The failure is recorded in the shard instead. -/
theorem failed_fsync_forgets : ∃ s s', Reach step anyStep (State.opened fun _ => true) s ∧
    step s (.dispatchCqe 0 (-5)) = some s' ∧ s'.reports = [] ∧ s'.barrier.nextTarget = none ∧
      s'.largest = 5 ∧ ¬ NotForgotten s s' := by
  obtain ⟨s, hexec, hs⟩ : ∃ s, exec step (State.opened fun _ => true)
      [.submitSync 0 5 true] = some s ∧
      ∃ s', step s (.dispatchCqe 0 (-5)) = some s' ∧ s.reports = [] ∧ s'.reports = [] ∧
        s'.barrier.nextTarget = none ∧ s'.largest = 5 := ⟨_, rfl, _, rfl, rfl, rfl, rfl, rfl⟩
  obtain ⟨s', hstep, hnone, hnone', htarget, hlargest⟩ := hs
  refine ⟨s, s', Reach.of_exec_any hexec, hstep, hnone', htarget, hlargest, ?_⟩
  rintro (⟨r, hr, -⟩ | hnext)
  · rw [hnone, hnone'] at hr
    cases hr
  · rw [htarget] at hnext
    cases hnext

/-- What a report says about the requests and the reports before it. -/
structure Reported (s : State) : Prop where
  inv : Inv s
  flying : ∀ sync, s.barrier.inFlight = some sync →
    ∀ before ∈ s.outstanding, ∀ lsn ∈ before, lsn ≤ sync.lsn
  covers : ∀ r ∈ s.reports, ∀ lsn ∈ r.before, lsn ≤ r.lsn
  below : ∀ r ∈ s.reports, r.lsn ≤ s.barrier.completedLsn
  ordered : (s.reports.map Report.lsn).Pairwise (· < ·)

theorem Reported.submitSync {s s' : State} {fd lsn : Nat} {room : Bool} (h : Reported s)
    (hstep : s.submitSync fd lsn room = some s') : Reported s' := by
  have hi := h.inv.submitSync hstep
  simp only [State.submitSync, SyncBarrierState.nextTarget, SyncBarrierState.submitted] at hstep
  split at hstep
  · cases hstep
    exact ⟨hi, h.flying, h.covers, h.below, h.ordered⟩
  rename_i target htarget
  obtain ⟨⟨hidle, -⟩, htarget⟩ := Option.ite_none_right_eq_some.mp htarget
  split at hstep
  · cases hstep
    refine ⟨hi, ?_, h.covers, h.below, h.ordered⟩
    rintro _ ⟨⟩ before hbefore l hl
    rw [h.inv.idle hidle, List.nil_append, List.mem_singleton] at hbefore
    calc l ≤ (lsn :: s.requests).foldr max 0 := List.le_max_of_le (hbefore ▸ hl) le_rfl
      _ = target := hi.requested.symm.trans (Option.some.inj htarget)
  · cases hstep
    exact ⟨hi, h.flying, h.covers, h.below, h.ordered⟩

theorem Reported.dispatchCqe {s s' : State} {k : Nat} {res : Int} (h : Reported s)
    (hstep : s.dispatchCqe k res = some s') : Reported s' := by
  have hi := h.inv.dispatchCqe hstep
  obtain ⟨sync, before, hfly, hout, rfl⟩ := dispatchCqe_cases h.inv hstep
  have hlow := (h.inv.flying sync hfly).1
  have hbelow : ∀ r ∈ s.reports, r.lsn < sync.lsn := fun r hr => (h.below r hr).trans_lt hlow
  have hcover := h.flying sync hfly before (by simp [hout])
  refine ⟨hi, nofun, ?_, ?_, ?_⟩
  all_goals simp only; split
  · simpa [or_imp, forall_and] using ⟨h.covers, hcover⟩
  · exact h.covers
  · simpa [or_imp, forall_and] using fun r hr => (hbelow r hr).le
  · exact fun r hr => (hbelow r hr).le
  · simpa [List.pairwise_append] using ⟨h.ordered, hbelow⟩
  · exact h.ordered

/-- A reported LSN covers every request made before its fsync was submitted, and is
above all LSNs reported before. -/
theorem reports_cover_and_grow {fds : Nat → Bool} {s : State}
    (h : Reach step anyStep (State.opened fds) s) :
    (∀ r ∈ s.reports, ∀ lsn ∈ r.before, lsn ≤ r.lsn) ∧
      (s.reports.map Report.lsn).Pairwise (· < ·) := by
  have hr : Reported s := h.invariant (I := Reported)
      ⟨inv_of_reach .refl, nofun, nofun, nofun, .nil⟩ fun _ a _ hs _ hstep => by
    cases a with
    | register fd there =>
      have hi := hs.inv.step hstep
      cases hstep
      exact ⟨hi, hs.flying, hs.covers, hs.below, hs.ordered⟩
    | submitSync fd lsn room => exact hs.submitSync hstep
    | dispatchCqe k res => exact hs.dispatchCqe hstep
  exact ⟨hr.covers, hr.ordered⟩

/-- Two fsyncs, the second one submitted for the requests made during the first. -/
theorem reports_cover_and_grow_twice : ∃ s : State, s.reports = [⟨5, [5]⟩, ⟨9, [7, 9, 5]⟩] ∧
    (∀ r ∈ s.reports, ∀ lsn ∈ r.before, lsn ≤ r.lsn) ∧
      (s.reports.map Report.lsn).Pairwise (· < ·) := by
  obtain ⟨s, hexec, hs⟩ : ∃ s, exec step (State.opened fun _ => true) [.submitSync 0 5 true,
      .submitSync 1 9 true, .dispatchCqe 0 0, .submitSync 0 7 true, .dispatchCqe 0 0] = some s ∧
      s.reports = [⟨5, [5]⟩, ⟨9, [7, 9, 5]⟩] := ⟨_, rfl, rfl⟩
  exact ⟨s, hs, reports_cover_and_grow (Reach.of_exec_any hexec)⟩

end Pagebox.Wal.IoUring
