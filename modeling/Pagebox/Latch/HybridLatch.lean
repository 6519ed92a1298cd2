import Mathlib.Algebra.Group.Nat.Defs
import Mathlib.Logic.Function.Basic
import Pagebox.Base.Runs

/-!
# The hybrid latch

`HybridLatch` (`hybrid-latch/src/latch.rs`) is a 64-bit version word beside a
reader-writer lock.  A party is one guard, from the call that makes it to the drop that
releases it; a step is one operation on the word or on the lock.  The lock itself is
assumed correct.  A blocking and a `try_` call differ in what they do while the lock is
not available, and both change nothing then.

An exclusive section is open from the store that sets the exclusive bit to the store that
clears it.  Each of the two adds one to the word, so that a word read twice with the same
value has not changed in between.
-/

namespace Pagebox.Latch

open Pagebox.Base Function Option

/-! ## The version word -/

abbrev Word := BitVec 64

def exclusiveBit : Word := 1

def clearExclusiveBit : Word := ~~~exclusiveBit

def versionStep : Word := 2

def versionIsExclusive (word : Word) : Bool := word &&& exclusiveBit ≠ 0

def optimisticSnapshotStillValid (current snapshot : Word) : Bool := current = snapshot

def optimisticRestartRequired (current snapshot : Word) : Bool :=
  !optimisticSnapshotStillValid current snapshot

def enterExclusiveVersion (current : Word) : Word := current ||| exclusiveBit

def exclusiveBaseVersion (exclusiveVersion : Word) : Word := exclusiveVersion &&& clearExclusiveBit

def canAdvanceReadableVersion (version : Word) : Bool := version ≤ 18446744073709551613#64

/-- `checked_add`. -/
def advanceReadableVersionChecked (version : Word) : Option Word :=
  if version.toNat + versionStep.toNat < 2 ^ 64 then some (version + versionStep) else none

/-- `none` is a panic. -/
def advanceReadableVersion (version : Word) : Option Word :=
  if canAdvanceReadableVersion version then advanceReadableVersionChecked version else none

def exitExclusiveVersion (exclusiveVersion : Word) : Option Word :=
  advanceReadableVersion (exclusiveBaseVersion exclusiveVersion)

def optimisticSnapshot (version : Word) : Option Word :=
  if versionIsExclusive version then none else some version

structure InnerLock where
  writer : Option Nat
  readers : List Nat

namespace InnerLock

def lockExclusive (l : InnerLock) (t : Nat) : Option InnerLock :=
  if l.writer = none ∧ l.readers = [] then some ⟨some t, []⟩ else none

def lockShared (l : InnerLock) (t : Nat) : Option InnerLock :=
  if l.writer = none then some ⟨none, t :: l.readers⟩ else none

def unlockExclusive (l : InnerLock) : InnerLock := { l with writer := none }

def unlockShared (l : InnerLock) (t : Nat) : InnerLock := { l with readers := l.readers.erase t }

end InnerLock

inductive Pc
  | idle
  | optimistic (version : Word)
  /-- `lock_exclusive` has the lock. -/
  | entering
  /-- `lock_exclusive` has loaded the word, and may enter. -/
  | entered (current : Word)
  /-- An `ExclusiveGuard` is live. -/
  | exclusive (version : Word)
  /-- The writer lock is about to be released. -/
  | releasing
  | upgrading (version : Word)
  /-- `lock_shared` has the lock. -/
  | sharing
  /-- A `SharedGuard` is live. -/
  | shared (version : Word)
  /-- The reader lock is about to be released. -/
  | unsharing
  | upgradingShared (version : Word)
  deriving DecidableEq

def Pc.dropsShared : Pc → Bool
  | .shared _ => true
  | .unsharing => true
  | _ => false

structure State where
  version : Word
  inner : InnerLock
  parties : Nat → Pc

def new : State := ⟨0, ⟨none, []⟩, fun _ => .idle⟩

namespace State

def setPc (s : State) (t : Nat) (pc : Pc) : State :=
  { s with parties := update s.parties t pc }

def Exclusive (s : State) (t : Nat) : Prop := ∃ v, s.parties t = .exclusive v

def Shared (s : State) (t : Nat) : Prop := ∃ v, s.parties t = .shared v

end State

inductive Action
  | optimisticOrRestart (t : Nat)
  /-- An optimistic guard is dropped, or a `try_` promotion finds the lock held. -/
  | dropOptimistic (t : Nat)
  | lockExclusive (t : Nat)
  | loadVersion (t : Nat)
  | storeEntered (t : Nat)
  /-- The store of `ExclusiveGuard::drop`. -/
  | storeExited (t : Nat)
  | unlockExclusive (t : Nat)
  | upgradeToExclusive (t : Nat)
  | compareExchange (t : Nat)
  | lockShared (t : Nat)
  | loadShared (t : Nat)
  | unlockShared (t : Nat)
  | upgradeToShared (t : Nat)
  | checkShared (t : Nat)

variable (s : State)

/-- The load of `lock_exclusive` and its assertion; a panic releases the lock. -/
def loadVersion (t : Nat) : State :=
  s.setPc t (if canAdvanceReadableVersion s.version then .entered s.version else .releasing)

/-- The store of `ExclusiveGuard::drop`; a panic leaves the word and releases the lock. -/
def storeExited (t : Nat) (v : Word) : State :=
  match exitExclusiveVersion v with
  | some w => { s.setPc t .releasing with version := w }
  | none => s.setPc t .releasing

/-- The assertion and the exchange of `upgrade_to_exclusive`. -/
def compareExchange (t : Nat) (v : Word) : State :=
  if canAdvanceReadableVersion v ∧ s.version = v then
    { s.setPc t (.exclusive (enterExclusiveVersion v)) with version := enterExclusiveVersion v }
  else s.setPc t .releasing

/-- The second load of `upgrade_to_shared`. -/
def checkShared (t : Nat) (v : Word) : State :=
  s.setPc t (if optimisticSnapshotStillValid s.version v then .shared v else .unsharing)

def step : Action → Option State
  | .optimisticOrRestart t =>
    match s.parties t with
    | .idle => some ((optimisticSnapshot s.version).elim s fun v => s.setPc t (.optimistic v))
    | _ => none
  | .dropOptimistic t =>
    match s.parties t with
    | .optimistic _ => some (s.setPc t .idle)
    | _ => none
  | .lockExclusive t =>
    match s.parties t with
    | .idle => (s.inner.lockExclusive t).map fun l => { s.setPc t .entering with inner := l }
    | _ => none
  | .loadVersion t =>
    match s.parties t with
    | .entering => some (loadVersion s t)
    | _ => none
  | .storeEntered t =>
    match s.parties t with
    | .entered current =>
      some { s.setPc t (.exclusive (enterExclusiveVersion current)) with
        version := enterExclusiveVersion current }
    | _ => none
  | .storeExited t =>
    match s.parties t with
    | .exclusive v => some (storeExited s t v)
    | _ => none
  | .unlockExclusive t =>
    match s.parties t with
    | .releasing => some { s.setPc t .idle with inner := s.inner.unlockExclusive }
    | _ => none
  | .upgradeToExclusive t =>
    match s.parties t with
    | .optimistic v =>
      (s.inner.lockExclusive t).map fun l => { s.setPc t (.upgrading v) with inner := l }
    | _ => none
  | .compareExchange t =>
    match s.parties t with
    | .upgrading v => some (compareExchange s t v)
    | _ => none
  | .lockShared t =>
    match s.parties t with
    | .idle => (s.inner.lockShared t).map fun l => { s.setPc t .sharing with inner := l }
    | _ => none
  | .loadShared t =>
    match s.parties t with
    | .sharing => some (s.setPc t (.shared s.version))
    | _ => none
  | .unlockShared t =>
    if (s.parties t).dropsShared then
      some { s.setPc t .idle with inner := s.inner.unlockShared t }
    else none
  | .upgradeToShared t =>
    match s.parties t with
    | .optimistic v =>
      (s.inner.lockShared t).map fun l => { s.setPc t (.upgradingShared v) with inner := l }
    | _ => none
  | .checkShared t =>
    match s.parties t with
    | .upgradingShared v => some (checkShared s t v)
    | _ => none

/-- `OptimisticGuard::validate` of a guard with snapshot `v`. -/
def validate (v : Word) : Bool := !optimisticRestartRequired s.version v

/-- A guard with snapshot `v` validates, or its promotion succeeds. -/
inductive Succeeds (s : State) (t : Nat) (v : Word) : Prop
  | validate (hpc : s.parties t = .optimistic v) (hok : validate s v = true)
  | exclusive {s' : State} {w : Word} (hpc : s.parties t = .upgrading v)
      (hstep : step s (.compareExchange t) = some s') (hok : s'.parties t = .exclusive w)
  | shared {s' : State} {w : Word} (hpc : s.parties t = .upgradingShared v)
      (hstep : step s (.checkShared t) = some s') (hok : s'.parties t = .shared w)

def NeverOpen (as : List Action) : Prop :=
  ∀ as₁ m, as₁ <+: as → exec step s as₁ = some m → ∀ t, ¬m.Exclusive t

/-- The exclusive bit is the parity of the word. -/
theorem versionIsExclusive_iff (w : Word) : versionIsExclusive w = true ↔ w.toNat % 2 = 1 := by
  have hmod : (w &&& exclusiveBit).toNat = w.toNat % 2 := by
    exact Nat.and_one_is_mod w.toNat
  have hzero : w &&& exclusiveBit = 0 ↔ w.toNat % 2 = 0 := by
    rw [← BitVec.toNat_inj, hmod]
    rfl
  simp only [versionIsExclusive, ne_eq, hzero, decide_not, Bool.not_eq_true',
    decide_eq_false_iff_not]
  omega

theorem readable_iff (w : Word) : versionIsExclusive w = false ↔ w.toNat % 2 = 0 := by
  rw [← Bool.not_eq_true, versionIsExclusive_iff]
  omega

theorem and_exclusiveBit {w : Word} (h : versionIsExclusive w = false) :
    w &&& exclusiveBit = 0 := by
  simpa [versionIsExclusive] using h

theorem toNat_le_of_canAdvance {w : Word} (h : canAdvanceReadableVersion w = true) :
    w.toNat ≤ 18446744073709551613 := by
  simpa [canAdvanceReadableVersion, BitVec.le_def] using h

theorem toNat_enter {w : Word} (h : versionIsExclusive w = false)
    (hroom : canAdvanceReadableVersion w = true) :
    (enterExclusiveVersion w).toNat = w.toNat + 1 := by
  have hadd : w + exclusiveBit = w ||| exclusiveBit :=
    BitVec.add_eq_or_of_and_eq_zero w exclusiveBit (and_exclusiveBit h)
  have hle := toNat_le_of_canAdvance hroom
  rw [enterExclusiveVersion, ← hadd, BitVec.toNat_add]
  simp only [exclusiveBit, BitVec.ofNat_eq_ofNat, BitVec.toNat_ofNat]
  omega

theorem exclusiveBaseVersion_enter {w : Word} (h : versionIsExclusive w = false) :
    exclusiveBaseVersion (enterExclusiveVersion w) = w := by
  have hdis := and_exclusiveBit h
  ext i hi
  have hbit : (w[i] && exclusiveBit[i]) = false := by
    rw [← BitVec.getElem_and, hdis]
    simp
  simp only [exclusiveBaseVersion, enterExclusiveVersion, clearExclusiveBit, BitVec.getElem_and,
    BitVec.getElem_or, BitVec.getElem_not]
  cases hw : w[i] <;> cases he : exclusiveBit[i] <;> simp_all

/-- Leaving an exclusive section takes the word to the next readable version. -/
theorem exitExclusiveVersion_enter {w : Word} (h : versionIsExclusive w = false)
    (hroom : canAdvanceReadableVersion w = true) :
    ∃ w', exitExclusiveVersion (enterExclusiveVersion w) = some w' ∧ w'.toNat = w.toNat + 2 := by
  have hle := toNat_le_of_canAdvance hroom
  have hstep : versionStep.toNat = 2 := rfl
  refine ⟨w + versionStep, ?_, ?_⟩
  · rw [exitExclusiveVersion, exclusiveBaseVersion_enter h, advanceReadableVersion, if_pos hroom,
      advanceReadableVersionChecked, if_pos]
    omega
  · rw [BitVec.toNat_add, hstep]
    omega

def Pc.writes : Pc → Bool
  | .entering => true
  | .entered _ => true
  | .exclusive _ => true
  | .releasing => true
  | .upgrading _ => true
  | _ => false

def Pc.reads : Pc → Bool
  | .sharing => true
  | .shared _ => true
  | .unsharing => true
  | .upgradingShared _ => true
  | _ => false

def Pc.Ok (w : Word) : Pc → Prop
  | .optimistic v => versionIsExclusive v = false
  | .upgrading v => versionIsExclusive v = false
  | .upgradingShared v => versionIsExclusive v = false
  | .entered c => c = w ∧ canAdvanceReadableVersion c = true
  | .exclusive v => v = w ∧ ∃ c, versionIsExclusive c = false ∧
      canAdvanceReadableVersion c = true ∧ v = enterExclusiveVersion c
  | _ => True

structure Inv (s : State) : Prop where
  writer : ∀ t, s.inner.writer = some t ↔ (s.parties t).writes = true
  readers : ∀ t, t ∈ s.inner.readers ↔ (s.parties t).reads = true
  distinct : s.inner.readers.Nodup
  excluded : s.inner.writer ≠ none → s.inner.readers = []
  ok : ∀ t, (s.parties t).Ok s.version
  readable : (∀ t, ¬s.Exclusive t) → versionIsExclusive s.version = false

theorem new_inv : Inv new where
  writer _ := ⟨nofun, nofun⟩
  readers _ := ⟨nofun, nofun⟩
  distinct := List.nodup_nil
  excluded _ := rfl
  ok _ := trivial
  readable _ := by decide

section Steps

variable {s s' : State} {t : Nat}

/-- Only the holder of the writer lock depends on the word. -/
theorem Pc.Ok.of_not_writes {pc : Pc} {w w' : Word} (h : pc.Ok w) (hw : pc.writes = false) :
    pc.Ok w' := by
  cases pc with
  | entered c => cases hw
  | exclusive v => cases hw
  | _ => exact h

theorem Inv.not_writes (h : Inv s) (ht : (s.parties t).writes = true) {u : Nat} (hu : u ≠ t) :
    (s.parties u).writes = false := by
  rw [← Bool.not_eq_true, ← h.writer]
  rw [← h.writer] at ht
  rw [ht, Option.some.injEq]
  exact hu.symm

theorem Inv.not_reads (h : Inv s) (ht : (s.parties t).writes = true) (u : Nat) :
    (s.parties u).reads = false := by
  rw [← Bool.not_eq_true, ← h.readers, h.excluded]
  · exact List.not_mem_nil
  · rw [(h.writer t).mpr ht]
    simp

/-- The invariant after a step of party `t`, from what holds of it and of the others. -/
theorem Inv.of_update {w : Word} {l : InnerLock} {pc : Pc}
    (hwriter : (l.writer = some t ↔ pc.writes = true) ∧
      ∀ u, u ≠ t → (l.writer = some u ↔ (s.parties u).writes = true))
    (hreaders : (t ∈ l.readers ↔ pc.reads = true) ∧
      ∀ u, u ≠ t → (u ∈ l.readers ↔ (s.parties u).reads = true))
    (hdistinct : l.readers.Nodup) (hexcluded : l.writer ≠ none → l.readers = [])
    (hok : pc.Ok w ∧ ∀ u, u ≠ t → (s.parties u).Ok w)
    (hreadable : (∀ v, pc ≠ .exclusive v) → (∀ u, u ≠ t → ¬s.Exclusive u) →
      versionIsExclusive w = false) :
    Inv ⟨w, l, update s.parties t pc⟩ where
  writer := (forall_update_iff s.parties fun u pc =>
    l.writer = some u ↔ pc.writes = true).mpr hwriter
  readers := (forall_update_iff s.parties fun u pc =>
    u ∈ l.readers ↔ pc.reads = true).mpr hreaders
  distinct := hdistinct
  excluded := hexcluded
  ok := (forall_update_iff s.parties fun _ pc => pc.Ok w).mpr hok
  readable hnone := by
    obtain ⟨ht, hothers⟩ := (forall_update_iff s.parties
      fun _ pc => ¬∃ v, pc = .exclusive v).mp hnone
    exact hreadable (fun v hv => ht ⟨v, hv⟩) hothers

/-- A word that no section has marked stays readable while no section opens. -/
theorem Inv.readable_of_others (h : Inv s) (hopen : ¬s.Exclusive t)
    (hothers : ∀ u, u ≠ t → ¬s.Exclusive u) : versionIsExclusive s.version = false := by
  refine h.readable fun u => ?_
  by_cases hu : u = t
  · rw [hu]
    exact hopen
  · exact hothers u hu

theorem Inv.setPc {pc : Pc} (h : Inv s) (hopen : ¬s.Exclusive t)
    (hw : pc.writes = (s.parties t).writes) (hr : pc.reads = (s.parties t).reads)
    (hok : pc.Ok s.version) : Inv (s.setPc t pc) := by
  refine Inv.of_update ⟨?_, fun u _ => h.writer u⟩ ⟨?_, fun u _ => h.readers u⟩ h.distinct
    h.excluded ⟨hok, fun u _ => h.ok u⟩ fun _ => h.readable_of_others hopen
  · rw [hw]
    exact h.writer t
  · rw [hr]
    exact h.readers t

theorem Inv.lockExclusive {pc : Pc} {l : InnerLock} (h : Inv s) (hopen : ¬s.Exclusive t)
    (hw : pc.writes = true) (hr : pc.reads = false) (hok : pc.Ok s.version)
    (hlock : s.inner.lockExclusive t = some l) : Inv { s.setPc t pc with inner := l } := by
  obtain ⟨⟨hfree, hnone⟩, hl⟩ := ite_none_right_eq_some.mp hlock
  cases hl
  refine Inv.of_update ⟨by simp [hw], fun u hu => ?_⟩ ⟨by simp [hr], fun u _ => ?_⟩
    List.nodup_nil (fun _ => rfl) ⟨hok, fun u _ => h.ok u⟩ fun _ => h.readable_of_others hopen
  · rw [← h.writer u, hfree]
    simp [Ne.symm hu]
  · rw [← h.readers u, hnone]

theorem Inv.unlockExclusive {pc : Pc} (h : Inv s) (hopen : ¬s.Exclusive t)
    (ht : (s.parties t).writes = true) (hw : pc.writes = false) (hr : pc.reads = false)
    (hok : pc.Ok s.version) :
    Inv { s.setPc t pc with inner := s.inner.unlockExclusive } := by
  refine Inv.of_update ⟨?_, fun u hu => ?_⟩ ⟨?_, fun u _ => h.readers u⟩ h.distinct
    (fun hne => absurd rfl hne) ⟨hok, fun u _ => h.ok u⟩ fun _ => h.readable_of_others hopen
  · simp [InnerLock.unlockExclusive, hw]
  · simp [InnerLock.unlockExclusive, h.not_writes ht hu]
  · have hreads : (s.parties t).reads = false := h.not_reads ht t
    rw [hr, ← hreads]
    exact h.readers t

theorem Inv.lockShared {pc : Pc} {l : InnerLock} (h : Inv s) (hopen : ¬s.Exclusive t)
    (ht : (s.parties t).reads = false) (hw : pc.writes = false) (hr : pc.reads = true)
    (hok : pc.Ok s.version) (hlock : s.inner.lockShared t = some l) :
    Inv { s.setPc t pc with inner := l } := by
  obtain ⟨hfree, hl⟩ := ite_none_right_eq_some.mp hlock
  cases hl
  have hnew : t ∉ s.inner.readers := by
    rw [h.readers, ht]
    simp
  refine Inv.of_update ⟨by simp [hw], fun u _ => ?_⟩ ⟨by simp [hr], fun u hu => ?_⟩
    (List.nodup_cons.mpr ⟨hnew, h.distinct⟩) (fun hne => absurd rfl hne)
    ⟨hok, fun u _ => h.ok u⟩ fun _ => h.readable_of_others hopen
  · rw [← h.writer u, hfree]
  · rw [← h.readers u]
    simp [hu]

theorem Inv.unlockShared {pc : Pc} (h : Inv s) (hopen : ¬s.Exclusive t)
    (ht : (s.parties t).writes = false) (hw : pc.writes = false) (hr : pc.reads = false)
    (hok : pc.Ok s.version) :
    Inv { s.setPc t pc with inner := s.inner.unlockShared t } := by
  refine Inv.of_update ⟨?_, fun u _ => h.writer u⟩ ⟨?_, fun u hu => ?_⟩ (h.distinct.erase t) ?_
    ⟨hok, fun u _ => h.ok u⟩ fun _ => h.readable_of_others hopen
  · rw [hw, ← ht]
    exact h.writer t
  · simp [InnerLock.unlockShared, hr, h.distinct.mem_erase_iff]
  · rw [← h.readers u]
    simp [InnerLock.unlockShared, h.distinct.mem_erase_iff, hu]
  · intro hne
    change s.inner.readers.erase t = []
    rw [h.excluded hne]
    rfl

theorem Inv.enter {c : Word} (h : Inv s) (ht : (s.parties t).writes = true)
    (hc : versionIsExclusive c = false) (hroom : canAdvanceReadableVersion c = true) :
    Inv { s.setPc t (.exclusive (enterExclusiveVersion c)) with
      version := enterExclusiveVersion c } := by
  refine Inv.of_update ⟨?_, fun u _ => h.writer u⟩ ⟨?_, fun u _ => h.readers u⟩ h.distinct
    h.excluded ⟨⟨rfl, c, hc, hroom, rfl⟩, fun u hu => ?_⟩ fun hne => absurd rfl (hne _)
  · exact (h.writer t).trans (by rw [ht]; rfl)
  · exact (h.readers t).trans (by rw [h.not_reads ht]; rfl)
  · exact (h.ok u).of_not_writes (h.not_writes ht hu)

theorem Inv.exit {w : Word} (h : Inv s) (ht : (s.parties t).writes = true)
    (hw : versionIsExclusive w = false) :
    Inv { s.setPc t .releasing with version := w } := by
  refine Inv.of_update ⟨?_, fun u _ => h.writer u⟩ ⟨?_, fun u _ => h.readers u⟩ h.distinct
    h.excluded ⟨trivial, fun u hu => ?_⟩ fun _ _ => hw
  · exact (h.writer t).trans (by rw [ht]; rfl)
  · exact (h.readers t).trans (by rw [h.not_reads ht]; rfl)
  · exact (h.ok u).of_not_writes (h.not_writes ht hu)

theorem Inv.readable_writer (h : Inv s) (ht : (s.parties t).writes = true)
    (hopen : ¬s.Exclusive t) : versionIsExclusive s.version = false := by
  refine h.readable_of_others hopen fun u hu => ?_
  rintro ⟨v, hv⟩
  have := h.not_writes ht hu
  rw [hv] at this
  cases this

theorem not_exclusive {pc : Pc} (hpc : s.parties t = pc) (hne : ∀ v, pc ≠ .exclusive v) :
    ¬s.Exclusive t := by
  rintro ⟨v, hv⟩
  exact hne v (hpc.symm.trans hv)

theorem dropsShared_spec {pc : Pc} (h : pc.dropsShared = true) :
    (∀ v, pc ≠ .exclusive v) ∧ pc.writes = false := by
  cases pc with
  | shared v => exact ⟨nofun, rfl⟩
  | unsharing => exact ⟨nofun, rfl⟩
  | _ => cases h

/-- What every step does: the invariant holds after it, and the word does not go back. -/
def Kept (s s' : State) : Prop := Inv s' ∧ s.version.toNat ≤ s'.version.toNat

/-! ### The steps of a party -/

/-- A party moves on with the locks it has. -/
theorem Inv.move {p pc : Pc} (h : Inv s) (hpc : s.parties t = p) (hne : ∀ v, p ≠ .exclusive v)
    (hw : pc.writes = p.writes) (hr : pc.reads = p.reads) (hok : pc.Ok s.version) :
    Kept s (s.setPc t pc) :=
  ⟨h.setPc (not_exclusive hpc hne) (hpc ▸ hw) (hpc ▸ hr) hok, Nat.le_refl _⟩

theorem Inv.snapshot (h : Inv s) (hpc : s.parties t = .idle) :
    Kept s ((optimisticSnapshot s.version).elim s fun v => s.setPc t (.optimistic v)) := by
  unfold optimisticSnapshot
  split
  · exact ⟨h, Nat.le_refl _⟩
  · rename_i hread
    exact h.move hpc (by simp) rfl rfl (eq_false_of_ne_true hread)

theorem Inv.loadVersion (h : Inv s) (hpc : s.parties t = .entering) :
    Kept s (Latch.loadVersion s t) := by
  unfold Latch.loadVersion
  split
  · rename_i hroom
    exact h.move hpc (by simp) rfl rfl ⟨rfl, hroom⟩
  · exact h.move hpc (by simp) rfl rfl trivial

theorem Inv.storeEntered {c : Word} (h : Inv s) (hpc : s.parties t = .entered c) :
    Kept s { s.setPc t (.exclusive (enterExclusiveVersion c)) with
      version := enterExclusiveVersion c } := by
  have hok := h.ok t
  rw [hpc] at hok
  obtain ⟨rfl, hroom⟩ := hok
  have hwrites : (s.parties t).writes = true := by rw [hpc]; rfl
  have hread := h.readable_writer hwrites (not_exclusive hpc (by simp))
  exact ⟨h.enter hwrites hread hroom, by simp [toNat_enter hread hroom]⟩

theorem Inv.storeExited {v : Word} (h : Inv s) (hpc : s.parties t = .exclusive v) :
    Kept s (Latch.storeExited s t v) := by
  have hok := h.ok t
  rw [hpc] at hok
  obtain ⟨hv, c, hread, hroom, rfl⟩ := hok
  obtain ⟨w, hexit, hw⟩ := exitExclusiveVersion_enter hread hroom
  have heven := (readable_iff c).mp hread
  rw [Latch.storeExited, hexit]
  refine ⟨h.exit (by rw [hpc]; rfl) ((readable_iff w).mpr (by omega)), ?_⟩
  rw [← hv, toNat_enter hread hroom]
  change c.toNat + 1 ≤ w.toNat
  omega

theorem Inv.compareExchange {v : Word} (h : Inv s) (hpc : s.parties t = .upgrading v) :
    Kept s (Latch.compareExchange s t v) := by
  have hok := h.ok t
  rw [hpc] at hok
  unfold Latch.compareExchange
  split
  · rename_i heq
    obtain ⟨hroom, rfl⟩ := heq
    exact ⟨h.enter (by rw [hpc]; rfl) hok hroom, by simp [toNat_enter hok hroom]⟩
  · exact h.move hpc (by simp) rfl rfl trivial

theorem Inv.checkShared {v : Word} (h : Inv s) (hpc : s.parties t = .upgradingShared v) :
    Kept s (Latch.checkShared s t v) := by
  unfold Latch.checkShared
  split
  · exact h.move hpc (by simp) rfl rfl trivial
  · exact h.move hpc (by simp) rfl rfl trivial

theorem Inv.step {a : Action} (h : Inv s) (hstep : step s a = some s') : Kept s s' := by
  cases a <;> simp only [Latch.step] at hstep
  case optimisticOrRestart t =>
    split at hstep <;> cases hstep
    next hpc => exact h.snapshot hpc
  case dropOptimistic t =>
    split at hstep <;> cases hstep
    next hpc => exact h.move hpc (by simp) rfl rfl trivial
  case lockExclusive t =>
    split at hstep
    next hpc =>
      obtain ⟨l, hlock, rfl⟩ := map_eq_some_iff.mp hstep
      exact ⟨h.lockExclusive (not_exclusive hpc (by simp)) rfl rfl trivial hlock, Nat.le_refl _⟩
    next => cases hstep
  case loadVersion t =>
    split at hstep <;> cases hstep
    next hpc => exact h.loadVersion hpc
  case storeEntered t =>
    split at hstep <;> cases hstep
    next hpc => exact h.storeEntered hpc
  case storeExited t =>
    split at hstep <;> cases hstep
    next hpc => exact h.storeExited hpc
  case unlockExclusive t =>
    split at hstep <;> cases hstep
    next hpc =>
      exact ⟨h.unlockExclusive (not_exclusive hpc (by simp)) (by rw [hpc]; rfl) rfl rfl trivial,
        Nat.le_refl _⟩
  case upgradeToExclusive t =>
    split at hstep
    next v hpc =>
      obtain ⟨l, hlock, rfl⟩ := map_eq_some_iff.mp hstep
      have hok := h.ok t
      rw [hpc] at hok
      exact ⟨h.lockExclusive (not_exclusive hpc (by simp)) rfl rfl hok hlock, Nat.le_refl _⟩
    next => cases hstep
  case compareExchange t =>
    split at hstep <;> cases hstep
    next hpc => exact h.compareExchange hpc
  case lockShared t =>
    split at hstep
    next hpc =>
      obtain ⟨l, hlock, rfl⟩ := map_eq_some_iff.mp hstep
      exact ⟨h.lockShared (not_exclusive hpc (by simp)) (by rw [hpc]; rfl) rfl rfl trivial hlock,
        Nat.le_refl _⟩
    next => cases hstep
  case loadShared t =>
    split at hstep <;> cases hstep
    next hpc => exact h.move hpc (by simp) rfl rfl trivial
  case unlockShared t =>
    obtain ⟨hdrops, hstep⟩ := ite_none_right_eq_some.mp hstep
    cases hstep
    obtain ⟨hpc, hwrites⟩ := dropsShared_spec hdrops
    exact ⟨h.unlockShared (not_exclusive rfl hpc) hwrites rfl rfl trivial, Nat.le_refl _⟩
  case upgradeToShared t =>
    split at hstep
    next v hpc =>
      obtain ⟨l, hlock, rfl⟩ := map_eq_some_iff.mp hstep
      have hok := h.ok t
      rw [hpc] at hok
      exact ⟨h.lockShared (not_exclusive hpc (by simp)) (by rw [hpc]; rfl) rfl rfl hok hlock,
        Nat.le_refl _⟩
    next => cases hstep
  case checkShared t =>
    split at hstep <;> cases hstep
    next hpc => exact h.checkShared hpc

theorem Inv.run {as : List Action} (h : Inv s) (hexec : Base.exec Latch.step s as = some s') :
    Inv s' ∧ s.version.toNat ≤ s'.version.toNat := by
  induction as generalizing s with
  | nil =>
    cases hexec
    exact ⟨h, Nat.le_refl _⟩
  | cons a as ih =>
    obtain ⟨m, hm, hrest⟩ := bind_eq_some_iff.mp hexec
    obtain ⟨hinv, hle⟩ := h.step hm
    obtain ⟨hinv', hle'⟩ := ih hinv hrest
    exact ⟨hinv', Nat.le_trans hle hle'⟩

theorem Inv.exclusive_iff (h : Inv s) :
    versionIsExclusive s.version = true ↔ ∃ t, s.Exclusive t := by
  constructor
  · intro hodd
    by_contra hnone
    have := h.readable fun t ht => hnone ⟨t, ht⟩
    rw [hodd] at this
    cases this
  rintro ⟨t, v, hpc⟩
  have hok := h.ok t
  rw [hpc] at hok
  obtain ⟨hv, c, hread, hroom, rfl⟩ := hok
  have heven := (readable_iff c).mp hread
  rw [← hv, versionIsExclusive_iff, toNat_enter hread hroom]
  omega

/-- A word that has not changed over a run did not change during the run. -/
theorem Inv.neverOpen (h : Inv s) {as : List Action} (hexec : Base.exec Latch.step s as = some s')
    (hclosed : ∀ t, ¬s.Exclusive t) (hsame : s'.version = s.version) : NeverOpen s as := by
  rintro as₁ m ⟨as₂, rfl⟩ hm t ht
  rw [exec_append, hm] at hexec
  obtain ⟨hinv, hle⟩ := h.run hm
  obtain ⟨-, hle'⟩ := hinv.run hexec
  have hword : m.version = s.version := BitVec.eq_of_toNat_eq (by rw [hsame] at hle'; omega)
  have hodd := hinv.exclusive_iff.mpr ⟨t, ht⟩
  rw [hword, h.exclusive_iff] at hodd
  obtain ⟨u, hu⟩ := hodd
  exact hclosed u hu

theorem Succeeds.version_eq {v : Word} (h : Succeeds s t v) : s.version = v := by
  cases h with
  | validate hpc hok =>
    simpa [Latch.validate, optimisticRestartRequired, optimisticSnapshotStillValid] using hok
  | exclusive hpc hstep hok =>
    simp only [Latch.step, hpc, compareExchange, Option.some.injEq] at hstep
    subst hstep
    split at hok
    next heq => exact heq.2
    next => simp [State.setPc] at hok
  | shared hpc hstep hok =>
    simp only [Latch.step, hpc, checkShared, Option.some.injEq] at hstep
    subst hstep
    simp only [State.setPc, update_self] at hok
    split at hok
    next heq => simpa [optimisticSnapshotStillValid] using heq
    next => cases hok

/-- What a guard takes as its snapshot is the readable word. -/
theorem snapshot_spec {v : Word} (h : step s (.optimisticOrRestart t) = some s')
    (hpc : s'.parties t = .optimistic v) : s'.version = v ∧ versionIsExclusive v = false := by
  simp only [Latch.step] at h
  split at h
  next hidle =>
    cases h
    unfold optimisticSnapshot at hpc ⊢
    split at hpc
    next =>
      rw [elim_none, hidle] at hpc
      cases hpc
    next hread =>
      rw [if_neg hread]
      simp only [elim_some, State.setPc, update_self, Pc.optimistic.injEq] at hpc ⊢
      subst hpc
      exact ⟨rfl, eq_false_of_ne_true hread⟩
  next => cases h

/-- In every reachable state exclusive sections exclude each other and all shared sections,
and the word is odd exactly while one is open; a readable word that reads the same at two
times has been readable all the time in between; and a snapshot that validates, or is
promoted, was taken with no exclusive section open since. -/
theorem hybrid_latch_sound (hreach : Reach step anyStep new s) :
    (∀ t u, s.Exclusive t → s.Exclusive u → t = u) ∧
    (∀ t u, s.Exclusive t → ¬s.Shared u) ∧
    (versionIsExclusive s.version = true ↔ ∃ t, s.Exclusive t) ∧
    (∀ as s', exec step s as = some s' → (∀ t, ¬s.Exclusive t) → s'.version = s.version →
      NeverOpen s as) ∧
    ∀ t v s₁ as s₂, step s (.optimisticOrRestart t) = some s₁ → s₁.parties t = .optimistic v →
      exec step s₁ as = some s₂ → Succeeds s₂ t v → NeverOpen s₁ as := by
  have h : Inv s := hreach.invariant new_inv fun _ _ _ hs _ hstep => (hs.step hstep).1
  refine ⟨?_, ?_, h.exclusive_iff, fun as s' hexec => h.neverOpen hexec, ?_⟩
  · rintro t u ⟨v, hv⟩ ⟨w, hw⟩
    by_contra hne
    have := h.not_writes (t := t) (by rw [hv]; rfl) (Ne.symm hne)
    rw [hw] at this
    cases this
  · rintro t u ⟨v, hv⟩ ⟨w, hw⟩
    have := h.not_reads (t := t) (by rw [hv]; rfl) u
    rw [hw] at this
    cases this
  intro t v s₁ as s₂ hsnap hpc hexec hok
  obtain ⟨hinv, -⟩ := h.step hsnap
  obtain ⟨hword, hread⟩ := snapshot_spec hsnap hpc
  refine hinv.neverOpen hexec (fun u hu => ?_) (hok.version_eq.trans hword.symm)
  have hodd := hinv.exclusive_iff.mpr ⟨u, hu⟩
  rw [hword, hread] at hodd
  cases hodd

def promotionRun : List Action :=
  [.lockExclusive 0, .loadVersion 0, .storeEntered 0, .storeExited 0, .unlockExclusive 0,
    .optimisticOrRestart 1, .lockShared 2, .loadShared 2, .unlockShared 2, .upgradeToExclusive 1,
    .compareExchange 1]

theorem hybrid_latch_sound_promotion :
    ∃ s, Reach step anyStep new s ∧ s.Exclusive 1 ∧ versionIsExclusive s.version = true ∧
      ∀ u, ¬s.Shared u := by
  have hrun : (exec step new promotionRun).any (fun s => decide (s.parties 1 = .exclusive 3)) =
      true := by
    decide +kernel
  obtain ⟨s, hexec, hs⟩ := (any_eq_true _ _).mp hrun
  have hopen : s.Exclusive 1 := ⟨3, of_decide_eq_true hs⟩
  have hreach := Reach.of_exec_any hexec
  obtain ⟨-, hshared, hodd, -⟩ := hybrid_latch_sound hreach
  exact ⟨s, hreach, hopen, hodd.mpr ⟨1, hopen⟩, fun u => hshared 1 u hopen⟩

end Steps

end Pagebox.Latch
