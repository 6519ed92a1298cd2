import Mathlib.Logic.Function.Basic
import Mathlib.Data.List.Nodup
import Pagebox.Base.Runs
import Pagebox.Storage.Frame

/-!
# The state words of the frames

Evictors, rescuers, loaders, allocators and retirements all store to the state word of a
frame (`frame-kernel/src/frame.rs`), most of them under the exclusive latch of the frame
and some without it.  This module models these stores one by one, for any number of
threads and frames, with the latches, the free list and the eviction permits
(`buffer_pool.rs`).

Pins, the dirty flag, the reference bit and the parent link decide whether an eviction goes
on; here such a check may go either way, as the argument `ok` of the action says.  The store
of `Free` and the push onto the free list that follows it are one step, and the lock that
keeps new pins out while a frame is freed is left out.
-/

namespace Pagebox.Storage.FrameStates

open Pagebox.Base Function

/-- Which eviction a thread is in: one frame at a time, the selection of a batch with the
candidates found so far, or the second pass of a batch with the candidates still to come. -/
inductive Mode (m : Nat)
  | single
  | select (candidates : List (Fin m))
  | final (todo : List (Fin m))
  deriving DecidableEq

inductive Pc (m : Nat)
  | idle
  | selecting (candidates : List (Fin m))
  | finalizing (todo : List (Fin m))
  /-- Holds the latch of an eviction candidate. -/
  | latched (f : Fin m) (mode : Mode m)
  /-- Holds a permit, too. -/
  | permitted (f : Fin m) (mode : Mode m)
  /-- The frame is `Evicting`, by the exchange or by the load of the second pass. -/
  | evicting (f : Fin m) (mode : Mode m)
  /-- `can_free_evicting_frame` has passed. -/
  | freeing (f : Fin m) (mode : Mode m)
  /-- The permit and then the latch are about to be dropped. -/
  | dropping (f : Fin m) (mode : Mode m)
  /-- The latch is about to be dropped. -/
  | unlatching (f : Fin m) (mode : Mode m)
  /-- `LatchedCandidate::release` has dropped the latch, but not yet the permit. -/
  | released (f : Fin m) (candidates : List (Fin m))
  | finalLatched (f : Fin m) (todo : List (Fin m))
  | rescueLatched (f : Fin m)
  | rescuing (f : Fin m)
  /-- Owns a frame popped from the free list. -/
  | popped (f : Fin m)
  | filling (f : Fin m)
  /-- Has found the frame `Free` under its latch. -/
  | claiming (f : Fin m)
  | loading (f : Fin m) (latched : Bool)
  /-- A prefetch worker holds the latch of a frame it found in the page table. -/
  | lookedUp (f : Fin m)
  | retiring (f : Fin m)
  deriving DecidableEq

structure State (n m : Nat) where
  word : Fin m → FrameState
  /-- The exclusive holder of the latch of each frame, and the number of shared ones. -/
  latch : Fin m → Option (Fin n)
  shared : Fin m → Nat
  freeList : List (Fin m)
  evictionInFlight : Nat
  threads : Fin n → Pc m

def new (n m : Nat) : State n m :=
  ⟨fun _ => .free, fun _ => none, fun _ => 0, List.finRange m, 0, fun _ => .idle⟩

def evictionBudget (m : Nat) : Nat := max (m / 4) 1

namespace State

variable {n m : Nat} (s : State n m)

def setPc (t : Fin n) (pc : Pc m) : State n m :=
  { s with threads := update s.threads t pc }

def setWord (f : Fin m) (w : FrameState) : State n m :=
  { s with word := update s.word f w }

def lock (t : Fin n) (f : Fin m) : Option (State n m) :=
  if s.latch f = none ∧ s.shared f = 0 then
    some { s with latch := update s.latch f (some t) }
  else none

def unlock (f : Fin m) : State n m := { s with latch := update s.latch f none }

/-- The store of `Free` and `free_list.push`. -/
def free (f : Fin m) : State n m :=
  { s.setWord f .free with freeList := s.freeList ++ [f] }

end State

inductive Action (n m : Nat)
  | share (f : Fin m)
  | unshare (f : Fin m)
  | startBatch (t : Fin n)
  | lockCandidate (t : Fin n) (f : Fin m)
  | acquirePermit (t : Fin n) (ok : Bool)
  | exchange (t : Fin n)
  | decide (t : Fin n) (ok : Bool)
  | free (t : Fin n)
  | dropPermit (t : Fin n)
  | unlatch (t : Fin n)
  | endScan (t : Fin n)
  | finalLock (t : Fin n)
  | finalLoad (t : Fin n)
  | endBatch (t : Fin n)
  | rescueLock (t : Fin n) (f : Fin m)
  | rescueCheck (t : Fin n) (ok : Bool)
  | rescueStore (t : Fin n)
  | pop (t : Fin n) (f : Fin m)
  | pushBack (t : Fin n)
  | abandon (t : Fin n)
  | fillLock (t : Fin n)
  | fillUnlock (t : Fin n)
  | allocate (t : Fin n)
  | checkFree (t : Fin n)
  | load (t : Fin n) (keepLatch : Bool)
  | loadDone (t : Fin n) (found : Bool)
  | lookupLock (t : Fin n) (f : Fin m)
  | claim (t : Fin n)
  | retireLock (t : Fin n) (f : Fin m)
  | retireStore (t : Fin n)

section Steps

variable {n m : Nat} (s : State n m)

/-- The candidate may be evicted and a permit is available; a batch also loads the state
again under the latch. -/
def acquirePermit (t : Fin n) (f : Fin m) (mode : Mode m) (ok : Bool) : State n m :=
  let passes := ok ∧ (mode ≠ .single → s.word f = .resident)
  if passes ∧ s.evictionInFlight < evictionBudget m then
    { s.setPc t (.permitted f mode) with evictionInFlight := s.evictionInFlight + 1 }
  else s.setPc t (.unlatching f mode)

def exchange (t : Fin n) (f : Fin m) (mode : Mode m) : State n m :=
  if s.word f = .resident then (s.setWord f .evicting).setPc t (.evicting f mode)
  else s.setPc t (.dropping f mode)

/-- Where an eviction goes on once the frame has left `Evicting`; the second pass of a
batch holds no permit. -/
def afterStore (f : Fin m) : Mode m → Pc m
  | .single => .dropping f .single
  | .select candidates => .dropping f (.select candidates)
  | .final todo => .unlatching f (.final todo)

/-- The checks of `unswizzle_and_free` and those before it, or `revert_frame_to_resident`. -/
def decideFree (t : Fin n) (f : Fin m) (mode : Mode m) (ok : Bool) : State n m :=
  if ok ∧ s.word f = .evicting then s.setPc t (.freeing f mode)
  else (s.setWord f .resident).setPc t (afterStore f mode)

/-- Where a thread goes on after it has dropped a latch. -/
def afterUnlatch : Mode m → Pc m
  | .single => .idle
  | .select candidates => .selecting candidates
  | .final todo => .finalizing todo

/-- `try_finalize_evicting_candidate` up to its latch: a candidate whose latch is not
available is reverted without it. -/
def finalLock (t : Fin n) (f : Fin m) (todo : List (Fin m)) : State n m :=
  match s.lock t f with
  | some s => s.setPc t (.finalLatched f todo)
  | none => (s.setWord f .resident).setPc t (.finalizing todo)

/-- The load of the state before `Loading` is stored. -/
def claimIfFree (f : Fin m) : Pc m :=
  if s.word f = .free then .claiming f else .unlatching f .single

/-- The end of a load: the frame becomes `Resident`, or the reservation is dropped. -/
def loadDone (t : Fin n) (f : Fin m) (latched found : Bool) : State n m :=
  let s := if found then s.setWord f .resident else s.free f
  s.setPc t (if latched then .unlatching f .single else .idle)

def step : Action n m → Option (State n m)
  | .share f =>
    if s.latch f = none then
      some { s with shared := update s.shared f (s.shared f + 1) }
    else none
  | .unshare f =>
    if 0 < s.shared f then
      some { s with shared := update s.shared f (s.shared f - 1) }
    else none
  | .startBatch t =>
    match s.threads t with
    | .idle => some (s.setPc t (.selecting []))
    | _ => none
  | .lockCandidate t f =>
    match s.threads t with
    | .idle => (s.lock t f).map (·.setPc t (.latched f .single))
    | .selecting candidates => (s.lock t f).map (·.setPc t (.latched f (.select candidates)))
    | _ => none
  | .acquirePermit t ok =>
    match s.threads t with
    | .latched f mode => some (acquirePermit s t f mode ok)
    | _ => none
  | .exchange t =>
    match s.threads t with
    | .permitted f mode => some (exchange s t f mode)
    | _ => none
  | .decide t ok =>
    match s.threads t with
    | .evicting f .single => some (decideFree s t f .single ok)
    | .evicting f (.final todo) => some (decideFree s t f (.final todo) ok)
    | _ => none
  | .free t =>
    match s.threads t with
    | .freeing f mode => some ((s.free f).setPc t (afterStore f mode))
    | _ => none
  | .dropPermit t =>
    match s.threads t with
    | .dropping f mode =>
      some { s.setPc t (.unlatching f mode) with evictionInFlight := s.evictionInFlight - 1 }
    | .released f candidates =>
      some { s.setPc t (.selecting (candidates ++ [f])) with
        evictionInFlight := s.evictionInFlight - 1 }
    | _ => none
  | .unlatch t =>
    match s.threads t with
    | .unlatching f mode => some ((s.unlock f).setPc t (afterUnlatch mode))
    | .evicting f (.select candidates) => some ((s.unlock f).setPc t (.released f candidates))
    | _ => none
  | .endScan t =>
    match s.threads t with
    | .selecting candidates => some (s.setPc t (.finalizing candidates))
    | _ => none
  | .finalLock t =>
    match s.threads t with
    | .finalizing (f :: todo) => some (finalLock s t f todo)
    | _ => none
  | .finalLoad t =>
    match s.threads t with
    | .finalLatched f todo =>
      some (s.setPc t (if s.word f = .evicting then .evicting f (.final todo)
        else .unlatching f (.final todo)))
    | _ => none
  | .endBatch t =>
    match s.threads t with
    | .finalizing [] => some (s.setPc t .idle)
    | _ => none
  | .rescueLock t f =>
    match s.threads t with
    | .idle => (s.lock t f).map (·.setPc t (.rescueLatched f))
    | _ => none
  | .rescueCheck t ok =>
    match s.threads t with
    | .rescueLatched f =>
      some (s.setPc t (if ok ∧ s.word f = .evicting then .rescuing f
        else .unlatching f .single))
    | _ => none
  | .rescueStore t =>
    match s.threads t with
    | .rescuing f => some ((s.setWord f .resident).setPc t (.unlatching f .single))
    | _ => none
  | .pop t f =>
    match s.threads t with
    | .idle =>
      if f ∈ s.freeList then
        some { s.setPc t (.popped f) with freeList := s.freeList.erase f }
      else none
    | _ => none
  | .pushBack t =>
    match s.threads t with
    | .popped f => some { s.setPc t .idle with freeList := s.freeList ++ [f] }
    -- `try_fix_orphan_raw` pushes the frame back before it drops the latch
    | .filling f =>
      some { s.setPc t (.unlatching f .single) with freeList := s.freeList ++ [f] }
    | _ => none
  | .abandon t =>
    -- a prefetch worker that gives up does not push the frame back
    match s.threads t with
    | .popped _ => some (s.setPc t .idle)
    | .filling f => some (s.setPc t (.unlatching f .single))
    | _ => none
  | .fillLock t =>
    match s.threads t with
    | .popped f => (s.lock t f).map (·.setPc t (.filling f))
    | _ => none
  | .fillUnlock t =>
    match s.threads t with
    | .filling f => some ((s.unlock f).setPc t (.popped f))
    | _ => none
  | .allocate t =>
    match s.threads t with
    | .filling f => some ((s.setWord f .resident).setPc t (.unlatching f .single))
    | _ => none
  | .checkFree t =>
    match s.threads t with
    | .filling f => some (s.setPc t (claimIfFree s f))
    | _ => none
  | .load t keepLatch =>
    match s.threads t with
    | .claiming f =>
      let s := s.setWord f .loading
      some ((if keepLatch then s else s.unlock f).setPc t (.loading f keepLatch))
    | _ => none
  | .loadDone t found =>
    match s.threads t with
    | .loading f latched => some (loadDone s t f latched found)
    | _ => none
  | .lookupLock t f =>
    match s.threads t with
    | .idle => (s.lock t f).map (·.setPc t (.lookedUp f))
    | _ => none
  | .claim t =>
    match s.threads t with
    | .lookedUp f => some (s.setPc t (claimIfFree s f))
    | _ => none
  | .retireLock t f =>
    match s.threads t with
    | .idle =>
      -- the caller has pinned the frame, so it holds a page
      if s.word f = .resident ∨ s.word f = .evicting then
        (s.lock t f).map (·.setPc t (.retiring f))
      else none
    | _ => none
  | .retireStore t =>
    match s.threads t with
    | .retiring f => some ((s.free f).setPc t (.unlatching f .single))
    | _ => none

end Steps

/-! ## What a thread relies on -/

namespace Pc

variable {m : Nat}

def holds : Pc m → Option (Fin m)
  | .latched f _ | .permitted f _ | .evicting f _ | .freeing f _ | .dropping f _
  | .unlatching f _ | .finalLatched f _ | .rescueLatched f | .rescuing f | .filling f
  | .claiming f | .loading f true | .lookedUp f | .retiring f => some f
  | _ => none

def relies : Pc m → Option (Fin m × FrameState)
  | .evicting f _ | .freeing f _ | .rescuing f => some (f, .evicting)
  | .popped f | .filling f | .claiming f => some (f, .free)
  | .loading f _ => some (f, .loading)
  | _ => none

theorem holds_of_relies {pc : Pc m} {f : Fin m} (h : pc.relies = some (f, .evicting)) :
    pc.holds = some f := by
  cases pc <;> simp_all [relies, holds]

theorem relies_ne_resident (pc : Pc m) {f : Fin m} : pc.relies ≠ some (f, .resident) := by
  cases pc <;> simp [relies]

end Pc

section Invariant

variable {n m : Nat} {s s' : State n m} {t : Fin n} {f : Fin m}

def State.Unwatched (s : State n m) (t : Fin n) (f : Fin m) : Prop :=
  ∀ u, u ≠ t → ∀ w, (s.threads u).relies ≠ some (f, w)

structure Inv (s : State n m) : Prop where
  latch : ∀ t f, (s.threads t).holds = some f → s.latch f = some t
  found : ∀ t f w, (s.threads t).relies = some (f, w) → s.word f = w
  alone : ∀ t f w, (s.threads t).relies = some (f, w) → s.Unwatched t f
  distinct : s.freeList.Nodup
  listed : ∀ f ∈ s.freeList, s.word f = .free ∧ ∀ t w, (s.threads t).relies ≠ some (f, w)

theorem inv_new (n m : Nat) : Inv (new n m) where
  latch _ _ h := nomatch h
  found _ _ _ h := nomatch h
  alone _ _ _ h := nomatch h
  distinct := List.nodup_finRange m
  listed _ _ := ⟨rfl, nofun⟩

theorem Inv.update (h : Inv s) {q : Pc m} {word : Fin m → FrameState}
    {latch : Fin m → Option (Fin n)} {shared : Fin m → Nat} {freeList : List (Fin m)}
    {inFlight : Nat}
    (hholds : ∀ g, q.holds = some g → latch g = some t)
    (hlatch : ∀ u, u ≠ t → ∀ g, s.latch g = some u → latch g = some u)
    (hfound : ∀ g w, q.relies = some (g, w) → word g = w ∧ s.Unwatched t g)
    (hword : ∀ g, word g ≠ s.word g → s.Unwatched t g)
    (hdistinct : freeList.Nodup)
    (hlisted : ∀ g ∈ freeList, word g = .free ∧ s.Unwatched t g ∧ ∀ w, q.relies ≠ some (g, w)) :
    Inv ⟨word, latch, shared, freeList, inFlight, update s.threads t q⟩ where
  latch := (forall_update_iff s.threads fun u pc =>
    ∀ g, pc.holds = some g → latch g = some u).mpr
      ⟨hholds, fun u hu g hg => hlatch u hu g (h.latch u g hg)⟩
  found := (forall_update_iff s.threads fun _ pc =>
    ∀ g w, pc.relies = some (g, w) → word g = w).mpr
      ⟨fun g w hg => (hfound g w hg).1, fun u hu g w hg => by
        by_contra hne
        have hchanged : word g ≠ s.word g := (h.found u g w hg).symm ▸ hne
        exact hword g hchanged u hu w hg⟩
  alone u g w hg v hv := by
    -- the two threads are told apart by which of them has moved
    by_cases hu : u = t <;> by_cases hvt : v = t
    · exact absurd (hvt.trans hu.symm) hv
    · subst hu
      simp only [update_self] at hg
      simpa only [update_of_ne hvt] using (hfound g w hg).2 v hvt
    · subst hvt
      simp only [update_of_ne hu] at hg
      simp only [update_self]
      exact fun w' hw' => (hfound g w' hw').2 u hu w hg
    · simp only [update_of_ne hu] at hg
      simpa only [update_of_ne hvt] using h.alone u g w hg v hv
  distinct := hdistinct
  listed g hg := ⟨(hlisted g hg).1, (forall_update_iff s.threads fun _ pc =>
    ∀ w, pc.relies ≠ some (g, w)).mpr ⟨(hlisted g hg).2.2, (hlisted g hg).2.1⟩⟩

/-- Nobody else has found a frame `Evicting` whose latch `t` holds. -/
theorem Inv.unwatched_of_latch (h : Inv s) (hlatch : s.latch f = some t)
    (hword : s.word f = .resident ∨ s.word f = .evicting) : s.Unwatched t f := by
  intro u hu w hw
  have hfound := h.found u f w hw
  have hevicting : w = .evicting := by
    refine (hfound ▸ hword).resolve_left fun hresident => ?_
    exact Pc.relies_ne_resident _ (hresident ▸ hw)
  have hlatch' := h.latch u f (Pc.holds_of_relies (hevicting ▸ hw))
  exact hu (Option.some.inj (hlatch'.symm.trans hlatch))

theorem Inv.not_listed (h : Inv s) (hword : s.word f ≠ .free) : f ∉ s.freeList :=
  fun hmem => hword (h.listed f hmem).1

/-! ### The kinds of step -/

variable {q : Pc m}

/-- A step that changes latches and the counter of permits only, and finds no new state. -/
theorem Inv.relatch (h : Inv s) {latch : Fin m → Option (Fin n)} {i : Nat}
    (hholds : ∀ g, q.holds = some g → latch g = some t)
    (hlatch : ∀ u, u ≠ t → ∀ g, s.latch g = some u → latch g = some u)
    (hrelies : ∀ g w, q.relies = some (g, w) → (s.threads t).relies = some (g, w)) :
    Inv { s.setPc t q with latch := latch, evictionInFlight := i } := by
  refine h.update hholds hlatch (fun g w hg => ?_) (fun g hne => absurd rfl hne) h.distinct
    (fun g hg => ?_)
  · exact ⟨h.found t g w (hrelies g w hg), h.alone t g w (hrelies g w hg)⟩
  · obtain ⟨hfree, hnone⟩ := h.listed g hg
    exact ⟨hfree, fun u _ w => hnone u w, fun w hw => hnone t w (hrelies g w hw)⟩

theorem Inv.setPc (h : Inv s) (i : Nat) (hholds : ∀ g, q.holds = some g → s.latch g = some t)
    (hrelies : ∀ g w, q.relies = some (g, w) → (s.threads t).relies = some (g, w)) :
    Inv { s.setPc t q with evictionInFlight := i } :=
  h.relatch hholds (fun _ _ _ hg => hg) hrelies

/-- A thread finds a frame `Evicting` under its latch. -/
theorem Inv.find (h : Inv s) (hlatch : s.latch f = some t) (hword : s.word f = .evicting)
    (hholds : q.holds = some f) (hrelies : q.relies = some (f, .evicting)) :
    Inv (s.setPc t q) := by
  have hlisted : f ∉ s.freeList := h.not_listed (by simp [hword])
  have hunwatched := h.unwatched_of_latch hlatch (.inr hword)
  refine h.update (fun g hg => ?_) (fun _ _ _ hg => hg) (fun g w hg => ?_)
    (fun g hne => absurd rfl hne) h.distinct (fun g hg => ?_)
  · cases hholds.symm.trans hg
    exact hlatch
  · cases hrelies.symm.trans hg
    exact ⟨hword, hunwatched⟩
  · refine ⟨(h.listed g hg).1, fun u _ w => (h.listed g hg).2 u w, fun w hw => ?_⟩
    cases hrelies.symm.trans hw
    exact hlisted hg

theorem lock_eq_some (h : s.lock t f = some s') :
    s.latch f = none ∧ s' = { s with latch := update s.latch f (some t) } := by
  obtain ⟨hfree, hs'⟩ := Option.ite_none_right_eq_some.mp h
  exact ⟨hfree.1, (Option.some.inj hs').symm⟩

theorem Inv.lock (h : Inv s) (hlock : s.lock t f = some s') (hholds : q.holds = some f)
    (hrelies : ∀ g w, q.relies = some (g, w) → (s.threads t).relies = some (g, w)) :
    Inv (s'.setPc t q) := by
  obtain ⟨hfree, rfl⟩ := lock_eq_some hlock
  refine h.relatch (fun g hg => ?_) (fun u _ g hg => ?_) hrelies
  · cases hholds.symm.trans hg
    exact update_self ..
  · have hne : g ≠ f := fun heq => by simp [heq, hfree] at hg
    exact (update_of_ne hne ..).trans hg

theorem Inv.unlock (h : Inv s) (hlatch : s.latch f = some t) (hholds : q.holds = none)
    (hrelies : ∀ g w, q.relies = some (g, w) → (s.threads t).relies = some (g, w)) :
    Inv ((s.unlock f).setPc t q) := by
  refine h.relatch (fun g hg => ?_) (fun u hu g hg => ?_) hrelies
  · cases hholds.symm.trans hg
  · have hne : g ≠ f := fun heq => hu (Option.some.inj ((heq ▸ hg).symm.trans hlatch))
    exact (update_of_ne hne ..).trans hg

/-- A store to a frame that no other thread relies on and that is not on the free list. -/
theorem Inv.store (h : Inv s) (w : FrameState) (hunwatched : s.Unwatched t f)
    (hlisted : f ∉ s.freeList) (hholds : ∀ g, q.holds = some g → s.latch g = some t)
    (hrelies : ∀ g v, q.relies = some (g, v) → g = f ∧ v = w) :
    Inv ((s.setWord f w).setPc t q) := by
  refine h.update hholds (fun _ _ _ hg => hg) (fun g v hg => ?_) (fun g hne => ?_) h.distinct
    (fun g hg => ?_)
  · obtain ⟨rfl, rfl⟩ := hrelies g v hg
    exact ⟨update_self .., hunwatched⟩
  · have heq : g = f := by
      by_contra hgf
      exact hne (update_of_ne hgf ..)
    exact heq ▸ hunwatched
  · have hne : g ≠ f := fun heq => hlisted (heq ▸ hg)
    refine ⟨?_, fun u _ v => (h.listed g hg).2 u v, fun v hv => hne (hrelies g v hv).1⟩
    exact (update_of_ne hne ..).trans (h.listed g hg).1

theorem Inv.free (h : Inv s) (hunwatched : s.Unwatched t f) (hlisted : f ∉ s.freeList)
    (hholds : ∀ g, q.holds = some g → s.latch g = some t) (hrelies : q.relies = none) :
    Inv ((s.free f).setPc t q) := by
  have hstored := h.store .free hunwatched hlisted hholds (by simp [hrelies])
  refine ⟨hstored.latch, hstored.found, hstored.alone, ?_, fun g hg => ?_⟩
  · exact h.distinct.append (List.nodup_singleton f) (by simpa using hlisted)
  rcases List.mem_append.mp hg with hg | hg
  · exact hstored.listed g hg
  · cases List.mem_singleton.mp hg
    refine ⟨update_self .., ?_⟩
    exact (forall_update_iff s.threads fun _ pc =>
      ∀ w, pc.relies ≠ some (f, w)).mpr ⟨by simp [hrelies], hunwatched⟩

theorem Inv.push (h : Inv s) (howned : (s.threads t).relies = some (f, .free))
    (hholds : ∀ g, q.holds = some g → s.latch g = some t) (hrelies : q.relies = none) :
    Inv { s.setPc t q with freeList := s.freeList ++ [f] } := by
  have hword := h.found t f _ howned
  have hlisted : f ∉ s.freeList := fun hmem => (h.listed f hmem).2 t _ howned
  have hfree := h.free (h.alone t f _ howned) hlisted hholds hrelies
  have hsame : s.setWord f .free = s := by
    simp only [State.setWord, ← hword, update_eq_self]
  rw [State.free, hsame] at hfree
  exact hfree

theorem Inv.pop (h : Inv s) (hmem : f ∈ s.freeList) :
    Inv { s.setPc t (.popped f) with freeList := s.freeList.erase f } := by
  obtain ⟨hword, hnone⟩ := h.listed f hmem
  refine h.update (fun g hg => nomatch hg) (fun _ _ _ hg => hg) (fun g w hg => ?_)
    (fun g hne => absurd rfl hne) (h.distinct.erase f) (fun g hg => ?_)
  · cases hg
    exact ⟨hword, fun u _ w => hnone u w⟩
  · obtain ⟨hne, hg⟩ := h.distinct.mem_erase_iff.mp hg
    refine ⟨(h.listed g hg).1, fun u _ w => (h.listed g hg).2 u w, fun w hw => hne ?_⟩
    simp only [Pc.relies, Option.some.injEq, Prod.mk.injEq] at hw
    exact hw.1.symm

end Invariant

end Pagebox.Storage.FrameStates
