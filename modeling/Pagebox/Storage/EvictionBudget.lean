import Mathlib.Data.Fintype.Card
import Pagebox.Base.Tally
import Pagebox.Storage.FrameStates

/-!
# The eviction budget

A thread takes a permit before it makes a frame `Evicting`, and the pool hands out no more
than `eviction_budget` permits at a time.  A single eviction keeps its permit until the
frame has left `Evicting`.  A batch drops it with the latch of the candidate, while the
frame stays `Evicting` until the second pass, so the permits do not bound the frames.  They
do in runs that count the frames left behind: where a permit is taken only if the permits
and the stranded frames together are below the budget.
-/

namespace Pagebox.Storage.FrameStates

open Pagebox.Base Finset

def Mode.permits {m : Nat} : Mode m → Nat
  | .single | .select _ => 1
  | .final _ => 0

namespace Pc

variable {m : Nat}

def permits : Pc m → Nat
  | .permitted _ _ | .dropping _ _ | .released _ _ => 1
  | .evicting _ mode | .freeing _ mode => mode.permits
  | _ => 0

def covers : Pc m → Option (Fin m)
  | .evicting f mode | .freeing f mode => if mode.permits = 1 then some f else none
  | .released f _ => some f
  | _ => none

/-- Only the first pass of a batch and a single eviction take permits. -/
def Proper : Pc m → Prop
  | .latched _ mode | .permitted _ mode => mode.permits = 1
  | _ => True

theorem permits_of_covers {pc : Pc m} {f : Fin m} (h : pc.covers = some f) : pc.permits = 1 := by
  cases pc <;> simp_all [covers, permits]

end Pc

section Counts

variable {n m : Nat} (s : State n m)

def State.evictingFrames : Nat := (univ.filter fun f => s.word f = .evicting).card

def State.Stranded (f : Fin m) : Prop :=
  s.word f = .evicting ∧ ∀ t, (s.threads t).covers ≠ some f

instance (f : Fin m) : Decidable (s.Stranded f) :=
  inferInstanceAs (Decidable (_ ∧ _))

def State.stranded : Nat := (univ.filter s.Stranded).card

/-- The condition on a step: a permit is taken only if the stranded frames leave room for
one more `Evicting` frame. -/
def WithinBudget : Action n m → Prop
  | .acquirePermit _ ok => ok = true → s.evictionInFlight < evictionBudget m →
      s.evictionInFlight + s.stranded < evictionBudget m
  | _ => True

/-- Each `Evicting` frame has a permit or is stranded. -/
theorem evictingFrames_le : s.evictingFrames ≤ tally Pc.permits s.threads + s.stranded := by
  -- a frame with a permit is found among the frames that the holders of permits cover
  let holders := univ.filter fun t => (s.threads t).permits = 1
  let covered := univ.filter fun f => ∃ t, (s.threads t).covers = some f
  have hcovered : covered.card ≤ holders.card := by
    calc covered.card = (covered.image some).card :=
          (card_image_of_injective _ (Option.some_injective _)).symm
      _ ≤ (holders.image fun t => (s.threads t).covers).card := by
          refine card_le_card fun x hx => ?_
          obtain ⟨f, hf, rfl⟩ := mem_image.mp hx
          obtain ⟨t, ht⟩ := (mem_filter.mp hf).2
          refine mem_image.mpr ⟨t, ?_, ht⟩
          exact mem_filter.mpr ⟨mem_univ t, Pc.permits_of_covers ht⟩
      _ ≤ holders.card := card_image_le
  have hholders : holders.card ≤ tally Pc.permits s.threads := by
    rw [card_filter]
    refine sum_le_sum fun t _ => ?_
    split <;> omega
  have hsplit : (univ.filter fun f => s.word f = .evicting) ⊆
      covered ∪ univ.filter s.Stranded := by
    intro f hf
    have hword := (mem_filter.mp hf).2
    by_cases hcov : ∃ t, (s.threads t).covers = some f
    · exact mem_union_left _ (mem_filter.mpr ⟨mem_univ f, hcov⟩)
    · refine mem_union_right _ (mem_filter.mpr ⟨mem_univ f, hword, ?_⟩)
      exact fun t ht => hcov ⟨t, ht⟩
  calc s.evictingFrames ≤ (covered ∪ univ.filter s.Stranded).card :=
        card_le_card hsplit
    _ ≤ covered.card + s.stranded := card_union_le _ _
    _ ≤ tally Pc.permits s.threads + s.stranded :=
        Nat.add_le_add_right (hcovered.trans hholders) _

end Counts

section Invariant

variable {n m : Nat} {s s' : State n m} {t : Fin n} {f : Fin m} {p q : Pc m}

structure Budget (s : State n m) : Prop where
  proper : ∀ t, (s.threads t).Proper
  count : tally Pc.permits s.threads = s.evictionInFlight
  bound : s.evictionInFlight + s.stranded ≤ evictionBudget m

theorem budget_new (n m : Nat) : Budget (new n m) where
  proper _ := trivial
  count := tally_const_zero fun _ => rfl
  bound := by
    have hnone : (new n m).stranded = 0 :=
      card_eq_zero.mpr (filter_eq_empty_iff.mpr fun _ _ h => nomatch h.1)
    rw [hnone]
    exact Nat.zero_le _

/-- No frame becomes stranded by a step that drops no permit of an `Evicting` frame. -/
theorem stranded_le {word : Fin m → FrameState} {latch : Fin m → Option (Fin n)}
    {shared : Fin m → Nat} {freeList : List (Fin m)} {i : Nat} (hpc : s.threads t = p)
    (hword : ∀ g, word g = .evicting → s.word g = .evicting ∨ q.covers = some g)
    (hcovers : ∀ g, p.covers = some g → word g = .evicting → q.covers = some g) :
    State.stranded ⟨word, latch, shared, freeList, i, Function.update s.threads t q⟩ ≤
      s.stranded := by
  refine card_le_card fun g hg => ?_
  obtain ⟨hevicting, hnone⟩ := (mem_filter.mp hg).2
  obtain ⟨hq, hothers⟩ := (Function.forall_update_iff s.threads fun _ pc =>
    pc.covers ≠ some g).mp hnone
  refine mem_filter.mpr ⟨mem_univ g, (hword g hevicting).resolve_right hq, ?_⟩
  intro u hu
  by_cases hut : u = t
  · rw [hut, hpc] at hu
    exact hq (hcovers g hu hevicting)
  · exact hothers u hut hu

/-- The invariant after a step of `t`, from what the step changes. -/
theorem Budget.update (h : Budget s) {word : Fin m → FrameState}
    {latch : Fin m → Option (Fin n)} {shared : Fin m → Nat} {freeList : List (Fin m)} {i : Nat}
    (hpc : s.threads t = p) (hproper : q.Proper)
    (hcount : i + p.permits = s.evictionInFlight + q.permits)
    (hbound : i + State.stranded ⟨word, latch, shared, freeList, i,
      Function.update s.threads t q⟩ ≤ evictionBudget m) :
    Budget ⟨word, latch, shared, freeList, i, Function.update s.threads t q⟩ where
  proper := (Function.forall_update_iff s.threads fun _ pc => pc.Proper).mpr
    ⟨hproper, fun u _ => h.proper u⟩
  count := by
    have htally := tally_update Pc.permits s.threads t q
    have hcurrent := h.count
    rw [hpc] at htally
    simp only
    omega
  bound := hbound

theorem Budget.move (h : Budget s) {word : Fin m → FrameState}
    {latch : Fin m → Option (Fin n)} {shared : Fin m → Nat} {freeList : List (Fin m)} {i : Nat}
    (hpc : s.threads t = p) (hproper : q.Proper)
    (hcount : i + p.permits = s.evictionInFlight + q.permits)
    (hword : ∀ g, word g = .evicting → s.word g = .evicting ∨ q.covers = some g)
    (hcovers : ∀ g, p.covers = some g → word g = .evicting → q.covers = some g)
    (hroom : i + s.stranded ≤ evictionBudget m) :
    Budget ⟨word, latch, shared, freeList, i, Function.update s.threads t q⟩ :=
  h.update hpc hproper hcount
    ((Nat.add_le_add_left (stranded_le hpc hword hcovers) _).trans hroom)

theorem Budget.keep (h : Budget s) {word : Fin m → FrameState}
    {latch : Fin m → Option (Fin n)} {shared : Fin m → Nat} {freeList : List (Fin m)}
    (hpc : s.threads t = p) (hproper : q.Proper) (hpermits : q.permits = p.permits)
    (hword : ∀ g, word g = .evicting → s.word g = .evicting ∨ q.covers = some g)
    (hcovers : ∀ g, p.covers = some g → word g = .evicting → q.covers = some g) :
    Budget ⟨word, latch, shared, freeList, s.evictionInFlight, Function.update s.threads t q⟩ :=
  h.move hpc hproper (by rw [hpermits]) hword hcovers h.bound

theorem Budget.quiet (h : Budget s) {latch : Fin m → Option (Fin n)} {freeList : List (Fin m)}
    (hpc : s.threads t = p) (hproper : q.Proper) (hpermits : q.permits = p.permits)
    (hcovers : p.covers = none ∨ q.covers = p.covers) :
    Budget ⟨s.word, latch, s.shared, freeList, s.evictionInFlight,
      Function.update s.threads t q⟩ := by
  refine h.keep hpc hproper hpermits (fun g hg => .inl hg) fun g hg _ => ?_
  rcases hcovers with hnone | heq
  · simp [hnone] at hg
  · rw [heq, hg]

theorem Budget.store (h : Budget s) {w : FrameState} {latch : Fin m → Option (Fin n)}
    {freeList : List (Fin m)} (hw : w ≠ .evicting) (hpc : s.threads t = p) (hproper : q.Proper)
    (hpermits : q.permits = p.permits) (hcovers : ∀ g, p.covers = some g → g = f) :
    Budget ⟨Function.update s.word f w, latch, s.shared, freeList, s.evictionInFlight,
      Function.update s.threads t q⟩ := by
  have hstays : ∀ g, Function.update s.word f w g = .evicting → g ≠ f := by
    rintro g hg rfl
    exact hw ((Function.update_self ..).symm.trans hg)
  refine h.keep hpc hproper hpermits (fun g hg => .inl ?_) fun g hg hevicting => ?_
  · rwa [Function.update_of_ne (hstays g hg)] at hg
  · exact absurd (hcovers g hg) (hstays g hevicting)

theorem Budget.lock (h : Budget s) (hpc : s.threads t = p)
    (hs' : (s.lock t f).map (·.setPc t q) = some s') (hproper : q.Proper)
    (hpermits : q.permits = p.permits) (hcovers : p.covers = none) : Budget s' := by
  obtain ⟨s₁, hlock, rfl⟩ := Option.map_eq_some_iff.mp hs'
  obtain ⟨-, rfl⟩ := lock_eq_some hlock
  exact h.quiet hpc hproper hpermits (.inl hcovers)

theorem Budget.permits_le (h : Budget s) (hpc : s.threads t = p) :
    p.permits ≤ s.evictionInFlight := by
  have hle := le_tally Pc.permits s.threads t
  rwa [hpc, h.count] at hle

theorem afterStore_permits (f : Fin m) (mode : Mode m) :
    (afterStore f mode).permits = mode.permits := by
  cases mode <;> rfl

theorem afterStore_proper (f : Fin m) (mode : Mode m) : (afterStore f mode).Proper := by
  cases mode <;> trivial

theorem afterUnlatch_permits (mode : Mode m) : (afterUnlatch mode).permits = 0 := by
  cases mode <;> rfl

theorem afterUnlatch_proper (mode : Mode m) : (afterUnlatch mode).Proper := by
  cases mode <;> trivial

/-- The eviction that a thread is in covers its own frame only. -/
theorem eq_of_covers_evicting {mode : Mode m} {g : Fin m}
    (h : (Pc.evicting f mode).covers = some g) : g = f := by
  simp only [Pc.covers] at h
  split at h <;> cases h
  rfl

/-! ### The steps that take or drop a permit -/

theorem Budget.acquirePermit {mode : Mode m} {ok : Bool} (h : Budget s)
    (hpc : s.threads t = .latched f mode) (hok : WithinBudget s (.acquirePermit t ok)) :
    Budget (FrameStates.acquirePermit s t f mode ok) := by
  have hmode : mode.permits = 1 := by
    have hproper := h.proper t
    rwa [hpc] at hproper
  simp only [FrameStates.acquirePermit]
  split
  · rename_i htaken
    have hroom := hok htaken.1.1 htaken.2
    exact h.move hpc hmode rfl (fun g hg => .inl hg) nofun (by omega)
  · exact h.quiet hpc trivial rfl (.inl rfl)

theorem Budget.exchange {mode : Mode m} (h : Budget s)
    (hpc : s.threads t = .permitted f mode) : Budget (FrameStates.exchange s t f mode) := by
  have hmode : mode.permits = 1 := by
    have hproper := h.proper t
    rwa [hpc] at hproper
  unfold FrameStates.exchange
  split
  · -- the frame that becomes `Evicting` has the permit of `t`
    refine h.keep hpc trivial hmode (fun g hg => ?_) nofun
    by_cases hgf : g = f
    · exact .inr (by simp [Pc.covers, hmode, hgf])
    · exact .inl ((Function.update_of_ne hgf ..).symm.trans hg)
  · exact h.quiet hpc trivial rfl (.inl rfl)

/-- A permit dropped after its frame has left `Evicting`. -/
theorem Budget.dropPermit {mode : Mode m} (h : Budget s) (hpc : s.threads t = .dropping f mode) :
    Budget { s.setPc t (.unlatching f mode) with
      evictionInFlight := s.evictionInFlight - 1 } := by
  have hpos : 1 ≤ s.evictionInFlight := h.permits_le hpc
  have hbound := h.bound
  exact h.move hpc trivial (Nat.sub_add_cancel hpos) (fun g hg => .inl hg) nofun (by omega)

/-- A permit dropped while its frame is `Evicting` strands that frame and no other. -/
theorem Budget.releasePermit {candidates : List (Fin m)} (h : Budget s)
    (hpc : s.threads t = .released f candidates) :
    Budget { s.setPc t (.selecting (candidates ++ [f])) with
      evictionInFlight := s.evictionInFlight - 1 } := by
  have hpos : 1 ≤ s.evictionInFlight := h.permits_le hpc
  have hbound := h.bound
  refine h.update hpc trivial (Nat.sub_add_cancel hpos) ?_
  have hstranded : State.stranded { s.setPc t (.selecting (candidates ++ [f])) with
      evictionInFlight := s.evictionInFlight - 1 } ≤ s.stranded + 1 := by
    refine (card_le_card (t := insert f (univ.filter s.Stranded))
      fun g hg => ?_).trans (card_insert_le _ _)
    obtain ⟨hword, hnone⟩ := (mem_filter.mp hg).2
    have hothers := ((Function.forall_update_iff s.threads fun _ pc =>
      pc.covers ≠ some g).mp hnone).2
    by_cases hgf : g = f
    · exact mem_insert.mpr (.inl hgf)
    · refine mem_insert_of_mem (mem_filter.mpr ⟨mem_univ g, hword, ?_⟩)
      intro u
      by_cases hut : u = t
      · simpa [hut, hpc, Pc.covers, eq_comm] using hgf
      · exact hothers u hut
  exact (Nat.add_le_add_left hstranded _).trans (by omega)

theorem Budget.decideFree {mode : Mode m} (h : Budget s) (ok : Bool)
    (hpc : s.threads t = .evicting f mode) : Budget (FrameStates.decideFree s t f mode ok) := by
  unfold FrameStates.decideFree
  split
  · exact h.quiet hpc trivial rfl (.inr rfl)
  · exact h.store nofun hpc (afterStore_proper f mode) (afterStore_permits f mode)
      fun g hg => eq_of_covers_evicting hg

theorem Budget.finalLock {todo : List (Fin m)} (h : Budget s)
    (hpc : s.threads t = .finalizing (f :: todo)) : Budget (FrameStates.finalLock s t f todo) := by
  unfold FrameStates.finalLock
  split
  · rename_i s₁ hlock
    obtain ⟨-, rfl⟩ := lock_eq_some hlock
    exact h.quiet hpc trivial rfl (.inl rfl)
  · exact h.store nofun hpc trivial rfl nofun

theorem Budget.step {a : Action n m} (h : Budget s) (hok : WithinBudget s a)
    (hs' : FrameStates.step s a = some s') : Budget s' := by
  cases a <;> simp only [FrameStates.step] at hs'
  case share f | unshare f =>
    obtain ⟨-, hs'⟩ := Option.ite_none_right_eq_some.mp hs'
    cases hs'
    exact ⟨h.proper, h.count, h.bound⟩
  case startBatch t | endScan t | endBatch t | fillUnlock t =>
    split at hs' <;> cases hs'
    next hpc => exact h.quiet hpc trivial rfl (.inl rfl)
  case lockCandidate t f =>
    split at hs'
    next hpc => exact h.lock hpc hs' rfl rfl rfl
    next hpc => exact h.lock hpc hs' rfl rfl rfl
    next => cases hs'
  case acquirePermit t ok =>
    split at hs' <;> cases hs'
    next hpc => exact h.acquirePermit hpc hok
  case exchange t =>
    split at hs' <;> cases hs'
    next hpc => exact h.exchange hpc
  case decide t ok =>
    split at hs' <;> cases hs'
    next hpc => exact h.decideFree ok hpc
    next hpc => exact h.decideFree ok hpc
  case free t =>
    split at hs' <;> cases hs'
    next f mode hpc =>
      exact h.store nofun hpc (afterStore_proper f mode) (afterStore_permits f mode)
        fun g hg => eq_of_covers_evicting hg
  case dropPermit t =>
    split at hs' <;> cases hs'
    next hpc => exact h.dropPermit hpc
    next hpc => exact h.releasePermit hpc
  case unlatch t =>
    split at hs' <;> cases hs'
    next mode hpc =>
      exact h.quiet hpc (afterUnlatch_proper mode) (afterUnlatch_permits mode) (.inl rfl)
    next hpc => exact h.quiet hpc trivial rfl (.inr rfl)
  case finalLock t =>
    split at hs' <;> cases hs'
    next hpc => exact h.finalLock hpc
  case finalLoad t | rescueCheck t ok =>
    split at hs' <;> cases hs'
    next hpc => split <;> exact h.quiet hpc trivial rfl (.inl rfl)
  case rescueLock t f | lookupLock t f | fillLock t =>
    split at hs'
    next hpc => exact h.lock hpc hs' trivial rfl rfl
    next => cases hs'
  case rescueStore t | allocate t | retireStore t =>
    split at hs' <;> cases hs'
    next hpc => exact h.store nofun hpc trivial rfl nofun
  case pop t f =>
    split at hs'
    · rename_i hpc
      obtain ⟨-, hs'⟩ := Option.ite_none_right_eq_some.mp hs'
      cases hs'
      exact h.quiet hpc trivial rfl (.inl rfl)
    · cases hs'
  case pushBack t | abandon t =>
    split at hs' <;> cases hs'
    next hpc => exact h.quiet hpc trivial rfl (.inl rfl)
    next hpc => exact h.quiet hpc trivial rfl (.inl rfl)
  case checkFree t | claim t =>
    split at hs' <;> cases hs'
    next hpc =>
      unfold claimIfFree
      split <;> exact h.quiet hpc trivial rfl (.inl rfl)
  case load t keepLatch =>
    split at hs' <;> cases hs'
    next hpc => cases keepLatch <;> exact h.store nofun hpc trivial rfl nofun
  case loadDone t found =>
    split at hs' <;> cases hs'
    next latched hpc =>
      cases found <;> cases latched <;> exact h.store nofun hpc trivial rfl nofun
  case retireLock t f =>
    split at hs'
    · rename_i hpc
      obtain ⟨-, hs'⟩ := Option.ite_none_right_eq_some.mp hs'
      exact h.lock hpc hs' trivial rfl rfl
    · cases hs'

/-- In every run that counts the stranded frames, of any number of threads over any number
of frames, no more frames are `Evicting` than the budget allows. -/
theorem evicting_within_budget (hreach : Reach FrameStates.step WithinBudget (new n m) s) :
    s.evictingFrames ≤ evictionBudget m := by
  have hbudget : Budget s :=
    hreach.invariant (budget_new n m) fun _ _ _ h hok hs' => h.step hok hs'
  calc s.evictingFrames ≤ tally Pc.permits s.threads + s.stranded := evictingFrames_le s
    _ = s.evictionInFlight + s.stranded := by rw [hbudget.count]
    _ ≤ evictionBudget m := hbudget.bound

end Invariant

def fillBoth : List (Action 2 2) :=
  [.pop 0 0, .fillLock 0, .allocate 0, .unlatch 0, .pop 0 1, .fillLock 0, .allocate 0, .unlatch 0]

def selectFrame (f : Fin 2) : List (Action 2 2) :=
  [.lockCandidate 0 f, .acquirePermit 0 true, .exchange 0, .unlatch 0, .dropPermit 0]

def boundedRun : List (Action 2 2) :=
  fillBoth ++ [.startBatch 0] ++ selectFrame 0 ++
    [.rescueLock 1 0, .rescueCheck 1 true, .rescueStore 1, .unlatch 1,
      .lockCandidate 1 1, .acquirePermit 1 true, .exchange 1]

def withinBudget (s : State 2 2) : Action 2 2 → Bool
  | .acquirePermit _ _ => decide (s.evictionInFlight + s.stranded < evictionBudget 2)
  | _ => true

theorem evicting_within_budget_boundedRun :
    ∃ s : State 2 2, Reach step WithinBudget (new 2 2) s ∧ s.word 1 = .evicting ∧
      s.evictingFrames ≤ evictionBudget 2 := by
  have hrun : ((exec (guarded withinBudget step) (new 2 2) boundedRun).any fun s =>
      decide (s.word 1 = .evicting)) = true := by
    decide +kernel
  obtain ⟨s, hs, hword⟩ := (Option.any_eq_true _ _).mp hrun
  have hreach : Reach step WithinBudget (new 2 2) s := .of_exec hs fun s a ha => by
    cases a with
    | acquirePermit t ok => exact fun _ _ => of_decide_eq_true ha
    | _ => trivial
  exact ⟨s, hreach, of_decide_eq_true hword, evicting_within_budget hreach⟩

def strandedRun : List (Action 2 2) :=
  fillBoth ++ [.startBatch 0] ++ selectFrame 0 ++ selectFrame 1

/-- A batch of two makes both frames `Evicting` with a budget of one, and holds no permit. -/
theorem evicting_exceeds_budget :
    ∃ s : State 2 2, Reach step anyStep (new 2 2) s ∧ s.evictingFrames = 2 ∧
      evictionBudget 2 = 1 ∧ s.evictionInFlight = 0 := by
  have hrun : ((exec step (new 2 2) strandedRun).any fun s =>
      decide (s.evictingFrames = 2 ∧ evictionBudget 2 = 1 ∧ s.evictionInFlight = 0)) = true := by
    decide +kernel
  obtain ⟨s, hs, hfacts⟩ := (Option.any_eq_true _ _).mp hrun
  exact ⟨s, .of_exec_any hs, of_decide_eq_true hfacts⟩

end Pagebox.Storage.FrameStates
