import Pagebox.Storage.FrameStates

/-!
# The transitions of a frame

A store to the state word of a frame trusts a check its thread made before.  Two stores of
the source go wrong: a retired frame goes from `Resident` to `Free`, and the second pass of
a batch that does not get the latch of a candidate stores `Resident` to it, whatever the
frame has become in between.  In runs without these, every change of a state word is one
that `is_valid_transition` allows and every store that ends an eviction finds the frame
`Evicting`.
-/

namespace Pagebox.Storage.FrameStates

open Pagebox.Base Function Option

section Statement

variable {n m : Nat} (s : State n m)

/-- The frame that an action, with a store, moves out of `Evicting`: a revert, a free or a
rescue. -/
def leavesEvicting : Action n m → Option (Fin m)
  | .decide t ok =>
    match s.threads t with
    | .evicting f _ => if ok ∧ s.word f = .evicting then none else some f
    | _ => none
  | .free t =>
    match s.threads t with
    | .freeing f _ => some f
    | _ => none
  | .finalLock t =>
    match s.threads t with
    | .finalizing (f :: _) => if (s.lock t f).isSome then none else some f
    | _ => none
  | .rescueStore t =>
    match s.threads t with
    | .rescuing f => some f
    | _ => none
  | _ => none

/-- The condition on a step.  A candidate of a batch whose latch is not available is still
`Evicting`, and no thread has found it so for a store of its own; a prefetch worker takes
free frames from the free list only; no `Resident` frame is retired. -/
def Orderly : Action n m → Prop
  | .finalLock t =>
    match s.threads t with
    | .finalizing (f :: _) => s.lock t f = none →
        s.word f = .evicting ∧ ∀ u, (s.threads u).relies ≠ some (f, .evicting)
    | _ => True
  | .claim t =>
    match s.threads t with
    | .lookedUp f => s.word f ≠ .free
    | _ => True
  | .retireStore t =>
    match s.threads t with
    | .retiring f => s.word f = .evicting
    | _ => True
  | _ => True

end Statement

section Steps

variable {n m : Nat} {s s' : State n m} {a : Action n m} {t : Fin n} {f : Fin m}

/-- What every step of an orderly run does. -/
structure Sound (s : State n m) (a : Action n m) (s' : State n m) : Prop where
  inv : Inv s'
  valid : ∀ f, s'.word f ≠ s.word f → (s.word f).isValidTransition (s'.word f) = true
  left : ∀ f, leavesEvicting s a = some f → s.word f = .evicting

theorem Sound.of_word_eq (hinv : Inv s') (hword : s'.word = s.word)
    (hleaves : leavesEvicting s a = none) : Sound s a s' where
  inv := hinv
  valid f hne := absurd (congrFun hword f) hne
  left f hf := by simp [hleaves] at hf

theorem Sound.of_store {w : FrameState} (hinv : Inv s') (hword : s'.word = update s.word f w)
    (hvalid : (s.word f).isValidTransition w = true)
    (hleaves : ∀ g, leavesEvicting s a = some g → g = f ∧ s.word f = .evicting) :
    Sound s a s' where
  inv := hinv
  valid g hne := by
    rw [hword] at hne ⊢
    have heq : g = f := by
      by_contra hgf
      exact hne (update_of_ne hgf ..)
    rw [heq, update_self]
    exact hvalid
  left g hg := by
    obtain ⟨rfl, hevicting⟩ := hleaves g hg
    exact hevicting

variable {p q : Pc m}

/-- A thread that keeps its latch, or has none, holds what it holds. -/
theorem Inv.latch_kept (h : Inv s) (hpc : s.threads t = p)
    (hholds : q.holds = p.holds ∨ q.holds = none) (g : Fin m) (hg : q.holds = some g) :
    s.latch g = some t := by
  refine h.latch t g ?_
  rcases hholds with heq | hnone
  · rw [hpc, ← heq, hg]
  · simp [hnone] at hg

theorem relies_kept (hpc : s.threads t = p) (hrelies : q.relies = none ∨ q.relies = p.relies)
    (g : Fin m) (w : FrameState) (hg : q.relies = some (g, w)) :
    (s.threads t).relies = some (g, w) := by
  rcases hrelies with hnone | heq
  · simp [hnone] at hg
  · rw [hpc, ← heq, hg]

/-- A thread moves on with the latch it has and finds nothing new. -/
theorem Sound.quiet (i : Nat) (h : Inv s) (hpc : s.threads t = p)
    (hleaves : leavesEvicting s a = none) (hholds : q.holds = p.holds ∨ q.holds = none)
    (hrelies : q.relies = none ∨ q.relies = p.relies) :
    Sound s a { s.setPc t q with evictionInFlight := i } :=
  .of_word_eq (h.setPc i (h.latch_kept hpc hholds) (relies_kept hpc hrelies)) rfl hleaves

theorem Sound.unlock (h : Inv s) (hpc : s.threads t = p) (hleaves : leavesEvicting s a = none)
    (hheld : p.holds = some f) (hholds : q.holds = none)
    (hrelies : q.relies = none ∨ q.relies = p.relies) : Sound s a ((s.unlock f).setPc t q) :=
  .of_word_eq (h.unlock (h.latch t f (hpc ▸ hheld)) hholds (relies_kept hpc hrelies)) rfl hleaves

theorem Sound.lock (h : Inv s) (hpc : s.threads t = p) (hleaves : leavesEvicting s a = none)
    (hs' : (s.lock t f).map (·.setPc t q) = some s') (hholds : q.holds = some f)
    (hrelies : q.relies = none ∨ q.relies = p.relies) : Sound s a s' := by
  obtain ⟨s₁, hlock, rfl⟩ := map_eq_some_iff.mp hs'
  refine .of_word_eq (h.lock hlock hholds (relies_kept hpc hrelies)) ?_ hleaves
  obtain ⟨-, rfl⟩ := lock_eq_some hlock
  rfl

theorem Sound.find (h : Inv s) (hpc : s.threads t = p) (hleaves : leavesEvicting s a = none)
    (hheld : p.holds = some f) (hword : s.word f = .evicting) (hholds : q.holds = some f)
    (hrelies : q.relies = some (f, .evicting)) : Sound s a (s.setPc t q) :=
  .of_word_eq (h.find (h.latch t f (hpc ▸ hheld)) hword hholds hrelies) rfl hleaves

/-- A thread stores a word to the frame it relies on, which nobody else watches. -/
theorem Sound.of_relied {w v : FrameState} (h : Inv s) (hpc : s.threads t = p)
    (hfound : p.relies = some (f, v)) (hvalid : v.isValidTransition w = true)
    (hleaves : ∀ g, leavesEvicting s a = some g → g = f ∧ v = .evicting)
    (hinv : s.Unwatched t f → f ∉ s.freeList → Inv s') (hword : s'.word = update s.word f w) :
    Sound s a s' := by
  have hrel : (s.threads t).relies = some (f, v) := hpc ▸ hfound
  have hlisted : f ∉ s.freeList := fun hmem => (h.listed f hmem).2 t v hrel
  obtain rfl := h.found t f v hrel
  exact .of_store (hinv (h.alone t f _ hrel) hlisted) hword hvalid hleaves

theorem Sound.store {w v : FrameState} (h : Inv s) (hpc : s.threads t = p)
    (hfound : p.relies = some (f, v)) (hvalid : v.isValidTransition w = true)
    (hholds : q.holds = p.holds ∨ q.holds = none)
    (hrelies : q.relies = none ∨ q.relies = some (f, w))
    (hleaves : ∀ g, leavesEvicting s a = some g → g = f ∧ v = .evicting) :
    Sound s a ((s.setWord f w).setPc t q) := by
  refine .of_relied h hpc hfound hvalid hleaves (fun halone hlisted =>
    h.store w halone hlisted (h.latch_kept hpc hholds) fun g x hg => ?_) rfl
  rcases hrelies with hnone | heq
  · simp [hnone] at hg
  · simpa [eq_comm] using heq.symm.trans hg

theorem Sound.free {v : FrameState} (h : Inv s) (hpc : s.threads t = p)
    (hfound : p.relies = some (f, v)) (hvalid : v.isValidTransition .free = true)
    (hholds : q.holds = p.holds ∨ q.holds = none) (hrelies : q.relies = none)
    (hleaves : ∀ g, leavesEvicting s a = some g → g = f ∧ v = .evicting) :
    Sound s a ((s.free f).setPc t q) :=
  .of_relied h hpc hfound hvalid hleaves
    (fun halone hlisted => h.free halone hlisted (h.latch_kept hpc hholds) hrelies) rfl

theorem afterStore_holds (f : Fin m) (mode : Mode m) : (afterStore f mode).holds = some f := by
  cases mode <;> rfl

theorem afterStore_relies (f : Fin m) (mode : Mode m) : (afterStore f mode).relies = none := by
  cases mode <;> rfl

theorem afterUnlatch_holds (mode : Mode m) : (afterUnlatch mode).holds = none := by
  cases mode <;> rfl

theorem afterUnlatch_relies (mode : Mode m) : (afterUnlatch mode).relies = none := by
  cases mode <;> rfl

/-! ### The steps with a decision -/

theorem sound_acquirePermit {mode : Mode m} {ok : Bool} (h : Inv s)
    (hpc : s.threads t = .latched f mode) :
    Sound s (.acquirePermit t ok) (acquirePermit s t f mode ok) := by
  simp only [acquirePermit]
  split
  · exact .quiet _ h hpc rfl (.inl rfl) (.inl rfl)
  · exact .quiet _ h hpc rfl (.inl rfl) (.inl rfl)

theorem sound_exchange {mode : Mode m} (h : Inv s) (hpc : s.threads t = .permitted f mode) :
    Sound s (.exchange t) (exchange s t f mode) := by
  have hlatch : s.latch f = some t := h.latch t f (hpc ▸ rfl)
  unfold exchange
  split
  · rename_i hword
    have hlisted : f ∉ s.freeList := h.not_listed (by simp [hword])
    refine .of_store (h.store .evicting (h.unwatched_of_latch hlatch (.inl hword)) hlisted
      (h.latch_kept hpc (.inl rfl)) fun g w hg => ?_) rfl (hword ▸ rfl) nofun
    simpa [Pc.relies, eq_comm] using hg
  · exact .quiet _ h hpc rfl (.inl rfl) (.inl rfl)

theorem sound_decide {mode : Mode m} {ok : Bool} (h : Inv s)
    (hpc : s.threads t = .evicting f mode) :
    Sound s (.decide t ok) (decideFree s t f mode ok) := by
  unfold decideFree
  split
  · rename_i hok
    exact .quiet _ h hpc (by simp [leavesEvicting, hpc, hok]) (.inl rfl) (.inr rfl)
  · refine .store h hpc rfl rfl (.inl (afterStore_holds f mode)) (.inl (afterStore_relies f mode))
      fun g hg => ⟨?_, rfl⟩
    simp_all [leavesEvicting]

/-- The second pass of a batch, with the latch of the candidate or without it. -/
theorem sound_finalLock {todo : List (Fin m)} (h : Inv s)
    (hpc : s.threads t = .finalizing (f :: todo)) (hok : Orderly s (.finalLock t)) :
    Sound s (.finalLock t) (finalLock s t f todo) := by
  simp only [Orderly, hpc] at hok
  unfold finalLock
  split
  · rename_i s₁ hlock
    have hleaves : leavesEvicting s (.finalLock t) = none := by
      simp [leavesEvicting, hpc, hlock]
    exact .lock (q := .finalLatched f todo) h hpc hleaves (by rw [hlock, map_some]) rfl
      (.inl rfl)
  rename_i hlock
  obtain ⟨hword, hnobody⟩ := hok hlock
  have hunwatched : s.Unwatched t f := fun u _ w hw =>
    hnobody u ((h.found u f w hw).symm.trans hword ▸ hw)
  refine .of_store (h.store .resident hunwatched (h.not_listed (by simp [hword])) nofun nofun)
    rfl (hword ▸ rfl) fun g hg => ⟨?_, hword⟩
  simpa [leavesEvicting, hpc, hlock, eq_comm] using hg

theorem sound_loadDone {latched found : Bool} (h : Inv s)
    (hpc : s.threads t = .loading f latched) :
    Sound s (.loadDone t found) (loadDone s t f latched found) := by
  have hholds : (if latched then Pc.unlatching f .single else .idle).holds =
      (Pc.loading f latched).holds := by
    cases latched <;> rfl
  have hrelies : (if latched then Pc.unlatching f .single else .idle).relies = none := by
    cases latched <;> rfl
  cases found
  · exact .free h hpc rfl rfl (.inl hholds) hrelies nofun
  · exact .store h hpc rfl rfl (.inl hholds) (.inl hrelies) nofun

theorem sound_claimIfFree {relied : Option (Fin m × FrameState)} (h : Inv s)
    (hpc : s.threads t = p) (hleaves : leavesEvicting s a = none) (hheld : p.holds = some f)
    (hrelies : p.relies = relied) (hfree : s.word f = .free → relied = some (f, .free)) :
    Sound s a (s.setPc t (claimIfFree s f)) := by
  unfold claimIfFree
  split
  · rename_i hword
    exact .quiet _ h hpc hleaves (.inl hheld.symm) (.inr ((hrelies.trans (hfree hword)).symm))
  · exact .quiet _ h hpc hleaves (.inl hheld.symm) (.inl rfl)

theorem sound_free {mode : Mode m} (h : Inv s) (hpc : s.threads t = .freeing f mode) :
    Sound s (.free t) ((s.free f).setPc t (afterStore f mode)) := by
  refine .free h hpc rfl rfl (.inl (afterStore_holds f mode)) (afterStore_relies f mode)
    fun g hg => ⟨?_, rfl⟩
  simpa [leavesEvicting, hpc, eq_comm] using hg

theorem sound_finalLoad {todo : List (Fin m)} (h : Inv s)
    (hpc : s.threads t = .finalLatched f todo) :
    Sound s (.finalLoad t) (s.setPc t (if s.word f = .evicting then .evicting f (.final todo)
      else .unlatching f (.final todo))) := by
  split
  · exact .find h hpc rfl rfl ‹_› rfl rfl
  · exact .quiet _ h hpc rfl (.inl rfl) (.inl rfl)

theorem sound_rescueCheck {ok : Bool} (h : Inv s) (hpc : s.threads t = .rescueLatched f) :
    Sound s (.rescueCheck t ok) (s.setPc t (if ok ∧ s.word f = .evicting then .rescuing f
      else .unlatching f .single)) := by
  split
  · rename_i hfound
    exact .find h hpc rfl rfl hfound.2 rfl rfl
  · exact .quiet _ h hpc rfl (.inl rfl) (.inl rfl)

theorem sound_rescueStore (h : Inv s) (hpc : s.threads t = .rescuing f) :
    Sound s (.rescueStore t) ((s.setWord f .resident).setPc t (.unlatching f .single)) := by
  refine .store h hpc rfl rfl (.inl rfl) (.inl rfl) fun g hg => ⟨?_, rfl⟩
  simpa [leavesEvicting, hpc, eq_comm] using hg

/-- The store under the latch, which is then dropped or kept. -/
theorem sound_load {keepLatch : Bool} (h : Inv s) (hpc : s.threads t = .claiming f) :
    Sound s (.load t keepLatch)
      ((if keepLatch then s.setWord f .loading else (s.setWord f .loading).unlock f).setPc t
        (.loading f keepLatch)) := by
  have hstored : Sound s (.load t keepLatch) ((s.setWord f .loading).setPc t (.loading f true)) :=
    .store h hpc rfl rfl (.inl rfl) (.inr rfl) (by simp [leavesEvicting])
  cases keepLatch with
  | true => exact hstored
  | false =>
    have hlatch := hstored.inv.latch t f (by simp [State.setPc, Pc.holds])
    have hinv := hstored.inv.unlock (q := .loading f false) hlatch rfl
      (by simp [State.setPc, Pc.relies])
    simp only [State.setPc, State.unlock, update_idem] at hinv
    exact ⟨hinv, hstored.valid, hstored.left⟩

theorem sound_retireStore (h : Inv s) (hpc : s.threads t = .retiring f)
    (hok : Orderly s (.retireStore t)) :
    Sound s (.retireStore t) ((s.free f).setPc t (.unlatching f .single)) := by
  simp only [Orderly, hpc] at hok
  have hunwatched := h.unwatched_of_latch (h.latch t f (hpc ▸ rfl)) (.inr hok)
  exact .of_store (h.free hunwatched (h.not_listed (by simp [hok]))
    (h.latch_kept hpc (.inl rfl)) rfl) rfl (hok ▸ rfl) (by simp [leavesEvicting])

/-- Every step of an orderly run makes allowed changes only. -/
theorem Inv.step (h : Inv s) (hok : Orderly s a) (hs' : FrameStates.step s a = some s') :
    Sound s a s' := by
  cases a <;> simp only [FrameStates.step] at hs'
  case share f | unshare f =>
    obtain ⟨-, hs'⟩ := ite_none_right_eq_some.mp hs'
    cases hs'
    exact .of_word_eq ⟨h.latch, h.found, h.alone, h.distinct, h.listed⟩ rfl rfl
  case startBatch t | endScan t | endBatch t =>
    split at hs' <;> cases hs'
    next hpc => exact .quiet _ h hpc rfl (.inr rfl) (.inl rfl)
  case lockCandidate t f =>
    split at hs'
    next hpc => exact .lock h hpc rfl hs' rfl (.inl rfl)
    next hpc => exact .lock h hpc rfl hs' rfl (.inl rfl)
    next => cases hs'
  case acquirePermit t ok =>
    split at hs' <;> cases hs'
    next hpc => exact sound_acquirePermit h hpc
  case exchange t =>
    split at hs' <;> cases hs'
    next hpc => exact sound_exchange h hpc
  case decide t ok =>
    split at hs' <;> cases hs'
    next hpc => exact sound_decide h hpc
    next hpc => exact sound_decide h hpc
  case free t =>
    split at hs' <;> cases hs'
    next hpc => exact sound_free h hpc
  case dropPermit t | abandon t =>
    split at hs' <;> cases hs'
    next hpc => exact .quiet _ h hpc rfl (.inl rfl) (.inl rfl)
    next hpc => exact .quiet _ h hpc rfl (.inl rfl) (.inl rfl)
  case unlatch t =>
    split at hs' <;> cases hs'
    next mode hpc =>
      exact .unlock h hpc rfl rfl (afterUnlatch_holds mode) (.inl (afterUnlatch_relies mode))
    next hpc => exact .unlock h hpc rfl rfl rfl (.inl rfl)
  case finalLock t =>
    split at hs' <;> cases hs'
    next hpc => exact sound_finalLock h hpc hok
  case finalLoad t =>
    split at hs' <;> cases hs'
    next hpc => exact sound_finalLoad h hpc
  case rescueLock t f | lookupLock t f =>
    split at hs'
    next hpc => exact .lock h hpc rfl hs' rfl (.inl rfl)
    next => cases hs'
  case rescueCheck t ok =>
    split at hs' <;> cases hs'
    next hpc => exact sound_rescueCheck h hpc
  case rescueStore t =>
    split at hs' <;> cases hs'
    next hpc => exact sound_rescueStore h hpc
  case pop t f =>
    split at hs'
    · obtain ⟨hmem, hs'⟩ := ite_none_right_eq_some.mp hs'
      cases hs'
      exact .of_word_eq (h.pop hmem) rfl rfl
    · cases hs'
  case pushBack t =>
    split at hs' <;> cases hs'
    next hpc => exact .of_word_eq (h.push (hpc ▸ rfl) (h.latch_kept hpc (.inl rfl)) rfl) rfl rfl
    next hpc => exact .of_word_eq (h.push (hpc ▸ rfl) (h.latch_kept hpc (.inl rfl)) rfl) rfl rfl
  case fillLock t =>
    split at hs'
    next hpc => exact .lock h hpc rfl hs' rfl (.inr rfl)
    next => cases hs'
  case fillUnlock t =>
    split at hs' <;> cases hs'
    next hpc => exact .unlock h hpc rfl rfl rfl (.inr rfl)
  case allocate t =>
    split at hs' <;> cases hs'
    next hpc => exact .store h hpc rfl rfl (.inl rfl) (.inl rfl) (by simp [leavesEvicting])
  case checkFree t =>
    split at hs' <;> cases hs'
    next hpc => exact sound_claimIfFree h hpc rfl rfl rfl fun _ => rfl
  case load t keepLatch =>
    split at hs' <;> cases hs'
    next hpc => exact sound_load h hpc
  case loadDone t found =>
    split at hs' <;> cases hs'
    next hpc => exact sound_loadDone h hpc
  case claim t =>
    split at hs' <;> cases hs'
    rename_i hpc
    simp only [Orderly, hpc] at hok
    exact sound_claimIfFree h hpc rfl rfl rfl fun hword => absurd hword hok
  case retireLock t f =>
    split at hs'
    · rename_i hpc
      obtain ⟨-, hs'⟩ := ite_none_right_eq_some.mp hs'
      exact .lock h hpc rfl hs' rfl (.inl rfl)
    · cases hs'
  case retireStore t =>
    split at hs' <;> cases hs'
    next hpc => exact sound_retireStore h hpc hok

theorem inv_of_reach (h : Reach step Orderly (new n m) s) : Inv s :=
  h.invariant (inv_new n m) fun _ _ _ hinv hok hs' => (hinv.step hok hs').inv

/-- In every orderly run, of any number of threads over any number of frames, each change of
a state word is an allowed one, and each revert, free or rescue finds its frame `Evicting`:
nobody else has moved it. -/
theorem frame_transitions_valid (hreach : Reach step Orderly (new n m) s) (hok : Orderly s a)
    (hs' : step s a = some s') :
    (∀ f, s'.word f ≠ s.word f → (s.word f).isValidTransition (s'.word f) = true) ∧
      ∀ f, leavesEvicting s a = some f → s.word f = .evicting :=
  have hsound := (inv_of_reach hreach).step hok hs'
  ⟨hsound.valid, hsound.left⟩

end Steps

def allocateRun {n m : Nat} (t : Fin n) (f : Fin m) : List (Action n m) :=
  [.pop t f, .fillLock t, .allocate t, .unlatch t]

def selectRun : List (Action 3 1) :=
  allocateRun 0 0 ++ [.startBatch 0, .lockCandidate 0 0, .acquirePermit 0 true, .exchange 0,
    .unlatch 0, .dropPermit 0, .endScan 0]

def sharedRun : List (Action 3 1) := selectRun ++ [.share 0]

def unconditional : Action 3 1 → Bool
  | .finalLock _ | .claim _ | .retireStore _ => false
  | _ => true

/-- The batch reverts a candidate that a reader has latched. -/
theorem frame_transitions_valid_sharedRun :
    ∃ s s' : State 3 1, Reach step Orderly (new 3 1) s ∧ Orderly s (.finalLock 0) ∧
      step s (.finalLock 0) = some s' ∧ leavesEvicting s (.finalLock 0) = some 0 ∧
      ((∀ f, s'.word f ≠ s.word f → (s.word f).isValidTransition (s'.word f) = true) ∧
        ∀ f, leavesEvicting s (.finalLock 0) = some f → s.word f = .evicting) := by
  have hrun : ((exec (guarded (fun _ => unconditional) step) (new 3 1) sharedRun).any fun s =>
      decide (s.threads 0 = .finalizing [0] ∧ s.word 0 = .evicting ∧
        leavesEvicting s (.finalLock 0) = some 0 ∧
        ∀ u, (s.threads u).relies ≠ some (0, .evicting))) = true := by
    decide +kernel
  obtain ⟨s, hs, hfacts⟩ := (any_eq_true _ _).mp hrun
  obtain ⟨hpc, hword, hleaves, hnobody⟩ := of_decide_eq_true hfacts
  have hreach : Reach step Orderly (new 3 1) s := .of_exec hs fun s a ha => by
    cases a <;> trivial
  have hok : Orderly s (.finalLock 0) := by
    simp only [Orderly, hpc]
    exact fun _ => ⟨hword, hnobody⟩
  have hstep : step s (.finalLock 0) = some (finalLock s 0 0 []) := by
    simp only [step, hpc]
  exact ⟨s, _, hreach, hok, hstep, hleaves, frame_transitions_valid hreach hok hstep⟩

def retiredRun : List (Action 3 1) := allocateRun 0 0 ++ [.retireLock 0 0]

def staleRun : List (Action 3 1) :=
  selectRun ++ [.rescueLock 1 0, .rescueCheck 1 true, .rescueStore 1, .unlatch 1,
    .lockCandidate 2 0, .acquirePermit 2 true, .exchange 2, .decide 2 true, .finalLock 0]

/-- Without the condition a retired frame goes from `Resident` to `Free`; and so does a frame
that thread 2 has checked to be `Evicting`, because the batch of thread 0 has moved it. -/
theorem frame_transition_invalid :
    (∃ s s' : State 3 1, Reach step anyStep (new 3 1) s ∧ step s (.retireStore 0) = some s' ∧
        s.word 0 = .resident ∧ s'.word 0 = .free ∧
        (s.word 0).isValidTransition (s'.word 0) = false) ∧
      ∃ s s' : State 3 1, Reach step anyStep (new 3 1) s ∧ step s (.free 2) = some s' ∧
        leavesEvicting s (.free 2) = some 0 ∧ s.word 0 = .resident ∧ s'.word 0 = .free ∧
        (s.word 0).isValidTransition (s'.word 0) = false := by
  have hretired : ((exec step (new 3 1) retiredRun).any fun s =>
      (step s (.retireStore 0)).any fun s' => decide (s.word 0 = .resident ∧ s'.word 0 = .free ∧
        (s.word 0).isValidTransition (s'.word 0) = false)) = true := by
    decide +kernel
  have hstale : ((exec step (new 3 1) staleRun).any fun s =>
      (step s (.free 2)).any fun s' => decide (leavesEvicting s (.free 2) = some 0 ∧
        s.word 0 = .resident ∧ s'.word 0 = .free ∧
        (s.word 0).isValidTransition (s'.word 0) = false)) = true := by
    decide +kernel
  constructor
  · obtain ⟨s, hs, hnext⟩ := (any_eq_true _ _).mp hretired
    obtain ⟨s', hs', hfacts⟩ := (any_eq_true _ _).mp hnext
    exact ⟨s, s', .of_exec_any hs, hs', of_decide_eq_true hfacts⟩
  · obtain ⟨s, hs, hnext⟩ := (any_eq_true _ _).mp hstale
    obtain ⟨s', hs', hfacts⟩ := (any_eq_true _ _).mp hnext
    exact ⟨s, s', .of_exec_any hs, hs', of_decide_eq_true hfacts⟩

end Pagebox.Storage.FrameStates
