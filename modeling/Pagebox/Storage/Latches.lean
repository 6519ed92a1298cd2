import Mathlib.Data.List.Perm.Basic
import Pagebox.Storage.Writeback

/-!
# What the threads of a pool hold

A thread holds frames latched exclusively, and pages claimed in
`dirty_flush_inflight` and pinned.  In every run a frame is latched by at most
one thread, a page is claimed at most once, and a claimed page stays in its
frame.
-/

namespace Pagebox.Storage.Writeback

open Function List

variable {n m : Nat} {β : Type}

namespace Pc

def holds : Pc m β → List (Fin m)
  | .writer f _ => [f]
  | .flushing held => held
  | .flushWaiting held f => held ++ [f]
  | .flushStoring todo done => todo ++ done
  | .flushClearing todo done => todo ++ done
  | .flushReleasing todo => todo
  | _ => []

def claims : Pc m β → List (DirtyPage m β)
  | .collecting _ batch => batch
  | .storing todo done => todo ++ done
  | .finishing todo done => todo ++ done
  | .releasing todo => todo
  | _ => []

end Pc

section Effects

variable (s : State n m β)

@[simp] theorem setPc_self (t : Fin n) (pc : Pc m β) : (s.setPc t pc).threads t = pc := by
  simp [State.setPc]

theorem setPc_of_ne {t u : Fin n} (h : u ≠ t) (pc : Pc m β) :
    (s.setPc t pc).threads u = s.threads u := by
  simp [State.setPc, h]

@[simp] theorem setPc_frames (t : Fin n) (pc : Pc m β) : (s.setPc t pc).frames = s.frames := rfl

@[simp] theorem setFrame_self (f : Fin m) (fr : Frame n m β) : (s.setFrame f fr).frames f = fr := by
  simp [State.setFrame]

theorem setFrame_of_ne {f g : Fin m} (h : g ≠ f) (fr : Frame n m β) :
    (s.setFrame f fr).frames g = s.frames g := by
  simp [State.setFrame, h]

@[simp] theorem setFrame_threads (f : Fin m) (fr : Frame n m β) :
    (s.setFrame f fr).threads = s.threads := rfl

theorem forall_setFrame {s : State n m β} {f : Fin m} {fr : Frame n m β}
    {P : Fin m → Frame n m β → Prop} (hf : P f fr) (hne : ∀ g, g ≠ f → P g (s.frames g)) :
    ∀ g, P g ((s.setFrame f fr).frames g) := by
  intro g
  by_cases hg : g = f
  · rw [hg, setFrame_self]
    exact hf
  · rw [setFrame_of_ne s hg]
    exact hne g hg

/-- What one thread gives up or keeps, no thread gains. -/
theorem subset_setPc {γ : Type} {s : State n m β} {t : Fin n} {pc : Pc m β}
    (view : Pc m β → List γ) (h : view pc ⊆ view (s.threads t)) (u : Fin n) :
    view ((s.setPc t pc).threads u) ⊆ view (s.threads u) := by
  by_cases hu : u = t
  · rw [hu, setPc_self]
    exact h
  · rw [setPc_of_ne s hu]
    exact List.Subset.refl _

theorem perm_move {γ : Type} (x : γ) (todo done : List γ) :
    (todo ++ (done ++ [x])).Perm (x :: (todo ++ done)) := by
  rw [← append_assoc]
  exact perm_append_singleton x (todo ++ done)

end Effects

structure Owned (s : State n m β) : Prop where
  latched : ∀ t f, f ∈ (s.threads t).holds →
    (s.frames f).latch = some t ∧ (s.frames f).state ≠ .free
  latchedOnce : ∀ t, (s.threads t).holds.Nodup
  claimed : ∀ t d, d ∈ (s.threads t).claims →
    (s.frames d.frame).state = .resident ∧ s.pidOf d.frame = d.pid ∧ t ∈ (s.frames d.frame).pins
  inflight : ∀ t d, d ∈ (s.threads t).claims → d.pid ∈ s.inflight
  claimedOnce : ∀ t, ((s.threads t).claims.map (·.pid)).Nodup
  apart : ∀ t u d e, d ∈ (s.threads t).claims → e ∈ (s.threads u).claims → d.pid = e.pid → t = u

namespace Owned

variable {s s' : State n m β}

theorem eq_of_latched (h : Owned s) {t u : Fin n} {f : Fin m} (ht : f ∈ (s.threads t).holds)
    (hu : f ∈ (s.threads u).holds) : t = u := by
  have hlatch := (h.latched t f ht).1.symm.trans (h.latched u f hu).1
  exact Option.some.inj hlatch

theorem not_latched (h : Owned s) {f : Fin m} (hf : (s.frames f).latch = none) (t : Fin n) :
    f ∉ (s.threads t).holds := by
  intro ht
  rw [(h.latched t f ht).1] at hf
  cases hf

theorem claim_eq (h : Owned s) {t u : Fin n} {d e : DirtyPage m β}
    (hd : d ∈ (s.threads t).claims) (he : e ∈ (s.threads u).claims) (hpid : d.pid = e.pid) :
    t = u ∧ d = e := by
  have htu := h.apart t u d e hd he hpid
  subst htu
  exact ⟨rfl, inj_on_of_nodup_map (h.claimedOnce t) hd he hpid⟩

/-- The rule for a step of thread `t`: it keeps what the other threads hold, and
has what it holds afterwards. -/
theorem of_step (hi : Owned s) (t : Fin n)
    (hothers : ∀ u, u ≠ t → s'.threads u = s.threads u)
    (hlatch : ∀ u f, u ≠ t → (s.frames f).latch = some u → (s.frames f).state ≠ .free →
      (s'.frames f).latch = some u ∧ (s'.frames f).state ≠ .free)
    (hkept : ∀ u f, u ≠ t → (s.frames f).state = .resident → u ∈ (s.frames f).pins →
      (s'.frames f).state = .resident ∧ s'.pidOf f = s.pidOf f ∧ u ∈ (s'.frames f).pins)
    (hinflight : ∀ pid, pid ∈ s.inflight →
      pid ∈ s'.inflight ∨ ∃ d ∈ (s.threads t).claims, d.pid = pid)
    (hholds : ∀ f ∈ (s'.threads t).holds,
      (s'.frames f).latch = some t ∧ (s'.frames f).state ≠ .free)
    (honce : (s'.threads t).holds.Nodup)
    (hclaims : ∀ d ∈ (s'.threads t).claims, ((s'.frames d.frame).state = .resident ∧
      s'.pidOf d.frame = d.pid ∧ t ∈ (s'.frames d.frame).pins) ∧ d.pid ∈ s'.inflight)
    (hclaimsOnce : ((s'.threads t).claims.map (·.pid)).Nodup)
    (hold : ∀ d ∈ (s'.threads t).claims,
      (∃ e ∈ (s.threads t).claims, e.pid = d.pid) ∨ d.pid ∉ s.inflight) : Owned s' := by
  have hforeign : ∀ u, u ≠ t → ∀ d ∈ (s'.threads u).claims,
      ∀ e ∈ (s'.threads t).claims, d.pid ≠ e.pid := by
    intro u hu d hd e he hpid
    rw [hothers u hu] at hd
    rcases hold e he with ⟨e', he', heq⟩ | hnew
    · exact hu (hi.apart u t d e' hd he' (hpid.trans heq.symm))
    · exact hnew (hpid ▸ hi.inflight u d hd)
  constructor
  · intro u f hf
    by_cases hu : u = t
    · subst hu
      exact hholds f hf
    · rw [hothers u hu] at hf
      exact hlatch u f hu (hi.latched u f hf).1 (hi.latched u f hf).2
  · intro u
    by_cases hu : u = t
    · subst hu
      exact honce
    · rw [hothers u hu]
      exact hi.latchedOnce u
  · intro u d hd
    by_cases hu : u = t
    · subst hu
      exact (hclaims d hd).1
    · rw [hothers u hu] at hd
      obtain ⟨hres, hpid, hpin⟩ := hi.claimed u d hd
      obtain ⟨hres', hpid', hpin'⟩ := hkept u d.frame hu hres hpin
      exact ⟨hres', hpid'.trans hpid, hpin'⟩
  · intro u d hd
    by_cases hu : u = t
    · subst hu
      exact (hclaims d hd).2
    · rw [hothers u hu] at hd
      rcases hinflight d.pid (hi.inflight u d hd) with hin | ⟨e, he, hpid⟩
      · exact hin
      · exact absurd (hi.apart u t d e hd he hpid.symm) hu
  · intro u
    by_cases hu : u = t
    · subst hu
      exact hclaimsOnce
    · rw [hothers u hu]
      exact hi.claimedOnce u
  intro u v d e hd he hpid
  by_cases hu : u = t
  · subst hu
    by_contra hv
    exact hforeign v (Ne.symm hv) e he d hd hpid.symm
  by_cases hv : v = t
  · subst hv
    exact absurd hpid (hforeign u hu d hd e he)
  · rw [hothers u hu] at hd
    rw [hothers v hv] at he
    exact hi.apart u v d e hd he hpid

/-- The rule for a step that reorders what its thread holds and touches no latch
and no pin. -/
theorem of_perm (hi : Owned s) (t : Fin n)
    (hothers : ∀ u, u ≠ t → s'.threads u = s.threads u)
    (hframes : ∀ f, (s'.frames f).state = (s.frames f).state ∧ s'.pidOf f = s.pidOf f ∧
      (s'.frames f).pins = (s.frames f).pins ∧ (s'.frames f).latch = (s.frames f).latch)
    (hinflight : s'.inflight = s.inflight)
    (hholds : (s'.threads t).holds.Perm (s.threads t).holds)
    (hclaims : (s'.threads t).claims.Perm (s.threads t).claims) : Owned s' := by
  apply hi.of_step t hothers
  · intro u f _ hlatch hlive
    rw [(hframes f).1, (hframes f).2.2.2]
    exact ⟨hlatch, hlive⟩
  · intro u f _ hres hpin
    obtain ⟨hstate, hpid, hpins, -⟩ := hframes f
    rw [hstate, hpins]
    exact ⟨hres, hpid, hpin⟩
  · intro pid hpid
    rw [hinflight]
    exact .inl hpid
  · intro f hf
    rw [(hframes f).1, (hframes f).2.2.2]
    exact hi.latched t f (hholds.subset hf)
  · exact hholds.nodup_iff.mpr (hi.latchedOnce t)
  · intro d hd
    obtain ⟨hstate, hpid, hpins, -⟩ := hframes d.frame
    rw [hstate, hpid, hpins, hinflight]
    exact ⟨hi.claimed t d (hclaims.subset hd), hi.inflight t d (hclaims.subset hd)⟩
  · exact (hclaims.map _).nodup_iff.mpr (hi.claimedOnce t)
  · intro d hd
    exact .inl ⟨d, hclaims.subset hd, rfl⟩

theorem setPc (hi : Owned s) (t : Fin n) (pc : Pc m β) (hholds : pc.holds.Perm (s.threads t).holds)
    (hclaims : pc.claims.Perm (s.threads t).claims) : Owned (s.setPc t pc) := by
  apply hi.of_perm t
  · intro u hu
    exact setPc_of_ne s hu pc
  · intro f
    exact ⟨rfl, rfl, rfl, rfl⟩
  · rfl
  · simpa using hholds
  · simpa using hclaims

theorem setFrame (hi : Owned s) {f : Fin m} {fr : Frame n m β}
    (hframe : fr.state = (s.frames f).state ∧ fr.core.pid = s.pidOf f ∧
      fr.pins = (s.frames f).pins ∧ fr.latch = (s.frames f).latch) :
    Owned (s.setFrame f fr) := by
  have hframes : ∀ g, ((s.setFrame f fr).frames g).state = (s.frames g).state ∧
      (s.setFrame f fr).pidOf g = s.pidOf g ∧
      ((s.setFrame f fr).frames g).pins = (s.frames g).pins ∧
      ((s.setFrame f fr).frames g).latch = (s.frames g).latch := by
    intro g
    by_cases hg : g = f
    · subst hg
      simpa [State.pidOf] using hframe
    · simp [State.pidOf, setFrame_of_ne s hg]
  constructor
  · intro t g hg
    rw [(hframes g).1, (hframes g).2.2.2]
    exact hi.latched t g hg
  · exact hi.latchedOnce
  · intro t d hd
    rw [(hframes _).1, (hframes _).2.1, (hframes _).2.2.1]
    exact hi.claimed t d hd
  · exact hi.inflight
  · exact hi.claimedOnce
  · exact hi.apart

theorem setFrame_setPc (hi : Owned s) {t : Fin n} {pc : Pc m β} {f : Fin m} {fr : Frame n m β}
    (hframe : fr.state = (s.frames f).state ∧ fr.core.pid = s.pidOf f ∧
      fr.pins = (s.frames f).pins ∧ fr.latch = (s.frames f).latch)
    (hholds : pc.holds.Perm (s.threads t).holds)
    (hclaims : pc.claims.Perm (s.threads t).claims) : Owned ((s.setFrame f fr).setPc t pc) :=
  (hi.setFrame hframe).setPc t pc hholds hclaims

/-- A change of a frame that nobody has pinned or latched. -/
theorem setFrame_unpinned (hi : Owned s) {f : Fin m} {fr : Frame n m β}
    (hpins : (s.frames f).state = .resident → (s.frames f).pins = [])
    (hlatch : fr.latch = (s.frames f).latch)
    (hfree : fr.state = .free → (s.frames f).latch = none) : Owned (s.setFrame f fr) := by
  have hclaim : ∀ t d, d ∈ (s.threads t).claims → d.frame ≠ f := by
    intro t d hd heq
    obtain ⟨hres, -, hpin⟩ := hi.claimed t d hd
    rw [heq] at hres hpin
    rw [hpins hres] at hpin
    cases hpin
  constructor
  · intro t g hg
    have hheld := hi.latched t g hg
    by_cases hgf : g = f
    · subst hgf
      rw [setFrame_self, hlatch]
      refine ⟨hheld.1, fun hstate => ?_⟩
      rw [hfree hstate] at hheld
      cases hheld.1
    · rw [setFrame_of_ne s hgf]
      exact hheld
  · exact hi.latchedOnce
  · intro t d hd
    rw [State.pidOf, setFrame_of_ne s (hclaim t d hd)]
    exact hi.claimed t d hd
  · exact hi.inflight
  · exact hi.claimedOnce
  · exact hi.apart

variable {su : Setup n} {t : Fin n} {f : Fin m}

theorem relatch (hi : Owned s) {fr : Frame n m β} {pc : Pc m β}
    (hpc : (s.threads t).claims = [] ∧ pc.claims = [])
    (hfr : fr.state = (s.frames f).state ∧ fr.core.pid = s.pidOf f)
    (hpins : ∀ u, u ≠ t → u ∈ (s.frames f).pins → u ∈ fr.pins)
    (hlatch : ∀ u, u ≠ t → (s.frames f).latch ≠ some u)
    (hholds : ∀ g ∈ pc.holds, (g = f ∧ fr.latch = some t ∧ fr.state ≠ .free) ∨
      (g ≠ f ∧ g ∈ (s.threads t).holds))
    (honce : pc.holds.Nodup) : Owned ((s.setFrame f fr).setPc t pc) := by
  apply hi.of_step t
  · intro u hu
    exact setPc_of_ne _ hu pc
  · intro u g hu hg hlive
    have hgf : g ≠ f := by
      intro heq
      exact hlatch u hu (heq ▸ hg)
    rw [setPc_frames, setFrame_of_ne s hgf]
    exact ⟨hg, hlive⟩
  · intro u g hu hres hpin
    by_cases hgf : g = f
    · subst hgf
      simp only [State.pidOf, setPc_frames, setFrame_self]
      exact ⟨hfr.1.trans hres, hfr.2, hpins u hu hpin⟩
    · simp only [State.pidOf, setPc_frames, setFrame_of_ne s hgf]
      exact ⟨hres, trivial, hpin⟩
  · intro pid hpid
    exact .inl hpid
  · intro g hg
    rw [setPc_self] at hg
    rcases hholds g hg with ⟨rfl, htaken⟩ | ⟨hgf, hheld⟩
    · simpa using htaken
    · rw [setPc_frames, setFrame_of_ne s hgf]
      exact hi.latched t g hheld
  · simpa using honce
  · simp [hpc.2]
  · simp [hpc.2]
  · simp [hpc.2]

theorem lock (hi : Owned s) (h : s.lock t f = some s') : Owned s' := by
  obtain ⟨hpc, hres, hlatch, rfl⟩ := lock_cases h
  apply hi.relatch
  · simp [hpc, Pc.claims]
  · exact ⟨rfl, rfl⟩
  · intro u _ hu
    exact mem_cons_of_mem t hu
  · simp [hlatch]
  · simp [Pc.holds, hres]
  · simp [Pc.holds]

theorem unlock (hi : Owned s) (h : s.unlock t = some s') : Owned s' := by
  obtain ⟨f, hpc, rfl⟩ := unlock_cases h
  have hlatch : (s.frames f).latch = some t := (hi.latched t f (by simp [hpc, Pc.holds])).1
  apply hi.relatch
  · simp [hpc, Pc.claims]
  · exact ⟨rfl, rfl⟩
  · intro u hu hpin
    exact (mem_erase_of_ne hu).mpr hpin
  · intro u hu heq
    exact hu (Option.some.inj (heq.symm.trans hlatch))
  · simp [Pc.holds]
  · simp [Pc.holds]

theorem flushLock (hi : Owned s) (h : s.flushLock t f = some s') : Owned s' := by
  obtain ⟨held, hpc, ⟨hlive, -, hlatch⟩, rfl⟩ := flushLock_cases h
  have hnew : f ∉ held := by
    have := hi.not_latched hlatch t
    simpa [hpc, Pc.holds] using this
  have honce : held.Nodup := by
    have := hi.latchedOnce t
    simpa [hpc, Pc.holds] using this
  apply hi.relatch
  · simp [hpc, Pc.claims]
  · exact ⟨rfl, rfl⟩
  · intro u _ hu
    exact hu
  · simp [hlatch]
  · intro g hg
    rcases mem_append.mp hg with hg | hg
    · refine .inr ⟨fun heq => hnew (heq ▸ hg), ?_⟩
      simpa [hpc, Pc.holds] using hg
    · exact .inl ⟨mem_singleton.mp hg, rfl, hlive⟩
  · exact nodup_append.mpr ⟨honce, nodup_singleton f, by
      intro a ha b hb heq
      exact hnew (mem_singleton.mp hb ▸ heq ▸ ha)⟩

theorem flushUnlatchNext (hi : Owned s) (h : s.flushUnlatchNext t = some s') : Owned s' := by
  obtain ⟨f, todo, hpc, rfl⟩ := flushUnlatchNext_cases h
  have hlatch : (s.frames f).latch = some t := (hi.latched t f (by simp [hpc, Pc.holds])).1
  have honce := hi.latchedOnce t
  simp only [hpc, Pc.holds, nodup_cons] at honce
  apply hi.relatch
  · simp [hpc, Pc.claims]
  · exact ⟨rfl, rfl⟩
  · intro u _ hu
    exact hu
  · intro u hu heq
    exact hu (Option.some.inj (heq.symm.trans hlatch))
  · intro g hg
    refine .inr ⟨fun heq => honce.1 (heq ▸ hg), ?_⟩
    simpa [hpc, Pc.holds] using .inr hg
  · exact honce.2

theorem copyDirty (hi : Owned s) (h : s.copyDirty su t f = some s') : Owned s' := by
  obtain ⟨mode, batch, hpc, ⟨hres, -, -, -, hfree⟩, rfl⟩ := copyDirty_cases h
  have hclaims : (s.threads t).claims = batch := by simp [hpc, Pc.claims]
  have hlatched : ∀ g, (update s.frames f { s.frames f with
      pins := t :: (s.frames f).pins } g).latch = (s.frames g).latch ∧
      (update s.frames f { s.frames f with
        pins := t :: (s.frames f).pins } g).state = (s.frames g).state := by
    intro g
    by_cases hg : g = f
    · simp [hg]
    · simp [hg]
  have hpinned : ∀ u g, (s.frames g).state = .resident → u ∈ (s.frames g).pins →
      (update s.frames f { s.frames f with pins := t :: (s.frames f).pins } g).state = .resident ∧
        (update s.frames f { s.frames f with pins := t :: (s.frames f).pins } g).core =
          (s.frames g).core ∧
        u ∈ (update s.frames f { s.frames f with pins := t :: (s.frames f).pins } g).pins := by
    intro u g hg hu
    by_cases hgf : g = f
    · subst hgf
      simpa using ⟨hg, .inr hu⟩
    · simpa [hgf] using ⟨hg, hu⟩
  apply hi.of_step t
  · intro u hu
    exact setPc_of_ne _ hu _
  · intro u g _ hg hlive
    rw [← (hlatched g).1, ← (hlatched g).2] at *
    exact ⟨hg, hlive⟩
  · intro u g _ hg hpin
    obtain ⟨h₁, h₂, h₃⟩ := hpinned u g hg hpin
    exact ⟨h₁, congrArg FrameCore.pid h₂, h₃⟩
  · intro pid hpid
    exact .inl (mem_cons_of_mem _ hpid)
  · simp [Pc.holds]
  · simp [Pc.holds]
  · intro d hd
    simp only [setPc_self, Pc.claims, mem_append, mem_singleton] at hd
    rcases hd with hd | rfl
    · obtain ⟨hg, hpid, hpin⟩ := hi.claimed t d (hclaims ▸ hd)
      obtain ⟨h₁, h₂, h₃⟩ := hpinned t d.frame hg hpin
      exact ⟨⟨h₁, (congrArg FrameCore.pid h₂).trans hpid, h₃⟩,
        mem_cons_of_mem _ (hi.inflight t d (hclaims ▸ hd))⟩
    · exact ⟨by simpa [State.pidOf] using hres, mem_cons_self⟩
  · have honce := hi.claimedOnce t
    rw [hclaims] at honce
    simp only [setPc_self, Pc.claims, map_append, map_cons, map_nil]
    refine nodup_append.mpr ⟨honce, nodup_singleton _, ?_⟩
    intro a ha b hb hab
    obtain ⟨d, hd, rfl⟩ := mem_map.mp ha
    have hpid : d.pid = (s.frames f).core.pid := hab.trans (mem_singleton.mp hb)
    exact hfree (hpid ▸ hi.inflight t d (hclaims ▸ hd))
  · intro d hd
    simp only [setPc_self, Pc.claims, mem_append, mem_singleton] at hd
    rcases hd with hd | rfl
    · exact .inl ⟨d, hclaims ▸ hd, rfl⟩
    · exact .inr hfree

theorem releaseNext (hi : Owned s) (h : s.releaseNext t = some s') : Owned s' := by
  obtain ⟨d, todo, hpc, rfl⟩ := releaseNext_cases h
  have hclaims : (s.threads t).claims = d :: todo := by simp [hpc, Pc.claims]
  have hmem : ∀ {e}, e ∈ todo → e ∈ (s.threads t).claims := fun he =>
    hclaims ▸ mem_cons_of_mem d he
  have honce := hi.claimedOnce t
  simp only [hclaims, map_cons, nodup_cons] at honce
  have hother : ∀ e ∈ todo, e.pid ≠ d.pid := by
    intro e he heq
    exact honce.1 (mem_map.mpr ⟨e, he, heq⟩)
  have hframe : ∀ e ∈ todo, e.frame ≠ d.frame := by
    intro e he heq
    have hd := (hi.claimed t d (hclaims ▸ mem_cons_self)).2.1
    exact hother e he ((hi.claimed t e (hmem he)).2.1.symm.trans (heq ▸ hd))
  apply hi.of_step t
  · intro u hu
    exact setPc_of_ne _ hu _
  · intro u g _ hg hlive
    by_cases hgf : g = d.frame
    · subst hgf
      simpa using ⟨hg, hlive⟩
    · simpa [setFrame_of_ne s hgf] using ⟨hg, hlive⟩
  · intro u g hu hres hpin
    by_cases hgf : g = d.frame
    · subst hgf
      simpa [State.pidOf] using ⟨hres, (mem_erase_of_ne hu).mpr hpin⟩
    · simpa [State.pidOf, setFrame_of_ne s hgf] using ⟨hres, hpin⟩
  · intro pid hpid
    by_cases heq : pid = d.pid
    · exact .inr ⟨d, hclaims ▸ mem_cons_self, heq.symm⟩
    · exact .inl ((mem_erase_of_ne heq).mpr hpid)
  · simp [Pc.holds]
  · simp [Pc.holds]
  · intro e he
    simp only [setPc_self, Pc.claims] at he
    have hkept := hi.claimed t e (hmem he)
    refine ⟨?_, (mem_erase_of_ne (hother e he)).mpr (hi.inflight t e (hmem he))⟩
    simpa [State.pidOf, setFrame_of_ne s (hframe e he)] using hkept
  · simpa [Pc.claims] using honce.2
  · intro e he
    simp only [setPc_self, Pc.claims] at he
    exact .inl ⟨e, hmem he, rfl⟩

theorem nextPhase (hi : Owned s) (h : s.nextPhase t = some s') : Owned s' := by
  unfold State.nextPhase at h
  split at h
  all_goals first
    | cases h; done
    | skip
  all_goals
    rename_i hpc
    cases h
    apply hi.setPc <;> simp [hpc, Pc.holds, Pc.claims]

theorem step {a : Action n m β} (hi : Owned s) (h : step su s a = some s') : Owned s' := by
  cases a with
  | lock t f => exact hi.lock h
  | mutate t links rest =>
    obtain ⟨f, changed, hpc, -, rfl⟩ := mutate_cases h
    apply hi.setFrame_setPc
    · exact ⟨rfl, rfl, rfl, rfl⟩
    · simp [hpc, Pc.holds]
    · simp [hpc, Pc.claims]
  | mark t record =>
    obtain ⟨f, changed, core, hpc, hpid, -, -, -, rfl⟩ := mark_cases h
    have howned : Owned ((s.setFrame f { s.frames f with
        page := { (s.frames f).page with lsn := s.lsnFor su t }, core := core }).setPc t
          (.writer f false)) := by
      apply hi.setFrame_setPc
      · exact ⟨rfl, hpid, rfl, rfl⟩
      · simp [hpc, Pc.holds]
      · simp [hpc, Pc.claims]
    exact ⟨howned.1, howned.2, howned.3, howned.4, howned.5, howned.6⟩
  | unlock t => exact hi.unlock h
  | startClean t mode =>
    obtain ⟨hpc, rfl⟩ := start_cases h
    apply hi.setPc <;> simp [hpc, Pc.holds, Pc.claims]
  | copyDirty t f => exact hi.copyDirty h
  | endScan t =>
    obtain ⟨mode, batch, hpc, ⟨rfl, rfl⟩ | ⟨-, rfl⟩⟩ := endScan_cases h <;>
      apply hi.setPc <;> simp [hpc, Pc.holds, Pc.claims]
  | storeNext t =>
    obtain ⟨d, todo, done, hpc, rfl⟩ := storeNext_cases h
    have howned : Owned (s.writePage d.pid d.copy) := ⟨hi.1, hi.2, hi.3, hi.4, hi.5, hi.6⟩
    apply howned.setPc
    · simp [State.writePage, hpc, Pc.holds]
    · simpa [State.writePage, hpc, Pc.claims] using perm_move d todo done
  | finishNext t =>
    obtain ⟨d, todo, done, hpc, -, ⟨-, rfl⟩ | rfl⟩ := finishNext_cases h
    · apply hi.setFrame_setPc
      · exact ⟨rfl, rfl, rfl, rfl⟩
      · simp [hpc, Pc.holds]
      · simpa [hpc, Pc.claims] using perm_move d todo done
    · apply hi.setPc
      · simp [hpc, Pc.holds]
      · simpa [hpc, Pc.claims] using perm_move d todo done
  | releaseNext t => exact hi.releaseNext h
  | startFlush t =>
    obtain ⟨hpc, rfl⟩ := start_cases h
    apply hi.setPc <;> simp [hpc, Pc.holds, Pc.claims]
  | flushLock t f => exact hi.flushLock h
  | flushDurable t =>
    obtain ⟨held, f, hpc, -, rfl⟩ := flushDurable_cases h
    apply hi.setPc <;> simp [hpc, Pc.holds, Pc.claims]
  | endFlushScan t =>
    obtain ⟨held, hpc, ⟨rfl, rfl⟩ | rfl⟩ := endFlushScan_cases h <;>
      apply hi.setPc <;> simp [hpc, Pc.holds, Pc.claims]
  | flushStoreNext t =>
    obtain ⟨f, todo, done, hpc, rfl⟩ := flushStoreNext_cases h
    have howned : Owned (s.writePage (s.pidOf f) ((s.frames f).page.prepare s.pidOf)) :=
      ⟨hi.1, hi.2, hi.3, hi.4, hi.5, hi.6⟩
    apply howned.setPc
    · simpa [State.writePage, hpc, Pc.holds] using perm_move f todo done
    · simp [State.writePage, hpc, Pc.claims]
  | flushClearNext t =>
    obtain ⟨f, todo, done, hpc, rfl⟩ := flushClearNext_cases h
    apply hi.setFrame_setPc
    · exact ⟨rfl, rfl, rfl, rfl⟩
    · simpa [hpc, Pc.holds] using perm_move f todo done
    · simp [hpc, Pc.claims]
  | flushUnlatchNext t => exact hi.flushUnlatchNext h
  | nextPhase t => exact hi.nextPhase h
  | evictBegin f =>
    obtain ⟨⟨-, hpins, hlatch, -⟩, h⟩ := Option.ite_none_right_eq_some.mp h
    cases h
    exact hi.setFrame_unpinned (fun _ => hpins) rfl fun _ => hlatch
  | evictRevert f =>
    obtain ⟨hstate, h⟩ := Option.ite_none_right_eq_some.mp h
    cases h
    exact hi.setFrame_unpinned (by simp [hstate]) rfl (by simp)
  | evictFinish f =>
    obtain ⟨⟨-, hpins, hlatch, -⟩, h⟩ := Option.ite_none_right_eq_some.mp h
    cases h
    exact hi.setFrame_unpinned (fun _ => hpins) rfl fun _ => hlatch
  | load f pid =>
    obtain ⟨⟨hstate, -⟩, h⟩ := Option.ite_none_right_eq_some.mp h
    cases h
    exact hi.setFrame_unpinned (by simp [hstate]) rfl (by simp)
  | setLink f i link =>
    obtain ⟨-, h⟩ := Option.ite_none_right_eq_some.mp h
    cases h
    exact hi.setFrame ⟨rfl, rfl, rfl, rfl⟩
  | publishDurable shard lsn =>
    cases h
    exact ⟨hi.1, hi.2, hi.3, hi.4, hi.5, hi.6⟩

theorem opened (store : Nat → Page m β) (blank : β) (nextLsn : Nat)
    (durableLsn : Nat → Nat) :
    Owned (State.opened store blank nextLsn durableLsn : State n m β) := by
  constructor <;> simp [State.opened, Pc.holds, Pc.claims]

end Owned

end Pagebox.Storage.Writeback
