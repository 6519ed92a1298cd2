import Pagebox.Storage.FreePageSafety

/-!
# Conservation of page numbers

In a sequential history every page number below the high-water mark is in exactly one
place: in use, in one extent of a hot bucket or of the central freelist, or in the unused
tail of the monotonic range of a shard.  `FreePageSafety` shows that no page is in two
places; this module shows that none is lost, and that the monotonic ranges are used only
when the freelists are empty.
-/

namespace Pagebox.Storage.FreePageAllocator

open Pagebox.Base Function
open Option hiding min_le_left
open List hiding Disjoint

def State.Quiescent (s : State) : Prop := ∀ t, (s.threads t).pc = .idle

/-- One call at a time, and only pages in use are promoted. -/
def Sequential (s : State) : Action → Prop
  | .call _ _ => s.Quiescent
  | .run _ => True
  | .promote e => s.Quiescent ∧ ∀ p, e.Contains p → InUse s.firstPageNumber s.history p

/-- The place of a page between two calls; an extent is given by its place in its list. -/
inductive Holder
  | allocated
  | hot (shard bucket k : Nat)
  | central (k : Nat)
  | tail (shard : Nat)
  deriving DecidableEq

def Holds (s : State) (p : Nat) : Holder → Prop
  | .allocated => InUse s.firstPageNumber s.history p
  | .hot i b k => i < s.shardCount ∧ b < hotBucketLimits.length ∧
      ∃ e : FreeExtent, (s.bucket i b)[k]? = some e ∧ e.Contains p
  | .central k => ∃ e : FreeExtent, s.central.byStartPageNumber[k]? = some e ∧ e.Contains p
  | .tail i => i < s.shardCount ∧ (s.mono i).nextPageNumber ≤ p ∧ p < (s.mono i).endPageNumber

/-- The page numbers below the high-water mark are the disjoint union of the pages that
the holders hold. -/
structure Conserved (s : State) : Prop where
  below : ∀ p h, Holds s p h → 0 < p ∧ p < s.globalNextPageNumber
  unique : ∀ p, 0 < p → p < s.globalNextPageNumber → ∃! h, Holds s p h

def Pc.grows : Pc → Bool
  | .fetchNext _ => true
  | .loadEnd _ _ => true
  | .lockRefill => true
  | .reserve => true
  | .storeEnd _ => true
  | .storeNext _ => true
  | _ => false

def State.Dry (s : State) : Prop :=
  (∀ i b, s.bucket i b = []) ∧ s.central.byStartPageNumber = []

/-! ## One call at a time -/

/-- What a call knows at each of its steps: where it has looked without success, and that
the range of its shard is used up when it reserves a new one. -/
def Knows (s : State) (idx : Nat) : Pc → Prop
  | .idle => True
  | .pop .own _ => True
  | .pop .ownAfterRefill b => (∀ c < b, s.bucket idx c = []) ∧
      (s.central.byStartPageNumber = [] ∨ ∃ c, b ≤ c ∧ s.bucket idx c ≠ [])
  | .pop (.steal k) b => k < s.shardCount ∧ s.central.byStartPageNumber = [] ∧
      (∀ j < k, ∀ c, s.bucket ((idx + j) % s.shardCount) c = []) ∧
      ∀ c < b, s.bucket ((idx + k) % s.shardCount) c = []
  | .push i e .retryOwn => i = idx ∧ e.len ≤ hotRefillBatch
  | .push i _ (.finish _) => i < s.shardCount
  | .refillBatch => True
  | .refillOne => True
  | .centralFit => s.Dry
  | .fetchNext _ => s.Dry
  | .loadEnd _ next => s.Dry ∧ (s.mono idx).nextPageNumber = next + 1
  | .lockRefill => s.Dry
  | .reserve => s.Dry ∧ (s.mono idx).endPageNumber ≤ (s.mono idx).nextPageNumber
  | .storeEnd _ => s.Dry ∧ (s.mono idx).endPageNumber ≤ (s.mono idx).nextPageNumber
  | .storeNext _ => s.Dry
  | .ret _ => True
  | .panicked => False

/-- Every page number below the mark is somewhere. -/
def Covered (s : State) : Prop :=
  ∀ p, 0 < p → p < s.globalNextPageNumber → ∃ x, x ≠ .fresh ∧ p ∈ held s x

/-- Only thread `t` may be in a call. -/
structure Call (s : State) (t : Nat) : Prop where
  shards : 0 < s.shardCount
  alone : ∀ u, u ≠ t → (s.threads u).pc = .idle
  shard : (s.threads t).pc ≠ .idle → (s.threads t).shardIdx < s.shardCount
  inside : ∀ i b, s.bucket i b ≠ [] → i < s.shardCount ∧ b < hotBucketLimits.length
  ranges : ∀ i, s.shardCount ≤ i → (s.mono i).endPageNumber = 0
  knows : Knows s (s.threads t).shardIdx (s.threads t).pc
  covered : Covered s

theorem Covered.of_keeps {s s' : State} (h : Covered s) (hkeeps : Keeps (held s) (held s') .fresh)
    (hglobal : s'.globalNextPageNumber = s.globalNextPageNumber) : Covered s' := by
  intro p hpos hlt
  rw [hglobal] at hlt
  obtain ⟨x, hx, hp⟩ := h p hpos hlt
  exact hkeeps x hx p hp

section Call

variable {s s' : State} {t : Nat}

theorem Call.not_installing (h : Call s t) (hpc : ∀ start, (s.threads t).pc ≠ .storeNext start)
    (i : Nat) : ¬Installing s i := by
  rintro ⟨u, start, hu⟩
  by_cases hut : u = t
  · subst hut
    exact hpc start (by rw [hu])
  · have := h.alone u hut
    rw [hu] at this
    cases this

/-- A step that only moves the thread on, without losing what it has in hand. -/
theorem covered_updateThread {th : Thread} (h : Covered s)
    (hold : ∀ start, (s.threads t).pc ≠ .storeNext start)
    (hnew : ∀ start, th.pc ≠ .storeNext start)
    (hsub : held s (.thread t) ⊆ pcPages (s.mono th.shardIdx).endPageNumber th.pc) :
    Covered { s with threads := update s.threads t th } := by
  refine h.of_keeps ?_ rfl
  rw [held_updateThread hold hnew]
  refine Keeps.of_subset fun x _ => ?_
  by_cases hx : x = .thread t
  · subst hx
    rwa [update_self]
  · rw [update_of_ne hx]

/-- The rule of a step: the call goes on with `pc` in a state with the same threads. -/
theorem Call.goOn {s₁ : State} {pc : Pc} (h : Call s t) (hactive : (s.threads t).pc ≠ .idle)
    (hsame : s₁.threads = s.threads ∧ s₁.shardCount = s.shardCount ∧
      s₁.globalNextPageNumber = s.globalNextPageNumber)
    (hinside : ∀ i b, s₁.bucket i b ≠ [] → i < s.shardCount ∧ b < hotBucketLimits.length)
    (hranges : ∀ i, s.shardCount ≤ i → (s₁.mono i).endPageNumber = 0)
    (hknows : Knows (s₁.setPc t pc) (s.threads t).shardIdx pc)
    (hkeeps : Keeps (held s) (held (s₁.setPc t pc)) .fresh) : Call (s₁.setPc t pc) t where
  shards := hsame.2.1 ▸ h.shards
  alone u hu := by
    rw [setPc_threads_ne _ hu, hsame.1]
    exact h.alone u hu
  shard _ := by
    rw [setPc_shardIdx, hsame.1]
    exact hsame.2.1 ▸ h.shard hactive
  inside i b hne := hsame.2.1 ▸ hinside i b hne
  ranges i hi := hranges i (hsame.2.1 ▸ hi)
  knows := by
    rw [setPc_threads_self, hsame.1]
    exact hknows
  covered := h.covered.of_keeps hkeeps hsame.2.2

theorem Call.setPc {pc : Pc} (h : Call s t) (hactive : (s.threads t).pc ≠ .idle)
    (hold : ∀ start, (s.threads t).pc ≠ .storeNext start) (hnew : ∀ start, pc ≠ .storeNext start)
    (hsub : held s (.thread t) ⊆ pcPages (s.mono (s.threads t).shardIdx).endPageNumber pc)
    (hknows : Knows s (s.threads t).shardIdx pc) : Call (s.setPc t pc) t := by
  have hsub : ∀ x, held s x ⊆ held (s.setPc t pc) x := by
    intro x
    rw [held_setPc hold hnew]
    by_cases hx : x = .thread t
    · subst hx
      rwa [update_self]
    · rw [update_of_ne hx]
  exact h.goOn hactive ⟨rfl, rfl, rfl⟩ h.inside h.ranges hknows (Keeps.of_subset fun x _ => hsub x)

/-- The shards a call has stolen from, together with its own, are all shards. -/
theorem exists_offset {n idx i : Nat} (hidx : idx < n) (hi : i < n) :
    ∃ j < n, (idx + j) % n = i := by
  refine ⟨(i + n - idx) % n, Nat.mod_lt _ (by omega), ?_⟩
  rw [Nat.add_mod_mod, show idx + (i + n - idx) = i + n by omega, Nat.add_mod_right,
    Nat.mod_eq_of_lt hi]

/-- The buckets of all shards are empty once those of every offset are. -/
theorem Call.dry (h : Call s t) (hidx : (s.threads t).shardIdx < s.shardCount)
    (hcentral : s.central.byStartPageNumber = [])
    (hempty : ∀ j < s.shardCount, ∀ c,
      s.bucket (((s.threads t).shardIdx + j) % s.shardCount) c = []) : s.Dry := by
  refine ⟨fun i b => ?_, hcentral⟩
  by_contra hne
  obtain ⟨hi, -⟩ := h.inside i b hne
  obtain ⟨j, hj, rfl⟩ := exists_offset hidx hi
  exact hne (hempty j hj b)

theorem empty_succ {idx b : Nat} (hbefore : ∀ c < b, s.bucket idx c = [])
    (hb : s.bucket idx b = []) : ∀ c < b + 1, s.bucket idx c = [] := by
  intro c hc
  rcases Nat.lt_succ_iff_lt_or_eq.mp hc with hc | rfl
  · exact hbefore c hc
  · exact hb

theorem Call.empty_all (h : Call s t) {idx b : Nat} (hlast : ¬b + 1 < hotBucketLimits.length)
    (hbefore : ∀ c < b + 1, s.bucket idx c = []) (c : Nat) : s.bucket idx c = [] := by
  by_contra hne
  obtain ⟨-, hc⟩ := h.inside idx c hne
  exact hne (hbefore c (by omega))

theorem Call.knows_miss (h : Call s t) {source : Source} {b : Nat}
    (hpc : (s.threads t).pc = .pop source b)
    (hb : s.bucket (s.sourceShard t source) b = []) :
    Knows s (s.threads t).shardIdx
      (if b + 1 < hotBucketLimits.length then .pop source (b + 1) else s.afterMiss source) := by
  have hknows := h.knows
  have hidx := h.shard (by simp [hpc])
  rw [hpc] at hknows
  set idx := (s.threads t).shardIdx
  cases source with
  | own =>
    split
    · trivial
    · trivial
  | ownAfterRefill =>
    obtain ⟨hbefore, hrest⟩ := hknows
    have hbefore := empty_succ hbefore hb
    split
    next =>
      refine ⟨hbefore, hrest.imp_right fun ⟨c, hbc, hc⟩ => ⟨c, ?_, hc⟩⟩
      by_contra hlt
      exact hc (hbefore c (by omega))
    next hlast =>
      have hempty := h.empty_all hlast hbefore
      have hcentral : s.central.byStartPageNumber = [] := by
        rcases hrest with hrest | ⟨c, -, hc⟩
        · exact hrest
        · exact absurd (hempty c) hc
      have hown : ∀ j < 1, ∀ c, s.bucket ((idx + j) % s.shardCount) c = [] := by
        intro j hj c
        rw [Nat.lt_one_iff.mp hj, Nat.add_zero, Nat.mod_eq_of_lt hidx]
        exact hempty c
      simp only [State.afterMiss]
      split
      next hmore => exact ⟨hmore, hcentral, hown, fun c hc => (Nat.not_lt_zero c hc).elim⟩
      next hone => exact h.dry hidx hcentral fun j hj => hown j (by omega)
  | steal k =>
    obtain ⟨hk, hcentral, hshards, hbefore⟩ := hknows
    have hbefore := empty_succ hbefore hb
    split
    next => exact ⟨hk, hcentral, hshards, hbefore⟩
    next hlast =>
      have hempty := h.empty_all hlast hbefore
      have hshards : ∀ j < k + 1, ∀ c, s.bucket ((idx + j) % s.shardCount) c = [] := by
        intro j hj c
        rcases Nat.lt_succ_iff_lt_or_eq.mp hj with hj | rfl
        · exact hshards j hj c
        · exact hempty c
      simp only [State.afterMiss]
      split
      next hmore =>
        exact ⟨hmore, hcentral, hshards, fun c hc => (Nat.not_lt_zero c hc).elim⟩
      next hdone => exact h.dry hidx hcentral fun j hj => hshards j (by omega)

theorem afterMiss_ne (s : State) (source : Source) (start : Nat) :
    s.afterMiss source ≠ .storeNext start := by
  cases source <;> simp only [State.afterMiss] <;> (try split) <;> simp

theorem Call.popStep (h : Call s t) {source : Source} {b : Nat}
    (hpc : (s.threads t).pc = .pop source b) (hstep : s.popStep t source b = some s') :
    Call s' t := by
  have hold : ∀ start, (s.threads t).pc ≠ .storeNext start := by simp [hpc]
  have hhands : held s (.thread t) = ∅ := by simp [held, hpc, pcPages]
  simp only [State.popStep] at hstep
  cases hqueue : s.bucket (s.sourceShard t source) b with
  | nil =>
    simp only [hqueue, Option.some.injEq] at hstep
    subst hstep
    refine h.setPc (by simp [hpc]) hold ?_ (hhands ▸ Set.empty_subset _) (h.knows_miss hpc hqueue)
    intro start
    split
    · simp
    · exact afterMiss_ne s source start
  | cons e rest =>
    simp only [hqueue, bind_eq_bind, bind_eq_some_iff] at hstep
    obtain ⟨⟨a, r⟩, hsplit, hstep⟩ := hstep
    obtain ⟨hpages, -⟩ := extentPages_split hsplit
    obtain ⟨ha, hr, -⟩ := splitHead_spec hsplit
    set i := s.sourceShard t source
    obtain ⟨hi, hb⟩ := h.inside i b (by simp [hqueue])
    -- the thread has the whole extent in hand
    set pc' : Pc := if 0 < r.len then .push i r (.finish a.startPageNumber)
      else .ret a.startPageNumber with hpc'
    have hpc'ne : ∀ start, pc' ≠ .storeNext start := by
      intro start
      rw [hpc']
      split <;> simp
    have hhead : extentPages a ⊆ {a.startPageNumber} := by
      intro p hp
      rw [ha, mem_extentPages] at hp
      rw [ha, Set.mem_singleton_iff]
      simp only at hp ⊢
      omega
    have hsub : ∀ stop, extentPages e ⊆ pcPages stop pc' := by
      intro stop p hp
      rw [hpages] at hp
      rw [hpc']
      split
      next =>
        rcases hp with hp | hp
        · exact .inl (hhead hp)
        · exact .inr hp
      next hzero =>
        rcases hp with hp | hp
        · exact hhead hp
        · rw [mem_extentPages] at hp
          omega
    cases hstep
    refine h.goOn (by simp [hpc]) ⟨rfl, rfl, rfl⟩ (fun j c hne => ?_) (fun j hj => ?_) ?_ ?_
    · by_cases hjc : (j, c) = (i, b)
      · cases hjc
        exact ⟨hi, hb⟩
      · rw [setBucket_bucket_ne i b rest hjc] at hne
        exact h.inside j c hne
    · rw [setBucket_mono]
      exact h.ranges j hj
    · rw [hpc']
      split
      · exact hi
      · trivial
    rw [held_setPc (s := s.setBucket i b rest) hold hpc'ne, held_setBucket]
    refine Keeps.of_update (by simp) (by simp) (by simp) ?_ ?_
    · intro p hp
      simp only [held, hqueue, listPages_cons] at hp
      rcases hp with hp | hp
      · exact .inr (hsub _ hp)
      · exact .inl hp
    · rw [hhands]
      exact Set.empty_subset _

theorem hotBucketForLen_lt {len b : Nat} (h : hotBucketForLen len = some b) :
    b < hotBucketLimits.length :=
  (List.findIdx?_eq_some_iff_getElem.mp h).1

theorem hotBucketForLen_refill {len : Nat} (h : len ≤ hotRefillBatch) :
    ∃ b, hotBucketForLen len = some b := by
  cases hb : hotBucketForLen len with
  | some b => exact ⟨b, rfl⟩
  | none =>
    have := List.findIdx?_eq_none_iff.mp hb hotRefillBatch (by decide)
    simp [h] at this

/-- `return_remainder` changes one queue or the central freelist. -/
theorem returnRemainder_cases {i : Nat} {e : FreeExtent} (h : s.returnRemainder i e = some s') :
    (∃ b, hotBucketForLen e.len = some b ∧ s' = s.setBucket i b (s.bucket i b ++ [e])) ∨
      ∃ c, hotBucketForLen e.len = none ∧ s' = { s with central := c } := by
  unfold State.returnRemainder at h
  split at h
  next b hb =>
    cases h
    exact .inl ⟨b, hb, rfl⟩
  next hb =>
    obtain ⟨c, -, rfl⟩ := map_eq_some_iff.mp h
    exact .inr ⟨c, hb, rfl⟩

theorem Call.pushStep (hinv : Inv s) (h : Call s t) {i : Nat} {e : FreeExtent} {after : AfterPush}
    (hpc : (s.threads t).pc = .push i e after) (hstep : s.pushStep t i e after = some s') :
    Call s' t := by
  simp only [State.pushStep, bind_eq_bind, bind_eq_some_iff] at hstep
  obtain ⟨s₁, hput, hstep⟩ := hstep
  cases hstep
  have hwf := hinv.lists.pending t
  have hknows := h.knows
  have hidx := h.shard (by simp [hpc])
  rw [hpc] at hwf hknows
  have hi : i < s.shardCount := by
    cases after with
    | finish page => exact hknows
    | retryOwn => exact hknows.1 ▸ hidx
  -- what the thread has in hand is the extent and the page it returns
  have hhands : (0 < e.startPageNumber ∧ 0 < e.len) ∧ extentPages e ⊆ held s (.thread t) ∧
      ∀ stop, held s (.thread t) ⊆ extentPages e ∪ pcPages stop after.resume := by
    cases after with
    | finish page =>
      refine ⟨⟨hwf.1, hwf.2.1⟩, ?_, fun stop p hp => ?_⟩
      · simp only [held, hpc, pcPages]
        exact Set.subset_insert _ _
      · simp only [held, hpc, pcPages] at hp
        rcases hp with rfl | hp
        · exact .inr rfl
        · exact .inl hp
    | retryOwn =>
      refine ⟨hwf, ?_, fun stop p hp => ?_⟩
      · simp only [held, hpc, pcPages]
        exact subset_rfl
      · simp only [held, hpc, pcPages] at hp
        exact .inl hp
  obtain ⟨hpos, hin, hleft⟩ := hhands
  have hresume : ∀ start, after.resume ≠ .storeNext start := by
    cases after <;> simp [AfterPush.resume]
  obtain ⟨dst, hdst, hheld, -, -, hthreads, -⟩ := returnRemainder_spec hinv hpos hin hput
  have hold : ∀ start, (s₁.threads t).pc ≠ .storeNext start := by simp [hthreads, hpc]
  have hdstne : dst ≠ .fresh := by
    rintro rfl
    have : s₁.globalNextPageNumber = s.globalNextPageNumber := by
      rcases returnRemainder_cases hput with ⟨b, -, rfl⟩ | ⟨c, -, rfl⟩ <;> rfl
    have hfresh := congrFun hheld .fresh
    have hmem : e.startPageNumber ∈ held s .fresh := by
      have : held s₁ .fresh = held s .fresh := by simp only [held, this]
      rw [← this, hfresh]
      exact .inr (start_mem_extentPages hpos.2)
    exact hinv.ledger.once.not_mem (i := .thread t) (j := .fresh) (by simp)
      (hin (start_mem_extentPages hpos.2)) hmem
  have hsame : s₁.shardCount = s.shardCount ∧ (∀ j, s₁.mono j = s.mono j) ∧
      s₁.globalNextPageNumber = s.globalNextPageNumber ∧
      ∀ j c, s₁.bucket j c ≠ [] → j < s.shardCount ∧ c < hotBucketLimits.length := by
    rcases returnRemainder_cases hput with ⟨b, hb, rfl⟩ | ⟨c, -, rfl⟩
    · refine ⟨rfl, fun j => setBucket_mono _ _ _ j, rfl, fun j c hne => ?_⟩
      by_cases hjc : (j, c) = (i, b)
      · cases hjc
        exact ⟨hi, hotBucketForLen_lt hb⟩
      · rw [setBucket_bucket_ne i b _ hjc] at hne
        exact h.inside j c hne
    · exact ⟨rfl, fun _ => rfl, rfl, h.inside⟩
  obtain ⟨hcount, hmono, hglobal, hinside⟩ := hsame
  refine h.goOn (by simp [hpc]) ⟨hthreads, hcount, hglobal⟩ hinside (fun j hj => ?_) ?_ ?_
  · rw [hmono]
    exact h.ranges j hj
  · cases after with
    | finish page => trivial
    | retryOwn =>
      -- the refilled queue of the own shard will be found
      obtain ⟨rfl, hlen⟩ := hknows
      obtain ⟨b, hb⟩ := hotBucketForLen_refill hlen
      refine ⟨fun c hc => (Nat.not_lt_zero c hc).elim, .inr ⟨b, Nat.zero_le b, ?_⟩⟩
      rcases returnRemainder_cases hput with ⟨b', hb', rfl⟩ | ⟨c, hnone, -⟩
      · rw [hb] at hb'
        cases hb'
        simp
      · rw [hb] at hnone
        cases hnone
  rw [held_setPc hold hresume, hheld, update_comm hdst]
  refine Keeps.of_update hdst.symm (by simp) hdstne ?_ ?_
  · intro p hp
    rcases hleft _ hp with hp | hp
    · exact .inr (.inr hp)
    · exact .inl hp
  · exact fun p hp => .inr (.inl hp)

/-- A best-fit allocation of one page fails only on an empty freelist. -/
theorem central_nil_of_miss {c c' : CentralInner} (hok : c.Ok)
    (h : c.allocateBestFit 1 = some (none, c')) : c.byStartPageNumber = [] := by
  rcases allocateBestFit_spec hok h with ⟨-, -, hshort⟩ | ⟨x, -, hfound, -⟩
  · refine eq_nil_iff_forall_not_mem.mpr fun e he => ?_
    have := hshort e he
    have := (hok.canonical.valid e he).2.1
    omega
  · cases hfound

theorem Call.fitStep (hinv : Inv s) (h : Call s t) {len : Nat} {hit : FreeExtent → Pc} {miss : Pc}
    (hactive : (s.threads t).pc ≠ .idle) (hold : ∀ start, (s.threads t).pc ≠ .storeNext start)
    (hhands : held s (.thread t) = ∅)
    (hmiss : ∀ c, s.central.allocateBestFit len = some (none, c) →
      (∀ start, miss ≠ .storeNext start) ∧ Knows s (s.threads t).shardIdx miss)
    (hhit : ∀ a : FreeExtent, a.len = len → s.central.byStartPageNumber ≠ [] →
      (∀ start, hit a ≠ .storeNext start) ∧ (∀ stop, extentPages a ⊆ pcPages stop (hit a)) ∧
        ∀ c, Knows { s with central := c } (s.threads t).shardIdx (hit a))
    (hstep : s.fitStep t len hit miss = some s') : Call s' t := by
  simp only [State.fitStep, bind_eq_bind, bind_eq_some_iff] at hstep
  obtain ⟨⟨found, c⟩, hfit, hstep⟩ := hstep
  cases hstep
  rcases allocateBestFit_spec hinv.lists.central hfit with ⟨rfl, rfl, -⟩ | hfound
  · obtain ⟨hne, hknows⟩ := hmiss _ hfit
    exact h.setPc hactive hold hne (hhands ▸ Set.empty_subset _) hknows
  obtain ⟨x, hx, rfl, -, -, -, -, -, hpages⟩ := hfound
  set a : FreeExtent := ⟨x.startPageNumber, len⟩
  obtain ⟨hne, hin, hknows⟩ := hhit a rfl (ne_nil_of_mem hx)
  refine h.goOn hactive ⟨rfl, rfl, rfl⟩ h.inside h.ranges (hknows c) ?_
  rw [held_setPc (s := { s with central := c }) hold hne, held_central (s := s) c]
  have hne : Place.central ≠ .thread t := by simp
  refine Keeps.of_update hne (by simp) (by simp) ?_ (hhands ▸ Set.empty_subset _)
  intro p hp
  by_cases hpa : p ∈ extentPages a
  · exact .inr (hin _ hpa)
  · refine .inl ?_
    rw [hpages]
    exact ⟨hp, hpa⟩

theorem Call.refillBatch (hinv : Inv s) (h : Call s t) (hpc : (s.threads t).pc = .refillBatch)
    (hstep : s.fitStep t (min hotRefillBatch 256)
      (fun e => .push (s.threads t).shardIdx e .retryOwn) .refillOne = some s') : Call s' t := by
  refine h.fitStep hinv (by simp [hpc]) (by simp [hpc]) (by simp [held, hpc, pcPages]) ?_ ?_ hstep
  · exact fun _ _ => ⟨by simp, trivial⟩
  · intro a ha _
    exact ⟨by simp, fun _ => subset_rfl, fun _ => ⟨rfl, ha.trans_le (min_le_left _ _)⟩⟩

theorem Call.refillOne (hinv : Inv s) (h : Call s t) (hpc : (s.threads t).pc = .refillOne)
    (hstep : s.fitStep t 1 (fun e => .push (s.threads t).shardIdx e .retryOwn)
      (.pop .ownAfterRefill 0) = some s') : Call s' t := by
  refine h.fitStep hinv (by simp [hpc]) (by simp [hpc]) (by simp [held, hpc, pcPages]) ?_ ?_ hstep
  · intro c hc
    refine ⟨by simp, fun c hc => (Nat.not_lt_zero c hc).elim, .inl ?_⟩
    exact central_nil_of_miss hinv.lists.central hc
  · intro a ha _
    exact ⟨by simp, fun _ => subset_rfl, fun _ => ⟨rfl, ha.trans_le (by decide)⟩⟩

theorem Call.centralFit (hinv : Inv s) (h : Call s t) (hpc : (s.threads t).pc = .centralFit)
    (hstep : s.fitStep t 1 (fun e => .ret e.startPageNumber) (.fetchNext false) = some s') :
    Call s' t := by
  have hdry : s.Dry := by
    have := h.knows
    rwa [hpc] at this
  refine h.fitStep hinv (by simp [hpc]) (by simp [hpc]) (by simp [held, hpc, pcPages]) ?_ ?_ hstep
  · exact fun _ _ => ⟨by simp, hdry⟩
  · exact fun a _ hfull => absurd hdry.2 hfull

/-- A step of the growth path leaves the freelists. -/
theorem dry_setMonotonic {i : Nat} {m : MonotonicRange} {pc : Pc} (h : s.Dry) :
    ((s.setMonotonic i m).setPc t pc).Dry :=
  ⟨fun j b => by rw [setPc_bucket, setMonotonic_bucket]; exact h.1 j b, h.2⟩

theorem Call.setMonotonic {m : MonotonicRange} {pc : Pc} (h : Call s t)
    (hactive : (s.threads t).pc ≠ .idle) (hold : ∀ start, (s.threads t).pc ≠ .storeNext start)
    (hnew : ∀ start, pc ≠ .storeNext start)
    (hend : m.endPageNumber = (s.mono (s.threads t).shardIdx).endPageNumber)
    (htail : ∀ p, (s.mono (s.threads t).shardIdx).nextPageNumber ≤ p → p < m.endPageNumber →
      m.nextPageNumber ≤ p ∨ p ∈ pcPages m.endPageNumber pc)
    (hhands : held s (.thread t) ⊆ pcPages m.endPageNumber pc)
    (hknows : Knows ((s.setMonotonic (s.threads t).shardIdx m).setPc t pc)
      (s.threads t).shardIdx pc) :
    Call ((s.setMonotonic (s.threads t).shardIdx m).setPc t pc) t := by
  have hmono : ∀ j, ((s.setMonotonic (s.threads t).shardIdx m).mono j).endPageNumber =
      (s.mono j).endPageNumber := by
    intro j
    by_cases hj : j = (s.threads t).shardIdx
    · subst hj
      rw [setMonotonic_mono_self, hend]
    · rw [setMonotonic_mono_ne m hj]
  refine h.goOn hactive ⟨rfl, rfl, rfl⟩ (fun j c hne => ?_) (fun j hj => ?_) hknows ?_
  · rw [setMonotonic_bucket] at hne
    exact h.inside j c hne
  · rw [hmono]
    exact h.ranges j hj
  have hheld : held ((s.setMonotonic (s.threads t).shardIdx m).setPc t pc) = _ :=
    held_setPc (s := s.setMonotonic (s.threads t).shardIdx m) hold hnew
  rw [hheld, held_setMonotonic hend]
  refine Keeps.of_update (by simp) (by simp) (by simp) ?_ ?_
  · rintro p ⟨hinst, hle, hlt⟩
    rw [← hend] at hlt
    rcases htail p hle hlt with hp | hp
    · exact .inl ⟨hinst, hp, hlt⟩
    · refine .inr ?_
      have hidx : ((s.setMonotonic (s.threads t).shardIdx m).threads t).shardIdx =
          (s.threads t).shardIdx := rfl
      rwa [hidx, hmono, ← hend]
  intro p hp
  refine .inr ?_
  have hidx : ((s.setMonotonic (s.threads t).shardIdx m).threads t).shardIdx =
      (s.threads t).shardIdx := rfl
  rw [hidx, hmono, ← hend]
  exact hhands hp

/-- A call that ran out of page numbers; no other call is under way. -/
structure Panicked (s : State) (t : Nat) : Prop where
  pc : (s.threads t).pc = .panicked
  alone : ∀ u, u ≠ t → (s.threads u).pc = .idle

theorem Call.panicked {i : Nat} {m : MonotonicRange} (h : Call s t)
    (hthreads : s'.threads = s.threads) :
    Panicked ((s'.setMonotonic i m).setPc t .panicked) t := by
  refine ⟨by rw [setPc_threads_self], fun u hu => ?_⟩
  rw [setPc_threads_ne _ hu]
  change (s'.threads u).pc = _
  rw [hthreads]
  exact h.alone u hu

theorem Call.fetchNextStep (hinv : Inv s) (h : Call s t) {locked : Bool}
    (hpc : (s.threads t).pc = .fetchNext locked) (hstep : s.fetchNextStep t locked = some s') :
    StepSafe s (.run t) ∧ Call s' t ∨ Panicked s' t := by
  have hold : ∀ start, (s.threads t).pc ≠ .storeNext start := by simp [hpc]
  have hhands : held s (.thread t) = ∅ := by simp [held, hpc, pcPages]
  have hdry : s.Dry := by
    have := h.knows
    rwa [hpc] at this
  have hinst := h.not_installing hold
  simp only [State.fetchNextStep] at hstep
  simp only [StepSafe, hpc]
  set i := (s.threads t).shardIdx with hi
  set next := (s.mono i).nextPageNumber with hnext
  split at hstep
  next hzero =>
    have hend : (s.mono i).endPageNumber = 0 := (hinv.cursors.unset i hzero).resolve_left (hinst i)
    cases hstep
    have hwrap : next + 1 < u64Limit := by
      rw [hzero]
      decide
    refine .inl ⟨⟨hwrap, fun hin => absurd hin (hinst i)⟩, ?_⟩
    refine h.setMonotonic (by simp [hpc]) hold (fun start => (afterTry_ne locked start).2) rfl ?_
      (hhands ▸ Set.empty_subset _) ?_
    · intro p _ hlt
      simp only [hend] at hlt
      exact absurd hlt (Nat.not_lt_zero p)
    cases locked with
    | false => exact dry_setMonotonic hdry
    | true =>
      refine ⟨dry_setMonotonic hdry, ?_⟩
      rw [setPc_mono, setMonotonic_mono_self]
      exact hend.trans_le (Nat.zero_le _)
  next =>
    split at hstep
    next hwrap =>
      cases hstep
      rw [Nat.mod_eq_of_lt hwrap]
      refine .inl ⟨⟨hwrap, fun hin => absurd hin (hinst i)⟩, ?_⟩
      refine h.setMonotonic (by simp [hpc]) hold (by simp) rfl ?_ (hhands ▸ Set.empty_subset _) ?_
      · intro p hle hlt
        rcases Nat.lt_or_eq_of_le hle with hlt' | rfl
        · exact .inl hlt'
        · exact .inr ⟨rfl, hlt⟩
      · refine ⟨dry_setMonotonic hdry, ?_⟩
        rw [setPc_mono, setMonotonic_mono_self]
    next =>
      cases hstep
      exact .inr (h.panicked rfl)

theorem Call.loadEndStep (h : Call s t) {locked : Bool} {next : Nat}
    (hpc : (s.threads t).pc = .loadEnd locked next)
    (hstep : s.loadEndStep t locked next = some s') : Call s' t := by
  have hold : ∀ start, (s.threads t).pc ≠ .storeNext start := by simp [hpc]
  obtain ⟨hdry, hnext⟩ : s.Dry ∧ (s.mono (s.threads t).shardIdx).nextPageNumber = next + 1 := by
    have := h.knows
    rwa [hpc] at this
  have hhands : ∀ p ∈ held s (.thread t), p = next ∧
      next + 1 ≤ (s.mono (s.threads t).shardIdx).endPageNumber := by
    intro p hp
    simpa only [held, hpc, pcPages, Set.mem_ofPred_eq] using hp
  simp only [State.loadEndStep] at hstep
  split at hstep
  next hle =>
    cases hstep
    have hsame : ∀ m : MonotonicRange, (State.unlock locked m).nextPageNumber = m.nextPageNumber ∧
          (State.unlock locked m).endPageNumber = m.endPageNumber := by
      intro m
      cases locked <;> exact ⟨rfl, rfl⟩
    refine h.setMonotonic (by simp [hpc]) hold (by simp) (hsame _).2 ?_ ?_ trivial
    · intro p hp _
      rw [(hsame _).1]
      exact .inl hp
    · exact fun p hp => (hhands p hp).1
  next hgt =>
    cases hstep
    refine h.setPc (by simp [hpc]) hold (fun start => (afterTry_ne locked start).2) ?_ ?_
    · exact fun p hp => absurd (hhands p hp).2 hgt
    · cases locked with
      | false => exact hdry
      | true => exact ⟨hdry, by omega⟩

theorem Call.lockRefillStep (h : Call s t) (hpc : (s.threads t).pc = .lockRefill)
    (hstep : s.lockRefillStep t = some s') : Call s' t := by
  have hold : ∀ start, (s.threads t).pc ≠ .storeNext start := by simp [hpc]
  have hdry : s.Dry := by
    have := h.knows
    rwa [hpc] at this
  obtain ⟨-, hstep⟩ := ite_none_right_eq_some.mp hstep
  cases hstep
  refine h.setMonotonic (by simp [hpc]) hold (by simp) rfl (fun p hp _ => .inl hp) ?_ ?_
  · simp [held, hpc, pcPages]
  · exact dry_setMonotonic hdry

theorem Call.reserveStep (h : Call s t) (hpc : (s.threads t).pc = .reserve)
    (hstep : s.reserveStep t = some s') : StepSafe s (.run t) ∧ Call s' t ∨ Panicked s' t := by
  have hold : ∀ start, (s.threads t).pc ≠ .storeNext start := by simp [hpc]
  have hknows := h.knows
  rw [hpc] at hknows
  set start := s.globalNextPageNumber with hstart
  simp only [State.reserveStep] at hstep
  split at hstep
  next hroom =>
    rw [← hstart, Nat.mod_eq_of_lt hroom.2] at hstep
    cases hstep
    simp only [StepSafe, hpc]
    refine .inl ⟨hroom.2, ?_⟩
    set s₁ : State := { s with
      globalNextPageNumber := start + monotonicRefillBasePages
      history := .reserved start monotonicRefillBasePages :: s.history } with hs₁
    refine ⟨h.shards, ?_, ?_, h.inside, h.ranges, ?_, ?_⟩
    · intro u hu
      rw [setPc_threads_ne _ hu]
      exact h.alone u hu
    · intro _
      rw [setPc_shardIdx]
      exact h.shard (by simp [hpc])
    · rw [setPc_threads_self]
      exact hknows
    intro p hppos hlt
    change ∃ x, x ≠ .fresh ∧ p ∈ held (s₁.setPc t (.storeEnd start)) x
    rw [held_setPc (s := s₁) hold (by simp)]
    by_cases hp : p < start
    · -- the pages below the old mark stay where they are
      obtain ⟨x, hx, hmem⟩ := h.covered p hppos hp
      have hxt : x ≠ .thread t := by
        rintro rfl
        simp [held, hpc, pcPages] at hmem
      refine ⟨x, hx, ?_⟩
      rw [update_of_ne hxt]
      cases x with
      | fresh => exact absurd rfl hx
      | _ => exact hmem
    · refine ⟨.thread t, by simp, ?_⟩
      rw [update_self]
      exact ⟨by omega, hlt⟩
  next =>
    cases hstep
    exact .inr (h.panicked rfl)

/-- A store of `install_reserved_tail`; the pages of the own range and of the thread are
accounted for by the caller. -/
theorem Call.install {m : MonotonicRange} {pc : Pc} (h : Call s t)
    (hactive : (s.threads t).pc ≠ .idle)
    (hknows : Knows ((s.setMonotonic (s.threads t).shardIdx m).setPc t pc)
      (s.threads t).shardIdx pc)
    (hrange : ∀ p ∈ held s (.mono (s.threads t).shardIdx),
      p ∈ held ((s.setMonotonic (s.threads t).shardIdx m).setPc t pc) (.thread t))
    (hhands : ∀ p ∈ held s (.thread t), ∃ x : Place, x ≠ .fresh ∧
      p ∈ held ((s.setMonotonic (s.threads t).shardIdx m).setPc t pc) x) :
    Call ((s.setMonotonic (s.threads t).shardIdx m).setPc t pc) t := by
  have hidx := h.shard hactive
  refine h.goOn hactive ⟨rfl, rfl, rfl⟩ (fun j c hne => ?_) (fun j hj => ?_) hknows ?_
  · rw [setMonotonic_bucket] at hne
    exact h.inside j c hne
  · rw [setMonotonic_mono_ne m (by omega)]
    exact h.ranges j hj
  intro x hx p hp
  by_cases hxt : x = .thread t
  · subst hxt
    exact hhands p hp
  by_cases hxm : x = .mono (s.threads t).shardIdx
  · subst hxm
    exact ⟨.thread t, by simp, hrange p hp⟩
  · refine ⟨x, hx, ?_⟩
    rwa [held_install hxm fun u hu => ⟨fun hut => hxt (hut ▸ hu), fun _ => ?_⟩]
    rw [h.alone u fun hut => hxt (hut ▸ hu)]
    rfl

theorem Call.storeEndStep (h : Call s t) {start : Nat} (hpc : (s.threads t).pc = .storeEnd start)
    (hstep : s.storeEndStep t start = some s') : StepSafe s (.run t) ∧ Call s' t := by
  obtain ⟨hdry, hused⟩ : s.Dry ∧ (s.mono (s.threads t).shardIdx).endPageNumber ≤
      (s.mono (s.threads t).shardIdx).nextPageNumber := by
    have := h.knows
    rwa [hpc] at this
  simp only [StepSafe, hpc]
  refine ⟨?_, ?_⟩
  · intro u locked n hu hpc'
    have := h.alone u hu
    rw [hpc'] at this
    cases this
  cases hstep
  refine h.install (by simp [hpc]) (dry_setMonotonic hdry) ?_ ?_
  · rintro p ⟨-, hle, hlt⟩
    omega
  · intro p hp
    refine ⟨.thread t, by simp, ?_⟩
    simp only [held, hpc, setPc_threads_self] at hp ⊢
    exact hp

theorem Call.storeNextStep (hinv : Inv s) (h : Call s t) {start : Nat}
    (hpc : (s.threads t).pc = .storeNext start) (hstep : s.storeNextStep t start = some s') :
    Call s' t := by
  have hend := hinv.cursors.stored t start hpc
  have hself : s.threads t = ⟨(s.threads t).shardIdx, .storeNext start⟩ := by rw [← hpc]
  cases hstep
  refine h.install (by simp [hpc]) trivial ?_ ?_
  · rintro p ⟨hinst, -⟩
    exact absurd ⟨t, start, hself⟩ hinst
  intro p hp
  simp only [held, hpc] at hp
  obtain ⟨hle, hlt⟩ : start ≤ p ∧ p < start + monotonicRefillBasePages := hp
  rcases Nat.lt_or_eq_of_le hle with hlt' | rfl
  · -- the rest of the block is the new range
    refine ⟨.mono (s.threads t).shardIdx, by simp, ?_, ?_⟩
    · rintro ⟨u, start', hu⟩
      by_cases hut : u = t
      · subst hut
        rw [setPc_threads_self] at hu
        cases hu
      · rw [setPc_threads_ne _ hut] at hu
        have := h.alone u hut
        change (s.threads u) = _ at hu
        rw [hu] at this
        cases this
    · rw [setPc_mono, setMonotonic_mono_self]
      exact ⟨hlt', hlt.trans_eq hend.symm⟩
  · refine ⟨.thread t, by simp, ?_⟩
    simp only [held, setPc_threads_self]
    rfl

/-! ### Calls, returns and promotions -/

theorem Call.retStep (h : Call s t) {page : Nat} (hpc : (s.threads t).pc = .ret page)
    (hstep : s.retStep t page = some s') : Call s' t := by
  have hold : ∀ start, (s.threads t).pc ≠ .storeNext start := by simp [hpc]
  cases hstep
  refine ⟨h.shards, ?_, ?_, h.inside, h.ranges, ?_, ?_⟩
  · intro u hu
    rw [setPc_threads_ne _ hu]
    exact h.alone u hu
  · intro hactive
    rw [setPc_threads_self] at hactive
    exact absurd rfl hactive
  · rw [setPc_threads_self]
    trivial
  refine h.covered.of_keeps ?_ rfl
  intro x hx p hp
  by_cases hxt : x = .thread t
  · subst hxt
    simp only [held, hpc] at hp
    exact ⟨.user, by simp, .inl hp⟩
  have hsame : p ∈ held (s.setPc t .idle) x := by
    rwa [held_setPc hold (by simp), update_of_ne hxt]
  refine ⟨x, hx, ?_⟩
  cases x with
  | user => exact .inr hp
  | _ => exact hsame

theorem Call.call {hint u : Nat} (h : Call s t) (hidle : s.Quiescent)
    (hstep : step s (.call u hint) = some s') : Call s' u := by
  obtain ⟨-, hstep⟩ := ite_none_right_eq_some.mp hstep
  cases hstep
  refine ⟨h.shards, ?_, ?_, h.inside, h.ranges, ?_, ?_⟩
  · intro v hv
    simp only [update_of_ne hv]
    exact hidle v
  · intro _
    simp only [update_self]
    exact Nat.mod_lt _ h.shards
  · simp only [update_self]
    trivial
  · refine covered_updateThread h.covered (by simp [hidle u]) (by simp) ?_
    simp [held, hidle u, pcPages]

theorem Call.promote (hinv : Inv s) (h : Call s t) {e : FreeExtent} (hidle : s.Quiescent)
    (hstep : step s (.promote e) = some s') : Call s' t := by
  obtain ⟨hpos, hstep⟩ := ite_none_right_eq_some.mp hstep
  obtain ⟨c, hc, rfl⟩ := map_eq_some_iff.mp hstep
  obtain ⟨-, hpages⟩ := hinv.lists.central.insert hpos hc
  refine ⟨h.shards, h.alone, h.shard, h.inside, h.ranges, ?_, ?_⟩
  · simp only [hidle t]
    trivial
  refine h.covered.of_keeps ?_ rfl
  intro x hx p hp
  cases x with
  | central =>
    refine ⟨.central, by simp, ?_⟩
    simp only [held, hpages]
    exact .inr hp
  | user =>
    by_cases hpe : e.Contains p
    · refine ⟨.central, by simp, ?_⟩
      simp only [held, hpages]
      exact .inl hpe
    · exact ⟨.user, by simp, hp, hpe⟩
  | bucket i b => exact ⟨.bucket i b, by simp, hp⟩
  | thread u => exact ⟨.thread u, by simp, hp⟩
  | mono i => exact ⟨.mono i, by simp, hp⟩
  | fresh => exact absurd rfl hx

theorem Call.run (hinv : Inv s) (h : Call s t) (hstep : s.runStep t = some s') :
    Inv s' ∧ Call s' t ∨ Panicked s' t := by
  have hrun := hstep
  -- the steps on which safety puts no condition
  have hplain : Call s' t → StepSafe s (.run t) → Inv s' ∧ Call s' t ∨ Panicked s' t :=
    fun hcall hsafe => .inl ⟨runStep_inv hinv hsafe hrun, hcall⟩
  unfold State.runStep at hstep
  cases hpc : (s.threads t).pc with
  | idle => simp [hpc] at hstep
  | panicked => simp [hpc] at hstep
  | pop source b =>
    exact hplain (h.popStep hpc (by simpa only [hpc] using hstep)) (by simp [StepSafe, hpc])
  | push i e after =>
    exact hplain (h.pushStep hinv hpc (by simpa only [hpc] using hstep)) (by simp [StepSafe, hpc])
  | refillBatch =>
    exact hplain (h.refillBatch hinv hpc (by simpa only [hpc] using hstep))
      (by simp [StepSafe, hpc])
  | refillOne =>
    exact hplain (h.refillOne hinv hpc (by simpa only [hpc] using hstep)) (by simp [StepSafe, hpc])
  | centralFit =>
    exact hplain (h.centralFit hinv hpc (by simpa only [hpc] using hstep)) (by simp [StepSafe, hpc])
  | fetchNext locked =>
    rcases h.fetchNextStep hinv hpc (by simpa only [hpc] using hstep) with ⟨hsafe, hcall⟩ | hpanic
    · exact hplain hcall hsafe
    · exact .inr hpanic
  | loadEnd locked next =>
    exact hplain (h.loadEndStep hpc (by simpa only [hpc] using hstep)) (by simp [StepSafe, hpc])
  | lockRefill =>
    exact hplain (h.lockRefillStep hpc (by simpa only [hpc] using hstep)) (by simp [StepSafe, hpc])
  | reserve =>
    rcases h.reserveStep hpc (by simpa only [hpc] using hstep) with ⟨hsafe, hcall⟩ | hpanic
    · exact hplain hcall hsafe
    · exact .inr hpanic
  | storeEnd start =>
    obtain ⟨hsafe, hcall⟩ := h.storeEndStep hpc (by simpa only [hpc] using hstep)
    exact hplain hcall hsafe
  | storeNext start =>
    exact hplain (h.storeNextStep hinv hpc (by simpa only [hpc] using hstep))
      (by simp [StepSafe, hpc])
  | ret page =>
    exact hplain (h.retStep hpc (by simpa only [hpc] using hstep)) (by simp [StepSafe, hpc])

def Sound (s : State) : Prop := (Inv s ∧ ∃ t, Call s t) ∨ ∃ t, Panicked s t

theorem Sound.step {a : Action} (h : Sound s) (hok : Sequential s a)
    (hstep : step s a = some s') : Sound s' := by
  rcases h with ⟨hinv, t, h⟩ | ⟨t, h⟩
  · cases a with
    | call u hint => exact .inl ⟨call_inv hinv hstep, u, h.call hok hstep⟩
    | promote e =>
      exact .inl ⟨promote_inv hinv hok.2 hstep, t, h.promote hinv hok.1 hstep⟩
    | run u =>
      by_cases hu : u = t
      · subst hu
        rcases h.run hinv hstep with ⟨hinv', hcall⟩ | hpanic
        · exact .inl ⟨hinv', u, hcall⟩
        · exact .inr ⟨u, hpanic⟩
      · simp [FreePageAllocator.step, State.runStep, h.alone u hu] at hstep
  -- a panicked call ends the history
  have hbusy : ¬s.Quiescent := fun hq => by
    have := hq t
    rw [h.pc] at this
    cases this
  cases a with
  | call u hint => exact absurd hok hbusy
  | promote e => exact absurd hok.1 hbusy
  | run u =>
    by_cases hu : u = t
    · subst hu
      simp [FreePageAllocator.step, State.runStep, h.pc] at hstep
    · simp [FreePageAllocator.step, State.runStep, h.alone u hu] at hstep

theorem Call.new {first : Nat} (shardCount t : Nat) : Call (new first shardCount) t := by
  refine ⟨Nat.lt_of_lt_of_le Nat.one_pos (Nat.le_max_right _ _), fun _ _ => rfl,
    fun h => absurd rfl h, fun i b h => absurd rfl h, fun _ _ => rfl, trivial, ?_⟩
  intro p hpos hlt
  exact ⟨.user, by simp, hpos, hlt⟩

def Holder.place : Holder → Place
  | .allocated => .user
  | .hot i b _ => .bucket i b
  | .central _ => .central
  | .tail i => .mono i

theorem held_of_holds (hcall : Call s t) (hidle : s.Quiescent) {p : Nat} {h : Holder}
    (hp : Holds s p h) : p ∈ held s h.place := by
  cases h with
  | allocated => exact hp
  | hot i b k =>
    obtain ⟨-, -, e, hk, hp⟩ := hp
    exact ⟨e, mem_of_getElem? hk, hp⟩
  | central k =>
    obtain ⟨e, hk, hp⟩ := hp
    exact ⟨e, mem_of_getElem? hk, hp⟩
  | tail i => exact ⟨hcall.not_installing (by simp [hidle t]) i, hp.2⟩

theorem holds_of_held (hcall : Call s t) (hidle : s.Quiescent) {p : Nat} {x : Place}
    (hx : x ≠ .fresh) (hp : p ∈ held s x) : ∃ h, Holds s p h := by
  cases x with
  | user => exact ⟨.allocated, hp⟩
  | central =>
    obtain ⟨e, he, hp⟩ := hp
    obtain ⟨k, hk⟩ := mem_iff_getElem?.mp he
    exact ⟨.central k, e, hk, hp⟩
  | bucket i b =>
    obtain ⟨e, he, hp⟩ := hp
    obtain ⟨k, hk⟩ := mem_iff_getElem?.mp he
    obtain ⟨hi, hb⟩ := hcall.inside i b (ne_nil_of_mem he)
    exact ⟨.hot i b k, hi, hb, e, hk, hp⟩
  | mono i =>
    refine ⟨.tail i, ?_, hp.2⟩
    by_contra hi
    have := hp.2.2
    rw [hcall.ranges i (by omega)] at this
    exact Nat.not_lt_zero p this
  | thread u =>
    simp only [held, hidle u, pcPages] at hp
    exact hp.elim
  | fresh => exact absurd rfl hx

theorem ExtentsWf.index_unique {l : List FreeExtent} (h : ExtentsWf l) {j k p : Nat}
    {a b : FreeExtent} (ha : l[j]? = some a) (hb : l[k]? = some b) (hpa : a.Contains p)
    (hpb : b.Contains p) : j = k := by
  obtain ⟨hj, rfl⟩ := List.getElem?_eq_some_iff.mp ha
  obtain ⟨hk, rfl⟩ := List.getElem?_eq_some_iff.mp hb
  have hdis := pairwise_iff_getElem.mp h.disjoint
  rcases Nat.lt_trichotomy j k with hlt | heq | hlt
  · exact absurd hpb (Set.disjoint_left.mp (hdis j k hj hk hlt) hpa)
  · exact heq
  · exact absurd hpa (Set.disjoint_left.mp (hdis k j hk hj hlt) hpb)

theorem Call.conserved (hinv : Inv s) (h : Call s t) (hidle : s.Quiescent) : Conserved s where
  below p x hp := by
    have hheld := held_of_holds h hidle hp
    refine ⟨Nat.pos_of_ne_zero ?_, ?_⟩
    · rintro rfl
      exact hinv.ledger.positive _ hheld
    · have hne : x.place ≠ .fresh := by cases x <;> simp [Holder.place]
      exact Nat.not_le.mp (hinv.ledger.once.not_mem hne hheld)
  unique p hpos hlt := by
    obtain ⟨x, hx, hp⟩ := h.covered p hpos hlt
    obtain ⟨a, ha⟩ := holds_of_held h hidle hx hp
    refine ⟨a, ha, fun b hb => ?_⟩
    have hplace : b.place = a.place := by
      by_contra hne
      exact hinv.ledger.once.not_mem hne (held_of_holds h hidle hb) (held_of_holds h hidle ha)
    cases a with
    | allocated => cases b <;> simp [Holder.place] at hplace ⊢
    | tail i => cases b <;> simp_all [Holder.place]
    | central k =>
      cases b with
      | central j =>
        obtain ⟨e, hj, he⟩ := hb
        obtain ⟨e', hk, he'⟩ := ha
        rw [hinv.lists.central.canonical.wf.index_unique hj hk he he']
      | _ => simp [Holder.place] at hplace
    | hot i c k =>
      cases b with
      | hot i' c' j =>
        simp only [Holder.place, Place.bucket.injEq] at hplace
        obtain ⟨rfl, rfl⟩ := hplace
        obtain ⟨-, -, e, hj, he⟩ := hb
        obtain ⟨-, -, e', hk, he'⟩ := ha
        rw [(hinv.lists.buckets i' c').index_unique hj hk he he']
      | _ => simp [Holder.place] at hplace

/-- In every sequential history, between calls every page number below the high-water mark
has exactly one holder, and a call grows a monotonic range only when no freelist holds a
page. -/
theorem sequential_calls_conserve_pages {first shardCount : Nat} (hfirst : 0 < first)
    (hreach : Reach step Sequential (new first shardCount) s) :
    (s.Quiescent → Conserved s) ∧ ∀ t, (s.threads t).pc.grows = true → s.Dry := by
  have hsound : Sound s :=
    hreach.invariant (.inl ⟨new_inv hfirst shardCount, 0, Call.new shardCount 0⟩)
    fun _ _ _ hs hok hstep => hs.step hok hstep
  rcases hsound with ⟨hinv, u, h⟩ | ⟨u, h⟩
  · refine ⟨h.conserved hinv, fun t hgrows => ?_⟩
    by_cases htu : t = u
    · subst htu
      have hknows := h.knows
      cases hpc : (s.threads t).pc with
      | fetchNext locked | lockRefill | storeNext start =>
        rw [hpc] at hknows
        exact hknows
      | loadEnd locked next | reserve | storeEnd start =>
        rw [hpc] at hknows
        exact hknows.1
      | _ => simp [hpc, Pc.grows] at hgrows
    · simp [h.alone t htu, Pc.grows] at hgrows
  refine ⟨fun hq => ?_, fun t hgrows => ?_⟩
  · have := hq u
    rw [h.pc] at this
    cases this
  · by_cases htu : t = u
    · subst htu
      simp [h.pc, Pc.grows] at hgrows
    · simp [h.alone t htu, Pc.grows] at hgrows

theorem Call.idle_of_runs (hinv : Inv s) (h : Call s t)
    (hruns : Reach step (fun _ a => a = .run t) s s') : ∀ u, u ≠ t → (s'.threads u).pc = .idle := by
  have hsound : Inv s' ∧ Call s' t ∨ Panicked s' t := by
    refine hruns.invariant (I := fun s => Inv s ∧ Call s t ∨ Panicked s t) (.inl ⟨hinv, h⟩) ?_
    rintro s a s' hs rfl hstep
    rcases hs with ⟨hinv, h⟩ | h
    · exact h.run hinv hstep
    · simp [FreePageAllocator.step, State.runStep, h.pc] at hstep
  rcases hsound with ⟨-, h⟩ | h
  · exact h.alone
  · exact h.alone

/-- Pages 3 to 7 of a file of nine pages are promoted; a call then takes page 3. -/
theorem sequential_calls_conserve_promoted :
    ∃ s, Reach step Sequential (new 10 2) s ∧ .returned 0 3 ∈ s.history ∧ Conserved s := by
  have hrun : ((step (new 10 2) (.promote ⟨3, 5⟩)).bind fun s => (step s (.call 0 1)).bind fun s =>
      exec step s (replicate 14 (.run 0))).any (fun s =>
        decide (.returned 0 3 ∈ s.history ∧ (s.threads 0).pc = .idle)) = true := by
    decide +kernel
  obtain ⟨s, hexec, hs⟩ := (Option.any_eq_true _ _).mp hrun
  obtain ⟨hreturned, hidle⟩ := of_decide_eq_true hs
  obtain ⟨s₁, hpromote, hexec⟩ := bind_eq_some_iff.mp hexec
  obtain ⟨s₂, hcall, hexec⟩ := bind_eq_some_iff.mp hexec
  have huse : ∀ p, FreeExtent.Contains ⟨3, 5⟩ p →
      InUse (new 10 2).firstPageNumber (new 10 2).history p := by
    rintro p ⟨hle, hlt⟩
    simp only at hle hlt
    exact ⟨by omega, show p < 10 by omega⟩
  have hpromoteOk : Sequential (new 10 2) (.promote ⟨3, 5⟩) := ⟨fun _ => rfl, huse⟩
  have hquiet : s₁.Quiescent := by
    simp only [step] at hpromote
    obtain ⟨-, hpromote⟩ := ite_none_right_eq_some.mp hpromote
    obtain ⟨c, -, rfl⟩ := map_eq_some_iff.mp hpromote
    exact fun _ => rfl
  have hcallOk : Sequential s₁ (.call 0 1) := hquiet
  have hrunOk : ∀ a ∈ replicate 14 (Action.run 0), ∀ s, Sequential s a := by
    intro a ha s
    rw [eq_of_mem_replicate ha]
    trivial
  have hreach : Reach step Sequential (new 10 2) s :=
    (Reach.tail _ (.tail _ .refl hpromoteOk hpromote) hcallOk hcall).trans
      (Reach.of_exec_forall hexec hrunOk)
  refine ⟨s, hreach, hreturned, (sequential_calls_conserve_pages (by decide) hreach).1 ?_⟩
  -- only thread 0 is in a call after the promotion
  have hinv := new_inv (show 0 < 10 by decide) 2
  have h₁ : Call s₁ 0 := (Call.new 2 0).promote hinv (fun _ => rfl) hpromote
  have hinv₁ := promote_inv hinv huse hpromote
  have hruns : Reach step (fun _ a => a = .run 0) s₂ s :=
    Reach.of_exec_forall hexec fun a ha _ => eq_of_mem_replicate ha
  have hothers := (h₁.call hquiet hcall).idle_of_runs (call_inv hinv₁ hcall) hruns
  intro u
  by_cases hu : u = 0
  · subst hu
    exact hidle
  · exact hothers u hu

end Call

end Pagebox.Storage.FreePageAllocator
