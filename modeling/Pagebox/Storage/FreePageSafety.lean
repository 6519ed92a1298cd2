import Pagebox.Base.Ownership
import Pagebox.Storage.FreeExtents

/-!
# Allocation is unique while cursor values stay within their reservation

Every page number sits in one place: the central freelist, a hot bucket, a
shard's monotonic range, the hands of a thread, the callers, or beyond the
global mark.  `Inv` says so, together with the facts about locks and cursors
that keep it true; every safe step preserves it, and the history of a safe run
therefore never returns a page twice without a promotion in between.
-/

namespace Pagebox.Storage.FreePageAllocator

open Pagebox.Base Function Option
open List hiding Disjoint

inductive Place
  | central
  | bucket (i b : Nat)
  | thread (t : Nat)
  | mono (i : Nat)
  | user
  | fresh
  deriving DecidableEq

/-- The pages in the hands of a thread at `pc`, when its shard's range ends at
`stop`: a fetched cursor value counts once the end admits it. -/
def pcPages (stop : Nat) : Pc → Set Nat
  | .push _ e (.finish page) => insert page (extentPages e)
  | .push _ e .retryOwn => extentPages e
  | .loadEnd _ next => { p | p = next ∧ next + 1 ≤ stop }
  | .storeEnd start => { p | start ≤ p ∧ p < start + monotonicRefillBasePages }
  | .storeNext start => { p | start ≤ p ∧ p < start + monotonicRefillBasePages }
  | .ret page => {page}
  | _ => ∅

/-- The pages at each place.  While a new range is being installed its end is
already stored but its cursor is not, so the shard's own range counts as empty. -/
def held (s : State) : Place → Set Nat
  | .central => listPages s.central.byStartPageNumber
  | .bucket i b => listPages (s.bucket i b)
  | .thread t => pcPages (s.mono (s.threads t).shardIdx).endPageNumber (s.threads t).pc
  | .mono i =>
    { p | ¬Installing s i ∧ (s.mono i).nextPageNumber ≤ p ∧ p < (s.mono i).endPageNumber }
  | .user => { p | InUse s.firstPageNumber s.history p }
  | .fresh => { p | s.globalNextPageNumber ≤ p }

/-- Extents in the hands of a thread are proper, and the page it is about to
return is not part of the remainder it puts back. -/
def PcWf : Pc → Prop
  | .push _ e (.finish page) =>
    0 < e.startPageNumber ∧ 0 < e.len ∧ page ∉ extentPages e
  | .push _ e .retryOwn => 0 < e.startPageNumber ∧ 0 < e.len
  | _ => True

def HoldsLock : Pc → Prop
  | .fetchNext locked => locked = true
  | .loadEnd locked _ => locked = true
  | .reserve => True
  | .storeEnd _ => True
  | .storeNext _ => True
  | _ => False

/-- Steps at which a thread has no page in its hands and does not hold the lock. -/
def EmptyHanded : Pc → Prop
  | .push _ _ _ => False
  | .fetchNext locked => locked = false
  | .loadEnd _ _ => False
  | .reserve => False
  | .storeEnd _ => False
  | .storeNext _ => False
  | .ret _ => False
  | _ => True

structure Cursors (s : State) : Prop where
  unset : ∀ i, (s.mono i).nextPageNumber = 0 → Installing s i ∨ (s.mono i).endPageNumber = 0
  ends : ∀ i, (s.mono i).endPageNumber ≤ s.globalNextPageNumber
  locked : ∀ t, HoldsLock (s.threads t).pc → (s.mono (s.threads t).shardIdx).refillLock = some t
  storing : ∀ t start, (s.threads t).pc = .storeEnd start →
    (s.mono (s.threads t).shardIdx).endPageNumber ≤ start ∧
      start + monotonicRefillBasePages ≤ s.globalNextPageNumber
  stored : ∀ t start, (s.threads t).pc = .storeNext start →
    (s.mono (s.threads t).shardIdx).endPageNumber = start + monotonicRefillBasePages

structure ListsWf (s : State) : Prop where
  central : s.central.Ok
  buckets : ∀ i b, ExtentsWf (s.bucket i b)
  pending : ∀ t, PcWf (s.threads t).pc

/-- No page is in two places or is page 0, and what the allocator can hand out
was made available to it. -/
structure Ledger (s : State) : Prop where
  once : HeldOnce (held s)
  positive : ∀ x, 0 ∉ held s x
  available : ∀ x, x ≠ .user → x ≠ .fresh → ∀ p ∈ held s x, Available s.history p

structure Inv (s : State) : Prop where
  cursors : Cursors s
  lists : ListsWf s
  ledger : Ledger s
  unique : AllocationsUnique s.history

section Frame

variable {s s' : State} {t : Nat}

@[simp] theorem setPc_threads_self (pc : Pc) :
    (s.setPc t pc).threads t = ⟨(s.threads t).shardIdx, pc⟩ := by
  simp [State.setPc]

theorem setPc_threads_ne (pc : Pc) {u : Nat} (h : u ≠ t) :
    (s.setPc t pc).threads u = s.threads u := by
  simp [State.setPc, h]

@[simp] theorem setPc_shardIdx (pc : Pc) (u : Nat) :
    ((s.setPc t pc).threads u).shardIdx = (s.threads u).shardIdx := by
  by_cases h : u = t
  · subst h
    simp
  · rw [setPc_threads_ne pc h]

@[simp] theorem setPc_mono (pc : Pc) (i : Nat) : (s.setPc t pc).mono i = s.mono i := rfl

@[simp] theorem setPc_bucket (pc : Pc) (i b : Nat) : (s.setPc t pc).bucket i b = s.bucket i b := rfl

@[simp] theorem setMonotonic_mono_self (i : Nat) (m : MonotonicRange) :
    (s.setMonotonic i m).mono i = m := by
  simp [State.setMonotonic, State.setShard, State.mono]

theorem setMonotonic_mono_ne (m : MonotonicRange) {i j : Nat} (h : j ≠ i) :
    (s.setMonotonic i m).mono j = s.mono j := by
  simp [State.setMonotonic, State.setShard, State.mono, h]

@[simp] theorem setMonotonic_bucket (i : Nat) (m : MonotonicRange) (j b : Nat) :
    (s.setMonotonic i m).bucket j b = s.bucket j b := by
  by_cases h : j = i
  · subst h
    simp [State.setMonotonic, State.setShard, State.bucket]
  · simp [State.setMonotonic, State.setShard, State.bucket, h]

@[simp] theorem setBucket_mono (i b : Nat) (q : List FreeExtent) (j : Nat) :
    (s.setBucket i b q).mono j = s.mono j := by
  by_cases h : j = i
  · subst h
    simp [State.setBucket, State.setShard, State.mono]
  · simp [State.setBucket, State.setShard, State.mono, h]

@[simp] theorem setBucket_bucket_self (i b : Nat) (q : List FreeExtent) :
    (s.setBucket i b q).bucket i b = q := by
  simp [State.setBucket, State.setShard, State.bucket]

theorem setBucket_bucket_ne (i b : Nat) (q : List FreeExtent) {j c : Nat}
    (h : (j, c) ≠ (i, b)) : (s.setBucket i b q).bucket j c = s.bucket j c := by
  by_cases hj : j = i
  · subst hj
    have hc : c ≠ b := fun hc => h (by rw [hc])
    simp [State.setBucket, State.setShard, State.bucket, hc]
  · simp [State.setBucket, State.setShard, State.bucket, hj]

/-- Only the two stores of `install_reserved_tail` open or close the window in
which a shard's cursor lags behind its end. -/
theorem installing_congr (hthreads : ∀ u, u ≠ t → s'.threads u = s.threads u)
    (hold : ∀ start, (s.threads t).pc ≠ .storeNext start)
    (hnew : ∀ start, (s'.threads t).pc ≠ .storeNext start) (i : Nat) :
    Installing s' i ↔ Installing s i := by
  constructor
  · rintro ⟨u, start, hu⟩
    have hut : u ≠ t := by
      rintro rfl
      exact hnew start (by rw [hu])
    exact ⟨u, start, by rw [← hthreads u hut, hu]⟩
  · rintro ⟨u, start, hu⟩
    have hut : u ≠ t := by
      rintro rfl
      exact hold start (by rw [hu])
    exact ⟨u, start, by rw [hthreads u hut, hu]⟩

/-! How each kind of update changes what the places hold. -/

theorem held_updateThread {th : Thread} (hold : ∀ start, (s.threads t).pc ≠ .storeNext start)
    (hnew : ∀ start, th.pc ≠ .storeNext start) :
    held { s with threads := update s.threads t th } = update (held s) (.thread t)
        (pcPages (s.mono th.shardIdx).endPageNumber th.pc) := by
  have hinst : ∀ i, Installing { s with threads := update s.threads t th } i ↔ Installing s i :=
    installing_congr (fun u hu => update_of_ne hu th s.threads) hold
      (by simpa using hnew)
  funext x
  cases x with
  | thread u =>
    by_cases hu : u = t
    · subst hu
      simp [held, State.mono]
    · rw [update_of_ne (by simpa using hu)]
      simp only [held, update_of_ne hu]
      rfl
  | mono i =>
    simp only [held, hinst i]
    rfl
  | central => rfl
  | bucket i b => rfl
  | user => rfl
  | fresh => rfl

theorem held_setPc {pc : Pc} (hold : ∀ start, (s.threads t).pc ≠ .storeNext start)
    (hnew : ∀ start, pc ≠ .storeNext start) :
    held (s.setPc t pc) = update (held s) (.thread t)
        (pcPages (s.mono (s.threads t).shardIdx).endPageNumber pc) :=
  held_updateThread hold hnew

theorem held_setBucket (i b : Nat) (q : List FreeExtent) :
    held (s.setBucket i b q) = update (held s) (.bucket i b) (listPages q) := by
  funext x
  cases x with
  | bucket j c =>
    by_cases hjc : (j, c) = (i, b)
    · cases hjc
      simp [held]
    · rw [update_of_ne (by simpa using hjc)]
      simp only [held, setBucket_bucket_ne i b q hjc]
  | thread u =>
    simp only [held, setBucket_mono]
    rfl
  | mono j =>
    simp only [held, setBucket_mono]
    rfl
  | central => rfl
  | user => rfl
  | fresh => rfl

theorem held_central (c : CentralInner) : held { s with central := c } =
      update (held s) .central (listPages c.byStartPageNumber) := by
  funext x
  cases x <;> rfl

/-- A new cursor or lock holder, with the end of the range as it was. -/
theorem held_setMonotonic {i : Nat} {m : MonotonicRange}
    (hend : m.endPageNumber = (s.mono i).endPageNumber) :
    held (s.setMonotonic i m) = update (held s) (.mono i)
        { p | ¬Installing s i ∧ m.nextPageNumber ≤ p ∧ p < m.endPageNumber } := by
  have hends : ∀ j, ((s.setMonotonic i m).mono j).endPageNumber = (s.mono j).endPageNumber := by
    intro j
    by_cases hj : j = i
    · subst hj
      simpa using hend
    · rw [setMonotonic_mono_ne m hj]
  funext x
  cases x with
  | mono j =>
    by_cases hj : j = i
    · subst hj
      simp [held, Installing, State.setMonotonic, State.setShard, State.mono]
    · rw [update_of_ne (by simpa using hj)]
      simp only [held, setMonotonic_mono_ne m hj]
      rfl
  | thread u =>
    exact congrArg (pcPages · (s.threads u).pc) (hends (s.threads u).shardIdx)
  | bucket j b => simp [held]
  | central => rfl
  | user => rfl
  | fresh => rfl

theorem Ledger.of_moves (h : Ledger s) (src dst : Place) (moved : Set Nat)
    (hm : Moves (held s) (held s') src dst moved) (hsrc : src ≠ .user ∧ src ≠ .fresh)
    (hhist : s'.history = s.history) : Ledger s' where
  once := hm.heldOnce h.once
  positive := by
    intro x hx
    rcases hm.mem_before hx with hx | ⟨-, hx⟩
    · exact h.positive _ hx
    · exact h.positive _ hx
  available := by
    intro x huser hfresh p hp
    rw [hhist]
    rcases hm.mem_before hp with hp | ⟨-, hp⟩
    · exact h.available x huser hfresh p hp
    · exact h.available src hsrc.1 hsrc.2 p hp

theorem Ledger.of_subset (h : Ledger s) (hsub : ∀ x, held s' x ⊆ held s x)
    (hhist : s'.history = s.history) : Ledger s' where
  once := h.once.of_subset hsub
  positive := fun x hx => h.positive x (hsub x hx)
  available := by
    intro x huser hfresh p hp
    rw [hhist]
    exact h.available x huser hfresh p (hsub x hp)

theorem Cursors.congr (h : Cursors s) (hmono : ∀ i, s'.mono i = s.mono i)
    (hthreads : s'.threads = s.threads)
    (hglobal : s'.globalNextPageNumber = s.globalNextPageNumber) : Cursors s' where
  unset := fun i => by
    unfold Installing
    rw [hmono, hthreads]
    exact h.unset i
  ends := fun i => by rw [hmono, hglobal]; exact h.ends i
  locked := fun u => by rw [hthreads, hmono]; exact h.locked u
  storing := fun u start => by rw [hthreads, hmono, hglobal]; exact h.storing u start
  stored := fun u start => by rw [hthreads, hmono]; exact h.stored u start

theorem Cursors.updateThread {th : Thread} (h : Cursors s)
    (hold : ∀ start, (s.threads t).pc ≠ .storeNext start)
    (hlock : HoldsLock th.pc → HoldsLock (s.threads t).pc ∧ th.shardIdx = (s.threads t).shardIdx)
    (hend : ∀ start, th.pc ≠ .storeEnd start) (hnext : ∀ start, th.pc ≠ .storeNext start) :
    Cursors { s with threads := update s.threads t th } where
  unset := by
    intro i h0
    rw [installing_congr (fun u hu => update_of_ne hu th s.threads) hold
      (by simpa using hnext)]
    exact h.unset i h0
  ends := h.ends
  locked := (forall_update_iff s.threads fun u (th : Thread) => HoldsLock th.pc →
      (s.mono th.shardIdx).refillLock = some u).mpr
    ⟨fun hpc => (hlock hpc).2 ▸ h.locked t (hlock hpc).1, fun u _ => h.locked u⟩
  storing := (forall_update_iff s.threads fun _ (th : Thread) => ∀ start,
      th.pc = .storeEnd start → (s.mono th.shardIdx).endPageNumber ≤ start ∧
        start + monotonicRefillBasePages ≤ s.globalNextPageNumber).mpr
    ⟨fun start hpc => absurd hpc (hend start), fun u _ => h.storing u⟩
  stored := (forall_update_iff s.threads fun _ (th : Thread) => ∀ start, th.pc = .storeNext start →
        (s.mono th.shardIdx).endPageNumber = start + monotonicRefillBasePages).mpr
    ⟨fun start hpc => absurd hpc (hnext start), fun u _ => h.stored u⟩

theorem ListsWf.updateThread {th : Thread} (h : ListsWf s) (hpc : PcWf th.pc) :
    ListsWf { s with threads := update s.threads t th } where
  central := h.central
  buckets := h.buckets
  pending := (forall_update_iff s.threads fun _ (th : Thread) => PcWf th.pc).mpr
    ⟨hpc, fun u _ => h.pending u⟩

theorem ListsWf.setBucket {i b : Nat} {q : List FreeExtent} (h : ListsWf s)
    (hq : ExtentsWf q) : ListsWf (s.setBucket i b q) where
  central := h.central
  buckets := by
    intro j c
    by_cases hjc : (j, c) = (i, b)
    · cases hjc
      simpa using hq
    · rw [setBucket_bucket_ne i b q hjc]
      exact h.buckets j c
  pending := h.pending

end Frame

/-! ## The reusable layers

`allocate_extent`: every step moves an extent between a queue or the central
freelist and the hands of the thread. -/

section Reusable

variable {s s' : State} {t : Nat}

theorem Inv.idleStep {th : Thread} (h : Inv s) (hth : ∀ stop, pcPages stop th.pc = ∅)
    (hwf : PcWf th.pc) (hold : ∀ start, (s.threads t).pc ≠ .storeNext start)
    (hlock : HoldsLock th.pc → HoldsLock (s.threads t).pc ∧ th.shardIdx = (s.threads t).shardIdx)
    (hend : ∀ start, th.pc ≠ .storeEnd start) (hnext : ∀ start, th.pc ≠ .storeNext start) :
    Inv { s with threads := update s.threads t th } where
  cursors := h.cursors.updateThread hold hlock hend hnext
  lists := h.lists.updateThread hwf
  ledger := by
    refine h.ledger.of_subset (fun x => ?_) rfl
    rw [held_updateThread hold hnext, hth]
    by_cases hx : x = .thread t
    · subst hx
      simp
    · rw [update_of_ne hx]
  unique := h.unique

theorem Inv.emptyStep {th : Thread} (h : Inv s) (hth : EmptyHanded th.pc)
    (hold : ∀ start, (s.threads t).pc ≠ .storeNext start) :
    Inv { s with threads := update s.threads t th } := by
  obtain ⟨idx, pc⟩ := th
  refine h.idleStep (fun stop => ?_) ?_ hold ?_ ?_ ?_
  all_goals cases pc <;> simp_all [EmptyHanded, pcPages, PcWf, HoldsLock]

theorem popStep_inv {source : Source} {b : Nat} (h : Inv s)
    (hpc : (s.threads t).pc = .pop source b) (hstep : s.popStep t source b = some s') :
    Inv s' := by
  have hold : ∀ start, (s.threads t).pc ≠ .storeNext start := by simp [hpc]
  simp only [State.popStep] at hstep
  set i := s.sourceShard t source
  cases hqueue : s.bucket i b with
  | cons e rest =>
    simp only [hqueue, bind_eq_bind, bind_eq_some_iff] at hstep
    obtain ⟨⟨a, r⟩, hsplit, hstep⟩ := hstep
    obtain ⟨hpages, -⟩ := extentPages_split hsplit
    obtain ⟨ha, hr, hstart, -, hlen⟩ := splitHead_spec hsplit
    have hwf : ExtentsWf (e :: rest) := hqueue ▸ h.lists.buckets i b
    -- the popped extent is in the hands of the thread, as page and remainder
    set pc' : Pc := if 0 < r.len then .push i r (.finish a.startPageNumber)
      else .ret a.startPageNumber
    have hne : (∀ start, pc' ≠ .storeNext start) ∧ (∀ start, pc' ≠ .storeEnd start) ∧
        ¬HoldsLock pc' ∧ PcWf pc' ∧ ∀ stop, pcPages stop pc' ⊆ extentPages e := by
      by_cases hpos : 0 < r.len
      · simp only [pc', hpos, if_true]
        refine ⟨by simp, by simp, by simp [HoldsLock], ⟨?_, hpos, ?_⟩, ?_⟩
        · rw [hr]
          simp only
          omega
        · rw [ha, hr, mem_extentPages]
          simp only
          omega
        · intro stop p hp
          rw [hpages]
          rcases hp with rfl | hp
          · exact .inl (start_mem_extentPages (by rw [ha]; exact Nat.one_pos))
          · exact .inr hp
      · simp only [pc', hpos, if_false]
        refine ⟨by simp, by simp, by simp [HoldsLock], trivial, ?_⟩
        rintro stop p rfl
        rw [hpages]
        exact .inl (start_mem_extentPages (by rw [ha]; exact Nat.one_pos))
    obtain ⟨hnext, hend, hlock, hpcwf, hsub⟩ := hne
    cases hstep
    have hc : Cursors (s.setBucket i b rest) :=
      h.cursors.congr (fun j => setBucket_mono i b rest j) rfl rfl
    refine ⟨hc.updateThread hold (fun hl => absurd hl hlock) hend hnext,
      (h.lists.setBucket hwf.tail).updateThread hpcwf, ?_, h.unique⟩
    refine h.ledger.of_moves (.bucket i b) (.thread t) (extentPages e) ?_ (by simp) rfl
    rw [held_setPc (s := s.setBucket i b rest) hold hnext, held_setBucket]
    refine Moves.of_update (by simp) ?_ ?_ ?_
    · simp only [held, hqueue]
      exact extentPages_subset_listPages mem_cons_self
    · simp only [held, hqueue, listPages_cons]
      intro p hp
      exact ⟨.inr hp, fun hpe => Set.disjoint_left.mp hwf.head_disjoint hpe hp⟩
    · exact (hsub _).trans Set.subset_union_right
  | nil =>
    simp only [hqueue] at hstep
    cases hstep
    refine h.emptyStep ?_ hold
    split
    · trivial
    · cases source <;> simp only [State.afterMiss] <;> (try split) <;> trivial

/-- `return_remainder` adds the pages of the extent to one queue or to the
central freelist, and touches nothing else. -/
theorem returnRemainder_spec {i : Nat} {e : FreeExtent} (h : Inv s)
    (hpos : 0 < e.startPageNumber ∧ 0 < e.len) (hin : extentPages e ⊆ held s (.thread t))
    (hstep : s.returnRemainder i e = some s') :
    ∃ dst : Place, dst ≠ .thread t ∧ held s' = update (held s) dst (held s dst ∪ extentPages e) ∧
      Cursors s' ∧ ListsWf s' ∧ s'.threads = s.threads ∧ s'.history = s.history := by
  unfold State.returnRemainder at hstep
  split at hstep
  · rename_i b hb
    cases hstep
    have hdis : Disjoint (extentPages e) (held s (.bucket i b)) :=
      (h.ledger.once (i := .thread t) (j := .bucket i b) (by simp)).mono_left hin
    refine ⟨.bucket i b, by simp, ?_, h.cursors.congr (fun j => setBucket_mono _ _ _ j) rfl rfl,
      h.lists.setBucket ((h.lists.buckets i b).append_singleton hpos hdis), rfl, rfl⟩
    rw [held_setBucket, listPages_append, listPages_cons, listPages_nil, Set.union_empty]
    rfl
  rw [map_eq_some_iff] at hstep
  obtain ⟨c, hc, rfl⟩ := hstep
  obtain ⟨hwf, hpages⟩ := h.lists.central.insert hpos hc
  refine ⟨.central, by simp, ?_, h.cursors.congr (fun _ => rfl) rfl rfl,
    ⟨hwf, h.lists.buckets, h.lists.pending⟩, rfl, rfl⟩
  rw [held_central, hpages, Set.union_comm]
  rfl

theorem pushStep_inv {i : Nat} {e : FreeExtent} {after : AfterPush} (h : Inv s)
    (hpc : (s.threads t).pc = .push i e after) (hstep : s.pushStep t i e after = some s') :
    Inv s' := by
  have hwf := h.lists.pending t
  simp only [State.pushStep, bind_eq_bind, bind_eq_some_iff] at hstep
  obtain ⟨s₁, hput, hstep⟩ := hstep
  cases hstep
  -- the thread keeps the page it is about to return, if there is one
  have hhands : (0 < e.startPageNumber ∧ 0 < e.len) ∧ extentPages e ⊆ held s (.thread t) ∧
      ∀ stop, pcPages stop after.resume ⊆ held s (.thread t) \ extentPages e := by
    cases after with
    | finish page =>
      simp only [hpc, PcWf] at hwf
      refine ⟨⟨hwf.1, hwf.2.1⟩, ?_, ?_⟩
      · simp only [held, hpc, pcPages]
        exact Set.subset_insert _ _
      · rintro stop p rfl
        simp only [held, hpc, pcPages]
        exact ⟨.inl rfl, hwf.2.2⟩
    | retryOwn =>
      simp only [hpc, PcWf] at hwf
      refine ⟨hwf, ?_, ?_⟩
      · simp only [held, hpc, pcPages]
        exact subset_rfl
      · simp [AfterPush.resume, pcPages]
  obtain ⟨hpos, hin, hleft⟩ := hhands
  have hpcne : (∀ start, after.resume ≠ .storeNext start) ∧
      (∀ start, after.resume ≠ .storeEnd start) ∧ ¬HoldsLock after.resume ∧
      PcWf after.resume := by
    cases after <;> simp [AfterPush.resume, HoldsLock, PcWf]
  obtain ⟨hnext, hend, hlock, hpcwf⟩ := hpcne
  obtain ⟨dst, hdst, hheld, hcur, hlists, hthreads, hhist⟩ :=
    returnRemainder_spec h hpos hin hput
  have hold : ∀ start, (s₁.threads t).pc ≠ .storeNext start := by simp [hthreads, hpc]
  refine ⟨hcur.updateThread hold (fun hl => absurd hl hlock) hend hnext, hlists.updateThread hpcwf,
    ?_, by simpa only [State.setPc, hhist] using h.unique⟩
  refine h.ledger.of_moves (.thread t) dst (extentPages e) ?_ (by simp) hhist
  rw [held_setPc hold hnext, hheld, update_comm hdst]
  exact Moves.of_update hdst.symm hin (hleft _) subset_rfl

/-- One central allocation: a hit moves the extent into the thread's hands. -/
theorem fitStep_inv {len : Nat} {hit : FreeExtent → Pc} {miss : Pc} (h : Inv s)
    (hold : ∀ start, (s.threads t).pc ≠ .storeNext start) (hmiss : EmptyHanded miss)
    (hhit : ∀ a : FreeExtent, 0 < a.startPageNumber → 0 < a.len →
      (∀ start, hit a ≠ .storeNext start) ∧ (∀ start, hit a ≠ .storeEnd start) ∧
        ¬HoldsLock (hit a) ∧ PcWf (hit a) ∧ ∀ stop, pcPages stop (hit a) ⊆ extentPages a)
    (hstep : s.fitStep t len hit miss = some s') : Inv s' := by
  simp only [State.fitStep, bind_eq_bind, bind_eq_some_iff] at hstep
  obtain ⟨⟨found, c⟩, hfit, hstep⟩ := hstep
  cases hstep
  rcases allocateBestFit_spec h.lists.central hfit with ⟨rfl, rfl, -⟩ | hfound
  · exact h.emptyStep hmiss hold
  obtain ⟨x, hx, rfl, hlen, -, -, hwf, hsub, hpages⟩ := hfound
  set a : FreeExtent := ⟨x.startPageNumber, len⟩
  obtain ⟨hnext, hend, hlock, hpcwf, hhands⟩ := hhit a (h.lists.central.canonical.valid x hx).1 hlen
  have hc : Cursors { s with central := c } := h.cursors.congr (fun _ => rfl) rfl rfl
  have hl : ListsWf { s with central := c } :=
    ⟨hwf, h.lists.buckets, h.lists.pending⟩
  refine ⟨hc.updateThread hold (fun hl => absurd hl hlock) hend hnext, hl.updateThread hpcwf,
    ?_, h.unique⟩
  refine h.ledger.of_moves .central (.thread t) (extentPages a) ?_ (by simp) rfl
  rw [held_setPc (s := { s with central := c }) hold hnext, held_central (s := s) c]
  have hne : Place.central ≠ .thread t := by simp
  have htaken : extentPages a ⊆ held s .central := hsub
  refine Moves.of_update hne htaken ?_ ((hhands _).trans Set.subset_union_right)
  rw [hpages]
  rfl

end Reusable

/-! ## Monotonic growth

`allocate_monotonic_extent`: the cursor, the end and the lock of one shard, and
the global mark. -/

section Monotonic

variable {s s' : State} {t : Nat}

/-- Facts about a shard's range that survive an update of the range of shard
`i`, for threads other than the one that updates it. -/
theorem Cursors.setMonotonic {m : MonotonicRange} {th : Thread} (h : Cursors s)
    (hidx : th.shardIdx = (s.threads t).shardIdx)
    (hunset : m.nextPageNumber = 0 → (∃ start, th.pc = .storeNext start) ∨
      ((∀ start, (s.threads t).pc ≠ .storeNext start) ∧
        (s.mono (s.threads t).shardIdx).nextPageNumber = 0 ∧
        m.endPageNumber = (s.mono (s.threads t).shardIdx).endPageNumber))
    (hends : m.endPageNumber ≤ s.globalNextPageNumber)
    (hlock : ∀ u, u ≠ t → (s.mono (s.threads t).shardIdx).refillLock = some u →
      m.refillLock = some u ∧ m.endPageNumber = (s.mono (s.threads t).shardIdx).endPageNumber)
    (hown : HoldsLock th.pc → m.refillLock = some t)
    (hend : ∀ start, th.pc = .storeEnd start →
      m.endPageNumber ≤ start ∧ start + monotonicRefillBasePages ≤ s.globalNextPageNumber)
    (hnext : ∀ start, th.pc = .storeNext start →
      m.endPageNumber = start + monotonicRefillBasePages) :
    Cursors { s.setMonotonic (s.threads t).shardIdx m with
      threads := update s.threads t th } := by
  set i := (s.threads t).shardIdx with hi
  set s₁ : State := { s.setMonotonic i m with threads := update s.threads t th }
  have hmono : ∀ j, s₁.mono j = if j = i then m else s.mono j := by
    intro j
    by_cases hj : j = i
    · subst hj
      rw [if_pos rfl]
      exact setMonotonic_mono_self i m
    · rw [if_neg hj]
      exact setMonotonic_mono_ne m hj
  have hself : s₁.threads t = th := update_self t th s.threads
  have hother : ∀ u, u ≠ t → s₁.threads u = s.threads u :=
    fun u hu => update_of_ne hu th s.threads
  -- another thread that holds the lock of this shard sees the same end
  have hkeep : ∀ u, u ≠ t → HoldsLock (s.threads u).pc →
      (s₁.mono (s.threads u).shardIdx).refillLock = some u ∧
        (s₁.mono (s.threads u).shardIdx).endPageNumber =
          (s.mono (s.threads u).shardIdx).endPageNumber := by
    intro u hu hpc
    have hlocked := h.locked u hpc
    rw [hmono]
    by_cases hui : (s.threads u).shardIdx = i
    · rw [if_pos hui]
      rw [hui] at hlocked ⊢
      exact hlock u hu hlocked
    · rw [if_neg hui]
      exact ⟨hlocked, rfl⟩
  have hkeepInst : ∀ j u start, u ≠ t → s.threads u = ⟨j, .storeNext start⟩ → Installing s₁ j :=
    fun j u start hu heq => ⟨u, start, by rw [hother u hu, heq]⟩
  refine ⟨?_, ?_, ?_, ?_, ?_⟩
  · intro j h0
    rw [hmono] at h0 ⊢
    by_cases hj : j = i
    · rw [if_pos hj] at h0 ⊢
      subst hj
      rcases hunset h0 with ⟨start, hth⟩ | ⟨hpc, hzero, hsame⟩
      · exact .inl ⟨t, start, by rw [hself, ← hidx, ← hth]⟩
      · rcases h.unset i hzero with ⟨u, start, hu⟩ | hend0
        · refine .inl (hkeepInst i u start ?_ hu)
          rintro rfl
          exact hpc start (by rw [hu])
        · exact .inr (hsame.trans hend0)
    rw [if_neg hj] at h0 ⊢
    rcases h.unset j h0 with ⟨u, start, hu⟩ | hend0
    · refine .inl (hkeepInst j u start ?_ hu)
      rintro rfl
      exact hj (by rw [hi, hu])
    · exact .inr hend0
  · intro j
    rw [hmono]
    split
    · exact hends
    · exact h.ends j
  · intro u hpc
    by_cases hu : u = t
    · subst hu
      rw [hself] at hpc ⊢
      rw [hmono, if_pos hidx]
      exact hown hpc
    · rw [hother u hu] at hpc ⊢
      exact (hkeep u hu hpc).1
  · intro u start hpc
    by_cases hu : u = t
    · subst hu
      rw [hself] at hpc ⊢
      rw [hmono, if_pos hidx]
      exact hend start hpc
    · rw [hother u hu] at hpc ⊢
      rw [(hkeep u hu (by rw [hpc]; trivial)).2]
      exact h.storing u start hpc
  intro u start hpc
  by_cases hu : u = t
  · subst hu
    rw [hself] at hpc ⊢
    rw [hmono, if_pos hidx]
    exact hnext start hpc
  · rw [hother u hu] at hpc ⊢
    rw [(hkeep u hu (by rw [hpc]; trivial)).2]
    exact h.stored u start hpc

theorem ListsWf.setMonotonic {i : Nat} {m : MonotonicRange} (h : ListsWf s) :
    ListsWf (s.setMonotonic i m) where
  central := h.central
  buckets := fun j b => by rw [setMonotonic_bucket]; exact h.buckets j b
  pending := h.pending

/-- The ledger part of a step that changes the range of the thread's own shard
but not its end: what leaves the range arrives in the hands of the thread. -/
theorem Ledger.setMonotonic {m : MonotonicRange} {pc : Pc} (moved : Set Nat) (h : Ledger s)
    (hold : ∀ start, (s.threads t).pc ≠ .storeNext start)
    (hnew : ∀ start, pc ≠ .storeNext start)
    (hend : m.endPageNumber = (s.mono (s.threads t).shardIdx).endPageNumber)
    (htaken : moved ⊆ held s (.mono (s.threads t).shardIdx))
    (hleft : { p | ¬Installing s (s.threads t).shardIdx ∧ m.nextPageNumber ≤ p ∧
        p < m.endPageNumber } ⊆ held s (.mono (s.threads t).shardIdx) \ moved)
    (harrived : pcPages m.endPageNumber pc ⊆ held s (.thread t) ∪ moved) :
    Ledger ((s.setMonotonic (s.threads t).shardIdx m).setPc t pc) := by
  set i := (s.threads t).shardIdx
  refine h.of_moves (.mono i) (.thread t) moved ?_ (by simp) rfl
  have hne : Place.mono i ≠ .thread t := by simp
  have hself : (s.setMonotonic i m).mono ((s.setMonotonic i m).threads t).shardIdx = m :=
    setMonotonic_mono_self i m
  rw [held_setPc (s := s.setMonotonic i m) hold hnew, held_setMonotonic hend, hself]
  exact Moves.of_update hne htaken hleft harrived

theorem afterTry_pages (locked : Bool) (stop : Nat) : pcPages stop (State.afterTry locked) = ∅ := by
  cases locked <;> rfl

theorem afterTry_holdsLock {locked : Bool} (h : HoldsLock (State.afterTry locked)) :
    locked = true := by
  cases locked
  · exact h.elim
  · rfl

theorem afterTry_ne (locked : Bool) (start : Nat) :
    State.afterTry locked ≠ .storeEnd start ∧ State.afterTry locked ≠ .storeNext start := by
  cases locked <;> simp [State.afterTry]

theorem fetchNextStep_inv {locked : Bool} (h : Inv s)
    (hpc : (s.threads t).pc = .fetchNext locked) (hsafe : StepSafe s (.run t))
    (hstep : s.fetchNextStep t locked = some s') : Inv s' := by
  have hold : ∀ start, (s.threads t).pc ≠ .storeNext start := by simp [hpc]
  simp only [StepSafe, hpc] at hsafe
  obtain ⟨hwrap, hwindow⟩ := hsafe
  simp only [State.fetchNextStep] at hstep
  set i := (s.threads t).shardIdx
  set next := (s.mono i).nextPageNumber with hnextdef
  have hmod : (next + 1) % u64Limit = next + 1 := Nat.mod_eq_of_lt hwrap
  have hlocked : HoldsLock (s.threads t).pc → (s.mono i).refillLock = some t :=
    h.cursors.locked t
  rw [hmod] at hstep
  split at hstep
  · -- a fresh shard: its end is 0, so the bumped cursor still admits nothing
    rename_i hzero
    cases hstep
    refine ⟨h.cursors.setMonotonic rfl (by simp) (h.cursors.ends i) (fun u _ hu => ⟨hu, rfl⟩)
      (fun hl => hlocked (by rw [hpc]; exact afterTry_holdsLock hl))
      (fun start hs => absurd hs (afterTry_ne locked start).1)
      (fun start hs => absurd hs (afterTry_ne locked start).2),
      h.lists.setMonotonic.updateThread (by cases locked <;> trivial),
      Ledger.setMonotonic ∅ h.ledger hold (fun start => (afterTry_ne locked start).2) rfl
        (Set.empty_subset _) ?_ ?_, h.unique⟩
    · rintro p ⟨hinst, -, hlt⟩
      rcases h.cursors.unset i hzero with hinst' | hend
      · exact absurd hinst' hinst
      · exact absurd hlt (by rw [hend]; exact Nat.not_lt_zero p)
    · simp only [afterTry_pages, Set.empty_subset]
  cases hstep
  refine ⟨h.cursors.setMonotonic rfl (by simp) (h.cursors.ends i) (fun u _ hu => ⟨hu, rfl⟩)
    (fun hl => hlocked (by rw [hpc]; exact hl)) (by simp) (by simp),
    h.lists.setMonotonic.updateThread trivial,
    Ledger.setMonotonic { p | p = next ∧ next + 1 ≤ (s.mono i).endPageNumber } h.ledger
      hold (by simp) rfl ?_ ?_ Set.subset_union_right, h.unique⟩
  · rintro p ⟨rfl, hp⟩
    refine ⟨fun hinst => ?_, le_rfl, hp⟩
    have := hwindow hinst ‹_›
    omega
  · rintro p ⟨hinst, hle, hlt⟩
    refine ⟨⟨hinst, Nat.le_of_succ_le hle, hlt⟩, ?_⟩
    rintro ⟨rfl, -⟩
    exact Nat.not_succ_le_self next hle

theorem loadEndStep_inv {locked : Bool} {next : Nat} (h : Inv s)
    (hpc : (s.threads t).pc = .loadEnd locked next)
    (hstep : s.loadEndStep t locked next = some s') : Inv s' := by
  have hold : ∀ start, (s.threads t).pc ≠ .storeNext start := by simp [hpc]
  have hlocked : HoldsLock (s.threads t).pc →
      (s.mono (s.threads t).shardIdx).refillLock = some t := h.cursors.locked t
  simp only [State.loadEndStep] at hstep
  split at hstep
  · rename_i hle
    cases hstep
    have hsame : ∀ m : MonotonicRange, (State.unlock locked m).nextPageNumber = m.nextPageNumber ∧
          (State.unlock locked m).endPageNumber = m.endPageNumber := by
      intro m
      cases locked <;> exact ⟨rfl, rfl⟩
    refine ⟨h.cursors.setMonotonic rfl ?_ ?_ ?_ (fun hl => hl.elim) (by simp) (by simp),
      h.lists.setMonotonic.updateThread trivial,
      Ledger.setMonotonic ∅ h.ledger hold (by simp) (hsame _).2 (Set.empty_subset _) ?_ ?_,
      h.unique⟩
    · rw [(hsame _).1]
      exact fun h0 => .inr ⟨hold, h0, (hsame _).2⟩
    · rw [(hsame _).2]
      exact h.cursors.ends _
    · -- a thread that drops the lock is the one that holds it
      intro u hu hother
      refine ⟨?_, (hsame _).2⟩
      cases locked with
      | false => exact hother
      | true =>
        rw [hlocked (by rw [hpc]; rfl)] at hother
        exact absurd (Option.some.inj hother).symm hu
    · rw [(hsame _).1, (hsame _).2, Set.sdiff_empty]
      exact subset_rfl
    · rintro p rfl
      refine .inl ?_
      simp only [held, hpc]
      exact ⟨rfl, hle⟩
  cases hstep
  refine h.idleStep (afterTry_pages locked) (by cases locked <;> trivial) hold ?_
    (fun start => (afterTry_ne locked start).1) (fun start => (afterTry_ne locked start).2)
  intro hl
  rw [hpc]
  exact ⟨afterTry_holdsLock hl, rfl⟩

theorem lockRefillStep_inv (h : Inv s) (hpc : (s.threads t).pc = .lockRefill)
    (hstep : s.lockRefillStep t = some s') : Inv s' := by
  have hold : ∀ start, (s.threads t).pc ≠ .storeNext start := by simp [hpc]
  simp only [State.lockRefillStep] at hstep
  split at hstep
  · rename_i hfree
    cases hstep
    refine ⟨h.cursors.setMonotonic rfl (fun h0 => .inr ⟨hold, h0, rfl⟩) (h.cursors.ends _) ?_
      (fun _ => rfl) (by simp) (by simp), h.lists.setMonotonic.updateThread trivial,
      Ledger.setMonotonic ∅ h.ledger hold (by simp) rfl (Set.empty_subset _) ?_ ?_, h.unique⟩
    · intro u _ hu
      rw [hfree] at hu
      cases hu
    · rw [Set.sdiff_empty]
      exact subset_rfl
    · exact Set.empty_subset _
  · cases hstep

theorem available_cons (ev : Event) {hist : List Event} {p : Nat} (h : Available hist p) :
    Available (ev :: hist) p := by
  rcases h with ⟨start, len, hmem, hp⟩ | ⟨e, hmem, hp⟩
  · exact .inl ⟨start, len, mem_cons_of_mem ev hmem, hp⟩
  · exact .inr ⟨e, mem_cons_of_mem ev hmem, hp⟩

theorem AllocationsUnique.cons_of_not_returned {hist : List Event} {ev : Event}
    (h : AllocationsUnique hist) (hev : ∀ t p, ev ≠ .returned t p) :
    AllocationsUnique (ev :: hist) where
  promotedBetween := by
    intro newer between older t u p heq
    cases newer with
    | nil => exact absurd (List.cons.inj heq).1 (hev t p)
    | cons x newer => exact h.promotedBetween (List.cons.inj heq).2
  nonzero := by
    intro t p hmem
    rcases mem_cons.mp hmem with heq | hmem
    · exact absurd heq.symm (hev t p)
    · exact h.nonzero hmem
  reserved := by
    intro newer older t p heq
    cases newer with
    | nil => exact absurd (List.cons.inj heq).1 (hev t p)
    | cons x newer => exact h.reserved (List.cons.inj heq).2

/-- Taking a block from the global mark puts it into the hands of the thread. -/
theorem reserveStep_inv (h : Inv s) (hpc : (s.threads t).pc = .reserve)
    (hsafe : StepSafe s (.run t)) (hstep : s.reserveStep t = some s') : Inv s' := by
  have hold : ∀ start, (s.threads t).pc ≠ .storeNext start := by simp [hpc]
  simp only [StepSafe, hpc] at hsafe
  set start := s.globalNextPageNumber with hstart
  have hpos : 0 < start := Nat.pos_of_ne_zero fun h0 => h.ledger.positive .fresh (le_of_eq h0)
  have hmod : (start + monotonicRefillBasePages) % u64Limit = start + monotonicRefillBasePages :=
    Nat.mod_eq_of_lt hsafe
  simp only [State.reserveStep] at hstep
  rw [← hstart, if_pos ⟨hpos, hsafe⟩, hmod] at hstep
  cases hstep
  set s₁ : State := { s with
    globalNextPageNumber := start + monotonicRefillBasePages
    history := .reserved start monotonicRefillBasePages :: s.history } with hs₁
  have hheld : held s₁ = update (held s) .fresh { p | start + monotonicRefillBasePages ≤ p } := by
    funext x
    cases x <;> rfl
  have hcur : Cursors (s₁.setPc t (.storeEnd start)) := by
    have hself : (s₁.setPc t (.storeEnd start)).threads t =
        ⟨(s.threads t).shardIdx, .storeEnd start⟩ := setPc_threads_self _
    have hother : ∀ u, u ≠ t → (s₁.setPc t (.storeEnd start)).threads u = s.threads u :=
      fun u hu => setPc_threads_ne (s := s₁) _ hu
    refine ⟨?_, fun i => (h.cursors.ends i).trans (Nat.le_add_right _ _), ?_, ?_, ?_⟩
    · intro i h0
      rw [installing_congr hother hold (by simp)]
      exact h.cursors.unset i h0
    · intro u
      by_cases hu : u = t
      · subst hu
        rw [hself]
        exact fun _ => h.cursors.locked u (by rw [hpc]; trivial)
      · rw [hother u hu]
        exact h.cursors.locked u
    · intro u start'
      by_cases hu : u = t
      · subst hu
        rw [hself]
        rintro ⟨⟩
        exact ⟨h.cursors.ends _, le_rfl⟩
      · rw [hother u hu]
        intro hpc'
        obtain ⟨hle, hglobal⟩ := h.cursors.storing u start' hpc'
        exact ⟨hle, hglobal.trans (Nat.le_add_right _ _)⟩
    intro u start'
    by_cases hu : u = t
    · subst hu
      simp
    · rw [hother u hu]
      exact h.cursors.stored u start'
  have hne : Place.fresh ≠ .thread t := by simp
  have hm : Moves (held s) (held (s₁.setPc t (.storeEnd start))) .fresh (.thread t)
      { p | start ≤ p ∧ p < start + monotonicRefillBasePages } := by
    rw [held_setPc (s := s₁) hold (by simp), hheld]
    refine Moves.of_update hne (fun p hp => hp.1) ?_ Set.subset_union_right
    intro p hp
    exact ⟨(Nat.le_add_right _ _).trans hp, fun hlt => absurd hlt.2 (Nat.not_lt.mpr hp)⟩
  have hlists : ListsWf s₁ := ⟨h.lists.central, h.lists.buckets, h.lists.pending⟩
  refine ⟨hcur, hlists.updateThread trivial, ⟨hm.heldOnce h.ledger.once, ?_, ?_⟩,
    h.unique.cons_of_not_returned (by simp)⟩
  · intro x hx
    rcases hm.mem_before hx with hx | ⟨-, hx⟩
    · exact h.ledger.positive x hx
    · exact h.ledger.positive .fresh hx
  intro x huser hfresh p hp
  by_cases hx : x = .thread t
  · subst hx
    rcases hm.arrived hp with hp | hp
    · exact available_cons _ (h.ledger.available _ huser hfresh p hp)
    · exact .inl ⟨start, _, mem_cons_self, hp⟩
  · exact available_cons _ (h.ledger.available x huser hfresh p (hm.subset_of_ne_dst hx hp))

/-- A later end of the range changes nothing for a thread unless it holds a
cursor value that only the later end admits. -/
theorem pcPages_subset_of_end {stop stop' : Nat} {pc : Pc}
    (h : ∀ locked n, pc = .loadEnd locked n → n + 1 ≤ stop ∨ stop' < n + 1) :
    pcPages stop' pc ⊆ pcPages stop pc := by
  cases pc with
  | loadEnd locked n =>
    rintro p ⟨hp, hle⟩
    refine ⟨hp, ?_⟩
    rcases h locked n rfl with h | h
    · exact h
    · omega
  | push i e after => cases after <;> exact subset_rfl
  | _ => exact subset_rfl

/-- A new range for the thread's own shard: what the other places hold stays. -/
theorem held_install {m : MonotonicRange} {pc : Pc} {x : Place}
    (hx : x ≠ .mono (s.threads t).shardIdx)
    (hthread : ∀ u, x = .thread u → u ≠ t ∧ ((s.threads u).shardIdx = (s.threads t).shardIdx →
      pcPages m.endPageNumber (s.threads u).pc =
        pcPages (s.mono (s.threads u).shardIdx).endPageNumber (s.threads u).pc)) :
    held ((s.setMonotonic (s.threads t).shardIdx m).setPc t pc) x = held s x := by
  set i := (s.threads t).shardIdx with hi
  set s₁ := (s.setMonotonic i m).setPc t pc
  have hother : ∀ u, u ≠ t → s₁.threads u = s.threads u :=
    fun u hu => setPc_threads_ne (s := s.setMonotonic i m) _ hu
  have hmono : ∀ j, j ≠ i → s₁.mono j = s.mono j := fun j hj => setMonotonic_mono_ne m hj
  cases x with
  | thread u =>
    obtain ⟨hu, hpages⟩ := hthread u rfl
    simp only [held, hother u hu]
    by_cases hui : (s.threads u).shardIdx = i
    · rw [← hpages hui, hui]
      exact congrArg (pcPages · _) (congrArg _ (setMonotonic_mono_self i m))
    · rw [hmono _ hui]
  | mono j =>
    have hj : j ≠ i := fun hj => hx (by rw [hj])
    have hinst : Installing s₁ j ↔ Installing s j := by
      refine exists_congr fun u => exists_congr fun start => ?_
      by_cases hu : u = t
      · have hidx : (s₁.threads u).shardIdx = i := hu ▸ setPc_shardIdx _ _
        constructor
        · intro heq
          exact absurd (by rw [← hidx, heq]) hj.symm
        · intro heq
          exact absurd (by rw [hi, ← hu, heq]) hj
      · rw [hother u hu]
    simp only [held, hinst, hmono j hj]
  | bucket j b =>
    simp only [held]
    rw [show s₁.bucket j b = s.bucket j b from setMonotonic_bucket i m j b]
  | central => rfl
  | user => rfl
  | fresh => rfl

theorem storeEndStep_inv {start : Nat} (h : Inv s) (hpc : (s.threads t).pc = .storeEnd start)
    (hsafe : StepSafe s (.run t)) (hstep : s.storeEndStep t start = some s') : Inv s' := by
  simp only [StepSafe, hpc] at hsafe
  cases hstep
  set i := (s.threads t).shardIdx with hi
  set m : MonotonicRange :=
    { s.mono i with endPageNumber := start + monotonicRefillBasePages }
  obtain ⟨hle, hglobal⟩ := h.cursors.storing t start hpc
  have hlock : (s.mono i).refillLock = some t := h.cursors.locked t (by rw [hpc]; trivial)
  refine ⟨h.cursors.setMonotonic rfl (fun _ => .inl ⟨start, rfl⟩) hglobal ?_ (fun _ => hlock)
    (by simp) (by rintro start' ⟨⟩; rfl), h.lists.setMonotonic.updateThread trivial, ?_, h.unique⟩
  · intro u hu hother
    rw [hlock] at hother
    exact absurd (Option.some.inj hother).symm hu
  -- the shard's own range is empty from here to the second store
  set s₁ := (s.setMonotonic i m).setPc t (.storeNext start)
  have hself : s₁.threads t = ⟨i, .storeNext start⟩ := setPc_threads_self _
  refine h.ledger.of_subset (fun x => ?_) rfl
  cases x with
  | thread u =>
    by_cases hu : u = t
    · subst hu
      simp only [held, hself, hpc]
      exact subset_rfl
    simp only [held, show s₁.threads u = s.threads u from setPc_threads_ne _ hu]
    by_cases hui : (s.threads u).shardIdx = i
    · rw [hui, show s₁.mono i = m from setMonotonic_mono_self i m]
      refine pcPages_subset_of_end fun locked n hn => ?_
      exact hsafe u locked n hu (by rw [← hui, ← hn])
    · rw [show s₁.mono _ = _ from setMonotonic_mono_ne m hui]
  | mono j =>
    by_cases hj : j = i
    · rintro p ⟨hinst, -⟩
      exact absurd ⟨t, start, hj ▸ hself⟩ hinst
    · exact (held_install (by simpa using hj) (by simp)).le
  | _ => exact (held_install (by simp) (by simp)).le

/-- The second store: the rest of the block becomes the shard's range, the thread
keeps its first page. -/
theorem storeNextStep_inv {start : Nat} (h : Inv s)
    (hpc : (s.threads t).pc = .storeNext start) (hstep : s.storeNextStep t start = some s') :
    Inv s' := by
  cases hstep
  set i := (s.threads t).shardIdx with hi
  set m : MonotonicRange :=
    State.unlock true { s.mono i with nextPageNumber := start + 1 } with hm
  have hend : (s.mono i).endPageNumber = start + monotonicRefillBasePages :=
    h.cursors.stored t start hpc
  have hlock : (s.mono i).refillLock = some t := h.cursors.locked t (by rw [hpc]; trivial)
  refine ⟨h.cursors.setMonotonic rfl (by simp [hm, State.unlock]) (h.cursors.ends i) ?_
    (fun hl => hl.elim) (by simp) (by simp), h.lists.setMonotonic.updateThread trivial, ?_,
    h.unique⟩
  · intro u hu hother
    rw [hlock] at hother
    exact absurd (Option.some.inj hother).symm hu
  set s₁ := (s.setMonotonic i m).setPc t (.ret start)
  have hself : s₁.threads t = ⟨i, .ret start⟩ := setPc_threads_self _
  have hmonoi : s₁.mono i = m := setMonotonic_mono_self i m
  refine h.ledger.of_moves (.thread t) (.mono i)
    { p | start + 1 ≤ p ∧ p < start + monotonicRefillBasePages } ⟨?_, ?_, ?_, ?_⟩ (by simp) rfl
  · rintro p ⟨hle, hlt⟩
    simp only [held, hpc]
    exact ⟨by omega, hlt⟩
  · simp only [held, hself, hpc]
    intro p hp
    rw [show p = start from hp]
    refine ⟨⟨le_rfl, Nat.lt_add_of_pos_right (by decide)⟩, fun hp => ?_⟩
    exact Nat.not_succ_le_self start hp.1
  · rintro p ⟨-, hle, hlt⟩
    rw [hmonoi] at hle hlt
    exact .inr ⟨hle, hend ▸ hlt⟩
  · intro x hx hx'
    refine (held_install hx' fun u hu => ⟨fun hut => hx (hut ▸ hu), fun hui => ?_⟩).le
    rw [hui]
    rfl

end Monotonic

/-! ## Returns, promotions and whole runs -/

section Runs

variable {s s' : State} {t : Nat}

/-- A page that was returned and is not in use any more was promoted since. -/
theorem exists_promoted_of_not_inUse {first t p : Nat} : ∀ {between older : List Event},
      ¬InUse first (between ++ .returned t p :: older) p → ∃ e, .promoted e ∈ between ∧ e.Contains p
  | [], _, h => absurd (.inl rfl) h
  | ev :: between, older, h => by
    by_cases hrest : InUse first (between ++ .returned t p :: older) p
    · cases ev with
      | returned u q => exact absurd (.inr hrest) h
      | reserved start len => exact absurd hrest h
      | promoted e =>
        refine ⟨e, mem_cons_self, ?_⟩
        by_contra hne
        exact h ⟨hrest, hne⟩
    · obtain ⟨e, hmem, hp⟩ := exists_promoted_of_not_inUse hrest
      exact ⟨e, mem_cons_of_mem ev hmem, hp⟩

theorem AllocationsUnique.cons_returned {first p : Nat} {hist : List Event}
    (h : AllocationsUnique hist) (hzero : p ≠ 0) (havail : Available hist p)
    (hfree : ¬InUse first hist p) : AllocationsUnique (.returned t p :: hist) where
  promotedBetween := by
    intro newer between older t' u p' heq
    cases newer with
    | nil =>
      obtain ⟨hev, rfl⟩ := List.cons.inj heq
      cases hev
      exact exists_promoted_of_not_inUse hfree
    | cons x newer => exact h.promotedBetween (List.cons.inj heq).2
  nonzero := by
    intro t' p' hmem
    rcases mem_cons.mp hmem with heq | hmem
    · cases heq
      exact hzero
    · exact h.nonzero hmem
  reserved := by
    intro newer older t' p' heq
    cases newer with
    | nil =>
      obtain ⟨hev, rfl⟩ := List.cons.inj heq
      cases hev
      exact havail
    | cons x newer => exact h.reserved (List.cons.inj heq).2

theorem ret_held {page : Nat} (hpc : (s.threads t).pc = .ret page) : page ∈ held s (.thread t) := by
  simp only [held, hpc]
  exact rfl

/-- The page that a call is about to return is not in use. -/
theorem Inv.ret_not_inUse (h : Inv s) {page : Nat} (hpc : (s.threads t).pc = .ret page) :
    ¬InUse s.firstPageNumber s.history page :=
  h.ledger.once.not_mem (i := .thread t) (j := .user) (by simp) (ret_held hpc)

theorem retStep_inv {page : Nat} (h : Inv s) (hpc : (s.threads t).pc = .ret page)
    (hstep : s.retStep t page = some s') : Inv s' := by
  have hold : ∀ start, (s.threads t).pc ≠ .storeNext start := by simp [hpc]
  cases hstep
  have hpage := ret_held hpc
  have hfree := h.ret_not_inUse hpc
  have havail := h.ledger.available (.thread t) (by simp) (by simp) page hpage
  have hzero : page ≠ 0 := by
    rintro rfl
    exact h.ledger.positive _ hpage
  have hcur : Cursors (s.setPc t .idle) :=
    h.cursors.updateThread hold (fun hl => hl.elim) (by simp) (by simp)
  have hlists : ListsWf (s.setPc t .idle) := h.lists.updateThread trivial
  have hheld : held { s.setPc t .idle with history := .returned t page :: s.history } =
      update (update (held s) (.thread t) ∅) .user
        (held s .user ∪ {page}) := by
    rw [show (∅ : Set Nat) = pcPages (s.mono (s.threads t).shardIdx).endPageNumber .idle from rfl,
      ← held_setPc hold (by simp)]
    funext x
    cases x with
    | user =>
      ext p
      exact or_comm
    | _ => rfl
  have hm : Moves (held s) (held { s.setPc t .idle with
      history := .returned t page :: s.history }) (.thread t) .user {page} := by
    rw [hheld]
    have hne : Place.thread t ≠ .user := by simp
    exact Moves.of_update hne (by simpa using hpage) (Set.empty_subset _) subset_rfl
  refine ⟨⟨hcur.unset, hcur.ends, hcur.locked, hcur.storing, hcur.stored⟩,
    ⟨hlists.central, hlists.buckets, hlists.pending⟩, ⟨hm.heldOnce h.ledger.once, ?_, ?_⟩,
    h.unique.cons_returned hzero havail hfree⟩
  · intro x hx
    rcases hm.mem_before hx with hx | ⟨-, hx⟩
    · exact h.ledger.positive _ hx
    · exact h.ledger.positive _ hx
  · intro x huser hfresh p hp
    exact available_cons _ (h.ledger.available x huser hfresh p (hm.subset_of_ne_dst huser hp))

theorem promote_inv {e : FreeExtent} (h : Inv s) (hsafe : StepSafe s (.promote e))
    (hstep : step s (.promote e) = some s') : Inv s' := by
  simp only [step] at hstep
  split at hstep
  · rename_i hpos
    rw [map_eq_some_iff] at hstep
    obtain ⟨c, hc, rfl⟩ := hstep
    have huser : extentPages e ⊆ held s .user := hsafe
    obtain ⟨hwf, hpages⟩ := h.lists.central.insert hpos hc
    set s₁ : State := { s with central := c, history := .promoted e :: s.history }
    have hheld : held s₁ = update (update (held s) .user (held s .user \ extentPages e))
          .central (held s .central ∪ extentPages e) := by
      funext x
      cases x with
      | central =>
        rw [update_self, Set.union_comm]
        exact hpages
      | user => rfl
      | _ => rfl
    have hm : Moves (held s) (held s₁) .user .central (extentPages e) := by
      rw [hheld]
      have hne : Place.user ≠ .central := by simp
      exact Moves.of_update hne huser subset_rfl subset_rfl
    refine ⟨h.cursors.congr (fun _ => rfl) rfl rfl, ⟨hwf, h.lists.buckets, h.lists.pending⟩,
      ⟨hm.heldOnce h.ledger.once, ?_, ?_⟩, h.unique.cons_of_not_returned (by simp)⟩
    · intro x hx
      rcases hm.mem_before hx with hx | ⟨-, hx⟩
      · exact h.ledger.positive _ hx
      · exact h.ledger.positive _ hx
    intro x hxuser hxfresh p hp
    by_cases hx : x = .central
    · subst hx
      rcases hm.arrived hp with hp | hp
      · exact available_cons _ (h.ledger.available _ hxuser hxfresh p hp)
      · exact .inr ⟨e, mem_cons_self, hp⟩
    · exact available_cons _
        (h.ledger.available x hxuser hxfresh p (hm.subset_of_ne_dst hx hp))
  · cases hstep

theorem call_inv {hint : Nat} (h : Inv s) (hstep : step s (.call t hint) = some s') : Inv s' := by
  simp only [step] at hstep
  split at hstep
  · rename_i hidle
    cases hstep
    exact h.emptyStep trivial (by simp [hidle])
  · cases hstep

theorem runStep_inv (h : Inv s) (hsafe : StepSafe s (.run t))
    (hstep : s.runStep t = some s') : Inv s' := by
  unfold State.runStep at hstep
  -- a central allocation for a bucket refill, for one extent to push
  have hrefill : ∀ (i : Nat) (a : FreeExtent), 0 < a.startPageNumber → 0 < a.len →
      (∀ start, Pc.push i a .retryOwn ≠ .storeNext start) ∧
        (∀ start, Pc.push i a .retryOwn ≠ .storeEnd start) ∧
        ¬HoldsLock (.push i a .retryOwn) ∧ PcWf (.push i a .retryOwn) ∧
        ∀ stop, pcPages stop (.push i a .retryOwn) ⊆ extentPages a :=
    fun i a hstart hlen => ⟨by simp, by simp, id, ⟨hstart, hlen⟩, fun _ => subset_rfl⟩
  cases hpc : (s.threads t).pc with
  | idle => simp [hpc] at hstep
  | panicked => simp [hpc] at hstep
  | pop source b => exact popStep_inv h hpc (by simpa only [hpc] using hstep)
  | push i e after => exact pushStep_inv h hpc (by simpa only [hpc] using hstep)
  | refillBatch =>
    simp only [hpc] at hstep
    exact fitStep_inv h (by simp [hpc]) (by trivial) (hrefill _) hstep
  | refillOne =>
    simp only [hpc] at hstep
    exact fitStep_inv h (by simp [hpc]) (by trivial) (hrefill _) hstep
  | centralFit =>
    simp only [hpc] at hstep
    refine fitStep_inv h (by simp [hpc]) (by rfl) (fun a hstart hlen => ?_) hstep
    refine ⟨by simp, by simp, id, trivial, fun stop p hp => ?_⟩
    rw [show p = a.startPageNumber from hp]
    exact start_mem_extentPages hlen
  | fetchNext locked =>
    exact fetchNextStep_inv h hpc hsafe (by simpa only [hpc] using hstep)
  | loadEnd locked next => exact loadEndStep_inv h hpc (by simpa only [hpc] using hstep)
  | lockRefill => exact lockRefillStep_inv h hpc (by simpa only [hpc] using hstep)
  | reserve => exact reserveStep_inv h hpc hsafe (by simpa only [hpc] using hstep)
  | storeEnd start => exact storeEndStep_inv h hpc hsafe (by simpa only [hpc] using hstep)
  | storeNext start => exact storeNextStep_inv h hpc (by simpa only [hpc] using hstep)
  | ret page => exact retStep_inv h hpc (by simpa only [hpc] using hstep)

theorem step_inv {a : Action} (h : Inv s) (hsafe : StepSafe s a) (hstep : step s a = some s') :
    Inv s' := by
  cases a with
  | call t hint => exact call_inv h hstep
  | run t => exact runStep_inv h hsafe hstep
  | promote e => exact promote_inv h hsafe hstep

theorem new_inv {first : Nat} (hfirst : 0 < first) (shardCount : Nat) :
    Inv (new first shardCount) where
  cursors := by
    refine ⟨fun i _ => .inr rfl, fun i => Nat.zero_le _, ?_, ?_, ?_⟩
    · intro t hl
      exact hl.elim
    · intro t start hpc
      cases hpc
    · intro t start hpc
      cases hpc
  lists := ⟨CentralInner.ok_new, fun _ _ => ExtentsWf.nil, fun _ => trivial⟩
  ledger := by
    -- only the callers and the unreserved tail hold pages
    have hempty : ∀ x, x ≠ .user → x ≠ .fresh → held (new first shardCount) x = ∅ := by
      intro x huser hfresh
      cases x with
      | central => exact listPages_nil
      | bucket i b => exact listPages_nil
      | thread t => rfl
      | mono i =>
        ext p
        simp [held, new, FreePageShard.new, State.mono]
      | user => exact absurd rfl huser
      | fresh => exact absurd rfl hfresh
    have huf : Disjoint (held (new first shardCount) .user)
        (held (new first shardCount) .fresh) := by
      rw [Set.disjoint_left]
      intro p hp hp'
      exact absurd hp.2 (Nat.not_lt.mpr hp')
    refine ⟨?_, ?_, ?_⟩
    · intro x y hxy
      by_cases hx : x = .user
      · by_cases hy : y = .fresh
        · rw [hx, hy]
          exact huf
        · rw [hempty y (fun h => hxy (hx.trans h.symm)) hy]
          exact disjoint_bot_right
      by_cases hx' : x = .fresh
      · by_cases hy : y = .user
        · rw [hx', hy]
          exact huf.symm
        · rw [hempty y hy (fun h => hxy (hx'.trans h.symm))]
          exact disjoint_bot_right
      · rw [hempty x hx hx']
        exact disjoint_bot_left
    · intro x
      by_cases hx : x = .user
      · subst hx
        exact fun h => absurd h.1 (Nat.lt_irrefl 0)
      · by_cases hx' : x = .fresh
        · subst hx'
          exact Nat.not_le.mpr hfirst
        · rw [hempty x hx hx']
          exact Set.notMem_empty 0
    · intro x huser hfresh p hp
      rw [hempty x huser hfresh] at hp
      exact hp.elim
  unique := ⟨by simp [new], by simp [new], by simp [new]⟩

/-- In every run whose steps are safe, no page is returned twice without being
promoted in between, and every returned page is non-zero and was reserved. -/
theorem allocations_unique_of_safe {first shardCount : Nat} (hfirst : 0 < first)
    (h : Reach step StepSafe (new first shardCount) s) : AllocationsUnique s.history :=
  (h.invariant (new_inv hfirst shardCount) fun _ _ _ hinv hsafe hstep =>
    step_inv hinv hsafe hstep).unique

def unconditional (s : State) : Action → Bool
  | .call _ _ => true
  | .promote _ => false
  | .run t =>
    match (s.threads t).pc with
    | .fetchNext _ => false
    | .reserve => false
    | .storeEnd _ => false
    | _ => true

theorem stepSafe_of_unconditional (s : State) (a : Action) (h : unconditional s a = true) :
    StepSafe s a := by
  cases a with
  | call t hint => trivial
  | promote e => cases h
  | run t =>
    unfold unconditional at h
    unfold StepSafe
    cases hpc : (s.threads t).pc <;> simp_all

/-- A page of the opened file is promoted and then allocated again. -/
theorem allocations_unique_after_promotion :
    ∃ s, Reach step StepSafe (new 10 1) s ∧ .returned 0 5 ∈ s.history ∧
      AllocationsUnique s.history := by
  have hrun : ((step (new 10 1) (.promote ⟨5, 1⟩)).bind fun s =>
      (exec (guarded unconditional step) s (.call 0 0 :: replicate 14 (.run 0))).map
        State.history) = some [.returned 0 5, .promoted ⟨5, 1⟩] := by
    decide +kernel
  simp only [bind_eq_some_iff, map_eq_some_iff] at hrun
  obtain ⟨s₁, hpromote, s, hexec, hhist⟩ := hrun
  have hsafe : StepSafe (new 10 1) (.promote ⟨5, 1⟩) := by
    rintro p ⟨hle, hlt⟩
    simp only at hle hlt
    refine ⟨by omega, ?_⟩
    change p < 10
    omega
  have hreach : Reach step StepSafe (new 10 1) s :=
    (Reach.tail _ .refl hsafe hpromote).trans (Reach.of_exec hexec stepSafe_of_unconditional)
  exact ⟨s, hreach, by simp [hhist], allocations_unique_of_safe (by decide) hreach⟩

/-! ## The stale cursor

Two threads allocate from a fresh allocator with one shard.  Thread 0 finds the
cursor unset and goes for the lock; thread 1 then fetches the cursor value 1,
past the end 0 of the empty range, and is delayed before it loads the end.
Thread 0 reserves pages 1 to 256 and stores the new end 257, which admits the
stale value 1: both calls return page 1. -/

def staleCursorRun : List Action :=
  [.call 0 0, .call 1 0] ++ replicate 22 (.run 0) ++ replicate 22 (.run 1) ++
    replicate 5 (.run 0) ++ replicate 2 (.run 1) ++ replicate 2 (.run 0)

theorem staleCursorRun_returns_twice : ∃ s, exec step (new 1 1) staleCursorRun = some s ∧
      s.history = [.returned 0 1, .returned 1 1, .reserved 1 256] ∧
      ¬AllocationsUnique s.history := by
  have hrun : (exec step (new 1 1) staleCursorRun).map State.history =
      some [.returned 0 1, .returned 1 1, .reserved 1 256] := by
    decide +kernel
  obtain ⟨s, hexec, hhist⟩ := map_eq_some_iff.mp hrun
  refine ⟨s, hexec, hhist, fun h => ?_⟩
  have hsplit : s.history = [] ++ .returned 0 1 :: ([] ++ .returned 1 1 :: [.reserved 1 256]) :=
    hhist
  obtain ⟨e, hmem, -⟩ := h.promotedBetween hsplit
  exact absurd hmem not_mem_nil

end Runs

end Pagebox.Storage.FreePageAllocator
