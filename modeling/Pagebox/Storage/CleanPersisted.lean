import Pagebox.Storage.Latches

/-!
# Clean frames are persisted

A resident frame that is not dirty and not latched holds the last written version
of its page, and so does the page store: such a frame may be freed, and a later
fault reads the same version.

The cleaner writes its copy after it has given the latch back and clears the dirty
flag only if the dirty generation is still the copied one.  A flush writes and
clears without looking at `dirty_flush_inflight`.  When it does so while a cleaner
still has to write a copy of an older generation, that copy is written last; the
invariant holds in runs where a flush never meets such a copy.
-/

namespace Pagebox.Storage.Writeback

open Pagebox.Base Function

variable {n m : Nat} {β : Type}

namespace Pc

def changes : Pc m β → List (Fin m)
  | .writer f true => [f]
  | _ => []

def unwritten : Pc m β → List (DirtyPage m β)
  | .collecting _ batch => batch
  | .storing todo _ => todo
  | _ => []

def written : Pc m β → List (DirtyPage m β)
  | .storing _ done => done
  | .finishing todo _ => todo
  | _ => []

def flushed : Pc m β → List (Fin m)
  | .flushStoring _ done => done
  | .flushClearing todo _ => todo
  | _ => []

theorem changes_subset_holds (pc : Pc m β) : pc.changes ⊆ pc.holds := by
  cases pc with
  | writer f changed => cases changed <;> simp [changes, holds]
  | _ => simp [changes]

theorem flushed_subset_holds (pc : Pc m β) : pc.flushed ⊆ pc.holds := by
  cases pc <;> simp [flushed, holds]

theorem unwritten_subset_claims (pc : Pc m β) : pc.unwritten ⊆ pc.claims := by
  cases pc <;> simp [unwritten, claims]

theorem written_subset_claims (pc : Pc m β) : pc.written ⊆ pc.claims := by
  cases pc <;> simp [written, claims]

end Pc

/-- A flush stores a page only when every copy of it that a cleaner still has to
write is of the present generation; and no dirty generation wraps around. -/
def flushSafe (s : State n m β) : Action n m β → Bool
  | .flushStoreNext t =>
    match s.threads t with
    | .flushStoring (f :: _) _ => decide (∀ u, ∀ d ∈ (s.threads u).unwritten,
        d.frame = f → d.dirtyGeneration = (s.frames f).core.dirtyGeneration)
    | _ => true
  | .mark t _ =>
    match s.threads t with
    | .writer f _ => (s.frames f).core.dirtyGeneration + 1 < u64Limit
    | _ => true
  | _ => true

namespace Page

/-- Without links to frames. -/
def Plain (p : Page m β) : Prop := ∀ g, .hot g ∉ p.links

theorem plain_prepare (p : Page m β) (pidOf : Fin m → Nat) : (p.prepare pidOf).Plain := by
  intro g hg
  obtain ⟨link, -, heq⟩ := List.mem_map.mp hg
  cases link <;> cases heq

theorem prepare_congr {p : Page m β} {pidOf pidOf' : Fin m → Nat}
    (h : ∀ g, .hot g ∈ p.links → pidOf g = pidOf' g) : p.prepare pidOf = p.prepare pidOf' := by
  have hlinks : p.links.map (Swip.convert pidOf) = p.links.map (Swip.convert pidOf') := by
    apply List.map_congr_left
    intro link hlink
    cases link with
    | hot g => simp [Swip.convert, h g hlink]
    | evicted pid => rfl
  simp [prepare, hlinks]

theorem prepare_of_plain {p : Page m β} (hp : p.Plain) (pidOf : Fin m → Nat) :
    p.prepare pidOf = p := by
  have hlinks : p.links.map (Swip.convert pidOf) = p.links := by
    rw [List.map_congr_left (g := id), List.map_id]
    intro link hlink
    cases link with
    | hot g => exact absurd hlink (hp g)
    | evicted pid => rfl
  simp [prepare, hlinks]

end Page

namespace State

def live (s : State n m β) (f : Fin m) : Prop := (s.frames f).state ≠ .free

def prepared (s : State n m β) (f : Fin m) : Page m β := (s.frames f).page.prepare s.pidOf

def generation (s : State n m β) (f : Fin m) : Nat := (s.frames f).core.dirtyGeneration

/-- The frame is clean, or a flush has stored it and will mark it clean. -/
def Settled (s : State n m β) (f : Fin m) : Prop :=
  (s.frames f).core.dirty = false ∨ ∃ t, f ∈ (s.threads t).flushed

end State

/-- One frame for each page, and links to frames in use. -/
structure TableWf (s : State n m β) : Prop where
  unique : ∀ f g, s.live f → s.live g → s.pidOf f = s.pidOf g → f = g
  links : ∀ f g, s.live f → .hot g ∈ (s.frames f).page.links → s.live g

/-- How frames, copies and the store relate to the last written versions. -/
structure Content (s : State n m β) : Prop where
  plain : ∀ pid, (s.store pid).Plain
  plainCopy : ∀ t d, d ∈ (s.threads t).unwritten → d.copy.Plain
  fresh : ∀ f, s.live f → (∀ t, f ∉ (s.threads t).changes) → s.prepared f = s.latest (s.pidOf f)
  absent : ∀ pid, (∀ f, s.live f → s.pidOf f ≠ pid) → s.store pid = s.latest pid
  settled : ∀ f, s.live f → s.Settled f → s.store (s.pidOf f) = s.latest (s.pidOf f)
  unwritten : ∀ t d, d ∈ (s.threads t).unwritten →
    (s.generation d.frame = d.dirtyGeneration ∨ s.Settled d.frame) → d.copy = s.latest d.pid
  written : ∀ t d, d ∈ (s.threads t).written →
    s.generation d.frame = d.dirtyGeneration → s.store d.pid = s.latest d.pid
  generations : ∀ t d, d ∈ (s.threads t).claims → d.dirtyGeneration ≤ s.generation d.frame

/-- What a thread does at `pc'` outside the frames in `T`, it did at `pc`; and it goes on
changing the pages it changes there. -/
structure Pc.Within (T : Fin m → Prop) (pc pc' : Pc m β) : Prop where
  changes : ∀ g ∈ pc.changes, T g ∨ g ∈ pc'.changes
  flushed : ∀ g ∈ pc'.flushed, T g ∨ g ∈ pc.flushed
  unwritten : ∀ d ∈ pc'.unwritten, T d.frame ∨ d ∈ pc.unwritten
  written : ∀ d ∈ pc'.written, T d.frame ∨ d ∈ pc.written
  claims : ∀ d ∈ pc'.claims, T d.frame ∨ d ∈ pc.claims

/-- Outside the frames in `T` and their pages a step changes nothing, but for the pages under
a writer's hands. -/
structure Elsewhere (T : Fin m → Prop) (s s' : State n m β) : Prop where
  live : ∀ g, ¬T g → (s'.live g ↔ s.live g)
  core : ∀ g, ¬T g → (s'.frames g).core = (s.frames g).core
  prepared : ∀ g, ¬T g → s.live g → (∃ u, g ∈ (s'.threads u).changes) ∨ s'.prepared g = s.prepared g
  threads : ∀ u, (s.threads u).Within T (s'.threads u)
  pages : ∀ pid, (∀ g, T g → s'.live g → s'.pidOf g ≠ pid) →
    s'.store pid = s.store pid ∧ s'.latest pid = s.latest pid

structure ContentAt (s : State n m β) (f : Fin m) : Prop where
  fresh : s.live f → (∀ t, f ∉ (s.threads t).changes) → s.prepared f = s.latest (s.pidOf f)
  settled : s.live f → s.Settled f → s.store (s.pidOf f) = s.latest (s.pidOf f)
  unwritten : ∀ t d, d.frame = f → d ∈ (s.threads t).unwritten → d.copy.Plain ∧
    (s.generation f = d.dirtyGeneration ∨ s.Settled f → d.copy = s.latest d.pid)
  written : ∀ t d, d.frame = f → d ∈ (s.threads t).written →
    s.generation f = d.dirtyGeneration → s.store d.pid = s.latest d.pid
  generations : ∀ t d, d.frame = f → d ∈ (s.threads t).claims → d.dirtyGeneration ≤ s.generation f

section Rules

variable {s s' : State n m β} {t : Fin n} {f : Fin m} {T : Fin m → Prop}

theorem Pc.Within.refl (pc : Pc m β) : pc.Within T pc :=
  ⟨fun _ => .inr, fun _ => .inr, fun _ => .inr, fun _ => .inr, fun _ => .inr⟩

theorem Pc.Within.of_empty {pc pc' : Pc m β} (h : pc.changes = [])
    (h' : pc'.flushed = [] ∧ pc'.unwritten = [] ∧ pc'.written = [] ∧ pc'.claims = []) :
    pc.Within T pc' := by
  constructor <;> simp [h, h']

theorem Pc.Within.setPc {pc : Pc m β} (h : (s.threads t).Within T pc) (u : Fin n) :
    (s.threads u).Within T ((s.setPc t pc).threads u) := by
  by_cases hu : u = t
  · rw [hu, setPc_self]
    exact h
  · rw [setPc_of_ne s hu]
    exact .refl _

theorem Owned.live_of_claim (ho : Owned s) {d : DirtyPage m β} (hd : d ∈ (s.threads t).claims) :
    s.live d.frame := by
  rw [State.live, (ho.claimed t d hd).1]
  decide

/-- The rule of a step: what is left to prove concerns the frames it touches. -/
theorem Content.elsewhere (hi : Content s) (ho : Owned s) (ht : TableWf s')
    (h : Elsewhere T s s') (hplain : ∀ pid, (s'.store pid).Plain) (hat : ∀ f, T f → ContentAt s' f)
    (hgone : ∀ f, T f → s.live f → s'.live f ∧ s'.pidOf f = s.pidOf f ∨
      s.store (s.pidOf f) = s.latest (s.pidOf f)) : Content s' := by
  have hpid : ∀ g, ¬T g → s'.pidOf g = s.pidOf g := fun g hg => congrArg FrameCore.pid (h.core g hg)
  have hgen : ∀ g, ¬T g → s'.generation g = s.generation g := fun g hg =>
    congrArg FrameCore.dirtyGeneration (h.core g hg)
  have hsettled : ∀ g, ¬T g → s'.Settled g → s.Settled g := by
    rintro g hg (hclean | ⟨u, hu⟩)
    · exact .inl (h.core g hg ▸ hclean)
    · exact .inr ⟨u, ((h.threads u).flushed g hu).resolve_left hg⟩
  -- the page of a frame outside `T` is the page of no frame in `T`
  have hpages : ∀ g, ¬T g → s.live g → s'.store (s.pidOf g) = s.store (s.pidOf g) ∧
      s'.latest (s.pidOf g) = s.latest (s.pidOf g) := by
    intro g hg hlive
    apply h.pages
    intro f hf hflive heq
    have hsame := ht.unique f g hflive ((h.live g hg).mpr hlive) (heq.trans (hpid g hg).symm)
    exact hg (hsame ▸ hf)
  have hclaimed : ∀ u d, ¬T d.frame → d ∈ (s.threads u).claims →
      s'.store d.pid = s.store d.pid ∧ s'.latest d.pid = s.latest d.pid := by
    intro u d hd hclaim
    rw [← (ho.claimed u d hclaim).2.1]
    exact hpages d.frame hd (ho.live_of_claim hclaim)
  constructor
  · exact hplain
  · intro u d hd
    by_cases hT : T d.frame
    · exact ((hat _ hT).unwritten u d rfl hd).1
    · exact hi.plainCopy u d (((h.threads u).unwritten d hd).resolve_left hT)
  · intro g hg hfree
    by_cases hT : T g
    · exact (hat g hT).fresh hg hfree
    have hlive := (h.live g hT).mp hg
    rw [hpid g hT, (hpages g hT hlive).2]
    rcases h.prepared g hT hlive with ⟨u, hu⟩ | hsame
    · exact absurd hu (hfree u)
    · rw [hsame]
      exact hi.fresh g hlive fun u hu =>
        hfree u (((h.threads u).changes g hu).resolve_left hT)
  · intro pid hpid'
    obtain ⟨hstore, hlatest⟩ := h.pages pid fun g _ hg => hpid' g hg
    rw [hstore, hlatest]
    by_cases hpage : ∃ f, T f ∧ s.live f ∧ s.pidOf f = pid
    · obtain ⟨f, hT, hlive, rfl⟩ := hpage
      rcases hgone f hT hlive with ⟨hlive', hsame⟩ | hstored
      · exact absurd hsame (hpid' f hlive')
      · exact hstored
    · apply hi.absent
      intro g hg heq
      by_cases hT : T g
      · exact hpage ⟨g, hT, hg, heq⟩
      · exact hpid' g ((h.live g hT).mpr hg) ((hpid g hT).trans heq)
  · intro g hg hset
    by_cases hT : T g
    · exact (hat g hT).settled hg hset
    · have hlive := (h.live g hT).mp hg
      rw [hpid g hT, (hpages g hT hlive).1, (hpages g hT hlive).2]
      exact hi.settled g hlive (hsettled g hT hset)
  · intro u d hd hcase
    by_cases hT : T d.frame
    · exact ((hat _ hT).unwritten u d rfl hd).2 hcase
    · have hd := ((h.threads u).unwritten d hd).resolve_left hT
      rw [(hclaimed u d hT (Pc.unwritten_subset_claims _ hd)).2]
      rw [hgen _ hT] at hcase
      exact hi.unwritten u d hd (hcase.imp_right (hsettled d.frame hT))
  · intro u d hd hcase
    by_cases hT : T d.frame
    · exact (hat _ hT).written u d rfl hd hcase
    · have hd := ((h.threads u).written d hd).resolve_left hT
      obtain ⟨hstore, hlatest⟩ := hclaimed u d hT (Pc.written_subset_claims _ hd)
      rw [hstore, hlatest]
      exact hi.written u d hd (hgen _ hT ▸ hcase)
  · intro u d hd
    by_cases hT : T d.frame
    · exact (hat _ hT).generations u d rfl hd
    · rw [hgen _ hT]
      exact hi.generations u d (((h.threads u).claims d hd).resolve_left hT)

theorem TableWf.congr (ht : TableWf s) (hframes : s'.frames = s.frames) : TableWf s' := by
  have hlive : s'.live = s.live := by
    funext f
    rw [State.live, State.live, hframes]
  have hpidOf : s'.pidOf = s.pidOf := by
    funext f
    rw [State.pidOf, State.pidOf, hframes]
  constructor
  · rw [hlive, hpidOf]
    exact ht.unique
  · rw [hlive, hframes]
    exact ht.links

end Rules

section Steps

variable {su : Setup n} {s s' : State n m β} {t : Fin n} {f : Fin m}

/-- A latched frame is changed, or stored by a flush, by its holder only. -/
theorem Owned.not_changed (ho : Owned s) (hf : f ∈ (s.threads t).holds)
    (hpc : (s.threads t).changes = []) (u : Fin n) : f ∉ (s.threads u).changes := by
  intro hu
  have heq := ho.eq_of_latched hf (Pc.changes_subset_holds _ hu)
  rw [← heq, hpc] at hu
  cases hu

theorem Owned.not_flushed (ho : Owned s) (hf : f ∈ (s.threads t).holds)
    (hpc : (s.threads t).flushed = []) (u : Fin n) : f ∉ (s.threads u).flushed := by
  intro hu
  have heq := ho.eq_of_latched hf (Pc.flushed_subset_holds _ hu)
  rw [← heq, hpc] at hu
  cases hu

/-- A change of one frame that keeps its page id and its use. -/
structure Retouch (s : State n m β) (f : Fin m) (fr : Frame n m β) : Prop where
  pid : fr.core.pid = s.pidOf f
  state : fr.state = (s.frames f).state

namespace Retouch

variable {fr : Frame n m β} (h : Retouch s f fr)

include h

theorem pidOf : (s.setFrame f fr).pidOf = s.pidOf := by
  funext g
  exact forall_setFrame (P := fun g fr => fr.core.pid = s.pidOf g) h.pid (fun _ _ => rfl) g

theorem live (g : Fin m) : (s.setFrame f fr).live g ↔ s.live g :=
  forall_setFrame (P := fun g fr => fr.state ≠ .free ↔ s.live g)
    (by rw [h.state, State.live]) (fun _ _ => Iff.rfl) g

theorem prepared_of_ne {g : Fin m} (hg : g ≠ f) : (s.setFrame f fr).prepared g = s.prepared g := by
  rw [State.prepared, State.prepared, h.pidOf, setFrame_of_ne s hg]

theorem prepared_self : (s.setFrame f fr).prepared f = fr.page.prepare s.pidOf := by
  rw [State.prepared, h.pidOf, setFrame_self]

theorem tableWf (hi : TableWf s) (hlinks : ∀ g, .hot g ∈ fr.page.links → s.live g) :
    TableWf (s.setFrame f fr) := by
  constructor
  · intro g g' hg hg' hpid
    rw [h.pidOf] at hpid
    exact hi.unique g g' ((h.live g).mp hg) ((h.live g').mp hg') hpid
  intro g g' hg hlink
  rw [h.live]
  by_cases hgf : g = f
  · subst hgf
    rw [setFrame_self] at hlink
    exact hlinks g' hlink
  · rw [setFrame_of_ne s hgf] at hlink
    exact hi.links g g' ((h.live g).mp hg) hlink

end Retouch

/-- The rule of a step that touches neither the page nor the metadata of a frame. -/
theorem Content.quiet (hi : Content s) (ho : Owned s) (ht : TableWf s)
    (hframes : ∀ g, (s'.frames g).page = (s.frames g).page ∧
      (s'.frames g).core = (s.frames g).core ∧ (s'.live g ↔ s.live g))
    (hthreads : ∀ u, (s.threads u).Within (fun _ => False) (s'.threads u))
    (hstore : s'.store = s.store) (hlatest : s'.latest = s.latest) :
    TableWf s' ∧ Content s' := by
  have hpidOf : s'.pidOf = s.pidOf := funext fun g => congrArg FrameCore.pid (hframes g).2.1
  have hlive : s'.live = s.live := funext fun g => propext (hframes g).2.2
  have htable : TableWf s' := by
    constructor
    · rw [hlive, hpidOf]
      exact ht.unique
    · intro f g
      rw [hlive, (hframes f).1]
      exact ht.links f g
  refine ⟨htable, hi.elsewhere ho htable
    ⟨fun g _ => (hframes g).2.2, fun g _ => (hframes g).2.1, ?_,
    hthreads, fun pid _ => ⟨by rw [hstore], by rw [hlatest]⟩⟩ (hstore ▸ hi.plain) nofun nofun⟩
  intro g _ _
  rw [State.prepared, (hframes g).1, hpidOf]
  exact .inr rfl

theorem same_setFrame {fr : Frame n m β} (hpage : fr.page = (s.frames f).page)
    (hcore : fr.core = (s.frames f).core) (hlive : fr.state ≠ .free ↔ s.live f) (g : Fin m) :
    ((s.setFrame f fr).frames g).page = (s.frames g).page ∧
      ((s.setFrame f fr).frames g).core = (s.frames g).core ∧
      ((s.setFrame f fr).live g ↔ s.live g) :=
  forall_setFrame (P := fun g fr => fr.page = (s.frames g).page ∧ fr.core = (s.frames g).core ∧
    (fr.state ≠ .free ↔ s.live g)) ⟨hpage, hcore, hlive⟩ (fun _ _ => ⟨rfl, rfl, Iff.rfl⟩) g

/-- The rule of a step that touches one frame in use. -/
theorem Retouch.content {fr : Frame n m β} (h : Retouch s f fr) (hi : Content s) (ho : Owned s)
    (ht : TableWf s') (hlive : s.live f) (hframes : s'.frames = (s.setFrame f fr).frames)
    (hthreads : ∀ u, (s.threads u).Within (· = f) (s'.threads u))
    (hpages : ∀ pid, pid ≠ s.pidOf f → s'.store pid = s.store pid ∧ s'.latest pid = s.latest pid)
    (hplain : ∀ pid, (s'.store pid).Plain) (hat : ContentAt s' f) : Content s' := by
  have hlive' : ∀ g, s'.live g ↔ s.live g := by
    intro g
    rw [State.live, hframes]
    exact h.live g
  have hpidOf : s'.pidOf = s.pidOf := by
    rw [← h.pidOf]
    funext g
    rw [State.pidOf, State.pidOf, hframes]
  refine hi.elsewhere (T := (· = f)) ho ht ⟨fun g _ => hlive' g, ?_, ?_, hthreads, ?_⟩ hplain
    (fun _ hg => hg ▸ hat) fun g _ hg => .inl ⟨(hlive' g).mpr hg, by rw [hpidOf]⟩
  · intro g hg
    rw [hframes, setFrame_of_ne s hg]
  · intro g hg _
    rw [State.prepared, hframes, setFrame_of_ne s hg, hpidOf]
    exact .inr rfl
  · intro pid hpid
    refine hpages pid fun heq => hpid f rfl ((hlive' f).mpr hlive) ?_
    rw [hpidOf, heq]

/-- The page of a frame changes without its metadata: the holder of the latch
mutates it, or its links change their form. -/
theorem Content.setPage (hi : Content s) (ho : Owned s) (ht : TableWf s') {page : Page m β}
    (hframes : s'.frames = (s.setFrame f { s.frames f with page := page }).frames)
    (hthreads : ∀ u, (s.threads u).Within (fun _ => False) (s'.threads u))
    (hstore : s'.store = s.store) (hlatest : s'.latest = s.latest)
    (hpage : (∃ u, f ∈ (s'.threads u).changes) ∨ page.prepare s.pidOf = s.prepared f) :
    Content s' := by
  have htouch : Retouch s f { s.frames f with page := page } := ⟨rfl, rfl⟩
  have hprepared : ∀ g, s'.prepared g =
      (s.setFrame f { s.frames f with page := page }).prepared g := by
    intro g
    unfold State.prepared State.pidOf
    rw [hframes]
  refine hi.elsewhere ho ht ⟨fun g _ => ?_, fun g _ => ?_, fun g _ _ => ?_, hthreads,
    fun pid _ => ⟨by rw [hstore], by rw [hlatest]⟩⟩ (hstore ▸ hi.plain) nofun nofun
  · rw [State.live, hframes]
    exact htouch.live g
  · rw [hframes]
    exact forall_setFrame (P := fun g fr => fr.core = (s.frames g).core) (by rfl) (fun _ _ => rfl) g
  · rw [hprepared]
    by_cases hg : g = f
    · rw [hg, htouch.prepared_self]
      exact hpage
    · exact .inr (htouch.prepared_of_ne hg)

theorem Content.mutate {links : List (Swip m)} {rest : β} (hi : Content s) (ho : Owned s)
    (ht : TableWf s') (h : s.mutate t links rest = some s') : Content s' := by
  obtain ⟨f, changed, hpc, -, rfl⟩ := mutate_cases h
  refine hi.setPage ho ht rfl (Pc.Within.setPc (s := s.setFrame f _) ?_) rfl rfl
    (.inl ⟨t, by simp [Pc.changes]⟩)
  rw [setFrame_threads, hpc]
  cases changed <;> constructor <;> simp [Pc.changes, Pc.flushed, Pc.unwritten,
    Pc.written, Pc.claims]

theorem Content.mark {record : Option Wal.BufferedWalRecord} (hi : Content s) (ho : Owned s)
    (ht : TableWf s') (hsafe : flushSafe s (.mark t record) = true)
    (h : s.mark su t record = some s') : Content s' := by
  obtain ⟨f, changed, core, hpc, hpid, -, hdirty, hgen, rfl⟩ := mark_cases h
  have hheld : f ∈ (s.threads t).holds := by simp [hpc, Pc.holds]
  have hgen : core.dirtyGeneration = s.generation f + 1 := by
    simp only [flushSafe, hpc, decide_eq_true_eq] at hsafe
    rw [hgen, Nat.mod_eq_of_lt hsafe, State.generation]
  set fr : Frame n m β := { s.frames f with
    page := { (s.frames f).page with lsn := s.lsnFor su t }, core := core } with hfr
  have htouch : Retouch s f fr := ⟨hpid, rfl⟩
  have hclaims : ∀ u, (((s.setFrame f fr).setPc t (.writer f false)).threads u).claims ⊆
      (s.threads u).claims := subset_setPc (s := s.setFrame f fr) Pc.claims (by simp [Pc.claims])
  have hflushed : ∀ u, f ∉ (((s.setFrame f fr).setPc t (.writer f false)).threads u).flushed :=
    fun u hu => ho.not_flushed hheld (by simp [hpc, Pc.flushed]) u
      (subset_setPc (s := s.setFrame f fr) Pc.flushed (by simp [Pc.flushed]) u hu)
  have hnew : (s.setFrame f fr).generation f = s.generation f + 1 := by
    rw [State.generation, setFrame_self, hgen]
  have hunsettled : ¬((s.setFrame f fr).setPc t (.writer f false)).Settled f := by
    rintro (hclean | ⟨u, hu⟩)
    · rw [setPc_frames, setFrame_self] at hclean
      exact absurd (hdirty.symm.trans hclean) (by decide)
    · exact hflushed u hu
  -- the copies of this frame are of older generations
  have hstale : ∀ u d, d.frame = f →
      d ∈ (((s.setFrame f fr).setPc t (.writer f false)).threads u).claims →
      d.dirtyGeneration ≤ s.generation f :=
    fun u d hd hclaim => hd ▸ hi.generations u d (hclaims u hclaim)
  refine htouch.content hi ho ht (ho.latched t f hheld).2 rfl
    (Pc.Within.setPc (s := s.setFrame f fr) ?_) (fun pid hne => ⟨rfl, update_of_ne hne _ _⟩)
    hi.plain ⟨fun _ _ => ?_, fun _ hset => absurd hset hunsettled, fun u d hd hun => ?_,
      fun u d hd hwritten hcase => ?_, fun u d hd hclaim => ?_⟩
  · rw [setFrame_threads, hpc]
    cases changed <;> constructor <;> simp [Pc.changes, Pc.flushed, Pc.unwritten,
      Pc.written, Pc.claims]
  · change (s.setFrame f fr).prepared f = update s.latest (s.pidOf f) _
      ((s.setFrame f fr).pidOf f)
    rw [htouch.prepared_self, htouch.pidOf, update_self]
  · have hplain := subset_setPc (s := s.setFrame f fr) Pc.unwritten (by simp [Pc.unwritten]) u hun
    refine ⟨hi.plainCopy u d hplain, ?_⟩
    rintro (hcase | hset)
    · have hold := hstale u d hd (Pc.unwritten_subset_claims _ hun)
      have hsame := hnew.symm.trans hcase
      omega
    · exact absurd hset hunsettled
  · have hold := hstale u d hd (Pc.written_subset_claims _ hwritten)
    have hsame := hnew.symm.trans hcase
    omega
  · exact (hstale u d hd hclaim).trans (hnew ▸ Nat.le_succ _)

/-! ### Cleaners and flushes -/

/-- Pages go on changing while a thread that changes none moves on. -/
theorem changes_setPc {pc : Pc m β} (h : (s.threads t).changes = []) (u : Fin n) :
    (s.threads u).changes ⊆ ((s.setPc t pc).threads u).changes := by
  by_cases hu : u = t
  · rw [hu, h]
    exact List.nil_subset _
  · rw [setPc_of_ne s hu]
    exact List.Subset.refl _

/-- A cleaner claims a current copy of an unlatched frame. -/
theorem Content.copyDirty (hi : Content s) (ho : Owned s) (ht : TableWf s')
    (h : s.copyDirty su t f = some s') : Content s' := by
  obtain ⟨mode, batch, hpc, ⟨hres, -, hlatch, -, hfree⟩, rfl⟩ := copyDirty_cases h
  have hlive : s.live f := by
    rw [State.live, hres]
    decide
  have hcopy : s.prepared f = s.latest (s.pidOf f) :=
    hi.fresh f hlive fun u hu => ho.not_latched hlatch u (Pc.changes_subset_holds _ hu)
  have hunclaimed : ∀ u d, d ∈ (s.threads u).claims → d.frame ≠ f := by
    intro u d hd heq
    have hpid := (ho.claimed u d hd).2.1
    have hin := ho.inflight u d hd
    rw [← hpid, heq] at hin
    exact hfree hin
  set fr : Frame n m β := { s.frames f with pins := t :: (s.frames f).pins } with hfr
  set d : DirtyPage m β := ⟨f, s.pidOf f, (s.frames f).core.pageLsn,
    (s.frames f).core.dirtyGeneration, (s.frames f).page.prepare s.pidOf⟩ with hd
  set pc : Pc m β := .collecting mode (batch ++ [d]) with hnew
  have htouch : Retouch s f fr := ⟨rfl, rfl⟩
  have hgen : (s.setFrame f fr).generation f = s.generation f := by
    rw [State.generation, setFrame_self]
    rfl
  have hlatest : s.latest ((s.setFrame f fr).pidOf f) = s.latest (s.pidOf f) := by
    rw [htouch.pidOf]
  have honly : ∀ u e, e.frame = f →
      e ∈ (((s.setFrame f fr).setPc t pc).threads u).claims → e = d := by
    intro u e hef he
    by_cases hu : u = t
    · rw [hu, setPc_self] at he
      rcases List.mem_append.mp he with he | he
      · exact absurd hef (hunclaimed t e (by simpa [hpc, Pc.claims] using he))
      · exact List.mem_singleton.mp he
    · rw [setPc_of_ne _ hu] at he
      exact absurd hef (hunclaimed u e he)
  refine htouch.content hi ho ht hlive rfl (Pc.Within.setPc (s := s.setFrame f fr) ?_)
    (fun _ _ => ⟨rfl, rfl⟩) hi.plain ⟨fun _ _ => ?_, fun _ hset => ?_, fun u e hef he => ?_,
      fun u e hef he => ?_, fun u e hef he => ?_⟩
  · rw [setFrame_threads, hpc]
    constructor <;> simp +contextual [hnew, hd, Pc.changes, Pc.flushed, Pc.unwritten, Pc.written,
      Pc.claims, or_imp]
  · exact (htouch.prepared_self.trans hcopy).trans hlatest.symm
  · change s.store ((s.setFrame f fr).pidOf f) = s.latest ((s.setFrame f fr).pidOf f)
    rw [htouch.pidOf]
    refine hi.settled f hlive (hset.imp ?_ (Exists.imp fun u hu => ?_))
    · rw [setPc_frames, setFrame_self]
      exact fun hclean => hclean
    · exact subset_setPc (s := s.setFrame f fr) Pc.flushed (by simp [hnew, Pc.flushed]) u hu
  · rw [honly u e hef (Pc.unwritten_subset_claims _ he)]
    exact ⟨Page.plain_prepare _ _, fun _ => hcopy⟩
  · have he := subset_setPc (s := s.setFrame f fr) Pc.written (by simp [hnew, Pc.written]) u he
    exact absurd hef (hunclaimed u e (Pc.written_subset_claims _ he))
  · rw [honly u e hef he]
    exact hgen.ge

theorem Content.storeNext (hi : Content s) (ht : TableWf s) (ho : Owned s)
    (h : s.storeNext t = some s') : Content s' := by
  obtain ⟨d, todo, done, hpc, rfl⟩ := storeNext_cases h
  have hunwritten : d ∈ (s.threads t).unwritten := by simp [hpc, Pc.unwritten]
  have hclaim : d ∈ (s.threads t).claims := Pc.unwritten_subset_claims _ hunwritten
  have hlive := ho.live_of_claim hclaim
  have hpid : s.pidOf d.frame = d.pid := (ho.claimed t d hclaim).2.1
  set s₁ := s.writePage d.pid d.copy with hs₁
  set pc : Pc m β := .storing todo (done ++ [d]) with hnew
  have hstored : s₁.store d.pid = d.copy := by simp [hs₁, State.writePage]
  have hsub : ∀ u, ((s₁.setPc t pc).threads u).unwritten ⊆ (s.threads u).unwritten :=
    subset_setPc (s := s₁) Pc.unwritten (by simp [hs₁, State.writePage, hpc, hnew, Pc.unwritten])
  have hclaims : ∀ u, ((s₁.setPc t pc).threads u).claims ⊆ (s.threads u).claims :=
    subset_setPc (s := s₁) Pc.claims (by simp [hs₁, State.writePage, hpc, hnew, Pc.claims])
  have hsettled : (s₁.setPc t pc).Settled d.frame → s.Settled d.frame := fun hset =>
    hset.imp_right (Exists.imp fun u hu =>
      subset_setPc (s := s₁) Pc.flushed (by simp [hnew, Pc.flushed]) u hu)
  have htouch : Retouch s d.frame (s.frames d.frame) := ⟨rfl, rfl⟩
  refine htouch.content hi ho (ht.congr rfl) hlive (update_eq_self d.frame s.frames).symm
    (Pc.Within.setPc (s := s₁) ?_) (fun pid hne => ⟨update_of_ne (hpid ▸ hne) _ _, rfl⟩) ?_
    ⟨fun _ hfree => ?_, fun _ hset => ?_, fun u e hef he => ?_, fun u e hef he hgen => ?_,
      fun u e hef he => hef ▸ hi.generations u e (hclaims u he)⟩
  · change (s.threads t).Within _ pc
    rw [hpc]
    constructor <;> simp +contextual [hnew, Pc.changes, Pc.flushed, Pc.unwritten, Pc.written,
      Pc.claims, or_imp]
  · exact (forall_update_iff s.store fun _ p => p.Plain).mpr
      ⟨hi.plainCopy t d hunwritten, fun pid _ => hi.plain pid⟩
  · exact hi.fresh d.frame hlive fun u hu =>
      hfree u (changes_setPc (s := s₁) (by simp [hs₁, State.writePage, hpc, Pc.changes]) u hu)
  · change s₁.store (s.pidOf d.frame) = s.latest (s.pidOf d.frame)
    rw [hpid, hstored]
    exact hi.unwritten t d hunwritten (.inr (hsettled hset))
  · have he := hsub u he
    exact ⟨hi.plainCopy u e he, fun hcase => hi.unwritten u e he
      (by rw [hef]; exact hcase.imp_right hsettled)⟩
  · have he := hclaims u (Pc.written_subset_claims _ he)
    have hsame : e.pid = d.pid := by rw [← (ho.claimed u e he).2.1, hef, hpid]
    obtain ⟨-, rfl⟩ := ho.claim_eq he hclaim hsame
    exact hstored.trans (hi.unwritten t e hunwritten (.inl hgen))

/-- A frame whose page is stored is marked clean by a thread that moves on. -/
theorem Content.clear (hi : Content s) (ho : Owned s) (ht : TableWf s) {pc : Pc m β}
    (hlive : s.live f) (hstored : s.store (s.pidOf f) = s.latest (s.pidOf f))
    (hcopies : ∀ u d, d ∈ (s.threads u).unwritten → d.frame = f → d.copy = s.latest d.pid)
    (hchanges : (s.threads t).changes = [])
    (hflushed : pc.flushed ⊆ (s.threads t).flushed)
    (hunwritten : pc.unwritten ⊆ (s.threads t).unwritten)
    (hwritten : pc.written ⊆ (s.threads t).written)
    (hclaims : pc.claims ⊆ (s.threads t).claims) :
    TableWf ((s.setFrame f { s.frames f with core := (s.frames f).core.clearDirty }).setPc t pc) ∧
      Content ((s.setFrame f { s.frames f with
        core := (s.frames f).core.clearDirty }).setPc t pc) := by
  set fr : Frame n m β := { s.frames f with core := (s.frames f).core.clearDirty } with hfr
  have htouch : Retouch s f fr := ⟨rfl, rfl⟩
  have hgen : (s.setFrame f fr).generation f = s.generation f := by
    rw [State.generation, setFrame_self]
    rfl
  have htable : TableWf (s.setFrame f fr) := htouch.tableWf ht fun g hg => ht.links f g hlive hg
  have hsub := subset_setPc (s := s.setFrame f fr) Pc.unwritten hunwritten
  refine ⟨htable.congr rfl, htouch.content hi ho (htable.congr rfl) hlive rfl
    (Pc.Within.setPc (s := s.setFrame f fr) ?_) (fun _ _ => ⟨rfl, rfl⟩) hi.plain
    ⟨fun _ hfree => ?_, fun _ _ => ?_, fun u d hd hun => ?_, fun u d hd hw hcase => ?_,
      fun u d hd hclaim => ?_⟩⟩
  · exact ⟨by simp [hchanges], fun _ h => .inr (hflushed h), fun _ h => .inr (hunwritten h),
      fun _ h => .inr (hwritten h), fun _ h => .inr (hclaims h)⟩
  · change (s.setFrame f fr).prepared f = s.latest ((s.setFrame f fr).pidOf f)
    rw [htouch.prepared_self, htouch.pidOf]
    exact hi.fresh f hlive fun u hu => hfree u (changes_setPc (s := s.setFrame f fr) hchanges u hu)
  · change s.store ((s.setFrame f fr).pidOf f) = s.latest ((s.setFrame f fr).pidOf f)
    rw [htouch.pidOf]
    exact hstored
  · exact ⟨hi.plainCopy u d (hsub u hun), fun _ => hcopies u d (hsub u hun) hd⟩
  · refine hi.written u d (subset_setPc (s := s.setFrame f fr) Pc.written hwritten u hw) ?_
    rw [hd, ← hgen]
    exact hcase
  · have hle := hi.generations u d (subset_setPc (s := s.setFrame f fr) Pc.claims hclaims u hclaim)
    rw [hd, ← hgen] at hle
    exact hle

theorem finishNext_persisted (hi : Content s) (ho : Owned s) (ht : TableWf s)
    (h : s.finishNext t = some s') : TableWf s' ∧ Content s' := by
  obtain ⟨d, todo, done, hpc, hlatch, ⟨hsame, rfl⟩ | rfl⟩ := finishNext_cases h
  · have hwritten : d ∈ (s.threads t).written := by simp [hpc, Pc.written]
    have hclaim := Pc.written_subset_claims _ hwritten
    have hpid : s.pidOf d.frame = d.pid := (ho.claimed t d hclaim).2.1
    have hgen : s.generation d.frame = d.dirtyGeneration := by
      simp only [State.unchangedSinceCopy, decide_eq_true_eq] at hsame
      exact hsame.2.2.2
    apply hi.clear ho ht (ho.live_of_claim hclaim)
    · rw [hpid]
      exact hi.written t d hwritten hgen
    · -- the page is claimed by this batch, so no cleaner has another copy of it to write
      intro u e he heq
      have heclaim := Pc.unwritten_subset_claims _ he
      have hepid : e.pid = d.pid := by
        rw [← (ho.claimed u e heclaim).2.1, heq]
        exact hpid
      have hut := (ho.claim_eq heclaim hclaim hepid).1
      rw [hut, hpc] at he
      cases he
    all_goals simp [hpc, Pc.changes, Pc.flushed, Pc.unwritten, Pc.written, Pc.claims]
  · refine hi.quiet ho ht (fun _ => ⟨rfl, rfl, Iff.rfl⟩) (Pc.Within.setPc ?_) rfl rfl
    rw [hpc]
    constructor <;> simp +contextual [Pc.changes, Pc.flushed, Pc.unwritten, Pc.written, Pc.claims,
      or_imp]

theorem flushClearNext_persisted (hi : Content s) (ho : Owned s) (ht : TableWf s)
    (h : s.flushClearNext t = some s') : TableWf s' ∧ Content s' := by
  obtain ⟨f, todo, done, hpc, rfl⟩ := flushClearNext_cases h
  have hlive := (ho.latched t f (by simp [hpc, Pc.holds])).2
  have hsettled : s.Settled f := .inr ⟨t, by simp [hpc, Pc.flushed]⟩
  apply hi.clear ho ht hlive
  · exact hi.settled f hlive hsettled
  · intro u d hd heq
    exact hi.unwritten u d hd (.inr (heq ▸ hsettled))
  all_goals simp [hpc, Pc.changes, Pc.flushed, Pc.unwritten, Pc.written, Pc.claims]

theorem Content.flushStoreNext (hi : Content s) (ho : Owned s) (ht : TableWf s)
    (hsafe : flushSafe s (.flushStoreNext t) = true) (h : s.flushStoreNext t = some s') :
    Content s' := by
  obtain ⟨f, todo, done, hpc, rfl⟩ := flushStoreNext_cases h
  have hheld : f ∈ (s.threads t).holds := by simp [hpc, Pc.holds]
  have hlive : s.live f := (ho.latched t f hheld).2
  have hpage : s.prepared f = s.latest (s.pidOf f) :=
    hi.fresh f hlive (ho.not_changed hheld (by simp [hpc, Pc.changes]))
  have hcurrent : ∀ u d, d ∈ (s.threads u).unwritten → d.frame = f →
      s.generation f = d.dirtyGeneration := by
    simp only [flushSafe, hpc, decide_eq_true_eq] at hsafe
    intro u d hd heq
    exact (hsafe u d hd heq).symm
  set pc : Pc m β := .flushStoring todo (done ++ [f]) with hnew
  set s₁ := s.writePage (s.pidOf f) ((s.frames f).page.prepare s.pidOf) with hs₁
  have hstored : s₁.store (s.pidOf f) = s.latest (s.pidOf f) :=
    (update_self (s.pidOf f) _ s.store).trans hpage
  have hclaims : ∀ u, ((s₁.setPc t pc).threads u).claims ⊆ (s.threads u).claims :=
    subset_setPc (s := s₁) Pc.claims (by simp [hnew, Pc.claims])
  have hsub : ∀ u, ((s₁.setPc t pc).threads u).unwritten ⊆ (s.threads u).unwritten :=
    subset_setPc (s := s₁) Pc.unwritten (by simp [hnew, Pc.unwritten])
  have htouch : Retouch s f (s.frames f) := ⟨rfl, rfl⟩
  refine htouch.content hi ho (ht.congr rfl) hlive (update_eq_self f s.frames).symm
    (Pc.Within.setPc (s := s₁) ?_) (fun pid hne => ⟨update_of_ne hne _ _, rfl⟩) ?_
    ⟨fun _ _ => hpage, fun _ _ => hstored, fun u d hd hun => ?_, fun u d hd hw _ => ?_,
      fun u d hd hclaim => hd ▸ hi.generations u d (hclaims u hclaim)⟩
  · change (s.threads t).Within _ pc
    rw [hpc]
    constructor <;> simp +contextual [hnew, Pc.changes, Pc.flushed, Pc.unwritten, Pc.written,
      Pc.claims, or_imp]
  · exact (forall_update_iff s.store fun _ p => p.Plain).mpr
      ⟨Page.plain_prepare _ _, fun pid _ => hi.plain pid⟩
  · have hun := hsub u hun
    exact ⟨hi.plainCopy u d hun, fun _ =>
      hi.unwritten u d hun (.inl (hd.symm ▸ hcurrent u d hun hd))⟩
  · have hclaim := hclaims u (Pc.written_subset_claims _ hw)
    have hpid : d.pid = s.pidOf f := by rw [← (ho.claimed u d hclaim).2.1, hd]
    rw [hpid]
    exact hstored

/-! ### Eviction and faults -/

theorem evictFinish_persisted (hi : Content s) (ho : Owned s) (ht : TableWf s)
    (h : s.evictFinish f = some s') : TableWf s' ∧ Content s' := by
  obtain ⟨⟨hstate, hpins, -, hclean, hlinks⟩, h⟩ := Option.ite_none_right_eq_some.mp h
  cases h
  set fr : Frame n m β := { s.frames f with state := .free } with hfr
  have hlive : ∀ g, (s.setFrame f fr).live g ↔ g ≠ f ∧ s.live g := by
    intro g
    by_cases hgf : g = f
    · simp [hgf, State.live, hfr]
    · simp [hgf, State.live, setFrame_of_ne s hgf]
  have hpidOf : (s.setFrame f fr).pidOf = s.pidOf := by
    funext g
    exact forall_setFrame (P := fun g fr => fr.core.pid = s.pidOf g) (by rfl) (fun _ _ => rfl) g
  have hdead : ¬(s.setFrame f fr).live f := fun hf => ((hlive f).mp hf).1 rfl
  have hunclaimed : ∀ u d, d.frame = f → d ∉ (s.threads u).claims := by
    intro u d hd hclaim
    have hpin := (ho.claimed u d hclaim).2.2
    rw [hd, hpins] at hpin
    cases hpin
  have htable : TableWf (s.setFrame f fr) := by
    constructor
    · intro g g' hg hg' hpid
      rw [hpidOf] at hpid
      exact ht.unique g g' ((hlive g).mp hg).2 ((hlive g').mp hg').2 hpid
    · intro g g' hg hlink
      obtain ⟨hgf, hold⟩ := (hlive g).mp hg
      rw [setFrame_of_ne s hgf] at hlink
      refine (hlive g').mpr ⟨fun heq => hlinks g hold (heq ▸ hlink), ht.links g g' hold hlink⟩
  have hat : ContentAt (s.setFrame f fr) f := ⟨fun hf => absurd hf hdead, fun hf => absurd hf hdead,
    fun u d hd hun => absurd (Pc.unwritten_subset_claims _ hun) (hunclaimed u d hd),
    fun u d hd hw => absurd (Pc.written_subset_claims _ hw) (hunclaimed u d hd),
    fun u d hd hclaim => absurd hclaim (hunclaimed u d hd)⟩
  refine ⟨htable, hi.elsewhere (T := (· = f)) ho htable ⟨fun g hg => ?_, fun g hg => ?_,
    fun g hg _ => ?_, fun _ => .refl _, fun _ _ => ⟨rfl, rfl⟩⟩ hi.plain (fun _ hg => hg ▸ hat) ?_⟩
  · rw [hlive]
    exact and_iff_right hg
  · rw [setFrame_of_ne s hg]
  · rw [State.prepared, setFrame_of_ne s hg, hpidOf]
    exact .inr rfl
  · rintro g hg hlive
    rw [hg] at hlive ⊢
    exact .inr (hi.settled f hlive (.inl hclean))

section Load

variable {pid : Nat}

theorem load_cases (h : s.load f pid = some s') :
    (s.frames f).state = .free ∧ (∀ g, s.live g → s.pidOf g ≠ pid) ∧
      ∃ fr : Frame n m β, fr.state = .resident ∧ fr.page = s.store pid ∧
        fr.core.pid = pid ∧ fr.core.dirty = false ∧
        fr.core.dirtyGeneration = s.generation f ∧ s' = s.setFrame f fr := by
  obtain ⟨⟨hfree, hpid⟩, h⟩ := Option.ite_none_right_eq_some.mp h
  exact ⟨hfree, hpid, { s.frames f with
    state := .resident
    page := s.store pid
    core := (s.frames f).core.installLoaded pid (s.store pid).lsn
    pins := [] }, rfl, rfl, rfl, rfl, rfl, (Option.some.inj h).symm⟩

/-- A fault reads the last written version. -/
theorem load_persisted (hi : Content s) (ho : Owned s) (ht : TableWf s)
    (h : s.load f pid = some s') : TableWf s' ∧ Content s' := by
  obtain ⟨hfree, hpid, fr, hres, hpage, hfpid, -, -, rfl⟩ := load_cases h
  have hdead : ¬s.live f := fun hlive => hlive hfree
  have hstored : s.store pid = s.latest pid := hi.absent pid hpid
  have hlive : ∀ g, g ≠ f → ((s.setFrame f fr).live g ↔ s.live g) := by
    intro g hgf
    rw [State.live, State.live, setFrame_of_ne s hgf]
  have hpidOf : ∀ g, g ≠ f → (s.setFrame f fr).pidOf g = s.pidOf g := by
    intro g hgf
    rw [State.pidOf, setFrame_of_ne s hgf]
    rfl
  have hself : (s.setFrame f fr).pidOf f = pid := by
    rw [State.pidOf, setFrame_self]
    exact hfpid
  have hnew : ∀ g, (s.setFrame f fr).live g → (s.setFrame f fr).pidOf g = pid → g = f := by
    intro g hg heq
    by_contra hgf
    rw [hpidOf g hgf] at heq
    exact hpid g ((hlive g hgf).mp hg) heq
  have htable : TableWf (s.setFrame f fr) := by
    constructor
    · intro g g' hg hg' heq
      by_cases hgf : g = f
      · rw [hgf, hself] at heq
        rw [hgf, hnew g' hg' heq.symm]
      · by_cases hgf' : g' = f
        · rw [hgf', hself] at heq
          rw [hgf', hnew g hg heq]
        · rw [hpidOf g hgf, hpidOf g' hgf'] at heq
          exact ht.unique g g' ((hlive g hgf).mp hg) ((hlive g' hgf').mp hg') heq
    intro g g' hg hlink
    by_cases hgf : g = f
    · rw [hgf, setFrame_self, hpage] at hlink
      exact absurd hlink (hi.plain pid g')
    · rw [setFrame_of_ne s hgf] at hlink
      have hold := ht.links g g' ((hlive g hgf).mp hg) hlink
      exact (hlive g' fun heq => hdead (heq ▸ hold)).mpr hold
  have hunclaimed : ∀ u d, d.frame = f → d ∉ (s.threads u).claims :=
    fun u d hd hclaim => hdead (hd ▸ ho.live_of_claim hclaim)
  have hat : ContentAt (s.setFrame f fr) f := by
    refine ⟨fun _ _ => ?_, fun _ _ => ?_,
      fun u d hd hun => absurd (Pc.unwritten_subset_claims _ hun) (hunclaimed u d hd),
      fun u d hd hw => absurd (Pc.written_subset_claims _ hw) (hunclaimed u d hd),
      fun u d hd hclaim => absurd hclaim (hunclaimed u d hd)⟩
    · rw [State.prepared, setFrame_self, hself, hpage, Page.prepare_of_plain (hi.plain pid)]
      exact hstored
    · rw [hself]
      exact hstored
  refine ⟨htable, hi.elsewhere (T := (· = f)) ho htable
    ⟨hlive, fun g hg => ?_, fun g hg hglive => ?_,
    fun _ => .refl _, fun _ _ => ⟨rfl, rfl⟩⟩ hi.plain (fun _ hg => hg ▸ hat)
    fun g hg hglive => absurd (hg ▸ hglive) hdead⟩
  · rw [setFrame_of_ne s hg]
  · rw [State.prepared, setFrame_of_ne s hg]
    refine .inr (Page.prepare_congr fun g' hlink => ?_)
    exact hpidOf g' fun heq => hdead (heq ▸ ht.links g g' hglive hlink)

end Load

theorem setLink_cases {i : Nat} {link : Swip m} (h : s.setLink f i link = some s') :
    (∀ g, link = .hot g → s.live g) ∧
      ∃ page, page.prepare s.pidOf = s.prepared f ∧
        page.links = (s.frames f).page.links.set i link ∧
        s.live f ∧ s' = s.setFrame f { s.frames f with page := page } := by
  obtain ⟨⟨hf, -, hsame, hlive⟩, h⟩ := Option.ite_none_right_eq_some.mp h
  refine ⟨hlive, { (s.frames f).page with links := (s.frames f).page.links.set i link }, ?_, rfl,
    hf, (Option.some.inj h).symm⟩
  have hlinks : ((s.frames f).page.links.set i link).map (Swip.convert s.pidOf) =
      (s.frames f).page.links.map (Swip.convert s.pidOf) := by
    rw [List.map_set]
    apply List.ext_getElem?
    intro j
    rw [List.getElem?_set]
    split
    · rename_i hij
      subst hij
      rw [List.getElem?_map, hsame]
      split
      · rfl
      · rename_i hlen
        have hnone : (s.frames f).page.links[i]? = none :=
          List.getElem?_eq_none (by simpa using hlen)
        rw [hnone] at hsame
        cases hsame
    · rfl
  simp [Page.prepare, State.prepared, hlinks]

structure Persisted (s : State n m β) : Prop where
  owned : Owned s
  table : TableWf s
  content : Content s

/-- A thread moves on, and changes latches and pins at most. -/
theorem Content.relatch (hi : Content s) (ho : Owned s) (ht : TableWf s) {fr : Frame n m β}
    {pc : Pc m β} (hframes : s'.frames = (s.setFrame f fr).frames)
    (hthreads : s'.threads = (s.setPc t pc).threads) (hstore : s'.store = s.store)
    (hlatest : s'.latest = s.latest)
    (hfr : fr.page = (s.frames f).page ∧ fr.core = (s.frames f).core ∧
      (fr.state ≠ .free ↔ s.live f))
    (hpc : (s.threads t).Within (fun _ => False) pc) : TableWf s' ∧ Content s' := by
  refine hi.quiet ho ht ?_ ?_ hstore hlatest
  · unfold State.live
    rw [hframes]
    exact same_setFrame hfr.1 hfr.2.1 hfr.2.2
  · rw [hthreads]
    exact Pc.Within.setPc hpc

theorem Content.setPc (hi : Content s) (ho : Owned s) (ht : TableWf s) {pc : Pc m β}
    (hpc : (s.threads t).Within (fun _ => False) pc) :
    TableWf (s.setPc t pc) ∧ Content (s.setPc t pc) :=
  hi.quiet ho ht (fun _ => ⟨rfl, rfl, Iff.rfl⟩) (Pc.Within.setPc hpc) rfl rfl

theorem Content.setState (hi : Content s) (ho : Owned s) (ht : TableWf s) {state : FrameState}
    (hstate : state ≠ .free ↔ (s.frames f).state ≠ .free) :
    TableWf (s.setFrame f { s.frames f with state := state }) ∧
      Content (s.setFrame f { s.frames f with state := state }) :=
  hi.quiet ho ht (same_setFrame rfl rfl hstate) (fun _ => .refl _) rfl rfl

theorem nextPhase_persisted (hi : Content s) (ho : Owned s) (ht : TableWf s)
    (h : s.nextPhase t = some s') : TableWf s' ∧ Content s' := by
  unfold State.nextPhase at h
  split at h
  all_goals first
    | cases h; done
    | skip
  all_goals
    rename_i hpc
    cases h
    refine hi.setPc ho ht ?_
    rw [hpc]
    constructor <;> simp [Pc.changes, Pc.flushed, Pc.unwritten, Pc.written, Pc.claims]

theorem mutate_persisted {links : List (Swip m)} {rest : β} (hi : Content s) (ho : Owned s)
    (ht : TableWf s) (h : s.mutate t links rest = some s') : TableWf s' ∧ Content s' := by
  have htable : TableWf s' := by
    obtain ⟨f, changed, hpc, hlinks, rfl⟩ := mutate_cases h
    have htouch : Retouch s f { s.frames f with
        page := { (s.frames f).page with links := links, rest := rest } } := ⟨rfl, rfl⟩
    exact (htouch.tableWf ht hlinks).congr rfl
  exact ⟨htable, hi.mutate ho htable h⟩

theorem mark_persisted {record : Option Wal.BufferedWalRecord} (hi : Content s) (ho : Owned s)
    (ht : TableWf s) (hsafe : flushSafe s (.mark t record) = true)
    (h : s.mark su t record = some s') : TableWf s' ∧ Content s' := by
  have htable : TableWf s' := by
    obtain ⟨f, changed, core, hpc, hpid, -, -, -, rfl⟩ := mark_cases h
    have hheld : f ∈ (s.threads t).holds := by simp [hpc, Pc.holds]
    have htouch : Retouch s f { s.frames f with
        page := { (s.frames f).page with lsn := s.lsnFor su t }, core := core } := ⟨hpid, rfl⟩
    exact (htouch.tableWf ht fun g hg => ht.links f g (ho.latched t f hheld).2 hg).congr rfl
  exact ⟨htable, hi.mark ho htable hsafe h⟩

theorem copyDirty_persisted (hi : Content s) (ho : Owned s) (ht : TableWf s)
    (h : s.copyDirty su t f = some s') : TableWf s' ∧ Content s' := by
  have htable : TableWf s' := by
    obtain ⟨mode, batch, -, ⟨hres, -⟩, rfl⟩ := copyDirty_cases h
    have htouch : Retouch s f { s.frames f with pins := t :: (s.frames f).pins } := ⟨rfl, rfl⟩
    exact (htouch.tableWf ht fun g hg => ht.links f g (by simp [State.live, hres]) hg).congr rfl
  exact ⟨htable, hi.copyDirty ho htable h⟩

theorem setLink_persisted {i : Nat} {link : Swip m} (hi : Content s) (ho : Owned s)
    (ht : TableWf s) (h : s.setLink f i link = some s') : TableWf s' ∧ Content s' := by
  obtain ⟨hlive, page, hpage, hlinks, hf, rfl⟩ := setLink_cases h
  have htouch : Retouch s f { s.frames f with page := page } := ⟨rfl, rfl⟩
  have htable : TableWf (s.setFrame f { s.frames f with page := page }) := by
    refine htouch.tableWf ht fun g hg => ?_
    rw [hlinks] at hg
    rcases List.mem_or_eq_of_mem_set hg with hold | hnew
    · exact ht.links f g hf hold
    · exact hlive g hnew.symm
  exact ⟨htable, hi.setPage ho htable rfl (fun _ => .refl _) rfl rfl (.inr hpage)⟩

theorem Persisted.step {a : Action n m β} (hi : Persisted s) (hsafe : flushSafe s a = true)
    (h : step su s a = some s') : Persisted s' := by
  obtain ⟨ho, ht, hi⟩ := hi
  suffices hboth : TableWf s' ∧ Content s' from ⟨ho.step h, hboth.1, hboth.2⟩
  cases a with
  | lock t f =>
    obtain ⟨hpc, -, -, rfl⟩ := lock_cases h
    exact hi.relatch ho ht rfl rfl rfl rfl ⟨rfl, rfl, Iff.rfl⟩
      (hpc ▸ .of_empty rfl ⟨rfl, rfl, rfl, rfl⟩)
  | mutate t links rest => exact mutate_persisted hi ho ht h
  | mark t record => exact mark_persisted hi ho ht hsafe h
  | unlock t =>
    obtain ⟨f, hpc, rfl⟩ := unlock_cases h
    exact hi.relatch ho ht rfl rfl rfl rfl ⟨rfl, rfl, Iff.rfl⟩
      (hpc ▸ .of_empty rfl ⟨rfl, rfl, rfl, rfl⟩)
  | startClean t _ | startFlush t =>
    obtain ⟨hpc, rfl⟩ := start_cases h
    exact hi.setPc ho ht (hpc ▸ .of_empty rfl ⟨rfl, rfl, rfl, rfl⟩)
  | copyDirty t f => exact copyDirty_persisted hi ho ht h
  | endScan t =>
    obtain ⟨mode, batch, hpc, hend⟩ := endScan_cases h
    rcases hend with ⟨rfl, rfl⟩ | ⟨-, rfl⟩
    · exact hi.setPc ho ht (hpc ▸ .of_empty rfl ⟨rfl, rfl, rfl, rfl⟩)
    · refine hi.setPc ho ht (hpc ▸ ?_)
      -- the pages of the batch were collected and are now to be stored
      exact ⟨by simp [Pc.changes], by simp [Pc.flushed], fun _ => .inr, by simp [Pc.written],
        by simp [Pc.claims]⟩
  | storeNext t =>
    refine ⟨?_, hi.storeNext ht ho h⟩
    obtain ⟨d, todo, done, -, rfl⟩ := storeNext_cases h
    exact ht.congr rfl
  | finishNext t => exact finishNext_persisted hi ho ht h
  | releaseNext t =>
    obtain ⟨d, todo, hpc, rfl⟩ := releaseNext_cases h
    refine hi.relatch ho ht (f := d.frame) (t := t) rfl rfl rfl rfl ⟨rfl, rfl, Iff.rfl⟩ ?_
    rw [hpc]
    constructor <;> simp +contextual [Pc.changes, Pc.flushed, Pc.unwritten, Pc.written, Pc.claims]
  | flushLock t f =>
    obtain ⟨held, hpc, -, rfl⟩ := flushLock_cases h
    exact hi.relatch ho ht rfl rfl rfl rfl ⟨rfl, rfl, Iff.rfl⟩
      (hpc ▸ .of_empty rfl ⟨rfl, rfl, rfl, rfl⟩)
  | flushDurable t =>
    obtain ⟨held, f, hpc, -, rfl⟩ := flushDurable_cases h
    exact hi.setPc ho ht (hpc ▸ .of_empty rfl ⟨rfl, rfl, rfl, rfl⟩)
  | endFlushScan t =>
    obtain ⟨held, hpc, ⟨rfl, rfl⟩ | rfl⟩ := endFlushScan_cases h <;>
      exact hi.setPc ho ht (hpc ▸ .of_empty rfl ⟨rfl, rfl, rfl, rfl⟩)
  | flushStoreNext t =>
    refine ⟨?_, hi.flushStoreNext ho ht hsafe h⟩
    obtain ⟨f, todo, done, -, rfl⟩ := flushStoreNext_cases h
    exact ht.congr rfl
  | flushClearNext t => exact flushClearNext_persisted hi ho ht h
  | flushUnlatchNext t =>
    obtain ⟨f, todo, hpc, rfl⟩ := flushUnlatchNext_cases h
    exact hi.relatch ho ht rfl rfl rfl rfl ⟨rfl, rfl, Iff.rfl⟩
      (hpc ▸ .of_empty rfl ⟨rfl, rfl, rfl, rfl⟩)
  | nextPhase t => exact nextPhase_persisted hi ho ht h
  | evictBegin f =>
    obtain ⟨⟨hstate, -⟩, h⟩ := Option.ite_none_right_eq_some.mp h
    cases h
    exact hi.setState ho ht (by simp [hstate])
  | evictRevert f =>
    obtain ⟨hstate, h⟩ := Option.ite_none_right_eq_some.mp h
    cases h
    exact hi.setState ho ht (by simp [hstate])
  | evictFinish f => exact evictFinish_persisted hi ho ht h
  | load f pid => exact load_persisted hi ho ht h
  | setLink f i link => exact setLink_persisted hi ho ht h
  | publishDurable shard lsn =>
    cases h
    exact hi.quiet ho ht (fun _ => ⟨rfl, rfl, Iff.rfl⟩) (fun _ => .refl _) rfl rfl

end Steps

section Runs

variable {su : Setup n} {s : State n m β} {store : Nat → Page m β} {blank : β} {nextLsn : Nat}
  {durableLsn : Nat → Nat}

theorem Persisted.opened (hplain : ∀ pid, (store pid).Plain) :
    Persisted (State.opened store blank nextLsn durableLsn : State n m β) := by
  refine ⟨Owned.opened store blank nextLsn durableLsn, ?_, ?_⟩
  · constructor <;> simp [State.opened, State.live]
  · refine ⟨hplain, ?_, ?_, ?_, ?_, ?_, ?_, ?_⟩ <;>
      simp [State.opened, State.live, Pc.unwritten, Pc.written, Pc.claims]

/-- An unlatched resident frame holds the last written version of its page; when
it is clean the store holds that version, and so it does for a page in no
frame. -/
theorem clean_frame_persisted (hplain : ∀ pid, (store pid).Plain)
    (h : Reach (step su) (fun s a => flushSafe s a = true)
      (State.opened store blank nextLsn durableLsn) s) :
    (∀ f, (s.frames f).state = .resident → (s.frames f).latch = none →
      s.prepared f = s.latest (s.pidOf f) ∧
        ((s.frames f).core.dirty = false → s.store (s.pidOf f) = s.prepared f)) ∧
    ∀ pid, (∀ f, (s.frames f).state ≠ .free → s.pidOf f ≠ pid) → s.store pid = s.latest pid := by
  have hinv : Persisted s := by
    apply h.invariant (Persisted.opened hplain)
    intro s a s' hi hsafe hstep
    exact hi.step hsafe hstep
  refine ⟨?_, hinv.content.absent⟩
  intro f hres hlatch
  have hlive : s.live f := by
    rw [State.live, hres]
    decide
  have hfresh : s.prepared f = s.latest (s.pidOf f) := by
    apply hinv.content.fresh f hlive
    intro t ht
    exact hinv.owned.not_latched hlatch t (Pc.changes_subset_holds _ ht)
  refine ⟨hfresh, fun hclean => ?_⟩
  rw [hfresh]
  exact hinv.content.settled f hlive (.inl hclean)

end Runs

/-! ## A flush during a batch

Thread 0 cleans, thread 1 writes and flushes page 1, which sits in frame 0. -/

def oneShard : Setup 2 := ⟨1, fun _ => 0⟩

def onePage : State 2 1 Nat := State.opened (fun _ => ⟨0, [], 0⟩) 0 1 fun _ => 0

def write (t : Fin 2) (f : Fin 1) (value : Nat) : List (Action 2 1 Nat) :=
  [.lock t f, .mutate t [] value, .mark t (some ⟨1, 1⟩), .unlock t]

def flushAll (t : Fin 2) (f : Fin 1) : List (Action 2 1 Nat) :=
  [.startFlush t, .flushLock t f, .flushDurable t, .endFlushScan t, .flushStoreNext t, .nextPhase t,
    .flushClearNext t, .nextPhase t, .flushUnlatchNext t, .nextPhase t]

def observe (f : Fin 1) (s : State 2 1 Nat) : (FrameState × Bool × Option (Fin 2)) × Nat × Nat :=
  (((s.frames f).state, (s.frames f).core.dirty, (s.frames f).latch),
    (s.prepared f).rest, (s.store (s.pidOf f)).rest)

theorem clean_frame_persisted_after_flush :
    ∃ s, Reach (step oneShard) (fun s a => flushSafe s a = true) onePage s ∧
      observe 0 s = ((.resident, false, none), 8, 8) ∧ s.store (s.pidOf 0) = s.prepared 0 := by
  have hrun : (exec (guarded flushSafe (step oneShard)) onePage
      ([.load 0 1] ++ write 1 0 7 ++
        [.publishDurable 0 1, .startClean 0 .background, .copyDirty 0 0, .endScan 0,
          .storeNext 0] ++
        write 1 0 8 ++ [.publishDurable 0 2] ++ flushAll 1 0)).map (observe 0) =
      some ((.resident, false, none), 8, 8) := by decide +kernel
  obtain ⟨s, hexec, hobs⟩ := Option.map_eq_some_iff.mp hrun
  have hreach := Reach.of_exec hexec fun _ _ hsafe => hsafe
  have hplain : ∀ pid : Nat, (⟨0, [], 0⟩ : Page 1 Nat).Plain := by simp [Page.Plain]
  have hframe := Prod.mk.inj (Prod.mk.inj hobs).1
  obtain ⟨hclean, hlatch⟩ := Prod.mk.inj hframe.2
  exact ⟨s, hreach, hobs, ((clean_frame_persisted hplain hreach).1 0 hframe.1 hlatch).2 hclean⟩

/-- The cleaner has copied version 7, version 8 is written and flushed, and then
the cleaner stores its copy: the clean frame holds 8, the store 7. -/
theorem stale_copy_overwrites_flush : ∃ s, Reach (step oneShard) anyStep onePage s ∧
      ∃ f, (s.frames f).state = .resident ∧ (s.frames f).latch = none ∧
        (s.frames f).core.dirty = false ∧ s.store (s.pidOf f) ≠ s.prepared f := by
  have hrun : (exec (step oneShard) onePage
      ([.load 0 1] ++ write 1 0 7 ++
        [.publishDurable 0 1, .startClean 0 .background, .copyDirty 0 0, .endScan 0] ++
        write 1 0 8 ++ [.publishDurable 0 2] ++ flushAll 1 0 ++ [.storeNext 0])).map (observe 0) =
      some ((.resident, false, none), 8, 7) := by decide +kernel
  obtain ⟨s, hexec, hobs⟩ := Option.map_eq_some_iff.mp hrun
  obtain ⟨hframe, hpages⟩ := Prod.mk.inj hobs
  obtain ⟨hstate, hflags⟩ := Prod.mk.inj hframe
  obtain ⟨hclean, hlatch⟩ := Prod.mk.inj hflags
  obtain ⟨hpage, hstored⟩ := Prod.mk.inj hpages
  refine ⟨s, Reach.of_exec_any hexec, 0, hstate, hlatch, hclean, fun heq => ?_⟩
  rw [heq, hpage] at hstored
  exact absurd hstored (by decide)

end Pagebox.Storage.Writeback
