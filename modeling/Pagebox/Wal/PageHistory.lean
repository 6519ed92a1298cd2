import Pagebox.Wal.PageChain

/-!
# What recovery makes of one page

The records of one page, applied to what the store has of it.  A page that the
store does not have is taken from the scratch buffer, so its bytes may come from
the records before; `track` carries that buffer as a parameter.  Every page of a
run stays on its track, also when the run begins on a store that an earlier,
interrupted run has written to.
-/

namespace Pagebox.Wal

open List

variable {ps : PageSize}

/-! ## The records of a page -/

def replayRecord (checkpointLsn : Nat) (page : Page ps) (r : PageRecord ps) : Page ps :=
  if r.lsn ≤ checkpointLsn ∨ r.lsn ≤ page.lsn then page
  else
    match r.change with
    | .image new => new
    | .patch ranges => applyRanges page ranges

def replayPage (checkpointLsn : Nat) (page : Page ps) (records : List (PageRecord ps)) : Page ps :=
  records.foldl (replayRecord checkpointLsn) page

def Change.onto (base : Page ps) : Change ps → Page ps
  | .image new => new
  | .patch ranges => applyRanges base ranges

def replayAbsent (checkpointLsn : Nat) (base : Page ps) : List (PageRecord ps) → Option (Page ps)
  | [] => none
  | r :: records =>
    if r.lsn ≤ checkpointLsn then replayAbsent checkpointLsn base records
    else some (replayPage checkpointLsn (r.change.onto base) records)

def track (checkpointLsn : Nat) (content : Option (Page ps)) (base : Page ps)
    (records : List (PageRecord ps)) : Option (Page ps) :=
  match content with
  | some page => some (replayPage checkpointLsn page records)
  | none => replayAbsent checkpointLsn base records

def PageRecord.WritesLsn (r : PageRecord ps) : Prop :=
  ∀ base : Page ps, (r.change.onto base).lsn = r.lsn

section Track

variable {k : Nat} {content : Option (Page ps)} {base : Page ps} {r : PageRecord ps}
  {records : List (PageRecord ps)}

theorem replayRecord_skip {page : Page ps} (h : r.lsn ≤ k ∨ r.lsn ≤ page.lsn) :
    replayRecord k page r = page :=
  if_pos h

theorem replayRecord_apply {page : Page ps} (hk : ¬r.lsn ≤ k) (hpage : ¬r.lsn ≤ page.lsn) :
    replayRecord k page r = r.change.onto page := by
  unfold replayRecord
  rw [if_neg (not_or.mpr ⟨hk, hpage⟩)]
  cases r.change with
  | image new => rfl
  | patch ranges => rfl

theorem replayAbsent_append_none (h : replayAbsent k base records = none)
    (rest : List (PageRecord ps)) :
    replayAbsent k base (records ++ rest) = replayAbsent k base rest := by
  induction records with
  | nil => rfl
  | cons r records ih =>
    rw [cons_append, replayAbsent]
    rw [replayAbsent] at h
    by_cases hr : r.lsn ≤ k
    · rw [if_pos hr] at h ⊢
      exact ih h
    · rw [if_neg hr] at h
      cases h

theorem replayAbsent_append_some {page : Page ps} (h : replayAbsent k base records = some page)
    (rest : List (PageRecord ps)) :
    replayAbsent k base (records ++ rest) = some (replayPage k page rest) := by
  induction records with
  | nil => cases h
  | cons r records ih =>
    rw [cons_append, replayAbsent]
    rw [replayAbsent] at h
    by_cases hr : r.lsn ≤ k
    · rw [if_pos hr] at h ⊢
      exact ih h
    · rw [if_neg hr] at h ⊢
      rw [← Option.some.inj h]
      simp [replayPage]

/-- Whether an absent page gets written does not depend on the buffer. -/
theorem replayAbsent_none_iff (base base' : Page ps) :
    replayAbsent k base records = none ↔ replayAbsent k base' records = none := by
  induction records with
  | nil => exact Iff.rfl
  | cons r records ih =>
    rw [replayAbsent, replayAbsent]
    by_cases hr : r.lsn ≤ k
    · rw [if_pos hr, if_pos hr]
      exact ih
    · simp [if_neg hr]

theorem track_append_some {page : Page ps} (h : track k content base records = some page)
    (rest : List (PageRecord ps)) :
    track k content base (records ++ rest) = some (replayPage k page rest) := by
  cases content with
  | some p =>
    have hp : replayPage k p records = page := Option.some.inj h
    simp [track, ← hp, replayPage]
  | none => exact replayAbsent_append_some h rest

theorem track_append_none (h : track k content base records = none)
    (rest : List (PageRecord ps)) :
    content = none ∧ track k content base (records ++ rest) = replayAbsent k base rest := by
  cases content with
  | some p => cases h
  | none => exact ⟨rfl, replayAbsent_append_none h rest⟩

theorem track_skip (h : r.lsn ≤ k) :
    track k content base (records ++ [r]) = track k content base records := by
  cases htrack : track k content base records with
  | some page =>
    rw [track_append_some htrack]
    simp [replayPage, replayRecord_skip (.inl h)]
  | none =>
    rw [(track_append_none htrack _).2]
    simp [replayAbsent, h]

theorem lsn_le_replayPage (page : Page ps) (hlsn : ∀ r ∈ records, r.WritesLsn) :
    page.lsn ≤ (replayPage k page records).lsn ∧
      ∀ r ∈ records, k < r.lsn → r.lsn ≤ (replayPage k page records).lsn := by
  induction records generalizing page with
  | nil => exact ⟨le_refl _, fun r hr => by cases hr⟩
  | cons r records ih =>
    obtain ⟨hbase, hrest⟩ := ih (replayRecord k page r)
      fun x hx => hlsn x (mem_cons_of_mem r hx)
    have hstep : page.lsn ≤ (replayRecord k page r).lsn ∧
        (k < r.lsn → r.lsn ≤ (replayRecord k page r).lsn) := by
      by_cases hskip : r.lsn ≤ k ∨ r.lsn ≤ page.lsn
      · rw [replayRecord_skip hskip]
        exact ⟨le_refl _, fun h => hskip.resolve_left (Nat.not_le.mpr h)⟩
      · obtain ⟨hk, hpage⟩ := not_or.mp hskip
        rw [replayRecord_apply hk hpage, hlsn r mem_cons_self page]
        exact ⟨by omega, fun _ => le_refl _⟩
    refine ⟨hstep.1.trans hbase, ?_⟩
    intro x hx hk
    rcases mem_cons.mp hx with rfl | hmem
    · exact (hstep.2 hk).trans hbase
    · exact hrest x hmem hk

/-- A page on its track has the LSN of every record that was applied to it. -/
theorem lsn_le_track {page : Page ps} (hlsn : ∀ r ∈ records, r.WritesLsn)
    (h : track k content base records = some page) :
    ∀ r ∈ records, k < r.lsn → r.lsn ≤ page.lsn := by
  cases content with
  | some p =>
    have hp : replayPage k p records = page := Option.some.inj h
    rw [← hp]
    exact (lsn_le_replayPage p hlsn).2
  | none =>
    have habsent : replayAbsent k base records = some page := h
    clear h
    induction records with
    | nil => cases habsent
    | cons r records ih =>
      have hlsn' := fun x hx => hlsn x (mem_cons_of_mem r hx)
      rw [replayAbsent] at habsent
      intro x hx hk
      by_cases hr : r.lsn ≤ k
      · rw [if_pos hr] at habsent
        rcases mem_cons.mp hx with rfl | hmem
        · omega
        · exact ih hlsn' habsent x hmem hk
      rw [if_neg hr] at habsent
      rw [← Option.some.inj habsent]
      obtain ⟨hbase, hrest⟩ := lsn_le_replayPage (k := k) (r.change.onto base) hlsn'
      rcases mem_cons.mp hx with rfl | hmem
      · rw [hlsn x mem_cons_self base] at hbase
        exact hbase
      · exact hrest x hmem hk

end Track

/-! ## Records that fill a page -/

/-- The records that raise the LSN of a page if each writes its own. -/
def raising (lsn : Nat) : List (PageRecord ps) → List (PageRecord ps)
  | [] => []
  | r :: records => if r.lsn ≤ lsn then raising lsn records else r :: raising r.lsn records

def Change.Writes (i : Nat) : Change ps → Prop
  | .image _ => True
  | .patch ranges => ∃ range ∈ ranges, range.1 + range.2.length ≤ ps.bytes ∧
      range.1 ≤ i ∧ i < range.1 + range.2.length

/-- The first record above the checkpoint, if there is one, is an image, or all records
write their own LSN and those that raise it write every byte of the page. -/
def Covers (checkpointLsn : Nat) (records : List (PageRecord ps)) : Prop :=
  (∀ r ∈ (raising checkpointLsn records).head?, ∃ page, r.change = .image page) ∨
    (∀ r ∈ records, r.WritesLsn) ∧
      ∀ i < ps.bytes, ∃ r ∈ raising checkpointLsn records, r.change.Writes i

section Fill

variable {k i : Nat} {c : Change ps} {p q : Page ps} {ranges : List PatchRange}
  {records : List (PageRecord ps)}

theorem getElem?_write (p : Page ps) (range : PatchRange) (i : Nat) :
    (p.write range.1 range.2).bytes[i]? =
      if range.1 + range.2.length ≤ ps.bytes ∧ range.1 ≤ i ∧ i < range.1 + range.2.length
      then range.2[i - range.1]? else p.bytes[i]? := by
  by_cases hfit : range.1 + range.2.length ≤ ps.bytes
  · rw [Page.getElem?_write hfit]
    simp only [hfit, true_and]
  · rw [Page.write, dif_neg hfit, if_neg fun h => hfit h.1]

end Fill

/-! ## One record of a run -/

section Steps

variable {σ : Type} {st : PageStore (Page ps) σ} {d d' d'' : Recovering (Page ps) σ} {k pid : Nat}
  {r : PageRecord ps}

/-- What a record of another page may do to page `pid`. -/
structure Aside (st : PageStore (Page ps) σ) (pid : Nat)
    (d d' : Recovering (Page ps) σ) : Prop where
  next : d'.currentNext = st.nextPageId d'.store
  mono : d.currentNext ≤ d'.currentNext
  read : st.readPage d'.store pid = st.readPage d.store pid ∨
    ((st.readPage d'.store pid = none ∨ st.readPage d'.store pid = some (.zero ps)) ∧
      (st.readPage d.store pid = none ∨ d.currentNext ≤ pid))

theorem Aside.refl (h : d.currentNext = st.nextPageId d.store) (hstore : d'.store = d.store)
    (hnext : d'.currentNext = d.currentNext) : Aside st pid d d' where
  next := by rw [hstore, hnext, h]
  mono := hnext.ge
  read := .inl (by rw [hstore])

theorem Aside.trans (h : Aside st pid d d') (h' : Aside st pid d' d'') : Aside st pid d d'' where
  next := h'.next
  mono := h.mono.trans h'.mono
  read := by
    rcases h'.read with hsame' | ⟨hnew', hold'⟩
    · rw [hsame']
      exact h.read
    · rcases h.read with hsame | ⟨-, hold⟩
      · refine .inr ⟨hnew', ?_⟩
        rw [hsame] at hold'
        exact hold'.imp_right h.mono.trans
      · exact .inr ⟨hnew', hold⟩

theorem Aside.allocateFor (hst : st.Lawful) (h : d.currentNext = st.nextPageId d.store)
    {q : Nat} (hq : pid ≠ q) : Aside st pid d (d.allocateFor st q) := by
  unfold Recovering.allocateFor
  by_cases hle : d.currentNext ≤ q
  · rw [if_pos hle]
    have hle' : st.nextPageId d.store ≤ q := h ▸ hle
    have hnext := hst.next_allocate d.store q hle'
    refine ⟨rfl, ?_, ?_⟩
    · change d.currentNext ≤ st.nextPageId (st.allocate d.store q)
      omega
    · rcases hst.read_allocate_ne d.store q pid hle' hq with hsame | ⟨hnone, hzero⟩ | ⟨hlt, hcut⟩
      · exact .inl hsame
      · exact .inr ⟨.inr hzero, .inl hnone⟩
      · exact .inr ⟨.inl hcut, .inr (by omega)⟩
  · rw [if_neg hle]
    exact .refl h rfl rfl

theorem Aside.writePage (hst : st.Lawful) (h : d.currentNext = st.nextPageId d.store)
    {q : Nat} (hq : pid ≠ q) (hin : q < d.currentNext) (page : Page ps) :
    Aside st pid d (d.writePage st q page) where
  next := by
    rw [h] at hin
    exact h.trans (hst.next_write d.store q page hin).symm
  mono := le_refl _
  read := by
    rcases hst.read_write_ne d.store q pid page hq with hsame | ⟨hnone, hzero⟩
    · exact .inl hsame
    · exact .inr ⟨.inr hzero, .inl hnone⟩

theorem next_allocateFor (h : d.currentNext = st.nextPageId d.store) (q : Nat) :
    (d.allocateFor st q).currentNext = st.nextPageId (d.allocateFor st q).store := by
  unfold Recovering.allocateFor
  by_cases hle : d.currentNext ≤ q
  · rw [if_pos hle]
  · rw [if_neg hle]
    exact h

theorem lt_currentNext_allocateFor (hst : st.Lawful) (h : d.currentNext = st.nextPageId d.store)
    (q : Nat) : q < (d.allocateFor st q).currentNext := by
  unfold Recovering.allocateFor
  by_cases hle : d.currentNext ≤ q
  · rw [if_pos hle]
    have hnext := hst.next_allocate d.store q (h ▸ hle)
    simp only
    omega
  · rw [if_neg hle]
    omega

theorem allocateFor_known {q : Nat} (h : q < d.currentNext) : d.allocateFor st q = d :=
  if_neg (Nat.not_le.mpr h)

/-- What a page reads once it is below the end: an absent page beyond it reads as zeros. -/
theorem readPage_allocateFor (hst : st.Lawful)
    (h : d.currentNext = st.nextPageId d.store) (q : Nat) :
    (d.currentNext ≤ q ∧ st.readPage d.store q = none ∧
        st.readPage (d.allocateFor st q).store q = some (.zero ps)) ∨
      st.readPage (d.allocateFor st q).store q = st.readPage d.store q ∧
        (st.readPage d.store q = none → q < d.currentNext) := by
  by_cases hle : d.currentNext ≤ q
  · have hread := hst.read_allocate d.store q (h ▸ hle)
    rw [Recovering.allocateFor, if_pos hle]
    cases hold : st.readPage d.store q with
    | none => exact .inl ⟨hle, rfl, by rw [hread, hold]; rfl⟩
    | some page => exact .inr ⟨by rw [hread, hold]; rfl, by simp⟩
  · rw [allocateFor_known (by omega)]
    exact .inr ⟨rfl, fun _ => by omega⟩

theorem recoverRecord_covered (hk : r.lsn ≤ k) : d.recoverRecord st k r = d := by
  unfold Recovering.recoverRecord
  cases r.change with
  | image page => exact congrArg Prod.fst (if_pos hk)
  | patch ranges => exact congrArg Prod.fst (if_pos hk)

/-- What a record above the checkpoint does, once `d₁` has its page below the end.  The
image of a page that was beyond the end is written without a look at the store. -/
inductive Effect (st : PageStore (Page ps) σ) (r : PageRecord ps)
    (d d₁ d' : Recovering (Page ps) σ) : Prop
  | skipped (page : Page ps) : st.readPage d₁.store r.pid = some page → r.lsn ≤ page.lsn →
      d'.store = d₁.store → d'.currentNext = d₁.currentNext → Effect st r d d₁ d'
  | written (base : Page ps) : d'.store = st.writePage d₁.store r.pid (r.change.onto base) →
      d'.currentNext = d₁.currentNext →
      (st.readPage d₁.store r.pid = some base ∧ ¬r.lsn ≤ base.lsn ∨
        st.readPage d₁.store r.pid = none ∧ base = d₁.pageBuf ∨
        d.currentNext ≤ r.pid ∧ ∃ page, r.change = .image page) → Effect st r d d₁ d'

/-- The page is read and the change is written unless the page has it. -/
theorem Effect.read (d₁ : Recovering (Page ps) σ) {f : Page ps → Recovering (Page ps) σ}
    (hf : ∀ base, (f base).store = st.writePage d₁.store r.pid (r.change.onto base) ∧
      (f base).currentNext = d₁.currentNext) :
    Effect st r d d₁ (match st.readPage d₁.store r.pid with
      | none => (f d₁.pageBuf, Outcome.applied)
      | some onDisk =>
        if r.lsn ≤ onDisk.lsn then ({ d₁ with pageBuf := onDisk }, .skippedPageLsn)
        else (f onDisk, .applied)).1 := by
  cases hread : st.readPage d₁.store r.pid with
  | none => exact .written _ (hf _).1 (hf _).2 (.inr (.inl ⟨hread, rfl⟩))
  | some onDisk =>
    by_cases hlsn : r.lsn ≤ onDisk.lsn
    · simp only [if_pos hlsn]
      exact .skipped onDisk hread hlsn rfl rfl
    · simp only [if_neg hlsn]
      exact .written onDisk (hf _).1 (hf _).2 (.inl ⟨hread, hlsn⟩)

theorem effect_recoverRecord (st : PageStore (Page ps) σ) (d : Recovering (Page ps) σ)
    (hk : ¬r.lsn ≤ k) :
    Effect st r d (d.allocateFor st r.pid) (d.recoverRecord st k r) := by
  unfold Recovering.recoverRecord
  cases hchange : r.change with
  | image page =>
    simp only [Recovering.recoverPageImage]
    rw [if_neg hk]
    by_cases hnext : d.currentNext ≤ r.pid
    · rw [if_pos hnext]
      exact .written (.zero ps) (by rw [hchange]; rfl) rfl (.inr (.inr ⟨hnext, page, hchange⟩))
    · rw [if_neg hnext, allocateFor_known (by omega)]
      have heffect := Effect.read (d := d) d
        (f := fun base => { d with pageBuf := base }.writePage st r.pid page)
        fun base => ⟨by rw [hchange]; rfl, rfl⟩
      cases hread : st.readPage d.store r.pid with
      | none => rwa [hread] at heffect
      | some onDisk => rwa [hread] at heffect
  | patch ranges =>
    simp only [Recovering.recoverPagePatch]
    rw [if_neg hk]
    exact .read _ (f := fun base =>
        { d.allocateFor st r.pid with pageBuf := base }.patchBuf st r.pid ranges)
      fun base => ⟨by rw [hchange]; rfl, rfl⟩

theorem aside_recoverRecord (hst : st.Lawful) (h : d.currentNext = st.nextPageId d.store)
    (hpid : pid ≠ r.pid) : Aside st pid d (d.recoverRecord st k r) := by
  by_cases hk : r.lsn ≤ k
  · rw [recoverRecord_covered hk]
    exact .refl h rfl rfl
  have halloc := Aside.allocateFor hst h hpid
  refine halloc.trans ?_
  cases effect_recoverRecord st d hk with
  | skipped page _ _ hstore hnext => exact .refl halloc.next hstore hnext
  | written base hstore hnext _ =>
    have hwrite := Aside.writePage hst halloc.next hpid (lt_currentNext_allocateFor hst h r.pid)
      (r.change.onto base)
    exact hwrite.trans (.refl hwrite.next hstore hnext)

/-- What a record above the checkpoint does to its own page, by what the store has
of it.  The image of a page beyond the end is written without a look at the store. -/
inductive OwnEffect (st : PageStore (Page ps) σ) (r : PageRecord ps)
    (d d' : Recovering (Page ps) σ) : Prop
  | skipped (page : Page ps) : st.readPage d.store r.pid = some page → r.lsn ≤ page.lsn →
      st.readPage d'.store r.pid = some page → OwnEffect st r d d'
  | applied (page : Page ps) : st.readPage d.store r.pid = some page → ¬r.lsn ≤ page.lsn →
      st.readPage d'.store r.pid = some (r.change.onto page) → OwnEffect st r d d'
  | allocated : st.readPage d.store r.pid = none → d.currentNext ≤ r.pid →
      st.readPage d'.store r.pid = some (r.change.onto (.zero ps)) → OwnEffect st r d d'
  | ontoBuffer : st.readPage d.store r.pid = none → r.pid < d.currentNext →
      st.readPage d'.store r.pid = some (r.change.onto d.pageBuf) → OwnEffect st r d d'
  | unread (page : Page ps) : d.currentNext ≤ r.pid → r.change = .image page →
      st.readPage d'.store r.pid = some page → OwnEffect st r d d'

theorem ownEffect_recoverRecord (hst : st.Lawful) (h : d.currentNext = st.nextPageId d.store)
    (hk : ¬r.lsn ≤ k) : OwnEffect st r d (d.recoverRecord st k r) := by
  have hread := readPage_allocateFor hst h r.pid
  have hwrote : ∀ {base}, (d.recoverRecord st k r).store =
      st.writePage (d.allocateFor st r.pid).store r.pid (r.change.onto base) →
      st.readPage (d.recoverRecord st k r).store r.pid = some (r.change.onto base) := by
    intro base hstore
    rw [hstore]
    exact hst.read_write _ _ _
  cases effect_recoverRecord st d hk with
  | skipped page hpage hlsn hstore _ =>
    rcases hread with ⟨-, -, hzero⟩ | ⟨hsame, -⟩
    · rw [← Option.some.inj (hzero.symm.trans hpage), lsn_zero] at hlsn
      omega
    · exact .skipped page (hsame.symm.trans hpage) hlsn (hstore ▸ hpage)
  | written base hstore _ hbase =>
    rcases hbase with ⟨hpage, hlsn⟩ | ⟨hpage, rfl⟩ | ⟨hbeyond, page, hchange⟩
    · rcases hread with ⟨hle, hnone, hzero⟩ | ⟨hsame, -⟩
      · rw [hpage] at hzero
        exact .allocated hnone hle (Option.some.inj hzero ▸ hwrote hstore)
      · exact .applied base (hsame.symm.trans hpage) hlsn (hwrote hstore)
    · rcases hread with ⟨-, -, hzero⟩ | ⟨hsame, hlt⟩
      · rw [hpage] at hzero
        cases hzero
      · have hnone := hsame.symm.trans hpage
        have hread' := hwrote hstore
        rw [allocateFor_known (hlt hnone)] at hread'
        exact .ontoBuffer hnone (hlt hnone) hread'
    · refine .unread page hbeyond hchange ((hwrote hstore).trans ?_)
      rw [hchange]
      rfl

theorem known_recoverRecord (hst : st.Lawful) (h : d.currentNext = st.nextPageId d.store)
    (hk : ¬r.lsn ≤ k) :
    (d.recoverRecord st k r).currentNext = st.nextPageId (d.recoverRecord st k r).store ∧
      r.pid < (d.recoverRecord st k r).currentNext := by
  have hlt := lt_currentNext_allocateFor hst h r.pid
  have hnext' := next_allocateFor h r.pid
  cases effect_recoverRecord st d hk with
  | skipped page _ _ hstore hnext =>
    rw [hstore, hnext]
    exact ⟨hnext', hlt⟩
  | written base hstore hnext _ =>
    rw [hstore, hnext, hst.next_write _ _ _ (hnext' ▸ hlt)]
    exact ⟨hnext', hlt⟩

end Steps

/-! ## A page along a run -/

/-- What the store reads for a page on its track; a page that is not written yet may
read as zeros. -/
def Reads (read : Option (Page ps)) (page : Option (Page ps)) : Prop :=
  read = page ∨ (page = none ∧ read = some (.zero ps))

/-- Page `pid` is on its track after the records `done`; `rest` are still to come.  The
store may be ahead, by records that an earlier run has applied. -/
structure OnTrack {σ : Type} (st : PageStore (Page ps) σ) (k pid : Nat) (content : Option (Page ps))
    (done rest : List (PageRecord ps)) (d : Recovering (Page ps) σ) : Prop where
  next : d.currentNext = st.nextPageId d.store
  page : ∃ base extra, extra <+: rest ∧ (extra = [] ∨ ∀ r ∈ done ++ rest, r.WritesLsn) ∧
    Reads (st.readPage d.store pid) (track k content base (done ++ extra))
  known : ∀ base, track k content base done ≠ none → pid < d.currentNext

namespace OnTrack

variable {σ : Type} {st : PageStore (Page ps) σ} {d : Recovering (Page ps) σ} {k pid : Nat}
  {content : Option (Page ps)} {done rest : List (PageRecord ps)} {r : PageRecord ps}

theorem track_none_iff (base base' : Page ps) (records : List (PageRecord ps)) :
    track k content base records = none ↔ track k content base' records = none := by
  cases content with
  | some page => simp [track]
  | none => exact replayAbsent_none_iff base base'

theorem aside (hst : st.Lawful) (h : OnTrack st k pid content done rest d) (hpid : pid ≠ r.pid) :
    OnTrack st k pid content done rest (d.recoverRecord st k r) := by
  have haside := aside_recoverRecord (k := k) hst h.next hpid
  obtain ⟨base, extra, hextra, hlsn, hreads⟩ := h.page
  refine ⟨haside.next, ?_, fun b hb => (h.known b hb).trans_le haside.mono⟩
  rcases haside.read with hsame | ⟨hnew, hold⟩
  · exact ⟨base, extra, hextra, hlsn, hsame ▸ hreads⟩
  -- the page was absent or beyond the end: nothing of it has been applied in this run
  have hnone : track k content base done = none := by
    by_contra hsome
    rcases hold with hread | hbeyond
    · obtain ⟨page, hpage⟩ := Option.ne_none_iff_exists'.mp hsome
      rw [track_append_some hpage, hread] at hreads
      rcases hreads with heq | ⟨heq, -⟩
      · cases heq
      · cases heq
    · have := h.known base hsome
      omega
  refine ⟨base, [], nil_prefix, .inl rfl, ?_⟩
  rw [append_nil, hnone]
  rcases hnew with hnone' | hzero
  · exact .inl hnone'
  · exact .inr ⟨rfl, hzero⟩

theorem covered (h : OnTrack st k pid content done (r :: rest) d) (hk : r.lsn ≤ k) :
    OnTrack st k pid content (done ++ [r]) rest (d.recoverRecord st k r) := by
  have hall : done ++ [r] ++ rest = done ++ r :: rest := by simp
  rw [recoverRecord_covered hk]
  obtain ⟨base, extra, hextra, hlsn, hreads⟩ := h.page
  refine ⟨h.next, ?_, ?_⟩
  · rw [hall]
    cases extra with
    | nil =>
      refine ⟨base, [], nil_prefix, .inl rfl, ?_⟩
      rw [append_nil] at hreads ⊢
      rw [track_skip hk]
      exact hreads
    | cons r' extra =>
      obtain ⟨rfl, hextra'⟩ := cons_prefix_cons.mp hextra
      have hwrites := hlsn.resolve_left (by simp)
      refine ⟨base, extra, hextra', .inr hwrites, ?_⟩
      rw [append_assoc]
      exact hreads
  · intro b hb
    rw [track_skip hk] at hb
    exact h.known b hb

/-- The first record above the checkpoint, onto whatever the buffer holds. -/
theorem track_first {base : Page ps} (hdone : track k content base done = none)
    (hk : ¬r.lsn ≤ k) (base' : Page ps) :
    track k content base' (done ++ [r]) = some (r.change.onto base') := by
  have hdone' := (track_none_iff base base' done).mp hdone
  rw [(track_append_none hdone' [r]).2, replayAbsent, if_neg hk]
  rfl

theorem track_ne_none (content : Option (Page ps)) (base : Page ps)
    {records : List (PageRecord ps)} (hr : r ∈ records) (hk : ¬r.lsn ≤ k) :
    track k content base records ≠ none := by
  obtain ⟨before, after, rfl⟩ := append_of_mem hr
  cases hbefore : track k content base before with
  | some page =>
    rw [track_append_some hbefore]
    exact Option.some_ne_none _
  | none =>
    rw [(track_append_none hbefore _).2, replayAbsent, if_neg hk]
    exact Option.some_ne_none _

/-- The page after a record of its own, when the store was not ahead. -/
theorem page_level (hnext : d.currentNext = st.nextPageId d.store)
    (hst : st.Lawful) (hk : ¬r.lsn ≤ k) {base : Page ps}
    (hreads : Reads (st.readPage d.store r.pid) (track k content base done))
    (hknown : track k content base done ≠ none → r.pid < d.currentNext) :
    ∃ base', Reads (st.readPage (d.recoverRecord st k r).store r.pid)
      (track k content base' (done ++ [r])) := by
  have heffect := ownEffect_recoverRecord hst hnext hk
  cases htrack : track k content base done with
  | some page =>
    -- the page is in the store and below its end
    have hread : st.readPage d.store r.pid = some page := by
      rcases hreads with heq | ⟨hnone, -⟩
      · rw [heq, htrack]
      · rw [htrack] at hnone
        cases hnone
    have hlt := hknown (by rw [htrack]; exact Option.some_ne_none page)
    refine ⟨base, .inl ?_⟩
    rw [track_append_some htrack]
    cases heffect with
    | skipped page' hold hlsn hnew =>
      obtain rfl := Option.some.inj (hread.symm.trans hold)
      rw [hnew]
      simp [replayPage, replayRecord_skip (.inr hlsn)]
    | applied page' hold hlsn hnew =>
      obtain rfl := Option.some.inj (hread.symm.trans hold)
      rw [hnew]
      simp [replayPage, replayRecord_apply hk hlsn]
    | allocated hold _ _ => rw [hread] at hold; cases hold
    | ontoBuffer hold _ _ => rw [hread] at hold; cases hold
    | unread page' hbeyond _ _ => omega
  | none =>
    have hfirst := track_first htrack hk
    have hzero : ∀ page : Page ps, st.readPage d.store r.pid = some page → page = .zero ps := by
      intro page hold
      rcases hreads with heq | ⟨-, heq⟩
      · rw [heq, htrack] at hold
        cases hold
      · exact (Option.some.inj (heq.symm.trans hold)).symm
    cases heffect with
    | skipped page hold hlsn _ =>
      rw [hzero page hold, lsn_zero] at hlsn
      omega
    | applied page hold _ hnew =>
      rw [hzero page hold] at hnew
      exact ⟨.zero ps, .inl (hnew.trans (hfirst _).symm)⟩
    | allocated _ _ hnew => exact ⟨.zero ps, .inl (hnew.trans (hfirst _).symm)⟩
    | ontoBuffer _ _ hnew => exact ⟨d.pageBuf, .inl (hnew.trans (hfirst _).symm)⟩
    | unread page _ hchange hnew =>
      refine ⟨base, .inl ?_⟩
      rw [hnew, hfirst base, hchange]
      rfl

/-- The page after a record of its own that an earlier run has applied already. -/
theorem page_ahead (hnext : d.currentNext = st.nextPageId d.store) (hst : st.Lawful)
    (hk : ¬r.lsn ≤ k) {base : Page ps} {extra : List (PageRecord ps)}
    (hwrites : ∀ x ∈ done ++ r :: extra, x.WritesLsn)
    (hreads : Reads (st.readPage d.store r.pid) (track k content base (done ++ r :: extra)))
    (hknown : track k content base done ≠ none → r.pid < d.currentNext) :
    Reads (st.readPage (d.recoverRecord st k r).store r.pid)
        (track k content base (done ++ r :: extra)) ∨
      Reads (st.readPage (d.recoverRecord st k r).store r.pid)
        (track k content base (done ++ [r])) := by
  have hmem : r ∈ done ++ r :: extra := by simp
  obtain ⟨page, hpage⟩ := Option.ne_none_iff_exists'.mp (track_ne_none content base hmem hk)
  have hlsn := lsn_le_track hwrites hpage r hmem (Nat.not_le.mp hk)
  have hread : st.readPage d.store r.pid = some page := by
    rcases hreads with heq | ⟨hnone, -⟩
    · rw [heq, hpage]
    · rw [hpage] at hnone
      cases hnone
  cases ownEffect_recoverRecord hst hnext hk with
  | skipped page' hold _ hnew =>
    obtain rfl := Option.some.inj (hread.symm.trans hold)
    exact .inl (.inl (hnew.trans hpage.symm))
  | applied page' hold hstale _ =>
    obtain rfl := Option.some.inj (hread.symm.trans hold)
    exact absurd hlsn hstale
  | allocated hold _ _ => rw [hread] at hold; cases hold
  | ontoBuffer hold _ _ => rw [hread] at hold; cases hold
  | unread page' hbeyond hchange hnew =>
    -- the image is written again, and the records after it follow
    have hdone : track k content base done = none := by
      by_contra hsome
      have := hknown hsome
      omega
    refine .inr (.inl ?_)
    rw [hnew, track_first hdone hk base, hchange]
    rfl

theorem own (hst : st.Lawful) (h : OnTrack st k r.pid content done (r :: rest) d)
    (hk : ¬r.lsn ≤ k) :
    OnTrack st k r.pid content (done ++ [r]) rest (d.recoverRecord st k r) := by
  obtain ⟨hnext, hlt⟩ := known_recoverRecord hst h.next hk
  have hall : done ++ [r] ++ rest = done ++ r :: rest := by simp
  obtain ⟨base, extra, hextra, hlsn, hreads⟩ := h.page
  refine ⟨hnext, ?_, fun _ _ => hlt⟩
  rw [hall]
  cases extra with
  | nil =>
    rw [append_nil] at hreads
    obtain ⟨base', hreads'⟩ := page_level h.next hst hk hreads (h.known base)
    exact ⟨base', [], nil_prefix, .inl rfl, by rwa [append_nil]⟩
  | cons r' extra =>
    obtain ⟨rfl, hextra'⟩ := cons_prefix_cons.mp hextra
    have hwrites := hlsn.resolve_left (by simp)
    have hwrites' : ∀ x ∈ done ++ r' :: extra, x.WritesLsn := by
      intro x hx
      refine hwrites x ?_
      rcases mem_append.mp hx with hdone | hmem
      · exact mem_append_left _ hdone
      · exact mem_append_right _ (hextra.subset hmem)
    rcases page_ahead h.next hst hk hwrites' hreads (h.known base) with hsame | hback
    · refine ⟨base, extra, hextra', .inr hwrites, ?_⟩
      rw [append_assoc]
      exact hsame
    · exact ⟨base, [], nil_prefix, .inl rfl, by rwa [append_nil]⟩

theorem run (hst : st.Lawful) {log : List (PageRecord ps)}
    (h : OnTrack st k pid content done (recordsOf pid log ++ rest) d) :
    OnTrack st k pid content (done ++ recordsOf pid log) rest
      (log.foldl (Recovering.recoverRecord st k) d) := by
  induction log generalizing done d with
  | nil => simpa [recordsOf] using h
  | cons r log ih =>
    by_cases hpid : r.pid = pid
    · subst hpid
      rw [recordsOf_cons_self, cons_append] at h
      have hstep : OnTrack st k r.pid content (done ++ [r]) (recordsOf r.pid log ++ rest)
          (d.recoverRecord st k r) := by
        by_cases hk : r.lsn ≤ k
        · exact h.covered hk
        · exact h.own hst hk
      have hrun := ih hstep
      rw [recordsOf_cons_self]
      rwa [append_assoc] at hrun
    · rw [recordsOf_cons_ne hpid] at h ⊢
      exact ih (h.aside hst (Ne.symm hpid))

end OnTrack

end Pagebox.Wal
