import Pagebox.Wal.FileScan
import Pagebox.Wal.MergedRecovery

/-!
# The calls of recovery

`recover_with_logical` of `wal/src/wal_impl.rs` on the bytes of the shard files, down to
each call it makes to the page store and to the callback.  Both are arbitrary: a store
answers from the calls made so far, an error included, and a callback from the records
it was given before.  The first error is returned at once.
-/

namespace Pagebox.Wal

open Pagebox.Base List

/-- A call to the page store or to the callback, with the answer. -/
inductive RecoveryCall (ps : PageSize)
  /-- Without an answer the call failed. -/
  | readPage (pid : Nat) (found : Option Bool)
  | writePage (pid : Nat) (page : Page ps) (ok : Bool)
  | allocate (pid : Nat) (ok : Bool)
  | sync (ok : Bool)
  | applyLogical (record : LogicalRecord) (ok : Bool)

/-- `RecoveryPageStore`: the answers after the calls made so far.  `read_page` gets the
scratch buffer and gives it back. -/
structure AnsweringStore (ps : PageSize) where
  readPage : List (RecoveryCall ps) → Nat → Page ps → Option (Bool × Page ps)
  writePage : List (RecoveryCall ps) → Nat → Page ps → Bool
  allocate : List (RecoveryCall ps) → Nat → Bool
  sync : List (RecoveryCall ps) → Bool
  nextPageId : List (RecoveryCall ps) → Nat

structure RecoveryArgs (ps : PageSize) where
  store : AnsweringStore ps
  checkpointLsn : Nat
  readPageLsn : Page ps → Nat
  applyLogical : List LogicalRecord → LogicalRecord → Bool

def handedOver {ps : PageSize} (calls : List (RecoveryCall ps)) : List LogicalRecord :=
  calls.filterMap fun
    | .applyLogical record _ => some record
    | _ => none

structure RecoveryRun (ps : PageSize) where
  calls : List (RecoveryCall ps)
  report : RecoveryCounts
  currentNext : Nat
  pageBuf : Page ps

namespace RecoveryRun

variable {ps : PageSize} (c : RecoveryArgs ps)

def start : RecoveryRun ps where
  calls := []
  report := .zero
  currentNext := c.store.nextPageId []
  pageBuf := .zero ps

def call (r : RecoveryRun ps) (x : RecoveryCall ps) : RecoveryRun ps :=
  { r with calls := r.calls ++ [x] }

def count (r : RecoveryRun ps) (outcome : Outcome) : RecoveryRun ps :=
  { r with report := r.report.count outcome }

def allocateFor (r : RecoveryRun ps) (pid : Nat) : RecoveryRun ps × Bool :=
  if r.currentNext ≤ pid then
    if c.store.allocate r.calls pid then
      let r := r.call (.allocate pid true)
      ({ r with currentNext := c.store.nextPageId r.calls }, true)
    else (r.call (.allocate pid false), false)
  else (r, true)

def readInto (r : RecoveryRun ps) (pid : Nat) : RecoveryRun ps × Option Bool :=
  match c.store.readPage r.calls pid r.pageBuf with
  | none => (r.call (.readPage pid none), none)
  | some (found, buf) => ({ r.call (.readPage pid (some found)) with pageBuf := buf }, some found)

def write (r : RecoveryRun ps) (pid : Nat) (page : Page ps) : RecoveryRun ps × Bool :=
  if c.store.writePage r.calls pid page then
    ((r.call (.writePage pid page true)).count .applied, true)
  else (r.call (.writePage pid page false), false)

/-- Read the page, and go on with `write` unless it has the LSN already. -/
def readThen (r : RecoveryRun ps) (lsn pid : Nat)
    (write : RecoveryRun ps → RecoveryRun ps × Bool) : RecoveryRun ps × Bool :=
  match r.readInto c pid with
  | (r, none) => (r, false)
  | (r, some found) =>
    if found = true ∧ lsn ≤ c.readPageLsn r.pageBuf then (r.count .skippedPageLsn, true)
    else write r

def recoverPageImage (r : RecoveryRun ps) (lsn pid : Nat) (data : Bytes) :
    RecoveryRun ps × Bool :=
  if lsn ≤ c.checkpointLsn then (r.count .skippedCheckpoint, true)
  else
    match Page.ofBytes? ps data with
    | none => (r, true)
    | some page =>
      if r.currentNext ≤ pid then
        match r.allocateFor c pid with
        | (r, false) => (r, false)
        | (r, true) => r.write c pid page
      else r.readThen c lsn pid fun r => r.write c pid page

def recoverPagePatch (r : RecoveryRun ps) (lsn pid : Nat) (ranges : List PatchRange) :
    RecoveryRun ps × Bool :=
  if lsn ≤ c.checkpointLsn then (r.count .skippedCheckpoint, true)
  else
    match r.allocateFor c pid with
    | (r, false) => (r, false)
    | (r, true) =>
      r.readThen c lsn pid fun r =>
        let page := applyRanges r.pageBuf ranges
        { r with pageBuf := page }.write c pid page

/-- `apply_logical`; `false` when it returns an error. -/
def handOver (r : RecoveryRun ps) (record : LogicalRecord) : RecoveryRun ps × Bool :=
  if c.applyLogical (handedOver r.calls) record then
    let r := r.call (.applyLogical record true)
    ({ r with report := r.report.deliver }, true)
  else (r.call (.applyLogical record false), false)

def handlers : RecordHandlers (RecoveryRun ps) where
  recoverPageImage r := r.recoverPageImage c
  recoverPagePatch r := r.recoverPagePatch c
  applyLogical r record :=
    if record.lsn ≤ c.checkpointLsn then (r.count .skippedCheckpoint, true)
    else r.handOver c record

/-- The end of both: a loop that got through syncs the store if a page was written.
The result is whether `Ok` is returned. -/
def finish (p : Progress (RecoveryRun ps)) : Next → Progress (RecoveryRun ps) × Bool
  | .go _ =>
    if 0 < p.state.report.recordsApplied then
      ({ p with state := p.state.call (.sync (c.store.sync p.state.calls)) },
        c.store.sync p.state.calls)
    else (p, true)
  | .stop => (p, true)
  | .fail => (p, false)

end RecoveryRun

section Recover

variable {ps : PageSize} (c : RecoveryArgs ps) (crc : Bytes → Nat)

/-- The entries of the batches of a shard file, behind its header. -/
def fileEntries (ps : PageSize) (file : Bytes) : List (RawEntry × Bytes) :=
  (readBatches ps crc file.length file).flatten

/-- `recover_with_logical` on the entries of the shard files. -/
def recoverWithLogical (shards : List (List (RawEntry × Bytes))) :
    Progress (RecoveryRun ps) × Bool :=
  let (p, next) :=
    if 1 < shards.length then
      (RecoveryRun.handlers c).recoverAllCollected ps (.start (.start c))
        (sortByLsn (shards.flatMap fun entries => (scan (replayRaw ps crc) .empty entries).1))
    else
      (RecoveryRun.handlers c).recoverEntries ps (.start (.start c)) .empty
        ((shards.headD []).map (checkRaw ps crc))
  RecoveryRun.finish c p next

end Recover

/-! ## What a log asks for -/

namespace ReplayRecord

/-- An image or a patch of a page above the checkpoint LSN. -/
def PageDue (ps : PageSize) (checkpointLsn : Nat) : ReplayRecord → Prop
  | .pageImage lsn _ data => checkpointLsn < lsn ∧ data.length = ps.bytes
  | .logical lsn kind _ =>
    checkpointLsn < lsn ∧ (kind = logicalKindPageImageBytes ∨ kind = logicalKindPagePatch)

/-- A record of the caller above the checkpoint LSN. -/
def caller? (checkpointLsn : Nat) : ReplayRecord → Option LogicalRecord
  | .pageImage _ _ _ => none
  | .logical lsn kind payload =>
    if kind = logicalKindPageImageBytes ∨ kind = logicalKindPagePatch ∨
      lsn ≤ checkpointLsn then none
    else some ⟨lsn, kind, payload⟩

end ReplayRecord

def callers (checkpointLsn : Nat) (xs : List ReplayRecord) : List LogicalRecord :=
  xs.filterMap (ReplayRecord.caller? checkpointLsn)

/-- The callback takes these records one after the other. -/
def Accepted (applyLogical : List LogicalRecord → LogicalRecord → Bool) (rs : List LogicalRecord) :
    Prop :=
  ∀ pre r post, rs = pre ++ r :: post → applyLogical pre r = true

/-- The records of the logs in the order in which recovery takes them, and whether it
could read to the end.  With several shards an entry that cannot be read only ends the
records of its shard. -/
def readLog (ps : PageSize) (crc : Bytes → Nat) (shards : List (List (RawEntry × Bytes))) :
    List ReplayRecord × Bool :=
  if 1 < shards.length then
    (sortByLsn (shards.flatMap fun entries => (scan (replayRaw ps crc) .empty entries).1), true)
  else
    let read := scan (readEntry ps) .empty ((shards.headD []).map (checkRaw ps crc))
    (read.1, read.2.isSome)

theorem readLog_single (ps : PageSize) (crc : Bytes → Nat) (entries : List (RawEntry × Bytes)) :
    let read := scan (readEntry ps) .empty (entries.map (checkRaw ps crc))
    readLog ps crc [entries] = (read.1, read.2.isSome) :=
  rfl

section Accepting

variable {f : List LogicalRecord → LogicalRecord → Bool} {rs rs' : List LogicalRecord}
  {r : LogicalRecord}

theorem accepted_nil (f : List LogicalRecord → LogicalRecord → Bool) : Accepted f [] := by
  intro pre r post h
  cases pre <;> cases h

theorem Accepted.of_prefix (h : Accepted f rs') (hpre : rs <+: rs') : Accepted f rs := by
  obtain ⟨rest, rfl⟩ := hpre
  rintro pre r post rfl
  exact h pre r (post ++ rest) (by simp)

theorem Accepted.snoc (h : Accepted f rs) (hr : f rs r = true) : Accepted f (rs ++ [r]) := by
  intro pre x post heq
  rcases eq_nil_or_concat post with rfl | ⟨init, last, rfl⟩
  · obtain ⟨rfl, hx⟩ := append_inj' heq rfl
    rw [singleton_inj.mp hx] at hr
    exact hr
  · rw [concat_eq_append, ← cons_append, ← append_assoc] at heq
    obtain ⟨hrs, -⟩ := append_inj' heq rfl
    exact h pre x init hrs

theorem not_accepted_snoc (hr : f rs r = false) : ¬Accepted f (rs ++ [r]) := by
  intro h
  rw [h rs r [] rfl] at hr
  cases hr

theorem callers_append (k : Nat) (xs ys : List ReplayRecord) :
    callers k (xs ++ ys) = callers k xs ++ callers k ys :=
  filterMap_append

end Accepting

theorem handedOver_append {ps : PageSize} (xs ys : List (RecoveryCall ps)) :
    handedOver (xs ++ ys) = handedOver xs ++ handedOver ys :=
  filterMap_append

/-! ## What one record makes recovery do -/

/-- `write_page` was called. -/
def Written {ps : PageSize} (calls : List (RecoveryCall ps)) : Prop :=
  ∃ pid page ok, .writePage pid page ok ∈ calls

/-- A store that has no page and never fails. -/
structure AnsweringStore.Willing {ps : PageSize} (st : AnsweringStore ps) : Prop where
  reads : ∀ calls pid buf, ∃ buf', st.readPage calls pid buf = some (false, buf')
  writes : ∀ calls pid page, st.writePage calls pid page = true
  allocates : ∀ calls pid, st.allocate calls pid = true

namespace RecoveryRun

variable {ps : PageSize} {c : RecoveryArgs ps} {r r' : RecoveryRun ps} {due : Prop}

/-- What handling a page record does: the callback is not asked and nothing is synced,
applied pages are those written, and a page is only written if it is due. -/
structure Effect (c : RecoveryArgs ps) (due : Prop) (r : RecoveryRun ps)
    (result : RecoveryRun ps × Bool) : Prop where
  handed : handedOver result.1.calls = handedOver r.calls
  unsynced : ∀ ok, .sync ok ∈ result.1.calls → .sync ok ∈ r.calls
  applied : result.2 = true → (0 < r.report.recordsApplied ↔ Written r.calls) →
    (0 < result.1.report.recordsApplied ↔ Written result.1.calls)
  onlyDue : Written result.1.calls → Written r.calls ∨ due
  kept : Written r.calls → Written result.1.calls
  willing : c.store.Willing → result.2 = true ∧ (due → Written result.1.calls)

structure Quiet (r r' : RecoveryRun ps) : Prop where
  handed : handedOver r'.calls = handedOver r.calls
  unsynced : ∀ ok, .sync ok ∈ r'.calls → .sync ok ∈ r.calls
  applied : r'.report.recordsApplied = r.report.recordsApplied
  written : Written r'.calls ↔ Written r.calls

theorem Quiet.refl (r : RecoveryRun ps) : Quiet r r := ⟨rfl, fun _ h => h, rfl, Iff.rfl⟩

theorem Quiet.trans {r'' : RecoveryRun ps} (h : Quiet r r') (h' : Quiet r' r'') : Quiet r r'' :=
  ⟨h'.handed.trans h.handed, fun ok hok => h.unsynced ok (h'.unsynced ok hok),
    h'.applied.trans h.applied, h'.written.trans h.written⟩

theorem Effect.of_quiet (h : Quiet r r') {ok : Bool}
    (hwilling : c.store.Willing → ok = true ∧ ¬due) : Effect c due r (r', ok) :=
  ⟨h.handed, h.unsynced, fun _ hr => by rw [h.applied, h.written]; exact hr,
    fun hw => .inl (h.written.mp hw), h.written.mpr,
    fun hw => ⟨(hwilling hw).1, fun hdue => absurd hdue (hwilling hw).2⟩⟩

theorem Effect.after {result : RecoveryRun ps × Bool} (h : Quiet r r')
    (h' : Effect c due r' result) : Effect c due r result :=
  ⟨h'.handed.trans h.handed, fun ok hok => h.unsynced ok (h'.unsynced ok hok),
    fun hok hr => h'.applied hok (by rw [h.applied, h.written]; exact hr),
    fun hw => (h'.onlyDue hw).imp_left h.written.mp,
    fun hw => h'.kept (h.written.mpr hw), h'.willing⟩

theorem written_call (r : RecoveryRun ps) {x : RecoveryCall ps}
    (hx : ∀ pid page ok, x ≠ .writePage pid page ok) :
    Written (r.call x).calls ↔ Written r.calls := by
  constructor
  · rintro ⟨pid, page, ok, hmem⟩
    refine ⟨pid, page, ok, (mem_append.mp hmem).resolve_right fun hmem => ?_⟩
    exact hx pid page ok (mem_singleton.mp hmem).symm
  · rintro ⟨pid, page, ok, hmem⟩
    exact ⟨pid, page, ok, mem_append_left _ hmem⟩

theorem quiet_call (r : RecoveryRun ps) {x : RecoveryCall ps} (hhanded : handedOver [x] = [])
    (hsync : ∀ ok, x ≠ .sync ok) (hwrite : ∀ pid page ok, x ≠ .writePage pid page ok) :
    Quiet r (r.call x) := by
  refine ⟨?_, fun ok hok => ?_, rfl, written_call r hwrite⟩
  · rw [call, handedOver_append, hhanded, append_nil]
  · rcases mem_append.mp hok with hok | hok
    · exact hok
    · exact absurd (mem_singleton.mp hok).symm (hsync ok)

theorem allocateFor_quiet (r : RecoveryRun ps) (pid : Nat) :
    Quiet r (r.allocateFor c pid).1 ∧ (c.store.Willing → (r.allocateFor c pid).2 = true) := by
  unfold allocateFor
  split
  · split
    · have hquiet := quiet_call r (x := .allocate pid true) rfl (by simp) (by simp)
      exact ⟨⟨hquiet.handed, hquiet.unsynced, hquiet.applied, hquiet.written⟩, fun _ => rfl⟩
    · rename_i hfail
      exact ⟨quiet_call r rfl (by simp) (by simp), fun hw => absurd (hw.allocates _ _) hfail⟩
  · exact ⟨.refl r, fun _ => rfl⟩

theorem readInto_quiet (r : RecoveryRun ps) (pid : Nat) :
    Quiet r (r.readInto c pid).1 ∧ (c.store.Willing → (r.readInto c pid).2 = some false) := by
  unfold readInto
  cases hread : c.store.readPage r.calls pid r.pageBuf with
  | none =>
    refine ⟨quiet_call r rfl (by simp) (by simp), fun hw => ?_⟩
    obtain ⟨buf, hbuf⟩ := hw.reads r.calls pid r.pageBuf
    rw [hread] at hbuf
    cases hbuf
  | some answer =>
    obtain ⟨found, buf⟩ := answer
    have hquiet := quiet_call r (x := .readPage pid (some found)) rfl (by simp) (by simp)
    refine ⟨⟨hquiet.handed, hquiet.unsynced, hquiet.applied, hquiet.written⟩, fun hw => ?_⟩
    obtain ⟨buf', hbuf⟩ := hw.reads r.calls pid r.pageBuf
    rw [hread] at hbuf
    cases hbuf
    rfl

theorem count_quiet (r : RecoveryRun ps) (outcome : Outcome) (h : outcome ≠ .applied) :
    Quiet r (r.count outcome) := by
  refine ⟨rfl, fun _ hok => hok, ?_, Iff.rfl⟩
  cases outcome with
  | applied => exact absurd rfl h
  | ignored => rfl
  | skippedCheckpoint => rfl
  | skippedPageLsn => rfl

theorem write_effect (r : RecoveryRun ps) (pid : Nat) (page : Page ps) (hdue : due) :
    Effect c due r (r.write c pid page) := by
  have hcall : ∀ ok, handedOver (r.call (.writePage pid page ok)).calls = handedOver r.calls := by
    intro ok
    rw [call, handedOver_append]
    exact append_nil _
  have hsync : ∀ ok ok', .sync ok' ∈ (r.call (.writePage pid page ok)).calls →
      .sync ok' ∈ r.calls := by
    intro ok ok' hmem
    exact (mem_append.mp hmem).resolve_right fun h => by cases mem_singleton.mp h
  have hwritten : ∀ ok, Written (r.call (.writePage pid page ok)).calls := fun ok =>
    ⟨pid, page, ok, mem_append_right _ mem_cons_self⟩
  unfold write
  split
  · exact ⟨hcall true, hsync true, fun _ _ => ⟨fun _ => hwritten true, fun _ => Nat.succ_pos _⟩,
      fun _ => .inr hdue, fun _ => hwritten true, fun _ => ⟨rfl, fun _ => hwritten true⟩⟩
  · rename_i hfail
    exact ⟨hcall false, hsync false, by simp, fun _ => .inr hdue, fun _ => hwritten false,
      fun hw => absurd (hw.writes _ _ _) hfail⟩

theorem readThen_effect (lsn : Nat) {pid : Nat} {write : RecoveryRun ps → RecoveryRun ps × Bool}
    (r : RecoveryRun ps) (hwrite : ∀ r', Effect c due r' (write r')) :
    Effect c due r (r.readThen c lsn pid write) := by
  obtain ⟨hquiet, hok⟩ := readInto_quiet (c := c) r pid
  unfold readThen
  generalize r.readInto c pid = result at hquiet hok
  obtain ⟨r₁, found⟩ := result
  cases found with
  | none => exact .of_quiet hquiet fun hw => nomatch hok hw
  | some found =>
    dsimp only
    split
    · rename_i hskip
      refine .of_quiet (hquiet.trans (count_quiet r₁ .skippedPageLsn (by simp))) fun hw => ?_
      rw [Option.some.inj (hok hw)] at hskip
      cases hskip.1
    · exact .after hquiet (hwrite r₁)

theorem recoverPageImage_effect (r : RecoveryRun ps) (lsn pid : Nat) (data : Bytes) :
    Effect c (c.checkpointLsn < lsn ∧ data.length = ps.bytes) r
      (r.recoverPageImage c lsn pid data) := by
  unfold recoverPageImage
  split
  · rename_i hle
    exact .of_quiet (count_quiet r .skippedCheckpoint (by simp)) fun _ =>
      ⟨rfl, fun hdue => absurd hdue.1 (Nat.not_lt.mpr hle)⟩
  rename_i habove
  have habove := Nat.lt_of_not_le habove
  unfold Page.ofBytes?
  by_cases hlen : data.length = ps.bytes
  · rw [dif_pos hlen]
    dsimp only
    split
    · obtain ⟨hquiet, hok⟩ := allocateFor_quiet (c := c) r pid
      generalize r.allocateFor c pid = result at hquiet hok
      obtain ⟨r₁, ok⟩ := result
      cases ok with
      | false => exact .of_quiet hquiet fun hw => absurd (hok hw) (by simp)
      | true => exact .after hquiet (write_effect r₁ pid _ ⟨habove, hlen⟩)
    · exact readThen_effect lsn r fun r' => write_effect r' pid _ ⟨habove, hlen⟩
  · rw [dif_neg hlen]
    exact .of_quiet (.refl r) fun _ => ⟨rfl, fun hdue => hlen hdue.2⟩

theorem recoverPagePatch_effect (r : RecoveryRun ps) (lsn pid : Nat) (ranges : List PatchRange) :
    Effect c (c.checkpointLsn < lsn) r (r.recoverPagePatch c lsn pid ranges) := by
  unfold recoverPagePatch
  split
  · rename_i hle
    exact .of_quiet (count_quiet r .skippedCheckpoint (by simp)) fun _ =>
      ⟨rfl, Nat.not_lt.mpr hle⟩
  rename_i habove
  have habove := Nat.lt_of_not_le habove
  obtain ⟨hquiet, hok⟩ := allocateFor_quiet (c := c) r pid
  generalize r.allocateFor c pid = result at hquiet hok
  obtain ⟨r₁, ok⟩ := result
  cases ok with
  | false => exact .of_quiet hquiet fun hw => absurd (hok hw) (by simp)
  | true =>
    refine .after hquiet (readThen_effect lsn r₁ fun r' => ?_)
    have hbuf : Quiet r' { r' with pageBuf := applyRanges r'.pageBuf ranges } :=
      ⟨rfl, fun _ h => h, rfl, Iff.rfl⟩
    exact .after hbuf (write_effect _ pid _ habove)

theorem Effect.congr {due' : Prop} {result : RecoveryRun ps × Bool} (h : Effect c due r result)
    (hiff : due ↔ due') : Effect c due' r result :=
  ⟨h.handed, h.unsynced, h.applied, fun hw => (h.onlyDue hw).imp_right hiff.mp, h.kept,
    fun hw => ⟨(h.willing hw).1, fun hdue => (h.willing hw).2 (hiff.mpr hdue)⟩⟩

/-! ## What a log makes recovery do -/

/-- The records `done` have been handled, and none stopped recovery. -/
structure Handled (c : RecoveryArgs ps) (done : List ReplayRecord) (r : RecoveryRun ps) : Prop where
  decodable : ∀ x ∈ done, x.Decodable ps
  handed : handedOver r.calls = callers c.checkpointLsn done
  accepted : Accepted c.applyLogical (callers c.checkpointLsn done)
  applied : 0 < r.report.recordsApplied ↔ Written r.calls
  unsynced : ∀ ok, .sync ok ∉ r.calls
  onlyDue : Written r.calls → ∃ x ∈ done, x.PageDue ps c.checkpointLsn
  willing : c.store.Willing → ∀ x ∈ done, x.PageDue ps c.checkpointLsn → Written r.calls

/-- An error ended the recovery at record `x`. -/
structure Failed (c : RecoveryArgs ps) (done : List ReplayRecord) (x : ReplayRecord)
    (r : RecoveryRun ps) : Prop where
  decodable : ∀ y ∈ done ++ [x], y.Decodable ps
  handed : handedOver r.calls <+: callers c.checkpointLsn (done ++ [x])
  refused : c.store.Willing → ¬Accepted c.applyLogical (callers c.checkpointLsn (done ++ [x]))

/-- How a part of a log ends that has the records `items` and is readable to its end if
`whole`. -/
def Ended (c : RecoveryArgs ps) (done items : List ReplayRecord) (whole : Bool)
    (r : RecoveryRun ps) : Next → Prop
  | .go _ => whole = true ∧ Handled c (done ++ items) r
  | .stop => ∃ pre, Handled c (done ++ pre) r ∧
      (pre = items ∧ whole = false ∨ ∃ x, pre ++ [x] <+: items ∧ ¬x.Decodable ps)
  | .fail => ∃ pre x, pre ++ [x] <+: items ∧ Failed c (done ++ pre) x r

section Handling

variable {done items items' : List ReplayRecord} {whole whole' : Bool} {next : Next}
  {x : ReplayRecord}

theorem Ended.append (h : Ended c (done ++ items) items' whole r next) :
    Ended c done (items ++ items') whole r next := by
  cases next with
  | go part =>
    obtain ⟨hwhole, hhandled⟩ := h
    exact ⟨hwhole, append_assoc done items items' ▸ hhandled⟩
  | stop =>
    obtain ⟨pre, hhandled, hend⟩ := h
    refine ⟨items ++ pre, append_assoc done items pre ▸ hhandled, ?_⟩
    rcases hend with ⟨rfl, hwhole⟩ | ⟨x, hpre, hx⟩
    · exact .inl ⟨rfl, hwhole⟩
    · refine .inr ⟨x, ?_, hx⟩
      rw [append_assoc]
      exact (prefix_append_right_inj items).mpr hpre
  | fail =>
    obtain ⟨pre, x, hpre, hfailed⟩ := h
    refine ⟨items ++ pre, x, ?_, append_assoc done items pre ▸ hfailed⟩
    rw [append_assoc]
    exact (prefix_append_right_inj items).mpr hpre

theorem Ended.early (h : Ended c done items true r next) (hnext : ∀ part, next ≠ .go part)
    (items' : List ReplayRecord) (whole : Bool) : Ended c done (items ++ items') whole r next := by
  cases next with
  | go part => exact absurd rfl (hnext part)
  | stop =>
    obtain ⟨pre, hhandled, ⟨-, hwhole⟩ | ⟨x, hpre, hx⟩⟩ := h
    · cases hwhole
    · exact ⟨pre, hhandled, .inr ⟨x, hpre.trans (prefix_append ..), hx⟩⟩
  | fail =>
    obtain ⟨pre, x, hpre, hfailed⟩ := h
    exact ⟨pre, x, hpre.trans (prefix_append ..), hfailed⟩

theorem Handled.page (h : Handled c done r) {result : RecoveryRun ps × Bool}
    (heffect : Effect c (x.PageDue ps c.checkpointLsn) r result) (hx : x.Decodable ps)
    (hcaller : x.caller? c.checkpointLsn = none) :
    Ended c done [x] true (goOn .empty result).1 (goOn .empty result).2 := by
  obtain ⟨r', ok⟩ := result
  have hcallers : callers c.checkpointLsn (done ++ [x]) = callers c.checkpointLsn done := by
    simp [callers, hcaller]
  have hdecodable : ∀ y ∈ done ++ [x], y.Decodable ps := by
    intro y hy
    rcases mem_append.mp hy with hy | hy
    · exact h.decodable y hy
    · rw [mem_singleton.mp hy]
      exact hx
  have hhanded : handedOver r'.calls = callers c.checkpointLsn (done ++ [x]) := by
    rw [hcallers]
    exact heffect.handed.trans h.handed
  cases ok with
  | false =>
    refine ⟨[], x, prefix_rfl, ?_⟩
    rw [append_nil]
    exact ⟨hdecodable, hhanded ▸ prefix_rfl, fun hw => absurd (heffect.willing hw).1 (by simp)⟩
  | true =>
    refine ⟨rfl, hdecodable, hhanded, hcallers ▸ h.accepted, heffect.applied rfl h.applied,
      fun ok hok => h.unsynced ok (heffect.unsynced ok hok), fun hw => ?_, fun hw y hy hdue => ?_⟩
    · rcases heffect.onlyDue hw with hold | hdue
      · obtain ⟨y, hy, hdue⟩ := h.onlyDue hold
        exact ⟨y, mem_append_left _ hy, hdue⟩
      · exact ⟨x, mem_append_right _ mem_cons_self, hdue⟩
    · rcases mem_append.mp hy with hy | hy
      · exact heffect.kept (h.willing hw y hy hdue)
      · rw [mem_singleton.mp hy] at hdue
        exact (heffect.willing hw).2 hdue

theorem length_of_decode {payload data : Bytes} {pid : Nat}
    (h : decodePageImageBytesPayload ps payload = some (pid, data)) : data.length = ps.bytes := by
  unfold decodePageImageBytesPayload at h
  split at h
  · cases h
  simp only at h
  split at h
  · cases h
  · cases h
    omega

theorem Handled.caller (h : Handled c done r) {record : LogicalRecord} (hx : x.Decodable ps)
    (hdue : ¬x.PageDue ps c.checkpointLsn) (hcaller : x.caller? c.checkpointLsn = some record) :
    Ended c done [x] true (goOn .empty (r.handOver c record)).1
      (goOn .empty (r.handOver c record)).2 := by
  have hcallers :
      callers c.checkpointLsn (done ++ [x]) = callers c.checkpointLsn done ++ [record] := by
    simp [callers, hcaller]
  have hhanded : ∀ ok, handedOver (r.call (.applyLogical record ok)).calls =
      callers c.checkpointLsn (done ++ [x]) := by
    intro ok
    rw [call, handedOver_append, h.handed, hcallers]
    rfl
  have hdecodable : ∀ y ∈ done ++ [x], y.Decodable ps := by
    intro y hy
    rcases mem_append.mp hy with hy | hy
    · exact h.decodable y hy
    · rw [mem_singleton.mp hy]
      exact hx
  unfold handOver
  rw [h.handed]
  split
  · rename_i haccept
    have hwritten : Written (r.call (.applyLogical record true)).calls ↔ Written r.calls :=
      written_call r (by simp)
    refine ⟨rfl, hdecodable, hhanded true, ?_, h.applied.trans hwritten.symm,
      fun ok hok => ?_, fun hw => ?_, fun hw y hy hy' => ?_⟩
    · rw [hcallers]
      exact h.accepted.snoc haccept
    · exact h.unsynced ok ((mem_append.mp hok).resolve_right fun hmem => by
        cases mem_singleton.mp hmem)
    · obtain ⟨y, hy, hy'⟩ := h.onlyDue (hwritten.mp hw)
      exact ⟨y, mem_append_left _ hy, hy'⟩
    · rcases mem_append.mp hy with hy | hy
      · exact hwritten.mpr (h.willing hw y hy hy')
      · rw [mem_singleton.mp hy] at hy'
        exact absurd hy' hdue
  rename_i hrefuse
  refine ⟨[], x, prefix_rfl, ?_⟩
  rw [append_nil]
  refine ⟨hdecodable, hhanded false ▸ prefix_rfl, fun _ => ?_⟩
  rw [hcallers]
  exact not_accepted_snoc (Bool.eq_false_of_not_eq_true hrefuse)

theorem Handled.logical (h : Handled c done r) (record : LogicalRecord) :
    let result := (handlers c).recoverLogicalPayload ps r record .empty
    Ended c done [record.replayed] true result.1 result.2 := by
  intro result
  have hstop : ¬record.Decodable ps → Ended c done [record.replayed] true r .stop := fun hx =>
    ⟨[], (append_nil done).symm ▸ h, .inr ⟨record.replayed, prefix_rfl, hx⟩⟩
  simp only [result, RecordHandlers.recoverLogicalPayload]
  split
  · rename_i hkind
    have hpatch : record.kind ≠ logicalKindPagePatch := by
      rw [hkind]
      decide
    cases hdecode : decodePageImageBytesPayload ps record.payload with
    | none =>
      refine hstop fun hx => ?_
      have hsome := hx.1 hkind
      rw [hdecode] at hsome
      cases hsome
    | some decoded =>
      obtain ⟨pid, data⟩ := decoded
      have hx : record.Decodable ps := ⟨fun _ => by rw [hdecode]; rfl, fun hk => absurd hk hpatch⟩
      have heffect : Effect c (record.replayed.PageDue ps c.checkpointLsn) r
          (r.recoverPageImage c record.lsn pid data) := by
        refine (recoverPageImage_effect r record.lsn pid data).congr ?_
        simp [LogicalRecord.replayed, ReplayRecord.PageDue, hkind, length_of_decode hdecode]
      have hcaller : record.replayed.caller? c.checkpointLsn = none := by
        simp [LogicalRecord.replayed, ReplayRecord.caller?, hkind]
      exact h.page heffect hx hcaller
  rename_i hkind
  split
  · rename_i hpatch
    cases hdecode : decodePagePatchPayload ps record.payload with
    | none =>
      refine hstop fun hx => ?_
      have hsome := hx.2 hpatch
      rw [hdecode] at hsome
      cases hsome
    | some decoded =>
      obtain ⟨pid, ranges⟩ := decoded
      have hx : record.Decodable ps := ⟨fun hk => absurd hk hkind, fun _ => by rw [hdecode]; rfl⟩
      have heffect : Effect c (record.replayed.PageDue ps c.checkpointLsn) r
          (r.recoverPagePatch c record.lsn pid ranges) := by
        refine (recoverPagePatch_effect r record.lsn pid ranges).congr ?_
        simp [LogicalRecord.replayed, ReplayRecord.PageDue, hpatch]
      have hcaller : record.replayed.caller? c.checkpointLsn = none := by
        simp [LogicalRecord.replayed, ReplayRecord.caller?, hpatch]
      exact h.page heffect hx hcaller
  rename_i hpatch
  have hx : record.Decodable ps := ⟨fun hk => absurd hk hkind, fun hk => absurd hk hpatch⟩
  have hdue : ¬record.replayed.PageDue ps c.checkpointLsn := fun hdue =>
    hdue.2.elim hkind hpatch
  simp only [handlers]
  split
  · rename_i hle
    have heffect : Effect c (record.replayed.PageDue ps c.checkpointLsn) r
        (r.count .skippedCheckpoint, true) :=
      .of_quiet (count_quiet r .skippedCheckpoint (by simp)) fun _ => ⟨rfl, hdue⟩
    have hcaller : record.replayed.caller? c.checkpointLsn = none := by
      simp [LogicalRecord.replayed, ReplayRecord.caller?, hle]
    exact h.page heffect hx hcaller
  · rename_i habove
    have hcaller : record.replayed.caller? c.checkpointLsn = some record := by
      simp only [LogicalRecord.replayed, ReplayRecord.caller?, hkind, hpatch, habove, or_self,
        if_false]
    exact h.caller (x := record.replayed) hx hdue hcaller

theorem Handled.collected (h : Handled c done r) (records : List ReplayRecord)
    {p : Progress (RecoveryRun ps)} (hstate : p.state = r) :
    let result := (handlers c).recoverAllCollected ps p records
    Ended c done records true result.1.state result.2 := by
  induction records generalizing done r p with
  | nil => exact ⟨rfl, by rw [append_nil]; exact hstate ▸ h⟩
  | cons record records ih =>
    subst hstate
    have hended : Ended c done [record] true ((handlers c).recoverCollected ps p.state record).1
        ((handlers c).recoverCollected ps p.state record).2 := by
      cases record with
      | pageImage lsn pid data =>
        exact h.page (x := .pageImage lsn pid data) (recoverPageImage_effect p.state lsn pid data)
          trivial rfl
      | logical lsn kind payload => exact h.logical ⟨lsn, kind, payload⟩
    rw [RecordHandlers.recoverAllCollected, ← singleton_append]
    generalize (handlers c).recoverCollected ps p.state record = result at hended
    obtain ⟨r₁, next⟩ := result
    cases next with
    | go _ => exact (ih hended.2 (p := p.scanned record.lsn r₁) rfl).append
    | stop => exact hended.early (by simp) _ true
    | fail => exact hended.early (by simp) _ true

/-- Behind the records the reading goes on or ends. -/
theorem Ended.andThen (h : Ended c done items true r next) (part : Option Partial) :
    Ended c done items part.isSome r (next.andThen part) := by
  cases next with
  | go _ =>
    cases part with
    | none => exact ⟨items, h.2, .inl ⟨rfl, rfl⟩⟩
    | some part => exact ⟨rfl, h.2⟩
  | stop =>
    obtain ⟨pre, hhandled, ⟨-, hwhole⟩ | hend⟩ := h
    · cases hwhole
    · exact ⟨pre, hhandled, .inr hend⟩
  | fail => exact h

theorem handled_start (c : RecoveryArgs ps) : Handled c [] (start c) :=
  ⟨nofun, rfl, accepted_nil _, ⟨nofun, nofun⟩, nofun, nofun, nofun⟩

end Handling

end RecoveryRun

/-- The loops handle the records of the log in order, up to the first obstacle. -/
theorem recoverWithLogical_ended {ps : PageSize} (c : RecoveryArgs ps) (crc : Bytes → Nat)
    (shards : List (List (RawEntry × Bytes))) :
    ∃ p next, recoverWithLogical c crc shards = RecoveryRun.finish c p next ∧
      RecoveryRun.Ended c [] (readLog ps crc shards).1 (readLog ps crc shards).2 p.state next := by
  have hstart := RecoveryRun.handled_start c
  have hrfl : (Progress.start (RecoveryRun.start c)).state = _ := rfl
  unfold recoverWithLogical readLog
  by_cases hmany : 1 < shards.length
  · rw [if_pos hmany, if_pos hmany]
    exact ⟨_, _, rfl, hstart.collected _ hrfl⟩
  · rw [if_neg hmany, if_neg hmany]
    obtain ⟨hstate, hnext⟩ := recoverEntries_eq ps (RecoveryRun.handlers c) hrfl .empty
      ((shards.headD []).map (checkRaw ps crc))
    refine ⟨_, _, rfl, ?_⟩
    rw [hstate, hnext]
    exact (hstart.collected _ hrfl).andThen _

/-! ## Logs as the append path writes them -/

section Written

variable {ps : PageSize} {crc : Bytes → Nat}

theorem readEntry_rawFinal {slot : Slot} (h : SlotWf ps slot) (part : Partial) :
    readEntry ps part (checkRaw ps crc (slot.rawFinal crc)) =
      scan (replayPiece ps) part (slotPieces slot) := by
  rw [← replaySlot_finalizeSlot h, replaySlot, checkRaw_rawFinal]
  refine readEntry_of_nil fun hnone => ?_
  rw [check_finalizeSlot h] at hnone ⊢
  cases hkind : slot.entry.kind with
  | pageImage => simp [hkind, replayEntry] at hnone
  | logical =>
    simp only [hkind] at hnone ⊢
    exact replayChunk_none hnone
  | logicalPacked =>
    obtain ⟨rs, -, hrs, hbytes⟩ := h.records hkind
    simp [hkind, replayEntry, hbytes, packedLogicalRecords_flatMap hrs] at hnone

theorem scan_readEntry (crc : Bytes → Nat) {slots : List Slot}
    (h : ∀ slot ∈ slots, SlotWf ps slot) (part : Partial) :
    scan (readEntry ps) part ((slots.map (Slot.rawFinal crc)).map (checkRaw ps crc)) =
      scan (replayPiece ps) part (slots.flatMap slotPieces) := by
  rw [scan_map, scan_map, scan_flatMap]
  intro slot hslot part
  exact readEntry_rawFinal (h slot hslot) part

theorem fileEntries_finalBatches (hcrc : ∀ bytes, crc bytes < 2 ^ 32) {batches : List (List Slot)}
    (h : ∀ slots ∈ batches, BatchOk ps slots) :
    fileEntries crc ps (batches.flatMap (finalBatch ps crc)) =
      batches.flatten.map (Slot.rawFinal crc) := by
  have hread := readBatches_finalBatches hcrc h (length_le_finalBatches crc h []) []
  rw [append_nil, readBatches_nil, append_nil] at hread
  rw [fileEntries, hread]
  exact map_flatten.symm

end Written

/-! ## Stores whose calls succeed -/

section Succeeding

variable {ps : PageSize} {σ : Type} (st : PageStore (Page ps) σ) (s : σ)

/-- The store after some calls. -/
def PageStore.after (calls : List (RecoveryCall ps)) : σ :=
  calls.foldl (fun s => fun
    | .writePage pid page true => st.writePage s pid page
    | .allocate pid true => st.allocate s pid
    | _ => s) s

def PageStore.answering : AnsweringStore ps where
  readPage calls pid buf :=
    match st.readPage (st.after s calls) pid with
    | none => some (false, buf)
    | some page => some (true, page)
  writePage _ _ _ := true
  allocate _ _ := true
  sync _ := true
  nextPageId calls := st.nextPageId (st.after s calls)

def RecoverySetup.args (su : RecoverySetup) : RecoveryArgs ps :=
  ⟨st.answering s, su.checkpointLsn, Page.lsn, fun _ => su.acceptLogical⟩

/-- The run has made the calls that lead to the store of the recovery. -/
structure Mirrors (r : RecoveryRun ps) (r' : Recovery ps σ) : Prop where
  store : st.after s r.calls = r'.disk.store
  currentNext : r.currentNext = r'.disk.currentNext
  pageBuf : r.pageBuf = r'.disk.pageBuf
  report : r.report = r'.counts

variable {st s} {su : RecoverySetup} {r : RecoveryRun ps} {r' : Recovery ps σ}

theorem PageStore.after_append (calls : List (RecoveryCall ps)) (x : RecoveryCall ps) :
    st.after s (calls ++ [x]) = st.after (st.after s calls) [x] :=
  foldl_append

theorem Mirrors.count (h : Mirrors st s r r') (outcome : Outcome) :
    Mirrors st s (r.count outcome) (r'.finish (r'.disk, outcome)) :=
  ⟨h.store, h.currentNext, h.pageBuf, congrArg (·.count outcome) h.report⟩

theorem Mirrors.write (su : RecoverySetup) (h : Mirrors st s r r') (pid : Nat) (page : Page ps) :
    Agree (Mirrors st s) (r.write (su.args st s) pid page)
      (r'.finish (r'.disk.writePage st pid page, .applied), true) := by
  refine ⟨⟨?_, h.currentNext, h.pageBuf, congrArg (·.count .applied) h.report⟩, rfl⟩
  show st.after s (r.calls ++ [_]) = st.writePage r'.disk.store pid page
  rw [PageStore.after_append, h.store]
  rfl

theorem Mirrors.allocateFor (su : RecoverySetup) (h : Mirrors st s r r') (pid : Nat) :
    Agree (Mirrors st s) (r.allocateFor (su.args st s) pid)
      ({ r' with disk := r'.disk.allocateFor st pid }, true) := by
  unfold RecoveryRun.allocateFor Recovering.allocateFor
  rw [h.currentNext]
  split
  · have hstore : st.after s (r.calls ++ [.allocate pid true]) =
        st.allocate r'.disk.store pid := by
      rw [PageStore.after_append, h.store]
      rfl
    exact ⟨⟨hstore, congrArg st.nextPageId hstore, h.pageBuf, h.report⟩, rfl⟩
  · exact ⟨h, rfl⟩

/-- Both read the page and go on alike. -/
theorem Mirrors.readThen (su : RecoverySetup) (h : Mirrors st s r r') (lsn pid : Nat)
    (write : RecoveryRun ps → RecoveryRun ps × Bool)
    (write' : Recovering (Page ps) σ → Recovering (Page ps) σ)
    (hwrite : ∀ {r r'}, Mirrors st s r r' →
      Agree (Mirrors st s) (write r) (r'.finish (write' r'.disk, .applied), true)) :
    Agree (Mirrors st s) (r.readThen (su.args st s) lsn pid write)
      (r'.finish (match st.readPage r'.disk.store pid with
        | none => (write' r'.disk, .applied)
        | some onDisk =>
          if lsn ≤ onDisk.lsn then ({ r'.disk with pageBuf := onDisk }, .skippedPageLsn)
          else (write' { r'.disk with pageBuf := onDisk }, .applied)), true) := by
  have hafter : ∀ found, st.after s (r.calls ++ [.readPage pid (some found)]) = r'.disk.store :=
    fun found => (PageStore.after_append _ _).trans h.store
  unfold RecoveryRun.readThen RecoveryRun.readInto
  simp only [RecoverySetup.args, PageStore.answering, h.store]
  cases st.readPage r'.disk.store pid with
  | none =>
    simp only [Bool.false_eq_true, false_and, if_false]
    exact hwrite ⟨hafter false, h.currentNext, h.pageBuf, h.report⟩
  | some onDisk =>
    have hread : Mirrors st s { r.call (.readPage pid (some true)) with pageBuf := onDisk }
        { r' with disk := { r'.disk with pageBuf := onDisk } } :=
      ⟨hafter true, h.currentNext, rfl, h.report⟩
    simp only [true_and]
    split
    · exact ⟨hread.count .skippedPageLsn, rfl⟩
    · exact hwrite hread

/-- Over such a store the calls of recovery and recovery into the store are the same. -/
theorem handlers_simulate (su : RecoverySetup) :
    RecordHandlers.Simulates (Mirrors st s) (RecoveryRun.handlers (su.args st s))
      (Recovery.handlers st su) where
  image {r r'} h lsn pid data := by
    simp only [RecoveryRun.handlers, Recovery.handlers, RecoveryRun.recoverPageImage,
      Recovering.recoverPageImage, RecoverySetup.args]
    split
    · exact ⟨h.count .skippedCheckpoint, rfl⟩
    cases Page.ofBytes? ps data with
    | none => exact ⟨⟨h.store, h.currentNext, h.pageBuf, h.report⟩, rfl⟩
    | some page =>
      dsimp only
      rw [h.currentNext]
      split
      · obtain ⟨hallocated, hok⟩ := h.allocateFor su pid
        have hpair : RecoveryRun.allocateFor (su.args st s) r pid =
          ((RecoveryRun.allocateFor (su.args st s) r pid).1, true) := Prod.ext rfl hok
        have hwritten := hallocated.write su pid page
        simp only [RecoverySetup.args] at hpair hwritten
        rw [hpair]
        exact hwritten
      · have hthen := h.readThen su lsn pid (fun r => r.write (su.args st s) pid page)
          (fun d => d.writePage st pid page) fun h => h.write su pid page
        simp only [RecoverySetup.args] at hthen
        cases hread : st.readPage r'.disk.store pid with
        | none => rwa [hread] at hthen
        | some onDisk => rwa [hread] at hthen
  patch {r r'} h lsn pid ranges := by
    simp only [RecoveryRun.handlers, Recovery.handlers, RecoveryRun.recoverPagePatch,
      Recovering.recoverPagePatch, RecoverySetup.args]
    split
    · exact ⟨h.count .skippedCheckpoint, rfl⟩
    obtain ⟨hallocated, hok⟩ := h.allocateFor su pid
    have hpair : RecoveryRun.allocateFor (su.args st s) r pid =
      ((RecoveryRun.allocateFor (su.args st s) r pid).1, true) := Prod.ext rfl hok
    have hthen := hallocated.readThen su lsn pid
      (fun r => { r with pageBuf := applyRanges r.pageBuf ranges }.write (su.args st s) pid
        (applyRanges r.pageBuf ranges))
      (fun d => d.patchBuf st pid ranges) fun {r r'} h => by
        have hbuf : Mirrors st s { r with pageBuf := applyRanges r.pageBuf ranges }
            { r' with disk := { r'.disk with pageBuf := applyRanges r'.disk.pageBuf ranges } } :=
          ⟨h.store, h.currentNext, congrArg (applyRanges · ranges) h.pageBuf, h.report⟩
        rw [h.pageBuf] at hbuf ⊢
        exact hbuf.write su pid _
    simp only [RecoverySetup.args] at hpair hthen
    rw [hpair]
    exact hthen
  logical {r r'} h record := by
    have hcall : ∀ ok, st.after s (r.calls ++ [.applyLogical record ok]) = r'.disk.store :=
      fun ok => (PageStore.after_append _ _).trans h.store
    simp only [RecoveryRun.handlers, Recovery.handlers, RecoveryRun.handOver]
    by_cases hle : record.lsn ≤ su.checkpointLsn
    · rw [if_pos (show record.lsn ≤ (su.args st s).checkpointLsn from hle), if_pos hle]
      exact ⟨h.count .skippedCheckpoint, rfl⟩
    rw [if_neg (show ¬record.lsn ≤ (su.args st s).checkpointLsn from hle), if_neg hle]
    by_cases hok : su.acceptLogical record = true
    · rw [if_pos (show (su.args st s).applyLogical (handedOver r.calls) record = true from hok),
        if_pos hok]
      exact ⟨⟨hcall true, h.currentNext, h.pageBuf, congrArg (·.deliver) h.report⟩, rfl⟩
    · rw [if_neg (show ¬(su.args st s).applyLogical (handedOver r.calls) record = true from hok),
        if_neg hok]
      exact ⟨⟨hcall false, h.currentNext, h.pageBuf, h.report⟩, rfl⟩

theorem finish_agrees {run : Progress (RecoveryRun ps) × Next}
    {run' : Progress (Recovery ps σ) × Next}
    (h : Agree (Progress.Related (Mirrors st s)) run run') :
    let byCalls := RecoveryRun.finish (su.args st s) run.1 run.2
    let result := recoveryResult run'.1 run'.2
    byCalls.2 = result.ok ∧ byCalls.1.report RecoveryRun.report = result.report ∧
      st.after s byCalls.1.state.calls = result.recovery.disk.store := by
  obtain ⟨p, next⟩ := run
  obtain ⟨p', next'⟩ := run'
  obtain ⟨⟨hstate, hscanned, hmax⟩, hnext⟩ := h
  obtain rfl : next = next' := hnext
  have hreport : p.report RecoveryRun.report = p'.report Recovery.counts := by
    rw [Progress.report, Progress.report]
    exact congr (congrArg₂ RecoveryReport.mk hstate.report hscanned) hmax
  intro byCalls result
  cases next with
  | stop => exact ⟨rfl, hreport, hstate.store⟩
  | fail => exact ⟨rfl, hreport, hstate.store⟩
  | go part =>
    simp only [byCalls, RecoveryRun.finish]
    split
    · exact ⟨rfl, hreport, (PageStore.after_append _ _).trans hstate.store⟩
    · exact ⟨rfl, hreport, hstate.store⟩

/-- The calls on the file of a log lead to the store, the report and the result that
recovery into the store has. -/
theorem recoverWithLogical_eq_recover (su : RecoverySetup) (st : PageStore (Page ps) σ) (s : σ)
    (crc : Bytes → Nat) (log : List Slot) :
    let byCalls := recoverWithLogical (su.args st s) crc [log.map (Slot.rawFinal crc)]
    let result := recover su st crc (log.map (finalizeSlot crc)) s
    byCalls.2 = result.ok ∧ byCalls.1.report RecoveryRun.report = result.report ∧
      st.after s byCalls.1.state.calls = result.recovery.disk.store := by
  intro byCalls result
  have hentries : (log.map (Slot.rawFinal crc)).map (checkRaw ps crc) =
      (log.map (finalizeSlot crc)).map (Slot.check ps crc) := by
    simp only [map_map, Function.comp_def, checkRaw_rawFinal]
  have hstart : Progress.Related (Mirrors st s) (.start (.start (su.args st s)))
      (.start (.start st s)) := ⟨⟨rfl, rfl, rfl, rfl⟩, rfl, rfl⟩
  have hagree := (handlers_simulate su).recoverEntries ps hstart
    .empty ((log.map (Slot.rawFinal crc)).map (checkRaw ps crc))
  simp only [result, recover, ← hentries]
  exact finish_agrees hagree

end Succeeding

end Pagebox.Wal
