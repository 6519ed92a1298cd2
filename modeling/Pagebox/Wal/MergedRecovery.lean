import Pagebox.Wal.RecoverPages

/-!
# Recovery of one shard and of several

On one file whose records are in LSN order `recover` and `recover_merged` of
`wal/src/wal_impl.rs` do the same with the store and with the records of the caller:
what ends the reading of `recover` ends `replay_records` as well, or is met again when
the collected record is applied.  The maximum LSN they report may differ: `recover`
counts the entry at which it stops.
-/

namespace Pagebox.Wal

open Pagebox.Base List

variable {ps : PageSize}

/-! ## Records that stop recovery -/

/-- The payload of a record of Pagebox itself can be decoded. -/
def LogicalRecord.Decodable (ps : PageSize) (record : LogicalRecord) : Prop :=
  (record.kind = logicalKindPageImageBytes →
    (decodePageImageBytesPayload ps record.payload).isSome) ∧
  (record.kind = logicalKindPagePatch → (decodePagePatchPayload ps record.payload).isSome)

def LogicalRecord.replayed (record : LogicalRecord) : ReplayRecord :=
  .logical record.lsn record.kind record.payload

namespace ReplayRecord

def Decodable (ps : PageSize) : ReplayRecord → Prop
  | .pageImage _ _ _ => True
  | .logical lsn kind payload => LogicalRecord.Decodable ps ⟨lsn, kind, payload⟩

instance decidableDecodable (ps : PageSize) (x : ReplayRecord) : Decidable (x.Decodable ps) :=
  match x with
  | .pageImage _ _ _ => .isTrue trivial
  | .logical _ _ _ => inferInstanceAs (Decidable (_ ∧ _))

end ReplayRecord

/-- The records up to the first that cannot be decoded, that one included. -/
def handled (ps : PageSize) : List ReplayRecord → List ReplayRecord
  | [] => []
  | x :: xs => if x.Decodable ps then x :: handled ps xs else [x]

/-- A packed page can be read to its end and has the highest LSN of its records. -/
def CheckedEntry.Whole : CheckedEntry → Prop
  | .packed lsn payload =>
    (packedLogicalRecords payload).2 = true ∧
      (∀ r ∈ (packedLogicalRecords payload).1, r.lsn ≤ lsn) ∧
      (lsn = 0 ∨ ∃ r ∈ (packedLogicalRecords payload).1, r.lsn = lsn)
  | _ => True

instance CheckedEntry.decidableWhole (e : CheckedEntry) : Decidable e.Whole :=
  match e with
  | .image _ _ _ => .isTrue trivial
  | .chunk _ _ _ _ _ => .isTrue trivial
  | .packed _ _ => inferInstanceAs (Decidable (_ ∧ _ ∧ _))

/-! ## One entry and its records -/

section Entry

variable {ρ : Type} {h : RecordHandlers ρ} {r : ρ} {q : Progress ρ} {part : Partial}
  {x : ReplayRecord} {xs : List ReplayRecord} {e : CheckedEntry}

/-- Where the reading goes on behind records that were applied. -/
def Next.andThen (next : Next) (part : Option Partial) : Next :=
  match next with
  | .go _ => part.elim .stop .go
  | ended => ended

theorem Next.andThen_andThen (next : Next) (p : Partial) (part : Option Partial) :
    (next.andThen (some p)).andThen part = next.andThen part := by
  cases next <;> rfl

theorem goOn_andThen (result : ρ × Bool) :
    goOn part result = ((goOn .empty result).1, (goOn .empty result).2.andThen (some part)) := by
  obtain ⟨r, ok⟩ := result
  cases ok <;> rfl

theorem recoverLogicalPayload_andThen (h : RecordHandlers ρ) (r : ρ) (record : LogicalRecord)
    (part : Partial) :
    let result := h.recoverLogicalPayload ps r record .empty
    h.recoverLogicalPayload ps r record part = (result.1, result.2.andThen (some part)) := by
  intro result
  simp only [result, RecordHandlers.recoverLogicalPayload]
  split
  · split
    · rfl
    · exact goOn_andThen _
  · split
    · split
      · rfl
      · exact goOn_andThen _
    · exact goOn_andThen _

theorem recoverAllCollected_singleton (h : RecordHandlers ρ) (q : Progress ρ) (x : ReplayRecord) :
    h.recoverAllCollected ps q [x] = (q.scanned x.lsn (h.recoverCollected ps q.state x).1,
      (h.recoverCollected ps q.state x).2.andThen (some .empty)) := by
  rw [RecordHandlers.recoverAllCollected]
  cases h.recoverCollected ps q.state x with
  | mk r next => cases next <;> rfl

theorem recoverAllCollected_append (ps : PageSize) (h : RecordHandlers ρ) (q : Progress ρ)
    (xs ys : List ReplayRecord) :
    h.recoverAllCollected ps q (xs ++ ys) =
      match h.recoverAllCollected ps q xs with
      | (q, .go _) => h.recoverAllCollected ps q ys
      | ended => ended := by
  induction xs generalizing q with
  | nil => rfl
  | cons x xs ih =>
    rw [cons_append, RecordHandlers.recoverAllCollected, RecordHandlers.recoverAllCollected]
    cases h.recoverCollected ps q.state x with
    | mk r next =>
      cases next with
      | go part => exact ih _
      | stop => rfl
      | fail => rfl

theorem recoverPacked_eq (ps : PageSize) (h : RecordHandlers ρ) (q : Progress ρ) (part : Partial)
    (records : List LogicalRecord) :
    let applied := h.recoverAllCollected ps q (records.map LogicalRecord.replayed)
    h.recoverPacked ps part q.state records =
      (applied.1.state, applied.2.andThen (some part)) := by
  induction records generalizing q with
  | nil => rfl
  | cons record records ih =>
    have hsame : h.recoverCollected ps q.state record.replayed =
        h.recoverLogicalPayload ps q.state record .empty := rfl
    rw [map_cons, RecordHandlers.recoverPacked, RecordHandlers.recoverAllCollected,
      recoverLogicalPayload_andThen, hsame]
    cases h.recoverLogicalPayload ps q.state record .empty with
    | mk r next =>
      cases next with
      | go _ => exact ih (q.scanned record.lsn r)
      | stop => rfl
      | fail => rfl

/-- What `recover` reads from an entry: of a packed page it handles no record unless it
can read all. -/
def readEntry (ps : PageSize) (part : Partial) (e : Option CheckedEntry) :
    List ReplayRecord × Option Partial :=
  match replayEntry ps part e with
  | (_, none) => ([], none)
  | (records, some part) => (records, some part)

theorem deliver_none (h : (deliver ps part).2 = none) : (deliver ps part).1 = [] := by
  unfold deliver at h ⊢
  by_cases hkind : part.kind = logicalKindPageImageBytes
  · rw [if_pos hkind] at h ⊢
    cases hdecode : decodePageImageBytesPayload ps part.payload with
    | none => rfl
    | some decoded =>
      rw [hdecode] at h
      cases h
  · rw [if_neg hkind] at h
    cases h

theorem replayChunk_none {lsn kind : Nat} {first last : Bool} {payload : Bytes}
    (h : (replayChunk ps part lsn kind first last payload).2 = none) :
    (replayChunk ps part lsn kind first last payload).1 = [] := by
  simp only [replayChunk] at h ⊢
  split
  · rfl
  rename_i hjoin
  rw [if_neg hjoin] at h
  split
  · rename_i hlast
    rw [if_pos hlast] at h
    exact deliver_none h
  · rfl

theorem readEntry_of_nil {entry : Option CheckedEntry}
    (h : (replayEntry ps part entry).2 = none → (replayEntry ps part entry).1 = []) :
    readEntry ps part entry = replayEntry ps part entry := by
  unfold readEntry
  generalize replayEntry ps part entry = read at h
  obtain ⟨records, next⟩ := read
  cases next with
  | none => exact congrArg (·, none) (h rfl).symm
  | some part' => rfl

theorem readEntry_of_whole (hwhole : e.Whole) :
    readEntry ps part (some e) = replayEntry ps part (some e) := by
  refine readEntry_of_nil fun hnone => ?_
  cases e with
  | image lsn pid page => cases hnone
  | chunk lsn kind first last payload => exact replayChunk_none hnone
  | packed lsn payload => simp [replayEntry, hwhole.1] at hnone

/-- What `recover` does with an entry is what `recover_merged` does with the records
read from it; then the reading goes on or ends. -/
theorem recoverEntry_eq (ps : PageSize) (h : RecordHandlers ρ) (q : Progress ρ) (part : Partial)
    (e : CheckedEntry) :
    let read := readEntry ps part (some e)
    let applied := h.recoverAllCollected ps q read.1
    h.recoverEntry ps q.state part e = (applied.1.state, applied.2.andThen read.2) := by
  intro read applied
  cases e with
  | image lsn pid page =>
    have happlied : applied = _ := recoverAllCollected_singleton h q (.pageImage lsn pid page)
    rw [happlied, Next.andThen_andThen]
    exact goOn_andThen _
  | packed lsn payload =>
    have hpacked := recoverPacked_eq ps h q part.drop (packedLogicalRecords payload).1
    simp only [RecordHandlers.recoverEntry, applied, read, readEntry, replayEntry]
    generalize packedLogicalRecords payload = packed at hpacked
    obtain ⟨records, complete⟩ := packed
    cases complete with
    | false => rfl
    | true => exact hpacked
  | chunk lsn kind first last payload =>
    have hread : read = replayChunk ps part lsn kind first last payload :=
      readEntry_of_whole trivial
    simp only [RecordHandlers.recoverEntry, RecordHandlers.recoverChunk, applied, hread,
      replayChunk]
    split
    · rfl
    split
    · generalize (if first = true then (⟨lsn, kind, []⟩ : Partial) else part) = joined
      rw [deliver]
      dsimp only
      split
      · rename_i hkind
        rw [RecordHandlers.recoverLogicalPayload]
        dsimp only
        rw [if_pos hkind]
        cases decodePageImageBytesPayload ps (joined.payload ++ payload) with
        | none => rfl
        | some decoded =>
          dsimp only
          rw [recoverAllCollected_singleton, Next.andThen_andThen]
          exact goOn_andThen _
      · rw [recoverAllCollected_singleton, Next.andThen_andThen]
        exact recoverLogicalPayload_andThen h q.state _ .empty
    · rfl

theorem recoverEntries_eq (ps : PageSize) (h : RecordHandlers ρ) {p : Progress ρ}
    (hstate : p.state = q.state) (part : Partial) (es : List (Option CheckedEntry)) :
    let read := scan (readEntry ps) part es
    let applied := h.recoverAllCollected ps q read.1
    (h.recoverEntries ps p part es).1.state = applied.1.state ∧
      (h.recoverEntries ps p part es).2 = applied.2.andThen read.2 := by
  induction es generalizing p q part with
  | nil => exact ⟨hstate, rfl⟩
  | cons entry es ih =>
    cases entry with
    | none => exact ⟨hstate, rfl⟩
    | some e =>
      have hentry := recoverEntry_eq ps h q part e
      rw [RecordHandlers.recoverEntries, hstate, hentry]
      cases hread : readEntry ps part (some e) with
      | mk records next =>
        have happend := recoverAllCollected_append ps h q records
        cases next with
        | none =>
          rw [scan_cons_of_none hread]
          dsimp only
          generalize h.recoverAllCollected ps q records = applied
          obtain ⟨q₁, next₁⟩ := applied
          cases next₁ <;> exact ⟨rfl, rfl⟩
        | some part' =>
          rw [scan_cons_of_some hread]
          dsimp only
          rw [happend]
          generalize h.recoverAllCollected ps q records = applied
          obtain ⟨q₁, next₁⟩ := applied
          cases next₁ with
          | go _ => exact ih (p := p.scanned e.countedLsn q₁.state) (q := q₁) rfl part'
          | stop => exact ⟨rfl, rfl⟩
          | fail => exact ⟨rfl, rfl⟩

end Entry

/-! ## Handlers that do the same -/

section Simulation

variable {ρ ρ' : Type} {R : ρ → ρ' → Prop} {h : RecordHandlers ρ} {h' : RecordHandlers ρ'}
  {p : Progress ρ} {p' : Progress ρ'}

/-- Related states, and the same answer. -/
def Agree {α : Type} (R : ρ → ρ' → Prop) (result : ρ × α) (result' : ρ' × α) : Prop :=
  R result.1 result'.1 ∧ result.2 = result'.2

/-- What a record does to related states leaves them related. -/
structure RecordHandlers.Simulates (R : ρ → ρ' → Prop) (h : RecordHandlers ρ)
    (h' : RecordHandlers ρ') : Prop where
  image : ∀ {r r'}, R r r' → ∀ lsn pid data,
    Agree R (h.recoverPageImage r lsn pid data) (h'.recoverPageImage r' lsn pid data)
  patch : ∀ {r r'}, R r r' → ∀ lsn pid ranges,
    Agree R (h.recoverPagePatch r lsn pid ranges) (h'.recoverPagePatch r' lsn pid ranges)
  logical : ∀ {r r'}, R r r' → ∀ record,
    Agree R (h.applyLogical r record) (h'.applyLogical r' record)

structure Progress.Related (R : ρ → ρ' → Prop) (p : Progress ρ) (p' : Progress ρ') : Prop where
  state : R p.state p'.state
  recordsScanned : p.recordsScanned = p'.recordsScanned
  maxLsn : p.maxLsn = p'.maxLsn

theorem Progress.Related.scanned (hp : p.Related R p') (lsn : Nat) {r : ρ} {r' : ρ'}
    (hr : R r r') : (p.scanned lsn r).Related R (p'.scanned lsn r') :=
  ⟨hr, congrArg (· + 1) hp.recordsScanned, congrArg (max · lsn) hp.maxLsn⟩

theorem Agree.goOn {result : ρ × Bool} {result' : ρ' × Bool} (hr : Agree R result result')
    (part : Partial) : Agree R (goOn part result) (goOn part result') :=
  ⟨hr.1, by rw [Wal.goOn, Wal.goOn, hr.2]⟩

namespace RecordHandlers.Simulates

theorem recoverCollected (ps : PageSize) (hs : Simulates R h h') {r : ρ} {r' : ρ'}
    (hr : R r r') (x : ReplayRecord) :
    Agree R (h.recoverCollected ps r x) (h'.recoverCollected ps r' x) := by
  cases x with
  | pageImage lsn pid data => exact (hs.image hr lsn pid data).goOn .empty
  | logical lsn kind payload =>
    simp only [RecordHandlers.recoverCollected, recoverLogicalPayload]
    split
    · cases decodePageImageBytesPayload ps payload with
      | none => exact ⟨hr, rfl⟩
      | some decoded => exact (hs.image hr lsn decoded.1 decoded.2).goOn .empty
    · split
      · cases decodePagePatchPayload ps payload with
        | none => exact ⟨hr, rfl⟩
        | some decoded => exact (hs.patch hr lsn decoded.1 decoded.2).goOn .empty
      · exact (hs.logical hr ⟨lsn, kind, payload⟩).goOn .empty

theorem recoverAllCollected (ps : PageSize) (hs : Simulates R h h') (hp : p.Related R p')
    (xs : List ReplayRecord) :
    Agree (Progress.Related R) (h.recoverAllCollected ps p xs)
      (h'.recoverAllCollected ps p' xs) := by
  induction xs generalizing p p' with
  | nil => exact ⟨hp, rfl⟩
  | cons x xs ih =>
    obtain ⟨hstate, hnext⟩ := hs.recoverCollected ps hp.state x
    rw [RecordHandlers.recoverAllCollected, RecordHandlers.recoverAllCollected]
    generalize h.recoverCollected ps p.state x = result at hstate hnext
    generalize h'.recoverCollected ps p'.state x = result' at hstate hnext
    obtain ⟨r, next⟩ := result
    obtain ⟨r', next'⟩ := result'
    obtain rfl : next = next' := hnext
    cases next with
    | go part => exact ih (hp.scanned x.lsn hstate)
    | stop => exact ⟨hp.scanned x.lsn hstate, rfl⟩
    | fail => exact ⟨hp.scanned x.lsn hstate, rfl⟩

theorem recoverEntries (ps : PageSize) (hs : Simulates R h h') (hp : p.Related R p')
    (part : Partial) (es : List (Option CheckedEntry)) :
    Agree (Progress.Related R) (h.recoverEntries ps p part es)
      (h'.recoverEntries ps p' part es) := by
  induction es generalizing p p' part with
  | nil => exact ⟨hp, rfl⟩
  | cons entry es ih =>
    cases entry with
    | none => exact ⟨hp, rfl⟩
    | some e =>
      obtain ⟨hstate, hnext⟩ := hs.recoverAllCollected ps hp (readEntry ps part (some e)).1
      rw [RecordHandlers.recoverEntries, RecordHandlers.recoverEntries,
        recoverEntry_eq ps h p part e, recoverEntry_eq ps h' p' part e, ← hnext]
      cases Next.andThen _ _ with
      | go part => exact ih (hp.scanned e.countedLsn hstate.state) part
      | stop => exact ⟨hp.scanned e.countedLsn hstate.state, rfl⟩
      | fail => exact ⟨hp.scanned e.countedLsn hstate.state, rfl⟩

end RecordHandlers.Simulates

end Simulation

/-! ## The maximum LSN -/

section MaxLsn

variable {ρ : Type} {h : RecordHandlers ρ} {q : Progress ρ} {part part' : Partial}
  {x : ReplayRecord} {xs : List ReplayRecord} {e : CheckedEntry}

theorem handled_append (h : ∀ x ∈ xs, x.Decodable ps) (ys : List ReplayRecord) :
    handled ps (xs ++ ys) = xs ++ handled ps ys := by
  induction xs with
  | nil => rfl
  | cons x xs ih =>
    rw [cons_append, handled, if_pos (h x mem_cons_self),
      ih fun y hy => h y (mem_cons_of_mem x hy), cons_append]

end MaxLsn

/-! ## The whole file -/

section Files

variable {ρ : Type} {p q : Progress ρ} {part : Partial} {es : List (Option CheckedEntry)}
  {records rest : List ReplayRecord} {e : CheckedEntry} {stop : Option CheckedEntry}

/-- `recover` from `p` and `recover_merged` do the same with the records; `recover` has
also counted the entry at which it stopped. -/
structure SameRun (ps : PageSize) (p : Progress ρ) (records : List ReplayRecord)
    (stop : Option CheckedEntry) (read applied : Progress ρ × Next) : Prop where
  state : read.1.state = applied.1.state
  fail : read.2 = .fail ↔ applied.2 = .fail
  maxLsn_le : applied.2 ≠ .fail → ∀ b, read.1.maxLsn ≤ b ↔
    p.maxLsn ≤ b ∧ (∀ x ∈ handled ps records, x.lsn ≤ b) ∧ ∀ e ∈ stop, e.countedLsn ≤ b

theorem SameRun.stopped {next next' : Next} (hnext : next = .fail ↔ next' = .fail)
    (hle : next' ≠ .fail → ∀ x ∈ handled ps records, x.lsn ≤ e.countedLsn) :
    SameRun ps p records (some e) (p.scanned e.countedLsn q.state, next) (q, next') where
  state := rfl
  fail := hnext
  maxLsn_le hok b := by
    show max p.maxLsn e.countedLsn ≤ b ↔ _
    rw [max_le_iff]
    simp only [Option.mem_some_iff, forall_eq']
    exact and_congr_right fun _ =>
      ⟨fun hb => ⟨fun x hx => (hle hok x hx).trans hb, hb⟩, And.right⟩

theorem SameRun.behind {r : ρ} {read applied : Progress ρ × Next}
    (h : SameRun ps (p.scanned e.countedLsn r) rest stop read applied)
    (hdecodable : ∀ x ∈ records, x.Decodable ps) (hle : ∀ x ∈ records, x.lsn ≤ e.countedLsn)
    (hattained : e.countedLsn = 0 ∨ ∃ x ∈ records, e.countedLsn ≤ x.lsn) :
    SameRun ps p (records ++ rest) stop read applied where
  state := h.state
  fail := h.fail
  maxLsn_le hok b := by
    have hcounted : e.countedLsn ≤ b ↔ ∀ x ∈ records, x.lsn ≤ b := by
      refine ⟨fun hb x hx => (hle x hx).trans hb, fun hall => ?_⟩
      rcases hattained with hzero | ⟨x, hx, hcount⟩
      · omega
      · exact hcount.trans (hall x hx)
    have hmax : (p.scanned e.countedLsn r).maxLsn ≤ b ↔ p.maxLsn ≤ b ∧ e.countedLsn ≤ b :=
      max_le_iff
    rw [h.maxLsn_le hok, handled_append hdecodable, forall_mem_append, ← hcounted, hmax]
    simp only [and_assoc]

end Files

end Pagebox.Wal
