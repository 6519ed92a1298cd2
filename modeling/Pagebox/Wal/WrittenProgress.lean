import Pagebox.Wal.Durability

/-!
# Written progress of one driver

A driver submits sealed buffers in file order and handles their completions in any
order.  `SubmittedWrites` finds the entry of a completion by the recorded LSN of its
buffer, so that the completions of two buffers with the same recorded LSN may be taken
for each other.  `ProgressSafe` says when the published LSN stands for written buffers
all the same.
-/

namespace Pagebox.Wal

open Pagebox.Base List

/-- `max_lsn` of a buffer that was filled with these slots: chunks other than the last
one of a record do not count. -/
def recordedMaxLsn (slots : List Slot) : Nat :=
  slots.foldl (fun m slot =>
    if slot.entry.kind = .pageImage ∨ slot.entry.kind = .logicalPacked ∨ slot.entry.last
    then max m slot.entry.lsn else m) 0

inductive DriverAction
  /-- A buffer with these batches is sealed and waits for the driver. -/
  | sealBuffer (batches : List (List Slot))
  | submit
  | diskWrite (k : Nat)
  | complete (k : Nat)
  | storeWritten (lsn : Nat)
  deriving DecidableEq

def Shard.sealBuffer (sh : Shard) (batches : List (List Slot)) : Shard :=
  { sh with sealedBuffers := sh.sealedBuffers ++
      [⟨batches, recordedMaxLsn (batches.reverse.flatMap List.reverse), .pending, false⟩] }

def driverStep (cfg : Config) (sh : Shard) : DriverAction → Option Shard
  | .sealBuffer batches => some (sh.sealBuffer batches)
  | .submit => sh.submit cfg
  | .diskWrite k => sh.diskWrite cfg k
  | .complete k => sh.complete cfg k
  | .storeWritten lsn => sh.storeWritten lsn

def Shard.nextMaxLsn (sh : Shard) : Option Nat :=
  (sh.sealedBuffers.find? fun b => b.phase = .pending).map SealedBuffer.maxLsn

/-- No other write with this recorded LSN is outstanding; those without a recorded LSN
may be, as long as no other write was submitted after them. -/
def QueueSafe (entries : List SubmittedWrite) (maxLsn : Nat) : Prop :=
  if maxLsn = 0 then
    entries.Pairwise fun e e' => e.maxLsn = 0 → e.completed = false → e'.maxLsn = 0
  else ∀ e ∈ entries, e.completed = false → e.maxLsn ≠ maxLsn

instance (entries : List SubmittedWrite) (maxLsn : Nat) : Decidable (QueueSafe entries maxLsn) := by
  unfold QueueSafe
  infer_instance

/-- The records of a buffer are above the recorded LSN of every buffer before it and
above what the file held when it was opened. -/
def BufferAbove (init : Nat) (bs : List SealedBuffer) (batches : List (List Slot)) : Prop :=
  ∀ p ∈ (batches.reverse.flatMap List.reverse).flatMap slotPieces,
    init < p.lsn ∧ ∀ b ∈ bs, b.maxLsn < p.lsn

instance (init : Nat) (bs : List SealedBuffer) (batches : List (List Slot)) :
    Decidable (BufferAbove init bs batches) :=
  inferInstanceAs (Decidable (∀ p ∈ _, _ ∧ ∀ b ∈ bs, _))

def ProgressSafe (init : Nat) (sh : Shard) : DriverAction → Prop
  | .sealBuffer batches => BufferAbove init sh.sealedBuffers batches
  | .submit => ∀ m ∈ sh.nextMaxLsn, QueueSafe sh.submittedWrites.entries m
  | _ => True

/-- The number of writes without a recorded LSN that the queue holds for outstanding, and
of those that are. -/
def unmarkedZeros (es : List SubmittedWrite) : Nat :=
  es.countP fun e => e.maxLsn = 0 ∧ e.completed = false

def outstandingZeros (bs : List SealedBuffer) : Nat :=
  bs.countP fun b => b.maxLsn = 0 ∧ b.phase ≠ .returned

/-- The queue with the entries it has popped, beside the submitted buffers: entries with
a recorded LSN are exact, and the others are as many as they should be, all on one side
of each buffer with a recorded LSN. -/
structure Marks (full : List SubmittedWrite) (bs : List SealedBuffer) : Prop where
  buffer : ∀ (k : Nat) (e : SubmittedWrite), full[k]? = some e →
    ∃ b : SealedBuffer, bs[k]? = some b ∧ b.maxLsn = e.maxLsn ∧ b.phase ≠ .pending ∧
      (e.maxLsn ≠ 0 → (e.completed = true ↔ b.phase = .returned))
  rest : ∀ (k : Nat) (b : SealedBuffer), bs[k]? = some b → full.length ≤ k → b.phase = .pending
  distinct : ∀ (i j : Nat) (e e' : SubmittedWrite), full[i]? = some e → full[j]? = some e' →
    e.completed = false → e'.completed = false → e.maxLsn ≠ 0 → e.maxLsn = e'.maxLsn → i = j
  total : unmarkedZeros full = outstandingZeros (bs.take full.length)
  before : ∀ (k : Nat) (e : SubmittedWrite), full[k]? = some e → e.maxLsn ≠ 0 →
    unmarkedZeros (full.take k) = outstandingZeros (bs.take k) ∧
      (unmarkedZeros (full.take k) = 0 ∨ unmarkedZeros (full.take k) = unmarkedZeros full)

section Count

variable {α : Type} {p : α → Bool} {l : List α} {u k : Nat} {a x : α}

theorem countP_take_set (hu : l[u]? = some a) (hx : p x = p a) :
    ((l.set u x).take k).countP p = (l.take k).countP p := by
  rw [take_set]
  by_cases hlt : u < (l.take k).length
  · have ha : (l.take k)[u] = a := by
      rw [getElem_take]
      exact (List.getElem?_eq_some_iff.mp hu).2
    rw [countP_set hlt, ha, hx]
    have hpos : p a = true → 0 < (l.take k).countP p := fun hp =>
      countP_pos_iff.mpr ⟨a, ha ▸ getElem_mem hlt, hp⟩
    split
    · have := hpos ‹_›
      omega
    · omega
  · rw [set_eq_of_length_le (not_lt.mp hlt)]

/-- An element stops to count: of the counts of two prefixes those that include it fall. -/
theorem countP_take_set_of_mem (hu : l[u]? = some a) (ha : p a = true) (hx : p x = false) :
    ((l.set u x).take k).countP p + (if u < k then 1 else 0) = (l.take k).countP p := by
  have hlen := (List.getElem?_eq_some_iff.mp hu).1
  rw [take_set]
  by_cases hlt : u < k
  · have hlt' : u < (l.take k).length := by
      rw [length_take]
      omega
    have hget : (l.take k)[u] = a := by
      rw [getElem_take]
      exact (List.getElem?_eq_some_iff.mp hu).2
    have hpos : 0 < (l.take k).countP p :=
      countP_pos_iff.mpr ⟨a, hget ▸ getElem_mem hlt', ha⟩
    rw [countP_set hlt', hget, ha, hx, if_pos hlt]
    simp only [if_true, Bool.false_eq_true, if_false]
    omega
  · have hle : (l.take k).length ≤ u := by
      rw [length_take]
      omega
    rw [set_eq_of_length_le hle, if_neg hlt]
    rfl

theorem countP_take_lt (hu : l[u]? = some a) (ha : p a = true) (hku : k ≤ u) :
    (l.take k).countP p < l.countP p := by
  have hmem : a ∈ l.drop k := by
    rw [mem_iff_getElem?]
    exact ⟨u - k, by rw [List.getElem?_drop, Nat.add_sub_cancel' hku, hu]⟩
  have hpos : 0 < (l.drop k).countP p := countP_pos_iff.mpr ⟨a, hmem, ha⟩
  have hsum := congrArg (countP p) (take_append_drop k l)
  rw [countP_append] at hsum
  omega

end Count

/-! ## Steps of the queue -/

section Marks

variable {full full' : List SubmittedWrite} {bs : List SealedBuffer} {b : SealedBuffer}
  {i k m u : Nat}

theorem Marks.length_le (h : Marks full bs) : full.length ≤ bs.length := by
  by_contra hlt
  obtain ⟨b, hb, -⟩ := h.buffer bs.length full[bs.length] (List.getElem?_eq_getElem (by omega))
  rw [List.getElem?_eq_none le_rfl] at hb
  cases hb

theorem Marks.sealBuffer (h : Marks full bs) (hb : b.phase = .pending) :
    Marks full (bs ++ [b]) := by
  have hle := h.length_le
  have htake : ∀ k ≤ full.length, (bs ++ [b]).take k = bs.take k := fun k hk =>
    take_append_of_le_length (hk.trans hle)
  refine ⟨?_, ?_, h.distinct, ?_, ?_⟩
  · intro k e hk
    obtain ⟨x, hx, hrest⟩ := h.buffer k e hk
    have hlt := (List.getElem?_eq_some_iff.mp hx).1
    exact ⟨x, by rw [List.getElem?_append_left hlt, hx], hrest⟩
  · intro k x hx hk
    by_cases hlt : k < bs.length
    · rw [List.getElem?_append_left hlt] at hx
      exact h.rest k x hx hk
    · rw [List.getElem?_append_right (by omega)] at hx
      rw [mem_singleton.mp (mem_of_getElem? hx)]
      exact hb
  · rw [htake _ le_rfl]
    exact h.total
  · intro k e hk hne
    have hlt := (List.getElem?_eq_some_iff.mp hk).1
    rw [htake k hlt.le]
    exact h.before k e hk hne

theorem unmarkedZeros_eq_zero_iff {es : List SubmittedWrite} :
    unmarkedZeros es = 0 ↔ ∀ e ∈ es, e.maxLsn = 0 → e.completed = true := by
  simp [unmarkedZeros, countP_eq_zero]

theorem outstandingZeros_eq_zero_iff {bs : List SealedBuffer} :
    outstandingZeros bs = 0 ↔ ∀ b ∈ bs, b.maxLsn = 0 → b.phase = .returned := by
  simp [outstandingZeros, countP_eq_zero]

theorem Marks.submit (h : Marks full bs) (hb : bs[full.length]? = some b)
    (hsafe : QueueSafe full b.maxLsn) :
    Marks (full ++ [⟨b.maxLsn, false⟩]) (bs.set full.length { b with phase := .inFlight }) := by
  set b' : SealedBuffer := { b with phase := .inFlight } with hb'
  have hlt := (List.getElem?_eq_some_iff.mp hb).1
  have htake : ∀ k ≤ full.length, (bs.set full.length b').take k = bs.take k := by
    intro k hk
    rw [take_set, set_eq_of_length_le (by rw [length_take]; omega)]
  have hnew : ∀ {k e}, (full ++ [(⟨b.maxLsn, false⟩ : SubmittedWrite)])[k]? = some e →
      full[k]? = some e ∧ k < full.length ∨ k = full.length ∧ e = ⟨b.maxLsn, false⟩ := by
    intro k e hk
    by_cases hk' : k < full.length
    · rw [List.getElem?_append_left hk'] at hk
      exact .inl ⟨hk, hk'⟩
    · rw [List.getElem?_append_right (by omega)] at hk
      have hzero := (List.getElem?_eq_some_iff.mp hk).1
      rw [length_singleton] at hzero
      exact .inr ⟨by omega, mem_singleton.mp (mem_of_getElem? hk)⟩
  have hcount : unmarkedZeros (full ++ [⟨b.maxLsn, false⟩]) =
      unmarkedZeros full + if b.maxLsn = 0 then 1 else 0 := by
    simp [unmarkedZeros, countP_append, countP_cons]
  refine ⟨?_, ?_, ?_, ?_, ?_⟩
  · intro k e hk
    rcases hnew hk with ⟨hk, hlt'⟩ | ⟨rfl, rfl⟩
    · obtain ⟨x, hx, hrest⟩ := h.buffer k e hk
      exact ⟨x, by rw [List.getElem?_set_ne (by omega), hx], hrest⟩
    · exact ⟨b', List.getElem?_set_self hlt, rfl, by simp [hb'], by simp [hb']⟩
  · intro k x hx hk
    rw [length_append, length_singleton] at hk
    rw [List.getElem?_set_ne (by omega)] at hx
    exact h.rest k x hx (by omega)
  · intro j k e e' he he' hc hc' hne heq
    rcases hnew he with ⟨he, -⟩ | ⟨rfl, rfl⟩ <;> rcases hnew he' with ⟨he', -⟩ | ⟨rfl, rfl⟩
    · exact h.distinct j k e e' he he' hc hc' hne heq
    · have hmax : b.maxLsn ≠ 0 := fun h0 => hne (heq.trans h0)
      rw [QueueSafe, if_neg hmax] at hsafe
      exact absurd heq (hsafe e (mem_of_getElem? he) hc)
    · rw [QueueSafe, if_neg hne] at hsafe
      exact absurd heq.symm (hsafe e' (mem_of_getElem? he') hc')
    · rfl
  · have hlast : (bs.set full.length b').take (full.length + 1) = bs.take full.length ++ [b'] := by
      rw [take_add_one, htake _ le_rfl, List.getElem?_set_self hlt]
      rfl
    rw [length_append, length_singleton, hlast, hcount, h.total]
    simp [outstandingZeros, countP_append, countP_cons, hb']
  intro k e hk hne
  rcases hnew hk with ⟨hk, hlt'⟩ | ⟨rfl, rfl⟩
  · rw [htake k hlt'.le, take_append_of_le_length hlt'.le, hcount]
    obtain ⟨heq, hside⟩ := h.before k e hk hne
    refine ⟨heq, ?_⟩
    by_cases hzero : b.maxLsn = 0
    · -- no write without a recorded LSN is outstanding before `k`
      left
      rw [QueueSafe, if_pos hzero, pairwise_iff_getElem] at hsafe
      rw [unmarkedZeros_eq_zero_iff]
      intro x hx hx0
      obtain ⟨j, hj, rfl⟩ := mem_take_iff_getElem.mp hx
      by_contra hc
      have hk' := List.getElem?_eq_some_iff.mp hk
      refine hne ?_
      rw [← hk'.2]
      exact hsafe j k (by omega) hlt' (by omega) hx0 (by simpa using hc)
    · rwa [if_neg hzero, Nat.add_zero]
  · rw [htake _ le_rfl, take_left', hcount, if_neg hne]
    · exact ⟨h.total, .inr rfl⟩
    · rfl

theorem Marks.diskWrite (h : Marks full bs) (hi : bs[i]? = some b) (hb : b.phase = .inFlight)
    (synced : Bool) : Marks full (bs.set i { b with phase := .onDisk, synced }) := by
  have hlt := (List.getElem?_eq_some_iff.mp hi).1
  have hcount : ∀ k, outstandingZeros ((bs.set i { b with phase := .onDisk, synced }).take k) =
      outstandingZeros (bs.take k) := fun k => countP_take_set hi (by simp [hb])
  refine ⟨?_, ?_, h.distinct, ?_, ?_⟩
  · intro k e hk
    obtain ⟨x, hx, hmax, hphase, hiff⟩ := h.buffer k e hk
    by_cases hik : i = k
    · subst hik
      rw [hi] at hx
      cases hx
      refine ⟨_, List.getElem?_set_self hlt, hmax, by simp, fun hne => ?_⟩
      simp_all
    · exact ⟨x, by rw [List.getElem?_set_ne hik, hx], hmax, hphase, hiff⟩
  · intro k x hx hk
    by_cases hik : i = k
    · subst hik
      have := h.rest i b hi hk
      rw [hb] at this
      cases this
    · rw [List.getElem?_set_ne hik] at hx
      exact h.rest k x hx hk
  · rw [hcount]
    exact h.total
  · intro k e hk hne
    rw [hcount]
    exact h.before k e hk hne

/-- A completion marks some outstanding entry with its recorded LSN. -/
theorem mark_spec {es es' : List SubmittedWrite} (h : SubmittedWrites.mark m es = some es') :
    ∃ u, es[u]? = some ⟨m, false⟩ ∧ es' = es.set u ⟨m, true⟩ := by
  induction es generalizing es' with
  | nil => cases h
  | cons e es ih =>
    unfold SubmittedWrites.mark at h
    split at h
    next he =>
      cases h
      obtain ⟨rfl, hc⟩ := he
      exact ⟨0, by cases e; simp_all, rfl⟩
    next =>
      obtain ⟨rest, hrest, rfl⟩ := Option.map_eq_some_iff.mp h
      obtain ⟨u, hu, rfl⟩ := ih hrest
      exact ⟨u + 1, hu, rfl⟩

theorem set_cases {e : SubmittedWrite} (hu : full[u]? = some ⟨m, false⟩)
    (hk : (full.set u ⟨m, true⟩)[k]? = some e) :
    k ≠ u ∧ full[k]? = some e ∨ k = u ∧ e = ⟨m, true⟩ := by
  by_cases hku : k = u
  · subst hku
    rw [List.getElem?_set_self (List.getElem?_eq_some_iff.mp hu).1] at hk
    exact .inr ⟨rfl, (Option.some.inj hk).symm⟩
  · rw [List.getElem?_set_ne (Ne.symm hku)] at hk
    exact .inl ⟨hku, hk⟩

theorem unmarkedZeros_mark (hu : full[u]? = some ⟨m, false⟩) (k : Nat) :
    unmarkedZeros ((full.set u ⟨m, true⟩).take k) + (if m = 0 ∧ u < k then 1 else 0) =
      unmarkedZeros (full.take k) := by
  by_cases hzero : m = 0
  · simp only [hzero, true_and]
    exact countP_take_set_of_mem hu (by simp [hzero]) (by simp)
  · simp only [hzero, false_and, if_false, Nat.add_zero]
    exact countP_take_set hu (by simp [hzero])

section Complete

/-! A write that is on disk, and the entry that its completion marks. -/

variable (h : Marks full bs) (hi : bs[i]? = some b) (hb : b.phase = .onDisk)
  (hu : full[u]? = some ⟨b.maxLsn, false⟩)

include hi hb

theorem outstandingZeros_return (k : Nat) :
    outstandingZeros ((bs.set i { b with phase := .returned }).take k) +
      (if b.maxLsn = 0 ∧ i < k then 1 else 0) = outstandingZeros (bs.take k) := by
  by_cases hzero : b.maxLsn = 0
  · simp only [hzero, true_and]
    exact countP_take_set_of_mem hi (by simp [hzero, hb]) (by simp)
  · simp only [hzero, false_and, if_false, Nat.add_zero]
    exact countP_take_set hi (by simp [hzero])

include h

theorem Marks.inside : i < full.length := by
  by_contra hle
  have := h.rest i b hi (by omega)
  rw [hb] at this
  cases this

include hu

/-- The entry of a write that is to be handled is outstanding, so with a recorded LSN it is
the one marked. -/
theorem Marks.marked_eq (hne : b.maxLsn ≠ 0) : u = i := by
  have hentry := List.getElem?_eq_getElem (h.inside hi hb)
  obtain ⟨x, hx, hmax, -, hiff⟩ := h.buffer i _ hentry
  rw [hi] at hx
  cases hx
  refine h.distinct u i _ _ hu hentry rfl ?_ hne hmax
  have := hiff (hmax ▸ hne)
  simpa [hb] using this

theorem Marks.buffer_complete {e : SubmittedWrite}
    (hk : (full.set u ⟨b.maxLsn, true⟩)[k]? = some e) :
    ∃ x, (bs.set i { b with phase := .returned })[k]? = some x ∧ x.maxLsn = e.maxLsn ∧
      x.phase ≠ .pending ∧ (e.maxLsn ≠ 0 → (e.completed = true ↔ x.phase = .returned)) := by
  have hold : ∃ e₀, full[k]? = some e₀ ∧ e₀.maxLsn = e.maxLsn ∧ (k ≠ u → e₀ = e) := by
    rcases set_cases hu hk with ⟨-, hk⟩ | ⟨rfl, rfl⟩
    · exact ⟨e, hk, rfl, fun _ => rfl⟩
    · exact ⟨_, hu, rfl, fun hne => absurd rfl hne⟩
  obtain ⟨e₀, he₀, hlsn, hsame⟩ := hold
  obtain ⟨x, hx, hmax, hphase, hiff⟩ := h.buffer k e₀ he₀
  by_cases hik : i = k
  · subst hik
    rw [hi] at hx
    cases hx
    refine ⟨_, List.getElem?_set_self (List.getElem?_eq_some_iff.mp hi).1, hmax.trans hlsn,
      by simp, fun hne => ?_⟩
    have hui := h.marked_eq hi hb hu (by rw [hmax, hlsn]; exact hne)
    rcases set_cases hu hk with ⟨hku, -⟩ | ⟨-, rfl⟩
    · exact absurd hui.symm hku
    · simp
  refine ⟨x, by rw [List.getElem?_set_ne hik, hx], hmax.trans hlsn, hphase, fun hne => ?_⟩
  have hku : k ≠ u := by
    rintro rfl
    rw [hu] at he₀
    cases he₀
    exact hik (h.marked_eq hi hb hu (hlsn.trans_ne hne)).symm
  rw [← hsame hku]
  exact hiff (by rw [hlsn]; exact hne)

/-- The entry marked and the buffer returned are on the same side of an entry with a
recorded LSN. -/
theorem Marks.sameSide (hzero : b.maxLsn = 0) {e : SubmittedWrite} (hk : full[k]? = some e)
    (hne : e.maxLsn ≠ 0) : u < k ↔ i < k := by
  obtain ⟨heq, hside⟩ := h.before k e hk hne
  have hklt := (List.getElem?_eq_some_iff.mp hk).1
  have hmarked : k ≤ u → unmarkedZeros (full.take k) < unmarkedZeros full := fun hle =>
    countP_take_lt hu (by simp [hzero]) hle
  have hreturned : k ≤ i → outstandingZeros (bs.take k) < unmarkedZeros full := by
    intro hle
    have hget : (bs.take full.length)[i]? = some b := by
      rw [List.getElem?_take_of_lt (h.inside hi hb), hi]
    have hcount : ((bs.take full.length).take k).countP _ < (bs.take full.length).countP _ :=
      countP_take_lt hget (p := fun b => b.maxLsn = 0 ∧ b.phase ≠ .returned)
        (by simp [hzero, hb]) hle
    rw [take_take, Nat.min_eq_left hklt.le] at hcount
    rw [h.total]
    exact hcount
  have h₁ := unmarkedZeros_mark hu k
  have h₂ := outstandingZeros_return hi hb k
  constructor
  · intro hlt
    rw [if_pos ⟨hzero, hlt⟩] at h₁
    omega
  · intro hlt
    rw [if_pos ⟨hzero, hlt⟩] at h₂
    omega

theorem Marks.total_complete : unmarkedZeros (full.set u ⟨b.maxLsn, true⟩) = outstandingZeros
      ((bs.set i { b with phase := .returned }).take (full.set u ⟨b.maxLsn, true⟩).length) := by
  have htotal := h.total
  have hmarked := unmarkedZeros_mark hu full.length
  have hreturned := outstandingZeros_return hi hb full.length
  rw [take_of_length_le (by rw [length_set])] at hmarked
  rw [length_set]
  simp only [(List.getElem?_eq_some_iff.mp hu).1, h.inside hi hb, and_true, take_length] at *
  omega

theorem Marks.before_complete {e : SubmittedWrite} (hk : full[k]? = some e) (hne : e.maxLsn ≠ 0) :
    let marked := full.set u ⟨b.maxLsn, true⟩
    unmarkedZeros (marked.take k) =
        outstandingZeros ((bs.set i { b with phase := .returned }).take k) ∧
      (unmarkedZeros (marked.take k) = 0 ∨ unmarkedZeros (marked.take k) =
        unmarkedZeros marked) := by
  intro marked
  obtain ⟨heq, hside⟩ := h.before k e hk hne
  have hult := (List.getElem?_eq_some_iff.mp hu).1
  have h₁ := unmarkedZeros_mark hu k
  have h₂ := outstandingZeros_return hi hb k
  have h₃ := unmarkedZeros_mark hu full.length
  rw [take_of_length_le (by rw [length_set]), take_length] at h₃
  simp only [marked]
  by_cases hzero : b.maxLsn = 0
  · have hsame := h.sameSide hi hb hu hzero hk hne
    have hmarked : k ≤ u → unmarkedZeros (full.take k) < unmarkedZeros full := fun hle =>
      countP_take_lt hu (by simp [hzero]) hle
    rw [if_pos ⟨hzero, hult⟩] at h₃
    by_cases hku : u < k
    · rw [if_pos ⟨hzero, hku⟩] at h₁
      rw [if_pos ⟨hzero, hsame.mp hku⟩] at h₂
      omega
    · rw [if_neg fun hc => hku hc.2] at h₁
      rw [if_neg fun hc => hku (hsame.mpr hc.2)] at h₂
      omega
  · simp only [hzero, false_and, if_false, Nat.add_zero] at h₁ h₂ h₃
    rw [h₁, h₂, h₃]
    exact ⟨heq, hside⟩

end Complete

/-- A write is handled: its buffer is returned and an entry is marked. -/
theorem Marks.complete (h : Marks full bs) (hi : bs[i]? = some b) (hb : b.phase = .onDisk)
    (hmark : SubmittedWrites.mark b.maxLsn full = some full') :
    Marks full' (bs.set i { b with phase := .returned }) := by
  obtain ⟨u, hu, rfl⟩ := mark_spec hmark
  refine ⟨fun k e hk => h.buffer_complete hi hb hu hk, ?_, ?_, h.total_complete hi hb hu, ?_⟩
  · intro k x hx hk
    have hin := h.inside hi hb
    rw [length_set] at hk
    rw [List.getElem?_set_ne (by omega)] at hx
    exact h.rest k x hx hk
  · intro j k e e' he he' hc hc' hne heq
    rcases set_cases hu he with ⟨-, he⟩ | ⟨-, rfl⟩
    · rcases set_cases hu he' with ⟨-, he'⟩ | ⟨-, rfl⟩
      · exact h.distinct j k e e' he he' hc hc' hne heq
      · cases hc'
    · cases hc
  · intro k e hk hne
    rcases set_cases hu hk with ⟨-, hk⟩ | ⟨rfl, rfl⟩
    · exact h.before_complete hi hb hu hk hne
    · exact h.before_complete hi hb hu hu hne

end Marks

/-! ## Runs of the driver -/

theorem mark_append {popped es : List SubmittedWrite} (h : ∀ e ∈ popped, e.completed = true)
    (m : Nat) : SubmittedWrites.mark m (popped ++ es) =
      (SubmittedWrites.mark m es).map (popped ++ ·) := by
  induction popped with
  | nil => simp
  | cons e popped ih =>
    rw [forall_mem_cons] at h
    rw [cons_append, SubmittedWrites.mark, if_neg (by simp [h.1]), ih h.2, Option.map_map]
    rfl

/-- What is popped is completed, and justifies the new high-water mark. -/
theorem popCompleted_eq {es : List SubmittedWrite} {high : Nat} {w : SubmittedWrites}
    (h : SubmittedWrites.popCompleted es high = w) :
    ∃ front, es = front ++ w.entries ∧ (∀ e ∈ front, e.completed = true) ∧ high ≤ w.highWaterLsn ∧
      (w.highWaterLsn = high ∨ ∃ e ∈ front, w.highWaterLsn ≤ e.maxLsn) := by
  induction es generalizing high with
  | nil =>
    subst h
    exact ⟨[], rfl, fun e he => (nomatch he), le_rfl, .inl rfl⟩
  | cons e es ih =>
    unfold SubmittedWrites.popCompleted at h
    split at h
    next he =>
      obtain ⟨front, rfl, hfront, hle, hhigh⟩ := ih h
      refine ⟨e :: front, rfl, forall_mem_cons.mpr ⟨he, hfront⟩, (le_max_left _ _).trans hle, ?_⟩
      rcases hhigh with hhigh | ⟨e', he', hhigh⟩
      · rw [hhigh]
        rcases le_total e.maxLsn high with hmax | hmax
        · exact .inl (max_eq_left hmax)
        · exact .inr ⟨e, mem_cons_self, (max_eq_right hmax).le⟩
      · exact .inr ⟨e', mem_cons_of_mem e he', hhigh⟩
    next =>
      subst h
      exact ⟨[], rfl, fun e he => (nomatch he), le_rfl, .inl rfl⟩

structure Tracked (init : Nat) (sh : Shard) (popped : List SubmittedWrite) : Prop where
  marks : Marks (popped ++ sh.submittedWrites.entries) sh.sealedBuffers
  completed : ∀ e ∈ popped, e.completed = true
  high : sh.submittedWrites.highWaterLsn ≤ init ∨
    ∃ e ∈ popped, sh.submittedWrites.highWaterLsn ≤ e.maxLsn
  written : sh.writtenLsn ≤ sh.submittedWrites.highWaterLsn
  publish : ∀ v ∈ sh.publishWritten, v ≤ sh.submittedWrites.highWaterLsn
  ordered : sh.sealedBuffers.Pairwise fun a b => ∀ p ∈ b.pieces, a.maxLsn < p.lsn
  above : ∀ b ∈ sh.sealedBuffers, ∀ p ∈ b.pieces, init < p.lsn

namespace Tracked

variable {init : Nat} {cfg : Config} {sh sh' : Shard} {popped : List SubmittedWrite}

theorem new (cfg : Config) (init : Nat) : Tracked init (Shard.new cfg init) [] where
  marks := by
    refine ⟨?_, ?_, ?_, rfl, ?_⟩ <;> simp [Shard.new]
  completed := nofun
  high := .inl le_rfl
  written := le_rfl
  publish := nofun
  ordered := .nil
  above := nofun

theorem sealBuffer (h : Tracked init sh popped) {batches : List (List Slot)}
    (hsafe : BufferAbove init sh.sealedBuffers batches) :
    Tracked init (sh.sealBuffer batches) popped where
  marks := h.marks.sealBuffer rfl
  completed := h.completed
  high := h.high
  written := h.written
  publish := h.publish
  ordered := by
    refine pairwise_append.mpr ⟨h.ordered, pairwise_singleton _ _, ?_⟩
    intro a ha b hb p hp
    rw [mem_singleton.mp hb] at hp
    exact (hsafe p hp).2 a ha
  above b hb p hp := by
    rcases mem_append.mp hb with hb | hb
    · exact h.above b hb p hp
    · rw [mem_singleton.mp hb] at hp
      exact (hsafe p hp).1

/-- A step that moves one buffer on keeps the contents in order. -/
theorem set_ordered (h : Tracked init sh popped) {i : Nat} {b : SealedBuffer}
    (hi : sh.sealedBuffers[i]? = some b) (b' : SealedBuffer) (hmax : b'.maxLsn = b.maxLsn)
    (hpieces : b'.pieces = b.pieces) :
    (sh.sealedBuffers.set i b').Pairwise (fun a b => ∀ p ∈ b.pieces, a.maxLsn < p.lsn) ∧
      ∀ b ∈ sh.sealedBuffers.set i b', ∀ p ∈ b.pieces, init < p.lsn := by
  have hsame : ∀ j (hj : j < (sh.sealedBuffers.set i b').length),
      ∃ hj' : j < sh.sealedBuffers.length,
        ((sh.sealedBuffers.set i b')[j]).maxLsn = (sh.sealedBuffers[j]).maxLsn ∧
        ((sh.sealedBuffers.set i b')[j]).pieces = (sh.sealedBuffers[j]).pieces := by
    intro j hj
    have hj' : j < sh.sealedBuffers.length := by rwa [length_set] at hj
    refine ⟨hj', ?_⟩
    rw [getElem_set]
    split
    next hij =>
      subst hij
      rw [(List.getElem?_eq_some_iff.mp hi).2]
      exact ⟨hmax, hpieces⟩
    next => exact ⟨rfl, rfl⟩
  refine ⟨pairwise_iff_getElem.mpr ?_, ?_⟩
  · intro j k hj hk hjk
    obtain ⟨hj', hjmax, -⟩ := hsame j hj
    obtain ⟨hk', -, hkpieces⟩ := hsame k hk
    rw [hjmax, hkpieces]
    exact pairwise_iff_getElem.mp h.ordered j k hj' hk' hjk
  · intro x hx
    obtain ⟨j, hj, rfl⟩ := mem_iff_getElem.mp hx
    obtain ⟨hj', -, hpieces⟩ := hsame j hj
    rw [hpieces]
    exact h.above _ (getElem_mem hj')

theorem next_eq (h : Tracked init sh popped) {k : Nat} {b : SealedBuffer}
    (hk : sh.sealedBuffers[k]? = some b) (hb : b.phase = .pending)
    (hbefore : ∀ i < k, ∀ x : SealedBuffer, sh.sealedBuffers[i]? = some x → x.phase ≠ .pending) :
    k = (popped ++ sh.submittedWrites.entries).length := by
  set full := popped ++ sh.submittedWrites.entries with hfull
  have hge : full.length ≤ k := by
    by_contra hlt
    have hget : full[k]? = some full[k] := List.getElem?_eq_getElem (by omega)
    obtain ⟨x, hx, -, hx', -⟩ := h.marks.buffer k _ hget
    rw [hk] at hx
    cases hx
    exact hx' hb
  by_contra hne
  have hlt := (List.getElem?_eq_some_iff.mp hk).1
  have hget := List.getElem?_eq_getElem (l := sh.sealedBuffers) (i := full.length) (by omega)
  exact hbefore full.length (by omega) _ hget (h.marks.rest _ _ hget le_rfl)

theorem queueSafe (h : Tracked init sh popped) {m : Nat}
    (hsafe : QueueSafe sh.submittedWrites.entries m) :
    QueueSafe (popped ++ sh.submittedWrites.entries) m := by
  unfold QueueSafe at hsafe ⊢
  split
  next hzero =>
    rw [if_pos hzero] at hsafe
    refine pairwise_append.mpr ⟨?_, hsafe, ?_⟩
    · refine pairwise_iff_forall_sublist.mpr ?_
      intro e e' hsub _ hc
      rw [h.completed e (hsub.subset mem_cons_self)] at hc
      cases hc
    · intro e he e' _ _ hc
      rw [h.completed e he] at hc
      cases hc
  next hne =>
    rw [if_neg hne] at hsafe
    intro e he hc
    rcases mem_append.mp he with he | he
    · rw [h.completed e he] at hc
      cases hc
    · exact hsafe e he hc

theorem submit (h : Tracked init sh popped)
    (hsafe : ∀ m ∈ sh.nextMaxLsn, QueueSafe sh.submittedWrites.entries m)
    (hstep : sh.submit cfg = some sh') : Tracked init sh' popped := by
  obtain ⟨-, k, b, hk, hpending, hbefore, rfl⟩ := Shard.submit_spec hstep
  have hnext : sh.nextMaxLsn = some b.maxLsn := by
    have hfind : sh.sealedBuffers.find? (fun b => b.phase = .pending) = some b := by
      obtain ⟨hlt, rfl⟩ := List.getElem?_eq_some_iff.mp hk
      refine List.find?_eq_some_iff_getElem.mpr ⟨by simp [hpending], k, hlt, rfl, ?_⟩
      intro j hj
      simpa using hbefore j hj _ (List.getElem?_eq_getElem (by omega))
    rw [Shard.nextMaxLsn, hfind]
    rfl
  obtain rfl := h.next_eq hk hpending hbefore
  obtain ⟨hordered, habove⟩ := h.set_ordered hk { b with phase := .inFlight } rfl rfl
  have hmarks := h.marks.submit hk (h.queueSafe (hsafe _ hnext))
  rw [append_assoc] at hmarks
  exact ⟨hmarks, h.completed, h.high, h.written, h.publish, hordered, habove⟩

theorem diskWrite (h : Tracked init sh popped) {k : Nat} (hstep : sh.diskWrite cfg k = some sh') :
    Tracked init sh' popped := by
  obtain ⟨b, hk, hphase, rfl⟩ := Shard.diskWrite_spec hstep
  obtain ⟨hordered, habove⟩ := h.set_ordered hk { b with
    phase := .onDisk, synced := b.synced || cfg.backend = .pwritev2Dsync } rfl rfl
  exact ⟨h.marks.diskWrite hk hphase _, h.completed, h.high, h.written, h.publish, hordered, habove⟩

theorem complete (h : Tracked init sh popped) {k : Nat} (hstep : sh.complete cfg k = some sh') :
    ∃ popped', Tracked init sh' popped' := by
  obtain ⟨b, w, contiguous, hk, hphase, hw, rfl⟩ := Shard.complete_spec hstep
  obtain ⟨es, hmark, heq⟩ := Option.map_eq_some_iff.mp hw
  simp only [Prod.mk.injEq] at heq
  obtain ⟨hpop, rfl⟩ := heq
  obtain ⟨front, rfl, hfront, hle, hhigh⟩ := popCompleted_eq hpop
  obtain ⟨hordered, habove⟩ := h.set_ordered hk { b with phase := .returned } rfl rfl
  have hfull : SubmittedWrites.mark b.maxLsn (popped ++ sh.submittedWrites.entries) =
      some (popped ++ (front ++ w.entries)) := by
    rw [mark_append h.completed, hmark]
    rfl
  have hmarks := h.marks.complete hk hphase hfull
  rw [← append_assoc] at hmarks
  rw [hpop] at hstep ⊢
  refine ⟨popped ++ front, hmarks, ?_, ?_, h.written.trans hle, ?_, hordered, habove⟩
  · intro e he
    rcases mem_append.mp he with he | he
    · exact h.completed e he
    · exact hfront e he
  · rcases hhigh with heq | ⟨e, he, hle'⟩
    · rw [heq]
      exact h.high.imp_right fun ⟨e, he, hle'⟩ => ⟨e, mem_append_left _ he, hle'⟩
    · exact .inr ⟨e, mem_append_right _ he, hle'⟩
  intro v hv
  rcases mem_append.mp hv with hv | hv
  · split at hv
    · rw [Option.toList_some, mem_singleton] at hv
      rw [hv]
    · cases hv
  · exact (h.publish v hv).trans hle

theorem storeWritten (h : Tracked init sh popped) {lsn : Nat}
    (hstep : sh.storeWritten lsn = some sh') : Tracked init sh' popped := by
  unfold Shard.storeWritten at hstep
  split at hstep
  next hmem =>
    cases hstep
    exact ⟨h.marks, h.completed, h.high, max_le h.written (h.publish lsn hmem),
      fun v hv => h.publish v (mem_of_mem_erase hv), h.ordered, h.above⟩
  next => cases hstep

theorem step (h : ∃ popped, Tracked init sh popped) {a : DriverAction}
    (hsafe : ProgressSafe init sh a) (hstep : driverStep cfg sh a = some sh') :
    ∃ popped, Tracked init sh' popped := by
  obtain ⟨popped, h⟩ := h
  cases a with
  | sealBuffer batches =>
    cases hstep
    exact ⟨popped, h.sealBuffer hsafe⟩
  | submit => exact ⟨popped, h.submit hsafe hstep⟩
  | diskWrite k => exact ⟨popped, h.diskWrite hstep⟩
  | complete k => exact h.complete hstep
  | storeWritten lsn => exact ⟨popped, h.storeWritten hstep⟩

/-- A popped entry with a recorded LSN stands for written buffers. -/
theorem returned_of_popped (h : Tracked init sh popped) {k : Nat} {e : SubmittedWrite}
    (hk : popped[k]? = some e) (hne : e.maxLsn ≠ 0) {i : Nat} (hi : i ≤ k) {x : SealedBuffer}
    (hx : sh.sealedBuffers[i]? = some x) : x.phase = .returned := by
  obtain ⟨hlt, rfl⟩ := List.getElem?_eq_some_iff.mp hk
  have hilt : i < popped.length := by omega
  obtain ⟨x', hx', hmax, -, hiff⟩ := h.marks.buffer i popped[i]
    (by rw [List.getElem?_append_left hilt, List.getElem?_eq_getElem hilt])
  rw [hx] at hx'
  cases hx'
  by_cases hzero : (popped[i]).maxLsn = 0
  · -- before `k` no write without a recorded LSN is outstanding
    have hik : i < k := by
      refine lt_of_le_of_ne hi ?_
      rintro rfl
      exact hne hzero
    have hcount := (h.marks.before k _ (by rw [List.getElem?_append_left hlt, hk]) hne).1
    have hnone : unmarkedZeros ((popped ++ sh.submittedWrites.entries).take k) = 0 := by
      rw [unmarkedZeros_eq_zero_iff, take_append_of_le_length hlt.le]
      exact fun e he _ => h.completed e (mem_of_mem_take he)
    rw [hnone] at hcount
    refine outstandingZeros_eq_zero_iff.mp hcount.symm x ?_ (hmax.trans hzero)
    exact mem_of_getElem? (by rw [List.getElem?_take_of_lt hik, hx])
  · exact (hiff hzero).mp (h.completed _ (getElem_mem hilt))

end Tracked

/-- In every run whose steps are safe, a record whose LSN the published written LSN has
reached is in a buffer that is written, as are all buffers before it in the file. -/
theorem written_lsn_covers_buffers {cfg : Config} {init : Nat} {sh : Shard}
    (hreach : Reach (driverStep cfg) (ProgressSafe init) (Shard.new cfg init) sh) {j : Nat}
    {b : SealedBuffer} (hj : sh.sealedBuffers[j]? = some b) {p : Piece} (hp : p ∈ b.pieces)
    (hle : p.lsn ≤ sh.writtenLsn) :
    ∀ i ≤ j, ∀ x, sh.sealedBuffers[i]? = some x → x.phase = .returned := by
  obtain ⟨popped, h⟩ : ∃ popped, Tracked init sh popped :=
    hreach.invariant ⟨[], .new cfg init⟩ fun _ _ _ hs hok hstep => Tracked.step hs hok hstep
  have hinit := h.above b (mem_of_getElem? hj) p hp
  have hlsn := hle.trans h.written
  rcases h.high with hhigh | ⟨e, he, hhigh⟩
  · omega
  obtain ⟨k, hk⟩ := mem_iff_getElem?.mp he
  have hlt := (List.getElem?_eq_some_iff.mp hk).1
  -- the buffer of `e` ends at or above the record, so the record is not behind it
  have hjk : j ≤ k := by
    by_contra hkj
    obtain ⟨x, hx, hmax, -⟩ :=
      h.marks.buffer k e (by rw [List.getElem?_append_left hlt, hk])
    obtain ⟨hklt, rfl⟩ := List.getElem?_eq_some_iff.mp hx
    obtain ⟨hjlt, rfl⟩ := List.getElem?_eq_some_iff.mp hj
    have := pairwise_iff_getElem.mp h.ordered k j hklt hjlt (by omega) p hp
    omega
  intro i hi x hx
  exact h.returned_of_popped hk (by omega) (hi.trans hjk) hx

/-! ## Three chunks in three buffers -/

def chunkedRecord (lsn : Nat) : LogicalRecord := ⟨lsn, 7, replicate 12000 0⟩

def chunkBuffer (lsn i : Nat) : DriverAction :=
  .sealBuffer [[chunkSlot .k4 (chunkedRecord lsn) 3 i]]

def ringConfig : Config := ⟨.k4, 1, .ioUring⟩

def writeBuffer (k : Nat) : List DriverAction := [.diskWrite k, .complete k]

instance (init : Nat) (sh : Shard) (a : DriverAction) : Decidable (ProgressSafe init sh a) := by
  cases a <;> unfold ProgressSafe <;> infer_instance

def outOfOrderRun : List DriverAction :=
  [chunkBuffer 1 0, .submit, chunkBuffer 1 1, .submit, chunkBuffer 1 2] ++ writeBuffer 1 ++
    writeBuffer 0 ++ [.submit] ++ writeBuffer 2 ++ [.storeWritten 1]

theorem written_lsn_covers_buffers_outOfOrderRun :
    ∃ sh, Reach (driverStep ringConfig) (ProgressSafe 0) (Shard.new ringConfig 0) sh ∧
      sh.writtenLsn = 1 ∧
      ∀ i ≤ 2, ∀ x, sh.sealedBuffers[i]? = some x → x.phase = .returned := by
  have hrun : (exec (guarded (fun sh a => decide (ProgressSafe 0 sh a)) (driverStep ringConfig))
      (Shard.new ringConfig 0) outOfOrderRun).any (fun sh => decide (sh.writtenLsn = 1) &&
        (sh.sealedBuffers[2]?).any fun b => b.pieces.any fun p => decide (p.lsn = 1)) = true := by
    decide +kernel
  obtain ⟨sh, hexec, hsh⟩ := (Option.any_eq_true _ _).mp hrun
  rw [Bool.and_eq_true, decide_eq_true_eq] at hsh
  obtain ⟨hwritten, hbuffer⟩ := hsh
  obtain ⟨b, hb, hpieces⟩ := (Option.any_eq_true _ _).mp hbuffer
  obtain ⟨p, hp, hlsn⟩ := any_eq_true.mp hpieces
  have hreach := Reach.of_exec hexec fun _ _ => of_decide_eq_true
  refine ⟨sh, hreach, hwritten, ?_⟩
  exact written_lsn_covers_buffers hreach hb hp (by rw [of_decide_eq_true hlsn, hwritten])

/-- The first chunk of a record stays outstanding.  The completion of the second one is
taken for it, and that of the first chunk of the next record for the second one. -/
def overtakenRun : List DriverAction :=
  [chunkBuffer 1 0, .submit, chunkBuffer 1 1, .submit] ++ writeBuffer 1 ++
    [chunkBuffer 1 2, .submit] ++ writeBuffer 2 ++ [chunkBuffer 2 0, .submit] ++ writeBuffer 3 ++
    [.storeWritten 1]

/-- The written LSN reaches a record whose first chunk is not written. -/
theorem written_lsn_overtakes_buffer :
    ∃ sh, Reach (driverStep ringConfig) anyStep (Shard.new ringConfig 0) sh ∧
      ∃ b x : SealedBuffer, ∃ p ∈ b.pieces, sh.sealedBuffers[2]? = some b ∧
        p.lsn ≤ sh.writtenLsn ∧ sh.sealedBuffers[0]? = some x ∧ x.phase = .inFlight := by
  have hrun : (exec (driverStep ringConfig) (Shard.new ringConfig 0) overtakenRun).any
      (fun sh => ((sh.sealedBuffers[2]?).any fun b => b.pieces.any fun p =>
          decide (p.lsn ≤ sh.writtenLsn)) &&
        (sh.sealedBuffers[0]?).any fun x => decide (x.phase = .inFlight)) = true := by
    decide +kernel
  obtain ⟨sh, hexec, hsh⟩ := (Option.any_eq_true _ _).mp hrun
  obtain ⟨hb, hx⟩ := Bool.and_eq_true_iff.mp hsh
  obtain ⟨b, hb, hpieces⟩ := (Option.any_eq_true _ _).mp hb
  obtain ⟨x, hx, hphase⟩ := (Option.any_eq_true _ _).mp hx
  obtain ⟨p, hp, hlsn⟩ := any_eq_true.mp hpieces
  exact ⟨sh, Reach.of_exec_any hexec, b, x, p, hp, hb, of_decide_eq_true hlsn, hx,
    of_decide_eq_true hphase⟩

end Pagebox.Wal
