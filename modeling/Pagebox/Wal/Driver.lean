import Pagebox.Wal.Records
import Pagebox.Wal.System

/-!
# What the LSNs of the driver stand for

`written_lsn` and `durable_lsn` are single numbers for a file of buffers that
are written and synced one by one.  `Covered S bs v` says what such a number
stands for: every buffer up to one that ends at `v` or above has the property
`S`.  Each step of the driver keeps that reading of its numbers.
-/

namespace Pagebox.Wal

open List

/-- `v` was there when the file was opened, or all buffers up to one that ends at
or above `v` satisfy `S`. -/
def Covered (init : Nat) (S : Nat → SealedBuffer → Prop) (bs : List SealedBuffer) (v : Nat) :
    Prop :=
  v ≤ init ∨ ∃ j b, bs[j]? = some b ∧ v ≤ b.maxLsn ∧ ∀ i ≤ j, ∀ x, bs[i]? = some x → S i x

/-- A buffer moves on: its contents stay, its phase and sync only grow. -/
structure MovesOn (b b' : SealedBuffer) : Prop where
  batches : b'.batches = b.batches
  maxLsn : b'.maxLsn = b.maxLsn
  submitted : b.phase ≠ .pending → b'.phase ≠ .pending
  written : b.phase.written = true → b'.phase.written = true
  synced : b.synced = true → b'.synced = true

theorem MovesOn.refl (b : SealedBuffer) : MovesOn b b := ⟨rfl, rfl, id, id, id⟩

/-- The buffers of the file move on, and new ones are added at the end. -/
structure Advances (bs bs' : List SealedBuffer) : Prop where
  old : ∀ (i : Nat) (b : SealedBuffer), bs[i]? = some b → ∃ b', bs'[i]? = some b' ∧ MovesOn b b'
  new : ∀ (i : Nat) (b' : SealedBuffer), bs'[i]? = some b' → bs.length ≤ i →
    b'.phase = .pending ∧ b'.synced = false

/-- A property of buffers that moving on keeps. -/
def Keeps (S : Nat → SealedBuffer → Prop) : Prop :=
  ∀ i b b', MovesOn b b' → S i b → S i b'

section Coverage

variable {init : Nat} {S T : Nat → SealedBuffer → Prop} {bs bs' : List SealedBuffer} {v w : Nat}

theorem Covered.of_le (h : Covered init S bs v) (hle : w ≤ v) : Covered init S bs w := by
  rcases h with h | ⟨j, b, hj, hv, hS⟩
  · exact .inl (hle.trans h)
  · exact .inr ⟨j, b, hj, hle.trans hv, hS⟩

theorem Covered.max (hv : Covered init S bs v) (hw : Covered init S bs w) :
    Covered init S bs (max v w) := by
  rcases le_total v w with h | h
  · rwa [Nat.max_eq_right h]
  · rwa [Nat.max_eq_left h]

theorem Covered.imp (h : Covered init S bs v)
    (hST : ∀ i x, bs[i]? = some x → S i x → T i x) : Covered init T bs v := by
  rcases h with h | ⟨j, b, hj, hv, hS⟩
  · exact .inl h
  · exact .inr ⟨j, b, hj, hv, fun i hi x hx => hST i x hx (hS i hi x hx)⟩

theorem Covered.advance (h : Covered init S bs v) (hadv : Advances bs bs') (hkeep : Keeps S) :
    Covered init S bs' v := by
  rcases h with h | ⟨j, b, hj, hv, hS⟩
  · exact .inl h
  obtain ⟨b', hj', hb⟩ := hadv.old j b hj
  refine .inr ⟨j, b', hj', hb.maxLsn ▸ hv, ?_⟩
  intro i hi x' hx'
  -- an earlier place was there before
  have hlt : i < bs.length := by
    have := (List.getElem?_eq_some_iff.mp hj).1
    omega
  have hx := List.getElem?_eq_getElem hlt
  obtain ⟨x'', hx'', hmove⟩ := hadv.old i bs[i] hx
  rw [hx'] at hx''
  cases hx''
  exact hkeep i bs[i] x' hmove (hS i hi bs[i] hx)

theorem keeps_submitted : Keeps fun _ b => b.phase ≠ .pending :=
  fun _ _ _ h hS => h.submitted hS

theorem keeps_written : Keeps fun _ b => b.phase.written = true :=
  fun _ _ _ h hS => h.written hS

theorem keeps_synced : Keeps fun _ b => b.synced = true :=
  fun _ _ _ h hS => h.synced hS

theorem keeps_place (K : Nat → Prop) : Keeps fun i _ => K i :=
  fun _ _ _ _ hS => hS

theorem Advances.append {new : List SealedBuffer}
    (hnew : ∀ b ∈ new, b.phase = .pending ∧ b.synced = false) : Advances bs (bs ++ new) := by
  constructor
  · intro i b hi
    have hlt := (List.getElem?_eq_some_iff.mp hi).1
    exact ⟨b, by rw [List.getElem?_append_left hlt, hi], .refl b⟩
  · intro i b' hi hle
    rw [List.getElem?_append_right hle] at hi
    exact hnew b' (mem_of_getElem? hi)

theorem Advances.set {k : Nat} {b b' : SealedBuffer} (hk : bs[k]? = some b)
    (h : MovesOn b b') : Advances bs (bs.set k b') := by
  have hlt := (List.getElem?_eq_some_iff.mp hk).1
  constructor
  · intro i x hi
    by_cases hik : i = k
    · subst hik
      rw [hk] at hi
      cases hi
      exact ⟨b', by simp [hlt], h⟩
    · exact ⟨x, by rw [List.getElem?_set_ne (Ne.symm hik), hi], .refl x⟩
  · intro i x hi hle
    have := (List.getElem?_eq_some_iff.mp hi).1
    rw [length_set] at this
    omega

def SealedBuffer.content (b : SealedBuffer) : List (List Slot) × Nat := (b.batches, b.maxLsn)

theorem Advances.content_take (h : Advances bs bs') :
    (bs'.take bs.length).map SealedBuffer.content = bs.map SealedBuffer.content := by
  apply List.ext_getElem?
  intro i
  rw [List.getElem?_map, List.getElem?_map]
  cases hi : bs[i]? with
  | none =>
    rw [List.getElem?_eq_none_iff] at hi
    rw [List.getElem?_take_eq_none hi]
  | some b =>
    have hlt := (List.getElem?_eq_some_iff.mp hi).1
    obtain ⟨b', hb', hmove⟩ := h.old i b hi
    rw [List.getElem?_take_of_lt hlt, hb', Option.map_some, Option.map_some, SealedBuffer.content,
      hmove.batches, hmove.maxLsn]
    rfl

theorem Advances.content (h : Advances bs bs') (hlen : bs'.length = bs.length) :
    bs'.map SealedBuffer.content = bs.map SealedBuffer.content := by
  have hall := h.content_take
  rwa [take_of_length_le hlen.le] at hall

end Coverage

/-! ## The invariant of the driver -/

/-- What `written_lsn` promises of a buffer: io_uring publishes it for submitted
buffers, because a completion may be taken for an earlier one of the same LSN; the
backends with one write at a time publish it for written ones. -/
def PublishedWritten (backend : Backend) (_ : Nat) (b : SealedBuffer) : Prop :=
  match backend with
  | .ioUring => b.phase ≠ .pending
  | .fdatasync => b.phase.written = true
  | .pwritev2Dsync => b.phase.written = true

theorem keeps_publishedWritten (backend : Backend) : Keeps (PublishedWritten backend) := by
  cases backend with
  | ioUring => exact keeps_submitted
  | fdatasync => exact keeps_written
  | pwritev2Dsync => exact keeps_written

theorem publishedWritten_of_ne {backend : Backend} (h : backend ≠ .ioUring) (i : Nat)
    (b : SealedBuffer) : PublishedWritten backend i b ↔ b.phase.written = true := by
  cases backend with
  | ioUring => exact absurd rfl h
  | fdatasync => exact Iff.rfl
  | pwritev2Dsync => exact Iff.rfl

structure Numbers (backend : Backend) (init : Nat) (sh : Shard) : Prop where
  entries : ∀ e ∈ sh.submittedWrites.entries,
    Covered init (fun _ b => b.phase ≠ .pending) sh.sealedBuffers e.maxLsn
  highWater : Covered init (PublishedWritten backend) sh.sealedBuffers
    sh.submittedWrites.highWaterLsn
  publishWritten : ∀ v ∈ sh.publishWritten,
    Covered init (PublishedWritten backend) sh.sealedBuffers v
  writtenLsn : Covered init (PublishedWritten backend) sh.sealedBuffers sh.writtenLsn
  sync : ∀ y, sh.sync = some y → Covered init (fun i _ => i ∈ y.covers) sh.sealedBuffers y.target
  publishDurable : ∀ v ∈ sh.publishDurable,
    Covered init (fun _ b => b.synced = true) sh.sealedBuffers v
  durableLsn : Covered init (fun _ b => b.synced = true) sh.sealedBuffers sh.durableLsn

theorem Numbers.advance {backend : Backend} {init : Nat} {sh : Shard} {bs : List SealedBuffer}
    (h : Numbers backend init sh) (hadv : Advances sh.sealedBuffers bs) :
    Numbers backend init { sh with sealedBuffers := bs } where
  entries e he := (h.entries e he).advance hadv keeps_submitted
  highWater := h.highWater.advance hadv (keeps_publishedWritten backend)
  publishWritten v hv := (h.publishWritten v hv).advance hadv (keeps_publishedWritten backend)
  writtenLsn := h.writtenLsn.advance hadv (keeps_publishedWritten backend)
  sync y hy := (h.sync y hy).advance hadv (keeps_place (· ∈ y.covers))
  publishDurable v hv := (h.publishDurable v hv).advance hadv keeps_synced
  durableLsn := h.durableLsn.advance hadv keeps_synced

/-- With one write at a time, the queue of submitted writes is the buffer that is
being written, if any. -/
def OneWrite (sh : Shard) : Prop :=
  (sh.writesInProgress = 0 ∧ sh.submittedWrites.entries = [] ∧
    ∀ b ∈ sh.sealedBuffers, b.phase = .pending ∨ b.phase = .returned) ∨
  (sh.writesInProgress = 1 ∧ ∃ (j : Nat) (b : SealedBuffer), sh.sealedBuffers[j]? = some b ∧
    (b.phase = .inFlight ∨ b.phase = .onDisk) ∧
    sh.submittedWrites.entries = [⟨b.maxLsn, false⟩] ∧
    ∀ (i : Nat) (x : SealedBuffer), sh.sealedBuffers[i]? = some x → i ≠ j →
      x.phase = .pending ∨ x.phase = .returned)

def InFileOrder (bs : List SealedBuffer) : Prop :=
  ∀ (i j : Nat) (b b' : SealedBuffer), i ≤ j → bs[i]? = some b → bs[j]? = some b' →
    b'.phase ≠ .pending → b.phase ≠ .pending

def AllWritten (bs : List SealedBuffer) (places : List Nat) : Prop :=
  ∀ i ∈ places, ∃ b : SealedBuffer, bs[i]? = some b ∧ b.phase.written = true

theorem AllWritten.advance {bs bs' : List SealedBuffer} {places : List Nat}
    (h : AllWritten bs places) (hadv : Advances bs bs') : AllWritten bs' places := by
  intro i hi
  obtain ⟨b, hb, hw⟩ := h i hi
  obtain ⟨b', hb', hmove⟩ := hadv.old i b hb
  exact ⟨b', hb', hmove.written hw⟩

structure DriverInv (cfg : Config) (init : Nat) (sh : Shard) : Prop where
  numbers : Numbers cfg.backend init sh
  fileOrder : InFileOrder sh.sealedBuffers
  oneWrite : cfg.backend ≠ .ioUring → OneWrite sh
  dsync : cfg.backend = .pwritev2Dsync →
    ∀ b ∈ sh.sealedBuffers, b.phase.written = true → b.synced = true
  syncedWritten : ∀ b ∈ sh.sealedBuffers, b.synced = true → b.phase.written = true
  syncWritten : cfg.backend ≠ .ioUring → ∀ y, sh.sync = some y →
    AllWritten sh.sealedBuffers y.covers

/-- A step of the driver leaves the contents of the buffers and `appended_lsn`
alone. -/
structure Quiet (sh sh' : Shard) : Prop where
  active : sh'.active = sh.active
  content : sh'.sealedBuffers.map SealedBuffer.content = sh.sealedBuffers.map SealedBuffer.content
  appendedLsn : sh'.appendedLsn = sh.appendedLsn

section Driver

variable {cfg : Config} {init : Nat} {sh sh' : Shard}

theorem DriverInv.new (cfg : Config) (maxLsn : Nat) :
    DriverInv cfg maxLsn (Shard.new cfg maxLsn) where
  numbers := {
    entries := by simp [Shard.new]
    highWater := .inl le_rfl
    publishWritten := by simp [Shard.new]
    writtenLsn := .inl le_rfl
    sync := by simp [Shard.new]
    publishDurable := by simp [Shard.new]
    durableLsn := .inl le_rfl }
  fileOrder := by simp [InFileOrder, Shard.new]
  oneWrite _ := .inl (by simp [Shard.new])
  dsync _ := by simp [Shard.new]
  syncedWritten := by simp [Shard.new]
  syncWritten _ := by simp [Shard.new]

/-- In file order, the end of a submitted buffer covers submitted buffers. -/
theorem InFileOrder.covered {bs : List SealedBuffer} (h : InFileOrder bs) {j : Nat}
    {b : SealedBuffer} (hj : bs[j]? = some b) (hb : b.phase ≠ .pending) :
    Covered init (fun _ b => b.phase ≠ .pending) bs b.maxLsn :=
  .inr ⟨j, b, hj, le_rfl, fun i hi x hx => h i j x b hi hx hj hb⟩

theorem popPending_spec {bs bs' : List SealedBuffer} {maxLsn : Nat}
    (h : Shard.popPending bs = some (bs', maxLsn)) :
    ∃ (k : Nat) (b : SealedBuffer), bs[k]? = some b ∧ b.phase = .pending ∧ b.maxLsn = maxLsn ∧
      bs' = bs.set k { b with phase := .inFlight } ∧
      ∀ i < k, ∀ x : SealedBuffer, bs[i]? = some x → x.phase ≠ .pending := by
  induction bs generalizing bs' with
  | nil => cases h
  | cons b bs ih =>
    unfold Shard.popPending at h
    split at h
    · rename_i hb
      cases h
      exact ⟨0, b, rfl, hb, rfl, rfl, by simp⟩
    rename_i hb
    obtain ⟨⟨rest, m⟩, hrest, heq⟩ := Option.map_eq_some_iff.mp h
    cases heq
    obtain ⟨k, x, hk, hpending, hmax, hset, hbefore⟩ := ih hrest
    refine ⟨k + 1, x, by simpa using hk, hpending, hmax, by simp [hset], ?_⟩
    intro i hi y hy
    cases i with
    | zero =>
      cases hy
      exact hb
    | succ i => exact hbefore i (by omega) y (by simpa using hy)

theorem InFileOrder.set {bs : List SealedBuffer} (h : InFileOrder bs) {k : Nat}
    {b' : SealedBuffer} (hb' : b'.phase ≠ .pending)
    (hbefore : ∀ i < k, ∀ x : SealedBuffer, bs[i]? = some x → x.phase ≠ .pending) :
    InFileOrder (bs.set k b') := by
  intro i j x y hij hx hy hy'
  by_cases hik : i = k
  · subst hik
    have hlt := (List.getElem?_eq_some_iff.mp hx).1
    rw [length_set] at hlt
    rw [List.getElem?_set_self hlt] at hx
    cases hx
    exact hb'
  · rw [List.getElem?_set_ne (Ne.symm hik)] at hx
    by_cases hjk : j = k
    · exact hbefore i (by omega) x hx
    · rw [List.getElem?_set_ne (Ne.symm hjk)] at hy
      exact h i j x y hij hx hy hy'

theorem InFileOrder.before {bs : List SealedBuffer} (h : InFileOrder bs) {k : Nat}
    {b : SealedBuffer} (hk : bs[k]? = some b) (hb : b.phase ≠ .pending) :
    ∀ i < k, ∀ x : SealedBuffer, bs[i]? = some x → x.phase ≠ .pending :=
  fun i hi x hx => h i k x b hi.le hx hk hb

theorem InFileOrder.append {bs new : List SealedBuffer} (h : InFileOrder bs)
    (hnew : ∀ b ∈ new, b.phase = .pending) : InFileOrder (bs ++ new) := by
  intro i j x y hij hx hy hy'
  have hlt : j < bs.length := by
    by_contra hle
    rw [List.getElem?_append_right (by omega)] at hy
    exact hy' (hnew y (mem_of_getElem? hy))
  rw [List.getElem?_append_left (by omega)] at hx
  rw [List.getElem?_append_left hlt] at hy
  exact h i j x y hij hx hy hy'

theorem DriverInv.extend {done : List Piece} (h : DriverInv cfg init sh)
    (hext : Extends sh sh' done) : DriverInv cfg init sh' := by
  obtain ⟨new, hbs, hnew⟩ := hext.sealed
  have hadv : Advances sh.sealedBuffers sh'.sealedBuffers := by
    rw [hbs]
    exact .append hnew
  have hnumbers := h.numbers.advance hadv
  have hdriver := hext.driver
  simp only [Shard.driver, Prod.mk.injEq] at hdriver
  obtain ⟨hsub, hwip, -, hwritten, hdurable, hpubw, hpubd, hsync⟩ := hdriver
  have hold : ∀ b ∈ sh'.sealedBuffers, b ∈ sh.sealedBuffers ∨
      b.phase = .pending ∧ b.synced = false := by
    intro b hb
    rw [hbs, mem_append] at hb
    exact hb.imp_right (hnew b)
  refine ⟨?_, ?_, ?_, ?_, ?_, ?_⟩
  · constructor
    · rw [hsub]
      exact hnumbers.entries
    · rw [hsub]
      exact hnumbers.highWater
    · rw [hpubw]
      exact hnumbers.publishWritten
    · rw [hwritten]
      exact hnumbers.writtenLsn
    · rw [hsync]
      exact hnumbers.sync
    · rw [hpubd]
      exact hnumbers.publishDurable
    · rw [hdurable]
      exact hnumbers.durableLsn
  · rw [hbs]
    exact h.fileOrder.append fun b hb => (hnew b hb).1
  · intro hbackend
    rcases h.oneWrite hbackend with ⟨h₁, h₂, h₃⟩ | ⟨h₁, j, b, hj, hb, h₂, h₃⟩
    · refine .inl ⟨by rw [hwip, h₁], by rw [hsub, h₂], ?_⟩
      intro b hb
      rcases hold b hb with hb | hb
      · exact h₃ b hb
      · exact .inl hb.1
    have hlt := (List.getElem?_eq_some_iff.mp hj).1
    refine .inr ⟨by rw [hwip, h₁], j, b, ?_, hb, by rw [hsub, h₂], ?_⟩
    · rw [hbs, List.getElem?_append_left hlt, hj]
    · intro i x hx hij
      by_cases hi : i < sh.sealedBuffers.length
      · rw [hbs, List.getElem?_append_left hi] at hx
        exact h₃ i x hx hij
      · exact .inl (hadv.new i x hx (by omega)).1
  · intro hbackend b hb hwr
    rcases hold b hb with hb | hb
    · exact h.dsync hbackend b hb hwr
    · rw [hb.1] at hwr
      cases hwr
  · intro b hb hs
    rcases hold b hb with hb | hb
    · exact h.syncedWritten b hb hs
    · rw [hb.2] at hs
      cases hs
  · rw [hsync]
    exact fun hbackend y hy => (h.syncWritten hbackend y hy).advance hadv

/-! ### Submitting, writing and completing -/

theorem Shard.submit_spec (h : sh.submit cfg = some sh') :
    sh.writesInProgress < cfg.backend.maxInFlightWrites ∧
    ∃ (k : Nat) (b : SealedBuffer), sh.sealedBuffers[k]? = some b ∧ b.phase = .pending ∧
      (∀ i < k, ∀ x : SealedBuffer, sh.sealedBuffers[i]? = some x → x.phase ≠ .pending) ∧
      sh' = { sh with
        sealedBuffers := sh.sealedBuffers.set k { b with phase := .inFlight }
        submittedWrites := sh.submittedWrites.push b.maxLsn
        writesInProgress := sh.writesInProgress + 1 } := by
  unfold Shard.submit at h
  split at h
  · rename_i hroom
    obtain ⟨⟨bs, m⟩, hpop, heq⟩ := Option.map_eq_some_iff.mp h
    obtain ⟨k, b, hk, hpending, rfl, rfl, hbefore⟩ := popPending_spec hpop
    exact ⟨hroom, k, b, hk, hpending, hbefore, heq.symm⟩
  · cases h

theorem Quiet.submit (hsubmit : sh.submit cfg = some sh') : Quiet sh sh' := by
  obtain ⟨-, k, b, hk, hpending, -, rfl⟩ := Shard.submit_spec hsubmit
  have hmove : MovesOn b { b with phase := .inFlight } :=
    ⟨rfl, rfl, fun _ => by simp, fun hw => by simp [hpending, Phase.written] at hw, id⟩
  exact ⟨rfl, (Advances.set hk hmove).content (by simp), rfl⟩

theorem DriverInv.submit (h : DriverInv cfg init sh) (hsubmit : sh.submit cfg = some sh') :
    DriverInv cfg init sh' := by
  obtain ⟨hroom, k, b, hk, hpending, hbefore, rfl⟩ := Shard.submit_spec hsubmit
  set b' : SealedBuffer := { b with phase := .inFlight } with hb'
  have hlt := (List.getElem?_eq_some_iff.mp hk).1
  have hmem : b ∈ sh.sealedBuffers := mem_of_getElem? hk
  have hunsynced : b.synced = false := by
    cases hs : b.synced with
    | false => rfl
    | true =>
      have := h.syncedWritten b hmem hs
      rw [hpending] at this
      cases this
  have hadv : Advances sh.sealedBuffers (sh.sealedBuffers.set k b') :=
    .set hk ⟨rfl, rfl, fun _ => by simp [hb'], fun hw => by simp [hpending, Phase.written] at hw,
      id⟩
  have hnumbers := h.numbers.advance hadv
  have horder : InFileOrder (sh.sealedBuffers.set k b') :=
    h.fileOrder.set (by simp [hb']) hbefore
  refine ⟨⟨?_, hnumbers.highWater, hnumbers.publishWritten, hnumbers.writtenLsn, hnumbers.sync,
    hnumbers.publishDurable, hnumbers.durableLsn⟩, horder, ?_, ?_, ?_, ?_⟩
  · intro e he
    rcases mem_append.mp he with he | he
    · exact hnumbers.entries e he
    · rw [mem_singleton.mp he]
      exact horder.covered (b := b') (List.getElem?_set_self hlt) (by simp [hb'])
  · intro hbackend
    have hmax : cfg.backend.maxInFlightWrites = 1 := by
      cases hcfg : cfg.backend <;> simp_all [Backend.maxInFlightWrites]
    rcases h.oneWrite hbackend with ⟨h₁, h₂, h₃⟩ | ⟨h₁, -⟩
    · refine .inr ⟨by simp [h₁], k, b', List.getElem?_set_self hlt, .inl rfl, ?_, ?_⟩
      · simp [SubmittedWrites.push, h₂, hb']
      · intro i x hx hik
        rw [List.getElem?_set_ne (Ne.symm hik)] at hx
        exact h₃ x (mem_of_getElem? hx)
    · omega
  · intro hbackend x hx hw
    rcases mem_or_eq_of_mem_set hx with hx | rfl
    · exact h.dsync hbackend x hx hw
    · cases hw
  · intro x hx hs
    rcases mem_or_eq_of_mem_set hx with hx | rfl
    · exact h.syncedWritten x hx hs
    · simp [hb', hunsynced] at hs
  · exact fun hbackend y hy => (h.syncWritten hbackend y hy).advance hadv

theorem Shard.diskWrite_spec {k : Nat} (h : sh.diskWrite cfg k = some sh') :
    ∃ b : SealedBuffer, sh.sealedBuffers[k]? = some b ∧ b.phase = .inFlight ∧
      sh' = { sh with sealedBuffers := sh.sealedBuffers.set k ({ b with
        phase := .onDisk
        synced := b.synced || cfg.backend = .pwritev2Dsync }) } := by
  unfold Shard.diskWrite at h
  split at h
  · rename_i b hb
    split at h
    · rename_i hphase
      cases h
      exact ⟨b, hb, hphase, rfl⟩
    · cases h
  · cases h

theorem Quiet.diskWrite {k : Nat} (hwrite : sh.diskWrite cfg k = some sh') : Quiet sh sh' := by
  obtain ⟨b, hk, -, rfl⟩ := Shard.diskWrite_spec hwrite
  have hmove : MovesOn b { b with
      phase := .onDisk, synced := b.synced || cfg.backend = .pwritev2Dsync } :=
    ⟨rfl, rfl, fun _ => by simp, fun _ => rfl, fun hs => by simp [hs]⟩
  exact ⟨rfl, (Advances.set hk hmove).content (by simp), rfl⟩

theorem DriverInv.diskWrite {k : Nat} (h : DriverInv cfg init sh)
    (hwrite : sh.diskWrite cfg k = some sh') : DriverInv cfg init sh' := by
  obtain ⟨b, hk, hphase, rfl⟩ := Shard.diskWrite_spec hwrite
  set b' : SealedBuffer := { b with
    phase := .onDisk, synced := b.synced || cfg.backend = .pwritev2Dsync } with hb'
  have hlt := (List.getElem?_eq_some_iff.mp hk).1
  have hadv : Advances sh.sealedBuffers (sh.sealedBuffers.set k b') :=
    .set hk ⟨rfl, rfl, fun _ => by simp [hb'], fun _ => rfl, fun hs => by simp [hb', hs]⟩
  have hnumbers := h.numbers.advance hadv
  refine ⟨⟨hnumbers.entries, hnumbers.highWater, hnumbers.publishWritten, hnumbers.writtenLsn,
    hnumbers.sync, hnumbers.publishDurable, hnumbers.durableLsn⟩,
    h.fileOrder.set (by simp [hb']) (h.fileOrder.before hk (by simp [hphase])), ?_, ?_, ?_, ?_⟩
  · intro hbackend
    rcases h.oneWrite hbackend with ⟨-, -, h₃⟩ | ⟨h₁, j, x, hj, -, h₂, h₃⟩
    · have := h₃ b (mem_of_getElem? hk)
      simp [hphase] at this
    by_cases hkj : k = j
    · subst hkj
      rw [hk] at hj
      cases hj
      refine .inr ⟨h₁, k, b', List.getElem?_set_self hlt, .inr rfl, h₂, ?_⟩
      intro i x hx hik
      rw [List.getElem?_set_ne (Ne.symm hik)] at hx
      exact h₃ i x hx hik
    · have := h₃ k b hk hkj
      simp [hphase] at this
  · intro hbackend x hx hw
    rcases mem_or_eq_of_mem_set hx with hx | rfl
    · exact h.dsync hbackend x hx hw
    · simp [hb', hbackend]
  · intro x hx hs
    rcases mem_or_eq_of_mem_set hx with hx | rfl
    · exact h.syncedWritten x hx hs
    · rfl
  · exact fun hbackend y hy => (h.syncWritten hbackend y hy).advance hadv

theorem mark_maxLsn {m : Nat} {es es' : List SubmittedWrite}
    (h : SubmittedWrites.mark m es = some es') :
    es'.map SubmittedWrite.maxLsn = es.map SubmittedWrite.maxLsn := by
  induction es generalizing es' with
  | nil => cases h
  | cons e es ih =>
    unfold SubmittedWrites.mark at h
    split at h
    · cases h
      rfl
    · obtain ⟨rest, hrest, rfl⟩ := Option.map_eq_some_iff.mp h
      simp [ih hrest]

theorem popCompleted_spec {P : Nat → Prop} (hmax : ∀ a b, P a → P b → P (max a b))
    {es : List SubmittedWrite} (hes : ∀ e ∈ es, P e.maxLsn) {high : Nat} (hhigh : P high) :
    P (SubmittedWrites.popCompleted es high).highWaterLsn ∧
      ∀ e ∈ (SubmittedWrites.popCompleted es high).entries, e ∈ es := by
  induction es generalizing high with
  | nil => exact ⟨hhigh, fun e he => he⟩
  | cons e es ih =>
    unfold SubmittedWrites.popCompleted
    split
    · have hrest := ih (fun x hx => hes x (mem_cons_of_mem _ hx))
        (hmax high e.maxLsn hhigh (hes e mem_cons_self))
      exact ⟨hrest.1, fun x hx => mem_cons_of_mem _ (hrest.2 x hx)⟩
    · exact ⟨hhigh, fun x hx => hx⟩

/-- A completion publishes a number that every entry of the queue justifies. -/
theorem SubmittedWrites.complete_spec {P : Nat → Prop} (hmax : ∀ a b, P a → P b → P (max a b))
    {w w' : SubmittedWrites} {m : Nat} {contiguous : Option Nat}
    (h : w.complete m = some (w', contiguous)) (hentries : ∀ e ∈ w.entries, P e.maxLsn)
    (hhigh : P w.highWaterLsn) :
    P w'.highWaterLsn ∧ (∀ v ∈ contiguous, P v) ∧
      ∀ e ∈ w'.entries, ∃ e₀ ∈ w.entries, e₀.maxLsn = e.maxLsn := by
  obtain ⟨es, hmark, heq⟩ := Option.map_eq_some_iff.mp h
  have hlsns := mark_maxLsn hmark
  have hback : ∀ e ∈ es, ∃ e₀ ∈ w.entries, e₀.maxLsn = e.maxLsn := by
    intro e he
    have hin : e.maxLsn ∈ es.map SubmittedWrite.maxLsn := mem_map_of_mem he
    rw [hlsns] at hin
    exact mem_map.mp hin
  have hes : ∀ e ∈ es, P e.maxLsn := by
    intro e he
    obtain ⟨e₀, he₀, hlsn⟩ := hback e he
    rw [← hlsn]
    exact hentries e₀ he₀
  obtain ⟨hpop, hsub⟩ := popCompleted_spec hmax hes hhigh
  obtain ⟨rfl, rfl⟩ := heq
  refine ⟨hpop, ?_, fun e he => hback e (hsub e he)⟩
  intro v hv
  split at hv
  · cases hv
    exact hpop
  · cases hv

theorem Shard.complete_spec {k : Nat} (h : sh.complete cfg k = some sh') :
    ∃ (b : SealedBuffer) (w : SubmittedWrites) (contiguous : Option Nat),
      sh.sealedBuffers[k]? = some b ∧ b.phase = .onDisk ∧
      sh.submittedWrites.complete b.maxLsn = some (w, contiguous) ∧
      sh' = { sh with
        sealedBuffers := sh.sealedBuffers.set k ({ b with phase := .returned })
        submittedWrites := w
        spareBuffers := sh.spareBuffers + 1
        nextBufferEpoch := sh.nextBufferEpoch + 1
        writesInProgress := sh.writesInProgress - 1
        publishWritten := contiguous.toList ++ sh.publishWritten
        publishDurable :=
          (if cfg.backend = .pwritev2Dsync then [b.maxLsn] else []) ++ sh.publishDurable } := by
  unfold Shard.complete at h
  split at h
  · rename_i b hb
    split at h
    · rename_i hphase
      obtain ⟨⟨w, contiguous⟩, hw, heq⟩ := Option.map_eq_some_iff.mp h
      exact ⟨b, w, contiguous, hb, hphase, hw, heq.symm⟩
    · cases h
  · cases h

theorem Quiet.complete {k : Nat} (hcomplete : sh.complete cfg k = some sh') : Quiet sh sh' := by
  obtain ⟨b, w, contiguous, hk, -, -, rfl⟩ := Shard.complete_spec hcomplete
  have hmove : MovesOn b { b with phase := .returned } :=
    ⟨rfl, rfl, fun _ => by simp, fun _ => rfl, id⟩
  exact ⟨rfl, (Advances.set hk hmove).content (by simp), rfl⟩

/-- With one write at a time, everything up to the buffer that completes is on
disk. -/
theorem OneWrite.covered (init : Nat) (h : OneWrite sh)
    (horder : InFileOrder sh.sealedBuffers) {k : Nat} {b : SealedBuffer}
    (hk : sh.sealedBuffers[k]? = some b) (hphase : b.phase = .onDisk) :
    Covered init (fun _ b => b.phase.written = true) sh.sealedBuffers b.maxLsn ∧
      sh.writesInProgress = 1 ∧ sh.submittedWrites.entries = [⟨b.maxLsn, false⟩] ∧
      ∀ (i : Nat) (x : SealedBuffer), sh.sealedBuffers[i]? = some x → i ≠ k →
        x.phase = .pending ∨ x.phase = .returned := by
  rcases h with ⟨-, -, h₃⟩ | ⟨h₁, j, x, hj, -, h₂, h₃⟩
  · have := h₃ b (mem_of_getElem? hk)
    simp [hphase] at this
  have hkj : k = j := by
    by_contra hne
    have := h₃ k b hk hne
    simp [hphase] at this
  subst hkj
  rw [hk] at hj
  cases hj
  refine ⟨.inr ⟨k, b, hk, le_rfl, ?_⟩, h₁, h₂, h₃⟩
  intro i hi y hy
  by_cases hik : i = k
  · subst hik
    rw [hk] at hy
    cases hy
    rw [hphase]
    rfl
  · have hsub := horder i k y b hi hy hk (by simp [hphase])
    rcases h₃ i y hy hik with hp | hp
    · exact absurd hp hsub
    · rw [hp]
      rfl

theorem DriverInv.complete {k : Nat} (h : DriverInv cfg init sh)
    (hcomplete : sh.complete cfg k = some sh') : DriverInv cfg init sh' := by
  obtain ⟨b, w, contiguous, hk, hphase, hw, rfl⟩ := Shard.complete_spec hcomplete
  set b' : SealedBuffer := { b with phase := .returned } with hb'
  have hlt := (List.getElem?_eq_some_iff.mp hk).1
  have hmove : MovesOn b b' := ⟨rfl, rfl, fun _ => by simp [hb'], fun _ => rfl, id⟩
  have hadv : Advances sh.sealedBuffers (sh.sealedBuffers.set k b') := .set hk hmove
  have hnumbers := h.numbers.advance hadv
  -- every entry of the queue covers what `written_lsn` promises
  have hentries : ∀ e ∈ sh.submittedWrites.entries,
      Covered init (PublishedWritten cfg.backend) (sh.sealedBuffers.set k b') e.maxLsn := by
    intro e he
    by_cases hbackend : cfg.backend = .ioUring
    · rw [hbackend]
      exact hnumbers.entries e he
    · obtain ⟨hcov, -, hone, -⟩ := (h.oneWrite hbackend).covered init h.fileOrder hk hphase
      rw [hone] at he
      rw [mem_singleton.mp he]
      refine (hcov.advance hadv keeps_written).imp ?_
      exact fun i x _ hx => (publishedWritten_of_ne hbackend i x).mpr hx
  obtain ⟨hhigh, hcont, hback⟩ := SubmittedWrites.complete_spec
    (fun _ _ => Covered.max) hw hentries hnumbers.highWater
  refine ⟨⟨?_, hhigh, ?_, hnumbers.writtenLsn, hnumbers.sync, ?_, hnumbers.durableLsn⟩,
    h.fileOrder.set (by simp [hb']) (h.fileOrder.before hk (by simp [hphase])), ?_, ?_, ?_, ?_⟩
  · intro e he
    obtain ⟨e₀, he₀, hlsn⟩ := hback e he
    rw [← hlsn]
    exact hnumbers.entries e₀ he₀
  · intro v hv
    rcases mem_append.mp hv with hv | hv
    · exact hcont v (by simpa using hv)
    · exact hnumbers.publishWritten v hv
  · intro v hv
    rcases mem_append.mp hv with hv | hv
    · split at hv
      · rename_i hbackend
        rw [mem_singleton.mp hv]
        have hne : cfg.backend ≠ .ioUring := by simp [hbackend]
        obtain ⟨hcov, -⟩ := (h.oneWrite hne).covered init h.fileOrder hk hphase
        refine (hcov.imp ?_).advance hadv keeps_synced
        exact fun i x hx hwr => h.dsync hbackend x (mem_of_getElem? hx) hwr
      · cases hv
    · exact hnumbers.publishDurable v hv
  · intro hbackend
    obtain ⟨-, hwip, hone, hothers⟩ :=
      (h.oneWrite hbackend).covered init h.fileOrder hk hphase
    refine .inl ⟨by simp [hwip], ?_, ?_⟩
    · simp only [SubmittedWrites.complete, hone, SubmittedWrites.mark, Option.map_some,
        Option.some.injEq, Prod.mk.injEq, and_self, if_true] at hw
      rw [← hw.1]
      simp [SubmittedWrites.popCompleted]
    intro x hx
    obtain ⟨i, hi⟩ := mem_iff_getElem?.mp hx
    by_cases hik : i = k
    · subst hik
      rw [List.getElem?_set_self hlt] at hi
      cases hi
      exact .inr rfl
    · rw [List.getElem?_set_ne (Ne.symm hik)] at hi
      exact hothers i x hi hik
  · intro hbackend x hx hwr
    rcases mem_or_eq_of_mem_set hx with hx | rfl
    · exact h.dsync hbackend x hx hwr
    · exact h.dsync hbackend b (mem_of_getElem? hk) (by rw [hphase]; rfl)
  · intro x hx hs
    rcases mem_or_eq_of_mem_set hx with hx | rfl
    · exact h.syncedWritten x hx hs
    · rfl
  · exact fun hbackend y hy => (h.syncWritten hbackend y hy).advance hadv

/-! ### Publishing and syncing -/

theorem Quiet.storeWritten {lsn : Nat} (hstore : sh.storeWritten lsn = some sh') :
    Quiet sh sh' := by
  unfold Shard.storeWritten at hstore
  split at hstore
  · cases hstore
    exact ⟨rfl, rfl, rfl⟩
  · cases hstore

theorem Quiet.storeDurable {lsn : Nat} (hstore : sh.storeDurable lsn = some sh') :
    Quiet sh sh' := by
  unfold Shard.storeDurable at hstore
  split at hstore
  · cases hstore
    exact ⟨rfl, rfl, rfl⟩
  · cases hstore

theorem DriverInv.storeWritten {lsn : Nat} (h : DriverInv cfg init sh)
    (hstore : sh.storeWritten lsn = some sh') : DriverInv cfg init sh' := by
  unfold Shard.storeWritten at hstore
  split at hstore
  · rename_i hmem
    cases hstore
    have hn := h.numbers
    refine ⟨⟨hn.entries, hn.highWater, ?_, hn.writtenLsn.max (hn.publishWritten lsn hmem), hn.sync,
      hn.publishDurable, hn.durableLsn⟩, h.fileOrder, h.oneWrite, h.dsync, h.syncedWritten,
      h.syncWritten⟩
    exact fun v hv => hn.publishWritten v (mem_of_mem_erase hv)
  · cases hstore

theorem DriverInv.storeDurable {lsn : Nat} (h : DriverInv cfg init sh)
    (hstore : sh.storeDurable lsn = some sh') : DriverInv cfg init sh' := by
  unfold Shard.storeDurable at hstore
  split at hstore
  · rename_i hmem
    cases hstore
    have hn := h.numbers
    refine ⟨⟨hn.entries, hn.highWater, hn.publishWritten, hn.writtenLsn, hn.sync, ?_,
      hn.durableLsn.max (hn.publishDurable lsn hmem)⟩, h.fileOrder, h.oneWrite, h.dsync,
      h.syncedWritten, h.syncWritten⟩
    exact fun v hv => hn.publishDurable v (mem_of_mem_erase hv)
  · cases hstore

theorem mem_placesWhere {test : SealedBuffer → Bool} {bs : List SealedBuffer} {i : Nat} :
    i ∈ Shard.placesWhere test bs ↔ ∃ b : SealedBuffer, bs[i]? = some b ∧ test b = true := by
  unfold Shard.placesWhere
  rw [mem_filter, mem_range]
  constructor
  · rintro ⟨hlt, htest⟩
    rw [List.getElem?_eq_getElem hlt] at htest ⊢
    exact ⟨bs[i], rfl, by simpa using htest⟩
  · rintro ⟨b, hb, htest⟩
    refine ⟨(List.getElem?_eq_some_iff.mp hb).1, ?_⟩
    rw [hb]
    simpa using htest

theorem Quiet.startSync (sh : Shard) (y : SyncInFlight) : Quiet sh { sh with sync := some y } :=
  ⟨rfl, rfl, rfl⟩

/-- A sync starts at the written LSN and covers every place that the LSN covers. -/
theorem DriverInv.startSync {y : SyncInFlight} (h : DriverInv cfg init sh)
    (htarget : y.target = sh.writtenLsn)
    (hcovers : ∀ (i : Nat) (b : SealedBuffer), sh.sealedBuffers[i]? = some b →
      PublishedWritten cfg.backend i b → i ∈ y.covers)
    (hwritten : cfg.backend ≠ .ioUring → AllWritten sh.sealedBuffers y.covers) :
    DriverInv cfg init { sh with sync := some y } := by
  have hn := h.numbers
  refine ⟨⟨hn.entries, hn.highWater, hn.publishWritten, hn.writtenLsn, ?_, hn.publishDurable,
    hn.durableLsn⟩, h.fileOrder, h.oneWrite, h.dsync, h.syncedWritten, ?_⟩
  · rintro _ ⟨⟩
    rw [htarget]
    exact hn.writtenLsn.imp hcovers
  · rintro hbackend _ ⟨⟩
    exact hwritten hbackend

theorem getElem?_finishSync (sh : Shard) (y : SyncInFlight) (i : Nat) :
    (sh.finishSync y).sealedBuffers[i]? = (sh.sealedBuffers[i]?).map fun b =>
      if i ∈ y.covers then { b with synced := true } else b := by
  simp [Shard.finishSync, List.getElem?_mapIdx]

theorem advances_finishSync (sh : Shard) (y : SyncInFlight) :
    Advances sh.sealedBuffers (sh.finishSync y).sealedBuffers := by
  constructor
  · intro i b hb
    refine ⟨_, by rw [getElem?_finishSync, hb, Option.map_some], ?_⟩
    split
    · exact ⟨rfl, rfl, id, id, fun _ => rfl⟩
    · exact .refl b
  · intro i b hb hle
    rw [getElem?_finishSync, List.getElem?_eq_none hle] at hb
    cases hb

theorem Quiet.finishSync (sh : Shard) (y : SyncInFlight) : Quiet sh (sh.finishSync y) :=
  ⟨rfl, (advances_finishSync sh y).content (by simp [Shard.finishSync]), rfl⟩

theorem mem_finishSync {y : SyncInFlight} {x : SealedBuffer}
    (hx : x ∈ (sh.finishSync y).sealedBuffers) :
    ∃ (i : Nat) (b : SealedBuffer), sh.sealedBuffers[i]? = some b ∧ x.phase = b.phase ∧
      (b.synced = true → x.synced = true) ∧ (x.synced = true → b.synced = true ∨ i ∈ y.covers) := by
  obtain ⟨i, hi⟩ := mem_iff_getElem?.mp hx
  rw [getElem?_finishSync] at hi
  obtain ⟨b, hb, rfl⟩ := Option.map_eq_some_iff.mp hi
  refine ⟨i, b, hb, ?_⟩
  by_cases hmem : i ∈ y.covers
  · simp [hmem]
  · simp [hmem]

theorem DriverInv.finishSync {y : SyncInFlight} (h : DriverInv cfg init sh)
    (hsync : sh.sync = some y)
    (hdrained : cfg.backend = .ioUring → AllWritten sh.sealedBuffers y.covers) :
    DriverInv cfg init (sh.finishSync y) := by
  have hadv := advances_finishSync sh y
  have hnumbers := h.numbers.advance hadv
  have hwritten : AllWritten sh.sealedBuffers y.covers := by
    by_cases hbackend : cfg.backend = .ioUring
    · exact hdrained hbackend
    · exact h.syncWritten hbackend y hsync
  -- the covered places are synced now
  have htarget : Covered init (fun _ b => b.synced = true) (sh.finishSync y).sealedBuffers
      y.target := by
    refine (hnumbers.sync y hsync).imp ?_
    intro i x hx hi
    rw [getElem?_finishSync] at hx
    obtain ⟨b, -, rfl⟩ := Option.map_eq_some_iff.mp hx
    simp [hi]
  refine ⟨⟨hnumbers.entries, hnumbers.highWater, hnumbers.publishWritten, hnumbers.writtenLsn,
    (by simp [Shard.finishSync]), ?_, hnumbers.durableLsn⟩, ?_, ?_, ?_, ?_,
    (by simp [Shard.finishSync])⟩
  · intro v hv
    rcases mem_cons.mp hv with rfl | hv
    · exact htarget
    · exact hnumbers.publishDurable v hv
  · intro i j x x' hij hx hx' hne
    rw [getElem?_finishSync] at hx hx'
    obtain ⟨b, hb, rfl⟩ := Option.map_eq_some_iff.mp hx
    obtain ⟨b', hb', rfl⟩ := Option.map_eq_some_iff.mp hx'
    have hold := h.fileOrder i j b b' hij hb hb' (by split at hne <;> exact hne)
    split
    · exact hold
    · exact hold
  · intro hbackend
    rcases h.oneWrite hbackend with ⟨h₁, h₂, h₃⟩ | ⟨h₁, j, b, hj, hb, h₂, h₃⟩
    · refine .inl ⟨h₁, h₂, ?_⟩
      intro x hx
      obtain ⟨i, b, hb, hphase, -⟩ := mem_finishSync hx
      rw [hphase]
      exact h₃ b (mem_of_getElem? hb)
    have hj' := getElem?_finishSync sh y j
    rw [hj, Option.map_some] at hj'
    refine .inr ⟨h₁, j, _, hj', ?_, ?_, ?_⟩
    · split
      · exact hb
      · exact hb
    · rw [show (sh.finishSync y).submittedWrites = sh.submittedWrites from rfl, h₂]
      split
      · rfl
      · rfl
    intro i x hx hij
    rw [getElem?_finishSync] at hx
    obtain ⟨b', hb', rfl⟩ := Option.map_eq_some_iff.mp hx
    have hold := h₃ i b' hb' hij
    split
    · exact hold
    · exact hold
  · intro hbackend x hx hw
    obtain ⟨i, b, hb, hphase, hkeep, -⟩ := mem_finishSync hx
    rw [hphase] at hw
    exact hkeep (h.dsync hbackend b (mem_of_getElem? hb) hw)
  intro x hx hs
  obtain ⟨i, b, hb, hphase, -, hfrom⟩ := mem_finishSync hx
  rw [hphase]
  rcases hfrom hs with hs | hi
  · exact h.syncedWritten b (mem_of_getElem? hb) hs
  · obtain ⟨b', hb', hw⟩ := hwritten i hi
    rw [hb] at hb'
    cases hb'
    exact hw

end Driver

/-! ## Steps of the driver in a whole WAL -/

section Frame

variable {sh sh' : Shard}

theorem Quiet.slots (h : Quiet sh sh') :
    sh'.sealedBuffers.map SealedBuffer.slots = sh.sealedBuffers.map SealedBuffer.slots := by
  have hslots : ∀ bs : List SealedBuffer, bs.map SealedBuffer.slots =
      (bs.map SealedBuffer.content).map fun c => c.1.reverse.flatMap List.reverse := by
    intro bs
    rw [map_map]
    rfl
  rw [hslots, hslots, h.content]

theorem Quiet.log (h : Quiet sh sh') : sh'.log = sh.log := by
  have hflat : sh'.sealedBuffers.flatMap SealedBuffer.slots =
      sh.sealedBuffers.flatMap SealedBuffer.slots := by
    rw [flatMap_def, flatMap_def, h.slots]
  simp only [Shard.log, hflat, h.active]

theorem Quiet.pieces (h : Quiet sh sh') : sh'.pieces = sh.pieces := by
  rw [Shard.pieces, Shard.pieces, h.log]

theorem Quiet.wf {ps : PageSize} (h : Quiet sh sh') (hwf : ShardWf ps sh) : ShardWf ps sh' := by
  refine ⟨by rw [h.active]; exact hwf.active, ?_⟩
  intro b hb slot hslot
  have hmem : b.slots ∈ sh.sealedBuffers.map SealedBuffer.slots := by
    rw [← h.slots]
    exact mem_map_of_mem hb
  obtain ⟨b₀, hb₀, heq⟩ := mem_map.mp hmem
  exact hwf.sealed b₀ hb₀ slot (heq ▸ hslot)

end Frame

def Action.isDriver : Action → Bool
  | .claim _ => false
  | .append _ _ => false
  | .resume _ => false
  | _ => true

section System

variable {su : Setup} {s s' : State}

theorem onShard_spec {i : Nat} {f : Shard → Option Shard} (h : s.onShard su i f = some s') :
    ∃ sh, f (s.shards i) = some sh ∧ s' = { s.setShard i sh with barrier := s.barrier } := by
  unfold State.onShard at h
  split at h
  · cases h
  · obtain ⟨sh, hsh, rfl⟩ := Option.map_eq_some_iff.mp h
    exact ⟨sh, hsh, rfl⟩

theorem forall_update {P : Nat → Shard → Prop} {shards : Nat → Shard} {i : Nat} {sh : Shard}
    (h : ∀ j, P j (shards j)) (hi : P i sh) (j : Nat) : P j (Function.update shards i sh j) := by
  by_cases hj : j = i
  · rw [hj, Function.update_self]
    exact hi
  · rw [Function.update_of_ne hj]
    exact h j

/-- What the driver leaves alone: the calls, and the log of every shard. -/
structure Frame (su : Setup) (s s' : State) : Prop where
  nextLsn : s'.nextLsn = s.nextLsn
  threads : s'.threads = s.threads
  appended : s'.appended = s.appended
  log : ∀ i, (s'.shards i).log = (s.shards i).log
  wf : ∀ i ps, ShardWf ps (s.shards i) → ShardWf ps (s'.shards i)

theorem Frame.setShard {i : Nat} {sh : Shard} (hlog : sh.log = (s.shards i).log)
    (hwf : ∀ ps, ShardWf ps (s.shards i) → ShardWf ps sh) (barrier : SyncBarrier) :
    Frame su s { s.setShard i sh with barrier := barrier } where
  nextLsn := rfl
  threads := rfl
  appended := rfl
  log := forall_update (P := fun j sh => sh.log = (s.shards j).log) (fun _ => rfl) hlog
  wf j ps := forall_update (P := fun j sh => ShardWf ps (s.shards j) → ShardWf ps sh)
    (fun _ h => h) (hwf ps) j

theorem Frame.quiet {i : Nat} {sh : Shard} (h : Quiet (s.shards i) sh) (barrier : SyncBarrier) :
    Frame su s { s.setShard i sh with barrier := barrier } :=
  .setShard h.log (fun _ => h.wf) barrier

theorem Frame.of_step {a : Action} (ha : a.isDriver = true) (hstep : step su s a = some s') :
    Frame su s s' := by
  cases a with simp only [Wal.step] at hstep
  | claim t => cases ha
  | append t p => cases ha
  | resume t => cases ha
  | sealActive i =>
    obtain ⟨sh, hsh, rfl⟩ := onShard_spec hstep
    exact .setShard (log_sealActive hsh) (fun _ h => h.sealActive hsh) s.barrier
  | submit i =>
    obtain ⟨sh, hsh, rfl⟩ := onShard_spec hstep
    exact .quiet (.submit hsh) s.barrier
  | diskWrite i k =>
    obtain ⟨sh, hsh, rfl⟩ := onShard_spec hstep
    exact .quiet (.diskWrite hsh) s.barrier
  | complete i k =>
    obtain ⟨sh, hsh, rfl⟩ := onShard_spec hstep
    exact .quiet (.complete hsh) s.barrier
  | storeWritten i lsn =>
    obtain ⟨sh, hsh, rfl⟩ := onShard_spec hstep
    exact .quiet (.storeWritten hsh) s.barrier
  | storeDurable i lsn =>
    obtain ⟨sh, hsh, rfl⟩ := onShard_spec hstep
    exact .quiet (.storeDurable hsh) s.barrier
  | syncStart i =>
    unfold State.syncStart at hstep
    simp only at hstep
    split at hstep
    · cases hstep
    split at hstep
    · cases hstep
      exact .quiet (.startSync _ _) s.barrier
    · split at hstep
      · cases hstep
        exact .quiet (.startSync _ _) _
      · cases hstep
        exact ⟨rfl, rfl, rfl, fun _ => rfl, fun _ _ h => h⟩
    · cases hstep
  | syncDone i =>
    unfold State.syncDone at hstep
    simp only at hstep
    split at hstep
    · cases hstep
    split at hstep
    · cases hstep
      exact .quiet (.finishSync _ _) s.barrier
    · split at hstep
      · cases hstep
        exact .quiet (.finishSync _ _) _
      · cases hstep
    · cases hstep

end System

end Pagebox.Wal
