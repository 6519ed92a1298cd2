import Pagebox.Storage.PageMutation

/-!
# Reported changes of slotted pages

`insert_with_mutation`, `remove_with_mutation` and `update_value_with_mutation`, on
any page: every byte that such a call changes is in the mutation it reports, so the
reported bytes of the new page turn the old page into the new one.
-/

namespace Pagebox.Storage

open Pagebox.Base SlottedPage List

variable {ps : PageSize}

def truncate16 (n : Nat) : Except Fault Nat := .ok (n % 2 ^ 16)

namespace SlottedPage

def insertWithMutation (p : SlottedPage ps) (slotId : Nat) (e : Entry) (m : PageMutation ps) :
    Except Fault (SlottedPage ps × PageMutation ps) := do
  let count := p.numSlots
  let compacted := p.freeSpace < slotSize + e.len
  let q ← p.insertWith truncate16 slotId e
  let m ← m.addRange 8 slottedHeaderSize
  let firstChangedSlot := if compacted then 0 else slotId
  let m ← m.addRange (slotPos firstChangedSlot) (slotPos (count + 1))
  let dataStart := q.dataOffset
  let dataEnd := if compacted then ps.bytes else dataStart + e.len
  if dataStart < dataEnd then do
    let m ← m.addRange dataStart dataEnd
    return (q, m)
  else return (q, m)

def removeWithMutation (p : SlottedPage ps) (slotId : Nat) (m : PageMutation ps) :
    Except Fault (SlottedPage ps × PageMutation ps) := do
  let count := p.numSlots
  let q ← p.remove slotId
  let m ← m.addRange 8 slottedHeaderSize
  if slotPos slotId < slotPos (count - 1) then do
    let m ← m.addRange (slotPos slotId) (slotPos (count - 1))
    return (q, m)
  else return (q, m)

def updateValueWithMutation (p : SlottedPage ps) (slotId : Nat) (value : Bytes)
    (m : PageMutation ps) : Except Fault (SlottedPage ps × PageMutation ps × Bool) := do
  let start := (p.slot slotId).offset + (p.slot slotId).keyLen
  let (q, updated) ← p.updateValue slotId value
  if updated ∧ 0 < (p.slot slotId).valLen then do
    let m ← m.addRange start (start + (p.slot slotId).valLen)
    return (q, m, true)
  else return (q, m, updated)

end SlottedPage

/-! ## Where the operations write -/

def ChangedWithin (s : Nat → Prop) (p q : SlottedPage ps) : Prop :=
  ∀ i, ¬s i → q.data.bytes[i]? = p.data.bytes[i]?

namespace ChangedWithin

variable {s s' : Nat → Prop} {p q r : SlottedPage ps}

theorem refl : ChangedWithin s p p := fun _ _ => rfl

theorem trans (h : ChangedWithin s p q) (h' : ChangedWithin s q r) : ChangedWithin s p r :=
  fun i hi => (h' i hi).trans (h i hi)

theorem mono (h : ChangedWithin s p q) (hsub : ∀ i, s i → s' i) : ChangedWithin s' p q :=
  fun i hi => h i fun hs => hi (hsub i hs)

theorem write {offset : Nat} {bytes : Bytes}
    (h : ∀ i, offset ≤ i → i < offset + bytes.length → s i) :
    ChangedWithin s p ⟨p.data.write offset bytes⟩ := by
  intro i hi
  by_cases hfit : offset + bytes.length ≤ ps.bytes
  · exact (Page.getElem?_write hfit i).trans (if_neg fun hin => hi (h i hin.1 hin.2))
  · simp only [Page.write, dif_neg hfit]

theorem writeNat {offset width n : Nat} (h : ∀ i, offset ≤ i → i < offset + width → s i) :
    ChangedWithin s p ⟨p.data.writeNat offset width n⟩ :=
  write (by rwa [length_leBytes])

theorem put {offset : Nat} {bytes : Bytes} (hput : p.put offset bytes = .ok q)
    (h : ∀ i, offset ≤ i → i < offset + bytes.length → s i) : ChangedWithin s p q := by
  unfold SlottedPage.put at hput
  split at hput
  · cases hput
    exact write h
  · cases hput

theorem moveSlots {src dst count : Nat}
    (h : ∀ i, slotPos dst ≤ i → i < slotPos (dst + (count - src)) → s i) :
    ChangedWithin s p (p.moveSlots src dst count) := by
  refine write fun i hlow hhigh => h i hlow ?_
  have hlen : (p.data.slice (slotPos src) (slotPos count)).length ≤
      slotPos count - slotPos src := by
    exact length_take_le ..
  have hsrc := slotPos_eq src
  have hcount := slotPos_eq count
  have hdst := slotPos_eq dst
  have hstop := slotPos_eq (dst + (count - src))
  omega

end ChangedWithin

theorem Fault.bind_eq_ok {α β : Type} {x : Except Fault α} {f : α → Except Fault β} {b : β}
    (h : (x >>= f) = .ok b) : ∃ a, x = .ok a ∧ f a = .ok b := by
  cases x with
  | error e => cases h
  | ok a => exact ⟨a, rfl, h⟩

theorem Fault.sub_eq_ok {a b c : Nat} (h : Fault.sub a b = .ok c) : b ≤ a ∧ c = a - b := by
  unfold Fault.sub at h
  split at h
  · cases h
    exact ⟨‹_›, rfl⟩
  · cases h

theorem Fault.fit_eq_ok {bits n c : Nat} (h : Fault.fit bits n = .ok c) : n < 2 ^ bits ∧ c = n := by
  unfold Fault.fit at h
  split at h
  · cases h
    exact ⟨‹_›, rfl⟩
  · cases h

theorem Fault.assert_eq_ok {b : Bool} {u : Unit} (h : Fault.assert b = .ok u) : b = true := by
  unfold Fault.assert at h
  split at h
  · assumption
  · cases h

theorem SlottedPage.put_eq_ok {p q : SlottedPage ps} {offset : Nat} {bytes : Bytes}
    (h : p.put offset bytes = .ok q) :
    offset + bytes.length ≤ ps.bytes ∧ q = ⟨p.data.write offset bytes⟩ := by
  unfold SlottedPage.put at h
  split at h
  · cases h
    exact ⟨‹_›, rfl⟩
  · cases h

def InHeader (i : Nat) : Prop := 8 ≤ i ∧ i < slottedHeaderSize

section

variable {p q : SlottedPage ps} {cast : Nat → Except Fault Nat} {s : Nat → Prop}

theorem changedWithin_header (hs : ∀ i, InHeader i → s i) {offset width n : Nat}
    (hoffset : 8 ≤ offset) (hstop : offset + width ≤ slottedHeaderSize) :
    ChangedWithin s p ⟨p.data.writeNat offset width n⟩ :=
  .writeNat fun i hlow hhigh => hs i ⟨hoffset.trans hlow, hhigh.trans_le hstop⟩

theorem changedWithin_setSlot {slotId : Nat} {slot : PageSlot}
    (hs : ∀ i, slotPos slotId ≤ i → i < slotPos (slotId + 1) → s i) :
    ChangedWithin s p (p.setSlot slotId slot) :=
  .write fun i hlow hhigh => hs i hlow (by rwa [length_slotBytes, ← slotPos_succ] at hhigh)

/-- `scatterWith` writes below `offset` and into the slots it passes. -/
theorem scatterWith_changes {tmp : SlottedPage ps} {lens : List Nat} {i offset stop : Nat}
    (h : scatterWith cast tmp i lens offset p = .ok (q, stop))
    (hheader : slottedHeaderSize + lens.sum ≤ offset) :
    stop + lens.sum = offset ∧ SameHeader q p ∧
      ChangedWithin (fun x => (slotPos i ≤ x ∧ x < slotPos (i + lens.length)) ∨
        (stop ≤ x ∧ x < offset)) p q := by
  induction lens generalizing i offset p with
  | nil =>
    cases h
    exact ⟨rfl, ⟨rfl, rfl, rfl⟩, .refl⟩
  | cons len lens ih =>
    rw [sum_cons] at hheader
    obtain ⟨offset', hsub, h⟩ := Fault.bind_eq_ok h
    obtain ⟨hle, rfl⟩ := Fault.sub_eq_ok hsub
    obtain ⟨p₁, hput, h⟩ := Fault.bind_eq_ok h
    obtain ⟨slotOffset, -, h⟩ := Fault.bind_eq_ok h
    obtain ⟨hstop, hsame, hchanged⟩ := ih h (by omega)
    obtain ⟨-, rfl⟩ := put_eq_ok hput
    have hlen : (tmp.data.slice (offset - len) (offset - len + len)).length ≤ len := by
      rw [Page.slice, length_take]
      omega
    refine ⟨by rw [sum_cons]; omega, ?_, ?_⟩
    · exact hsame.trans ((sameHeader_setSlotOffset ..).trans (sameHeader_write (by omega)))
    have hslot : slotPos i + 2 ≤ slotPos (i + 1) := by
      rw [slotPos_eq, slotPos_eq]
      omega
    have hnext : slotPos (i + 1) ≤ slotPos (i + (len :: lens).length) :=
      slotPos_le (by rw [length_cons]; omega)
    refine ChangedWithin.trans (q := ⟨p.data.write (offset - len) _⟩) (.write ?_)
      (.trans (.writeNat ?_) (hchanged.mono ?_))
    · intro x hlow hhigh
      exact .inr ⟨by omega, by omega⟩
    · intro x hlow hhigh
      exact .inl ⟨hlow, by omega⟩
    intro x hx
    rcases hx with ⟨hlow, hhigh⟩ | ⟨hlow, hhigh⟩
    · rw [show i + 1 + lens.length = i + (lens.length + 1) by omega] at hhigh
      exact .inl ⟨(slotPos_le (Nat.le_succ i)).trans hlow, hhigh⟩
    · exact .inr ⟨hlow, by omega⟩

/-- The lengths kept for the last loop add up to the live bytes. -/
theorem dataLens_sum {is : List Nat} {live : Nat} {lens : List Nat}
    (hlive : p.liveData is = .ok live) (hlens : p.dataLens is = .ok lens) :
    lens.sum = live ∧ lens.length = is.length := by
  induction is generalizing live lens with
  | nil =>
    cases hlive
    cases hlens
    exact ⟨rfl, rfl⟩
  | cons i is ih =>
    obtain ⟨-, -, hlive⟩ := Fault.bind_eq_ok hlive
    obtain ⟨rest, hrest, hlive⟩ := Fault.bind_eq_ok hlive
    obtain ⟨len, hlen, hlens⟩ := Fault.bind_eq_ok hlens
    obtain ⟨-, rfl⟩ := Fault.fit_eq_ok hlen
    obtain ⟨others, hothers, hlens⟩ := Fault.bind_eq_ok hlens
    cases hlive
    cases hlens
    obtain ⟨hsum, hlength⟩ := ih hrest hothers
    exact ⟨by rw [sum_cons, hsum], by rw [length_cons, length_cons, hlength]⟩

/-- Compaction changes the header, the slots and the bytes from its new data offset
on. -/
theorem compactifyWith_changes (h : p.compactifyWith cast = .ok q)
    (hroom : p.slotArrayEnd + p.spaceUsed ≤ ps.bytes) :
    q.numSlots = p.numSlots ∧ q.dataOffset = ps.bytes - p.spaceUsed ∧
      ChangedWithin (fun x => InHeader x ∨ (slotPos 0 ≤ x ∧ x < slotPos p.numSlots) ∨
        (ps.bytes - p.spaceUsed ≤ x ∧ x < ps.bytes)) p q := by
  have hle := PageSize.bytes_le ps
  have hend : slottedHeaderSize ≤ p.slotArrayEnd := header_le_slotPos _
  have hheader : ∀ (r : SlottedPage ps) (offset : Nat), ChangedWithin (fun x => InHeader x ∨
      (slotPos 0 ≤ x ∧ x < slotPos p.numSlots) ∨ (ps.bytes - p.spaceUsed ≤ x ∧ x < ps.bytes)) r
      (r.setDataOffset offset).clearGarbage := fun r offset =>
    .trans (changedWithin_header (fun _ => .inl) (by decide) (by decide))
      (changedWithin_header (fun _ => .inl) (by decide) (by decide))
  unfold compactifyWith at h
  split at h
  · obtain ⟨offset, hsub, h⟩ := Fault.bind_eq_ok h
    obtain ⟨-, rfl⟩ := Fault.sub_eq_ok hsub
    cases h
    refine ⟨?_, ?_, hheader p _⟩
    · rw [clearGarbage, sameHeader_setFlags.numSlots, numSlots_setDataOffset]
    · rw [clearGarbage, sameHeader_setFlags.dataOffset, dataOffset_setDataOffset (by omega)]
  obtain ⟨live, hlive, h⟩ := Fault.bind_eq_ok h
  obtain ⟨reserved, hreserved, h⟩ := Fault.bind_eq_ok h
  obtain ⟨hused, rfl⟩ := Fault.sub_eq_ok hreserved
  obtain ⟨start, hstart, h⟩ := Fault.bind_eq_ok h
  obtain ⟨-, rfl⟩ := Fault.sub_eq_ok hstart
  obtain ⟨tmp, -, h⟩ := Fault.bind_eq_ok h
  obtain ⟨lens, hlens, h⟩ := Fault.bind_eq_ok h
  obtain ⟨⟨r, stop⟩, hscatter, h⟩ := Fault.bind_eq_ok h
  cases h
  obtain ⟨hsum, hlength⟩ := dataLens_sum hlive hlens
  rw [length_range] at hlength
  obtain ⟨hstop, hsame, hchanged⟩ := scatterWith_changes hscatter (by omega)
  have hfinal : stop = ps.bytes - p.spaceUsed := by omega
  rw [Nat.zero_add, hlength] at hchanged
  refine ⟨?_, ?_, .trans (hchanged.mono ?_) (hheader r stop)⟩
  · rw [clearGarbage, sameHeader_setFlags.numSlots, numSlots_setDataOffset, hsame.numSlots]
  · rw [clearGarbage, sameHeader_setFlags.dataOffset, dataOffset_setDataOffset (by omega), hfinal]
  · rintro x (hx | hx)
    · exact .inr (.inl hx)
    · exact .inr (.inr ⟨by omega, by omega⟩)

/-- Inserting an entry changes the header, the slots from its own on and the bytes of
the entry. -/
theorem insertEntryWith_changes {slotId : Nat} {e : Entry}
    (h : p.insertEntryWith cast slotId e = .ok q)
    (hroom : slotPos (p.numSlots + 1) + e.len ≤ p.dataOffset) :
    q.dataOffset = p.dataOffset - e.len ∧ q.dataOffset + e.len ≤ ps.bytes ∧ slotId ≤ p.numSlots ∧
      ChangedWithin (fun x => InHeader x ∨ (slotPos slotId ≤ x ∧ x < slotPos (p.numSlots + 1)) ∨
        (q.dataOffset ≤ x ∧ x < q.dataOffset + e.len)) p q := by
  have hlow := header_le_slotPos (p.numSlots + 1)
  have hlen : e.len = e.key.length + e.value.length := rfl
  obtain ⟨offset, hsub, h⟩ := Fault.bind_eq_ok h
  obtain ⟨-, rfl⟩ := Fault.sub_eq_ok hsub
  obtain ⟨p₁, hkey, h⟩ := Fault.bind_eq_ok h
  obtain ⟨p₂, hvalue, h⟩ := Fault.bind_eq_ok h
  obtain ⟨hfits, hp₂⟩ := put_eq_ok hvalue
  obtain ⟨-, hp₁⟩ := put_eq_ok hkey
  have hcount : p₂.numSlots = p.numSlots := by
    rw [hp₂, (sameHeader_write (by omega)).numSlots, hp₁, (sameHeader_write (by omega)).numSlots]
  simp only [hcount] at h
  obtain ⟨newCount, hnew, h⟩ := Fault.bind_eq_ok h
  obtain ⟨-, rfl⟩ := Fault.fit_eq_ok hnew
  obtain ⟨u, hslot, h⟩ := Fault.bind_eq_ok h
  have hslot : slotId < p.numSlots + 1 := of_decide_eq_true (Fault.assert_eq_ok hslot)
  obtain ⟨slotOffset, -, h⟩ := Fault.bind_eq_ok h
  obtain ⟨keyLen, -, h⟩ := Fault.bind_eq_ok h
  obtain ⟨valLen, -, h⟩ := Fault.bind_eq_ok h
  obtain ⟨used, -, h⟩ := Fault.bind_eq_ok h
  cases h
  have hoffset : ∀ r : SlottedPage ps, ((r.setDataOffset (p.dataOffset - e.len)).setSpaceUsed
      used).dataOffset = p.dataOffset - e.len := by
    intro r
    have hle := PageSize.bytes_le ps
    rw [dataOffset_setSpaceUsed, dataOffset_setDataOffset (by omega)]
  simp only [hoffset]
  refine ⟨trivial, by omega, Nat.lt_succ_iff.mp hslot, ?_⟩
  refine .trans (.put hkey ?_) (.trans (.put hvalue ?_) (.trans (q := if slotId < p.numSlots then
    p₂.moveSlots slotId (slotId + 1) p.numSlots else p₂) ?_ (.trans
      (changedWithin_header (fun _ => .inl) (by decide) (by decide)) (.trans
        (changedWithin_setSlot ?_) (.trans
          (changedWithin_header (fun _ => .inl) (by decide) (by decide))
          (changedWithin_header (fun _ => .inl) (by decide) (by decide)))))))
  · intro x hx hx'
    exact .inr (.inr ⟨hx, by omega⟩)
  · intro x hx hx'
    exact .inr (.inr ⟨by omega, by omega⟩)
  · split
    · refine .moveSlots fun x hx hx' => .inr (.inl ⟨?_, ?_⟩)
      · exact (slotPos_le (Nat.le_succ slotId)).trans hx
      · rwa [show slotId + 1 + (p.numSlots - slotId) = p.numSlots + 1 by omega] at hx'
    · exact .refl
  · intro x hx hx'
    exact .inr (.inl ⟨hx, hx'.trans_le (slotPos_le hslot)⟩)

/-- Where `insert` writes, without and with a compaction before it. -/
theorem insertWith_changes {slotId : Nat} {e : Entry} (h : p.insertWith cast slotId e = .ok q) :
    q.dataOffset + e.len ≤ ps.bytes ∧ slotId ≤ p.numSlots ∧ ChangedWithin (fun x => InHeader x ∨
        (slotPos (if p.freeSpace < slotSize + e.len then 0 else slotId) ≤ x ∧
          x < slotPos (p.numSlots + 1)) ∨
        (q.dataOffset ≤ x ∧
          x < if p.freeSpace < slotSize + e.len then ps.bytes else q.dataOffset + e.len)) p q := by
  have hnext := slotPos_succ p.numSlots
  unfold insertWith at h
  simp only at h
  split at h
  · rename_i hfree
    obtain ⟨u, hassert, h⟩ := Fault.bind_eq_ok h
    obtain ⟨p₁, hcompact, h⟩ := Fault.bind_eq_ok h
    have hroom : slotSize + e.len ≤ p.freeSpaceAfterCompaction :=
      of_decide_eq_true (Fault.assert_eq_ok hassert)
    rw [freeSpaceAfterCompaction] at hroom
    have hend : p.slotArrayEnd = slotPos p.numSlots := rfl
    obtain ⟨hcount, hoffset, hchanged⟩ := compactifyWith_changes hcompact (by omega)
    obtain ⟨hstart, hstop, hpos, hinsert⟩ := insertEntryWith_changes h (by
      rw [hcount, hoffset, hnext]
      omega)
    rw [hcount] at hpos hinsert
    refine ⟨hstop, hpos, .trans (hchanged.mono ?_) (hinsert.mono ?_)⟩
    · rintro x (hx | ⟨hlow, hhigh⟩ | ⟨hlow, hhigh⟩)
      · exact .inl hx
      · exact .inr (.inl ⟨by rwa [if_pos hfree], hhigh.trans_le (slotPos_le (Nat.le_succ _))⟩)
      · exact .inr (.inr ⟨by omega, by rwa [if_pos hfree]⟩)
    · rintro x (hx | ⟨hlow, hhigh⟩ | ⟨hlow, hhigh⟩)
      · exact .inl hx
      · exact .inr (.inl
          ⟨by rw [if_pos hfree]; exact (slotPos_le (Nat.zero_le _)).trans hlow, hhigh⟩)
      · exact .inr (.inr ⟨hlow, by rw [if_pos hfree]; omega⟩)
  rename_i hfree
  have hspace : p.freeSpace = p.dataOffset - p.slotArrayEnd := rfl
  have hend : p.slotArrayEnd = slotPos p.numSlots := rfl
  have hslot : 0 < slotSize := by decide
  obtain ⟨hstart, hstop, hpos, hinsert⟩ := insertEntryWith_changes h (by omega)
  simp only [if_neg hfree]
  exact ⟨hstop, hpos, hinsert⟩

end

/-! ## Every change is reported -/

/-- The mutation covers what changed, and copying what it covers gives the new page. -/
def Reported (p q : SlottedPage ps) (m : PageMutation ps) : Prop :=
  (∀ i : Nat, 8 ≤ i → p.data.bytes[i]? ≠ q.data.bytes[i]? → m.Covers i) ∧
    m.copyOver p.data q.data = q.data

theorem ChangedWithin.reported {s : Nat → Prop} {p q : SlottedPage ps} {m : PageMutation ps}
    (h : ChangedWithin s p q) (hs : ∀ i, s i → m.Covers i) : Reported p q m := by
  have hcover : ∀ i : Nat, p.data.bytes[i]? ≠ q.data.bytes[i]? → m.Covers i := by
    intro i hdiff
    by_contra hnot
    exact hdiff (h i fun hi => hnot (hs i hi)).symm
  exact ⟨fun i _ => hcover i, PageMutation.copyOver_eq hcover⟩

section

variable {p q : SlottedPage ps} {m m' : PageMutation ps} {slotId : Nat}

theorem insertWithMutation_reported {e : Entry}
    (h : p.insertWithMutation slotId e m = .ok (q, m')) : Reported p q m' := by
  obtain ⟨r, hinsert, h⟩ := Fault.bind_eq_ok h
  obtain ⟨m₁, hheader, h⟩ := Fault.bind_eq_ok h
  obtain ⟨m₂, hslots, h⟩ := Fault.bind_eq_ok h
  obtain ⟨-, -, hchanged⟩ := insertWith_changes hinsert
  obtain ⟨-, -, hcovers₁⟩ := PageMutation.covers_addRange hheader
  obtain ⟨-, -, hcovers₂⟩ := PageMutation.covers_addRange hslots
  simp only at h
  generalize (if p.freeSpace < slotSize + e.len then ps.bytes else r.dataOffset + e.len) = dataEnd
    at h hchanged
  split at h
  · obtain ⟨m₃, hdata, h⟩ := Fault.bind_eq_ok h
    cases h
    obtain ⟨-, -, hcovers₃⟩ := PageMutation.covers_addRange hdata
    refine hchanged.reported ?_
    rintro x (hx | hx | hx)
    · exact hcovers₃ x (.inl (hcovers₂ x (.inl (hcovers₁ x (.inr hx)))))
    · exact hcovers₃ x (.inl (hcovers₂ x (.inr hx)))
    · exact hcovers₃ x (.inr hx)
  rename_i hempty
  cases h
  refine hchanged.reported ?_
  rintro x (hx | hx | hx)
  · exact hcovers₂ x (.inl (hcovers₁ x (.inr hx)))
  · exact hcovers₂ x (.inr hx)
  · exact absurd (hx.1.trans_lt hx.2) hempty

theorem remove_changes (h : p.remove slotId = .ok q) :
    ChangedWithin
      (fun x => InHeader x ∨ (slotPos slotId ≤ x ∧ x < slotPos (p.numSlots - 1))) p q := by
  obtain ⟨u, hslot, h⟩ := Fault.bind_eq_ok h
  obtain ⟨used, -, h⟩ := Fault.bind_eq_ok h
  obtain ⟨newCount, -, h⟩ := Fault.bind_eq_ok h
  cases h
  refine .trans (q := p.setSpaceUsed used)
    (changedWithin_header (fun _ => .inl) (by decide) (by decide)) (.trans
    (q := if 0 < p.numSlots - slotId - 1 then (p.setSpaceUsed used).moveSlots (slotId + 1) slotId
      p.numSlots else p.setSpaceUsed used) ?_ (.trans
      (changedWithin_header (fun _ => .inl) (by decide) (by decide))
      (changedWithin_header (fun _ => .inl) (by decide) (by decide))))
  split
  · refine .moveSlots fun x hlow hhigh => .inr ⟨hlow, ?_⟩
    rwa [show slotId + (p.numSlots - (slotId + 1)) = p.numSlots - 1 by omega] at hhigh
  · exact .refl

theorem removeWithMutation_reported (h : p.removeWithMutation slotId m = .ok (q, m')) :
    Reported p q m' := by
  obtain ⟨r, hremove, h⟩ := Fault.bind_eq_ok h
  obtain ⟨m₁, hheader, h⟩ := Fault.bind_eq_ok h
  obtain ⟨-, -, hcovers₁⟩ := PageMutation.covers_addRange hheader
  have hchanged := remove_changes hremove
  split at h
  · obtain ⟨m₂, hslots, h⟩ := Fault.bind_eq_ok h
    cases h
    obtain ⟨-, -, hcovers₂⟩ := PageMutation.covers_addRange hslots
    refine hchanged.reported ?_
    rintro x (hx | hx)
    · exact hcovers₂ x (.inl (hcovers₁ x (.inr hx)))
    · exact hcovers₂ x (.inr hx)
  rename_i hempty
  cases h
  refine hchanged.reported ?_
  rintro x (hx | hx)
  · exact hcovers₁ x (.inr hx)
  · exact absurd (hx.1.trans_lt hx.2) hempty

theorem updateValueWithMutation_reported {value : Bytes} {updated : Bool}
    (h : p.updateValueWithMutation slotId value m = .ok (q, m', updated)) : Reported p q m' := by
  obtain ⟨⟨r, done⟩, hupdate, h⟩ := Fault.bind_eq_ok h
  have hchanged : ChangedWithin (fun x => done = true ∧
      (p.slot slotId).offset + (p.slot slotId).keyLen ≤ x ∧
      x < (p.slot slotId).offset + (p.slot slotId).keyLen + (p.slot slotId).valLen) p r := by
    unfold updateValue at hupdate
    simp only at hupdate
    split at hupdate
    · cases hupdate
      exact .refl
    · obtain ⟨r', hput, hupdate⟩ := Fault.bind_eq_ok hupdate
      cases hupdate
      exact .put hput fun x hlow hhigh => ⟨rfl, hlow, by omega⟩
  simp only at h
  split at h
  · obtain ⟨m₁, hrange, h⟩ := Fault.bind_eq_ok h
    cases h
    obtain ⟨-, -, hcovers⟩ := PageMutation.covers_addRange hrange
    exact hchanged.reported fun x hx => hcovers x (.inr hx.2)
  · rename_i hnone
    cases h
    refine hchanged.reported fun x hx => absurd ⟨hx.1, ?_⟩ hnone
    omega

end

/-- Whatever the page and the ranges reported so far are, a call that succeeds reports
every byte it changes. -/
theorem mutations_complete (p : SlottedPage ps) (m : PageMutation ps) (slotId : Nat) :
    (∀ e q m', p.insertWithMutation slotId e m = .ok (q, m') → Reported p q m') ∧
    (∀ q m', p.removeWithMutation slotId m = .ok (q, m') → Reported p q m') ∧
    ∀ value q m' updated, p.updateValueWithMutation slotId value m = .ok (q, m', updated) →
      Reported p q m' :=
  ⟨fun _ _ _ => insertWithMutation_reported, fun _ _ => removeWithMutation_reported,
    fun _ _ _ _ => updateValueWithMutation_reported⟩

/-- A page whose only entry lies right behind the slots, so that it must be moved before
the next insert. -/
def fragmented : SlottedPage .k4 :=
  ⟨(((((init .k4).setDataOffset 50).setSpaceUsed 3).setNumSlots 1).setSlot 0
    ⟨50, 1, 2, makeHead [1]⟩).data.write 50 [1, 8, 9]⟩

/-- An insert that compacts the page, an update and a removal, one after the other. -/
theorem mutations_complete_compacting : fragmented.freeSpace < slotSize + 8 ∧
      ∃ q₁ m₁ q₂ m₂ updated q₃ m₃,
        fragmented.insertWithMutation 1 ⟨[3], [2, 3, 4, 5, 6, 7, 8]⟩ .new = .ok (q₁, m₁) ∧
        q₁.updateValueWithMutation 0 [5, 5] m₁ = .ok (q₂, m₂, updated) ∧
        q₂.removeWithMutation 0 m₂ = .ok (q₃, m₃) ∧
        Reported fragmented q₁ m₁ ∧ Reported q₁ q₂ m₂ ∧ Reported q₂ q₃ m₃ := by
  have hok : ((fragmented.insertWithMutation 1 ⟨[3], [2, 3, 4, 5, 6, 7, 8]⟩ .new).bind
      fun (q, m) => (q.updateValueWithMutation 0 [5, 5] m).bind
        fun (q, m, _) => q.removeWithMutation 0 m).isOk = true := by
    decide +kernel
  cases hrun : (fragmented.insertWithMutation 1 ⟨[3], [2, 3, 4, 5, 6, 7, 8]⟩ .new).bind
      fun (q, m) => (q.updateValueWithMutation 0 [5, 5] m).bind
        fun (q, m, _) => q.removeWithMutation 0 m with
  | error fault =>
    rw [hrun] at hok
    cases hok
  | ok last =>
    obtain ⟨⟨q₁, m₁⟩, hinsert, hrest⟩ := Fault.bind_eq_ok hrun
    obtain ⟨⟨q₂, m₂, updated⟩, hupdate, hremove⟩ := Fault.bind_eq_ok hrest
    exact ⟨by decide +kernel, q₁, m₁, q₂, m₂, updated, last.1, last.2, hinsert, hupdate, hremove,
      (mutations_complete _ _ _).1 _ _ _ hinsert, (mutations_complete _ _ _).2.2 _ _ _ _ hupdate,
      (mutations_complete _ _ _).2.1 _ _ hremove⟩

end Pagebox.Storage
