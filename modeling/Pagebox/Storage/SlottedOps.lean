import Mathlib.Algebra.BigOperators.Group.List.Basic
import Mathlib.Data.List.InsertIdx
import Pagebox.Storage.SlottedLayout

/-!
# The operations keep the layout

Each operation of a slotted page on a page with a known layout: whether it
succeeds, the layout of the result, and that the reserved suffix keeps its bytes.
-/

namespace Pagebox.Storage

open Pagebox.Base

variable {ps : PageSize} {p q : SlottedPage ps} {suffix : Nat} {es : List Placed}

/-! ## Facts about a layout -/

theorem Placed.Apart.symm {a b : Placed} (h : a.Apart b) : b.Apart a := Or.symm h

theorem Entry.len_eq (e : Entry) : e.len = e.key.length + e.value.length := rfl

namespace Layout

theorem count_le (h : Layout suffix es p) : slotPos es.length + suffix ≤ ps.bytes := by
  have := h.gap
  have := h.room
  omega

theorem slotArrayEnd_eq (h : Layout suffix es p) : p.slotArrayEnd = slotPos es.length := by
  rw [SlottedPage.slotArrayEnd, h.count]

theorem freeSpace_le (h : Layout suffix es p) : p.freeSpace ≤ p.freeSpaceAfterCompaction := by
  have := h.room
  unfold SlottedPage.freeSpace SlottedPage.freeSpaceAfterCompaction
  rw [h.slotArrayEnd_eq, h.used]
  omega

theorem congr (h : Layout suffix es p) (hheader : SlottedPage.SameHeader q p)
    (hslots : ∀ i < es.length, q.slot i = p.slot i)
    (hdata : ∀ e ∈ es, q.data.slice e.offset e.stop = p.data.slice e.offset e.stop) :
    Layout suffix es q where
  pos := h.pos
  count := hheader.numSlots.trans h.count
  gap := hheader.dataOffset ▸ h.gap
  room := hheader.dataOffset ▸ h.room
  used := hheader.spaceUsed.trans h.used
  slots i e he := (hslots i (List.getElem?_eq_some_iff.mp he).1).trans (h.slots i e he)
  inside := hheader.dataOffset ▸ h.inside
  data e he := (hdata e he).trans (h.data e he)
  apart := h.apart

theorem header_le_offset (h : Layout suffix es p) {e : Placed} (he : e ∈ es) :
    slottedHeaderSize ≤ e.offset :=
  ((SlottedPage.header_le_slotPos _).trans h.gap).trans (h.inside e he).1

end Layout

theorem Fault.ok_bind {α β : Type} (a : α) (f : α → Except Fault β) :
    (Except.ok a >>= f) = f a := rfl

theorem Fault.sub_of_le {a b : Nat} (h : b ≤ a) : Fault.sub a b = .ok (a - b) := if_pos h

theorem Fault.fit_of_lt (bits n : Nat) (h : n < 2 ^ bits) : Fault.fit bits n = .ok n := if_pos h

theorem SlottedPage.put_of_le {offset : Nat} {bytes : Bytes}
    (h : offset + bytes.length ≤ ps.bytes) :
    p.put offset bytes = .ok ⟨p.data.write offset bytes⟩ := if_pos h

namespace SlottedPage

def writeEntry (p : SlottedPage ps) (offset : Nat) (e : Entry) : SlottedPage ps :=
  ⟨(p.data.write offset e.key).write (offset + e.key.length) e.value⟩

def openSlot (p : SlottedPage ps) (i count : Nat) : SlottedPage ps :=
  if i < count then p.moveSlots i (i + 1) count else p

def inserted (p : SlottedPage ps) (i : Nat) (e : Entry) : SlottedPage ps :=
  let offset := p.dataOffset - e.len
  let p' := ((p.writeEntry offset e).openSlot i p.numSlots).setNumSlots (p.numSlots + 1)
  let p' := p'.setSlot i ⟨offset, e.key.length, e.value.length, makeHead e.key⟩
  (p'.setDataOffset offset).setSpaceUsed (p.spaceUsed + e.len)

section WriteEntry

variable {offset : Nat} {e : Entry}

theorem sameHeader_writeEntry (h : slottedHeaderSize ≤ offset) :
    SameHeader (p.writeEntry offset e) p :=
  SameHeader.trans (sameHeader_write (p := ⟨p.data.write offset e.key⟩) (by omega))
    (sameHeader_write h)

theorem slot_writeEntry {i : Nat} (h : slotPos i + slotSize ≤ offset) :
    (p.writeEntry offset e).slot i = p.slot i :=
  (slot_write_of_disjoint (p := ⟨p.data.write offset e.key⟩) (.inl (by omega))).trans
    (slot_write_of_disjoint (.inl h))

theorem slice_writeEntry_of_disjoint {a b : Nat} (h : b ≤ offset ∨ offset + e.len ≤ a) :
    (p.writeEntry offset e).data.slice a b = p.data.slice a b := by
  rw [Entry.len_eq] at h
  rw [writeEntry, Page.slice_write_of_disjoint _ (by omega),
    Page.slice_write_of_disjoint _ (by omega)]

theorem slice_writeEntry (h : offset + e.len ≤ ps.bytes) :
    (p.writeEntry offset e).data.slice offset (offset + e.len) = e.key ++ e.value := by
  rw [Entry.len_eq] at h ⊢
  rw [← Nat.add_assoc] at h ⊢
  rw [writeEntry, Page.slice_append _ (Nat.le_add_right _ e.key.length) (Nat.le_add_right _ _),
    Page.slice_write _ h, Page.slice_write_of_disjoint _ (.inl le_rfl),
    Page.slice_write _ (by omega)]

end WriteEntry

theorem sameHeader_openSlot (i count : Nat) : SameHeader (p.openSlot i count) p := by
  unfold openSlot
  split
  · exact sameHeader_moveSlots
  · exact ⟨rfl, rfl, rfl⟩

theorem slot_openSlot {i j count : Nat} (hroom : slotPos (count + 1) ≤ ps.bytes) (hj : j < count) :
    (p.openSlot i count).slot (if j < i then j else j + 1) = p.slot j := by
  have hcount : slotPos count ≤ ps.bytes := (slotPos_le (Nat.le_succ _)).trans hroom
  unfold openSlot
  split
  · split
    · exact slot_moveSlots_of_notin hcount (.inl (by omega))
    have hdst : slotPos (i + 1 + (count - i)) ≤ ps.bytes := by
      have : i + 1 + (count - i) = count + 1 := by omega
      rwa [this]
    obtain ⟨k, rfl⟩ : ∃ k, j = i + k := ⟨j - i, by omega⟩
    have hmove := slot_moveSlots (p := p) hcount hdst hj
    rwa [show i + 1 + k = i + k + 1 by omega] at hmove
  · rw [if_pos (by omega)]

theorem slice_openSlot {i count a b : Nat} (hroom : slotPos (count + 1) ≤ ps.bytes)
    (ha : slotPos (count + 1) ≤ a) :
    (p.openSlot i count).data.slice a b = p.data.slice a b := by
  unfold openSlot
  split
  · apply slice_moveSlots ((slotPos_le (Nat.le_succ _)).trans hroom)
    rwa [show i + 1 + (count - i) = count + 1 by omega]
  · rfl

end SlottedPage

section Insert

variable {i : Nat} {e : Entry}

open SlottedPage

theorem insertEntry_eq (h : Layout suffix es p)
    (hroom : slotPos (es.length + 1) + e.len ≤ p.dataOffset) (hi : i ≤ es.length) :
    p.insertEntry i e = .ok (p.inserted i e) := by
  have hle := PageSize.bytes_le ps
  have hpos := h.pos
  have hbytes := h.room
  have hused := h.used
  have hcount := h.count
  have hlen := Entry.len_eq e
  rw [slotPos_eq] at hroom
  have hsub := Fault.sub_of_le (a := p.dataOffset) (b := e.len) (by omega)
  have hkey : ∀ q : SlottedPage ps, q.put (p.dataOffset - e.len) e.key =
      .ok ⟨q.data.write (p.dataOffset - e.len) e.key⟩ := fun q => put_of_le (by omega)
  have hvalue : ∀ q : SlottedPage ps, q.put (p.dataOffset - e.len + e.key.length) e.value =
      .ok ⟨q.data.write (p.dataOffset - e.len + e.key.length) e.value⟩ :=
    fun q => put_of_le (by omega)
  have hheader : SameHeader (p.writeEntry (p.dataOffset - e.len) e) p :=
    sameHeader_writeEntry (by unfold slottedHeaderSize; omega)
  have hnum : (⟨(p.data.write (p.dataOffset - e.len) e.key).write
      (p.dataOffset - e.len + e.key.length) e.value⟩ : SlottedPage ps).numSlots = p.numSlots :=
    hheader.numSlots
  have hspace : ∀ n s, (((((p.writeEntry (p.dataOffset - e.len) e).openSlot i
      p.numSlots).setNumSlots n).setSlot i s).setDataOffset (p.dataOffset - e.len)).spaceUsed =
        p.spaceUsed := by
    intro n s
    rw [spaceUsed_setDataOffset, (sameHeader_setSlot i s).spaceUsed, spaceUsed_setNumSlots,
      (sameHeader_openSlot i p.numSlots).spaceUsed, hheader.spaceUsed]
  have hslot : Fault.assert (decide (i < p.numSlots + 1)) = .ok () :=
    if_pos (decide_eq_true (by omega))
  unfold openSlot writeEntry at hspace
  simp only [insertEntry, insertEntryWith, hslot, hsub, hkey, hvalue, hnum, Fault.ok_bind,
    Fault.fit_of_lt 16 (p.numSlots + 1) (by omega),
    Fault.fit_of_lt 16 (p.dataOffset - e.len) (by omega),
    Fault.fit_of_lt 16 (e.key.length) (by omega),
    Fault.fit_of_lt 16 (e.value.length) (by omega), hspace,
    Fault.fit_of_lt 32 (p.spaceUsed + e.len) (by omega)]
  rfl

/-- Above the slot array only key and value are written. -/
theorem slice_inserted (h : Layout suffix es p)
    (hroom : slotPos (es.length + 1) + e.len ≤ p.dataOffset) (hi : i ≤ es.length) {a b : Nat}
    (ha : slotPos (es.length + 1) ≤ a) :
    (p.inserted i e).data.slice a b = (p.writeEntry (p.dataOffset - e.len) e).data.slice a b := by
  have hbytes := h.room
  have hheader := (header_le_slotPos (es.length + 1)).trans ha
  have hslot : slotPos (i + 1) ≤ slotPos (es.length + 1) := slotPos_le (Nat.succ_le_succ hi)
  rw [inserted, sameBody_setSpaceUsed _ a b hheader, sameBody_setDataOffset _ a b hheader,
    slice_setSlot _ (hslot.trans ha), sameBody_setNumSlots _ a b hheader, h.count,
    slice_openSlot (by omega) ha]

theorem slice_inserted_of_le (h : Layout suffix es p)
    (hroom : slotPos (es.length + 1) + e.len ≤ p.dataOffset) (hi : i ≤ es.length) {a b : Nat}
    (ha : p.dataOffset ≤ a) : (p.inserted i e).data.slice a b = p.data.slice a b := by
  rw [slice_inserted h hroom hi (by omega), slice_writeEntry_of_disjoint (by omega)]

theorem slot_inserted (h : Layout suffix es p)
    (hroom : slotPos (es.length + 1) + e.len ≤ p.dataOffset) (hi : i ≤ es.length) :
    (p.inserted i e).slot i =
      ⟨p.dataOffset - e.len, e.key.length, e.value.length, makeHead e.key⟩ := by
  have hle := PageSize.bytes_le ps
  have hpos := h.pos
  have hbytes := h.room
  have hlen := Entry.len_eq e
  have hslot := slotPos_lt (Nat.lt_succ_of_le hi)
  rw [Nat.succ_eq_add_one] at hslot
  rw [inserted, (sameBody_setSpaceUsed _).slot, (sameBody_setDataOffset _).slot]
  refine slot_setSlot (by omega) ⟨?_, ?_, ?_, makeHead_lt e.key⟩
  all_goals simp only; omega

/-- The slots that were there keep their contents, from `i` on one place up. -/
theorem slot_inserted_old (h : Layout suffix es p)
    (hroom : slotPos (es.length + 1) + e.len ≤ p.dataOffset) {j : Nat} (hj : j < es.length) :
    (p.inserted i e).slot (if j < i then j else j + 1) = p.slot j := by
  have hbytes := h.room
  have hslot : slotPos j + slotSize ≤ slotPos (es.length + 1) := slotPos_lt (by omega)
  have hne : i ≠ if j < i then j else j + 1 := by
    split
    · omega
    · omega
  have hcount : slotPos (p.numSlots + 1) ≤ ps.bytes := by
    rw [h.count]
    omega
  rw [inserted, (sameBody_setSpaceUsed _).slot, (sameBody_setDataOffset _).slot,
    slot_setSlot_of_ne _ hne, (sameBody_setNumSlots _).slot,
    slot_openSlot hcount (h.count.symm ▸ hj), slot_writeEntry (by omega)]

theorem layout_inserted (h : Layout suffix es p)
    (hroom : slotPos (es.length + 1) + e.len ≤ p.dataOffset) (hi : i ≤ es.length) :
    Layout suffix (es.insertIdx i ⟨p.dataOffset - e.len, e⟩) (p.inserted i e) := by
  have hle := PageSize.bytes_le ps
  have hpos := h.pos
  have hbytes := h.room
  have hcount := h.count
  have hused := h.used
  have hslots := slotPos_eq (es.length + 1)
  have hperm := List.perm_insertIdx (⟨p.dataOffset - e.len, e⟩ : Placed) es hi
  have hlive : liveLen (es.insertIdx i ⟨p.dataOffset - e.len, e⟩) = e.len + liveLen es :=
    (hperm.map _).sum_eq.trans (by simp [liveLen])
  have hlength : (es.insertIdx i ⟨p.dataOffset - e.len, e⟩).length = es.length + 1 :=
    hperm.length_eq
  have hoffset : (p.inserted i e).dataOffset = p.dataOffset - e.len := by
    rw [inserted, dataOffset_setSpaceUsed, dataOffset_setDataOffset (by omega)]
  refine ⟨hpos, ?_, ?_, ?_, ?_, ?_, ?_, ?_, ?_⟩
  · rw [inserted, numSlots_setSpaceUsed, numSlots_setDataOffset, (sameHeader_setSlot _ _).numSlots,
      numSlots_setNumSlots (by omega), hlength, hcount]
  · rw [hlength, hoffset]
    omega
  · omega
  · rw [inserted, spaceUsed_setSpaceUsed (by omega), hlive]
    omega
  · intro j x hx
    rw [List.getElem?_insertIdx] at hx
    split at hx
    · rename_i hj
      have hold := slot_inserted_old (i := i) h hroom (List.getElem?_eq_some_iff.mp hx).1
      rw [if_pos hj] at hold
      rw [hold, h.slots j x hx]
    split at hx
    · rename_i hj
      rw [if_pos (by omega)] at hx
      cases hx
      rw [hj, slot_inserted h hroom hi]
      rfl
    · have hold := slot_inserted_old (i := i) h hroom (List.getElem?_eq_some_iff.mp hx).1
      rw [if_neg (by omega), Nat.sub_add_cancel (by omega)] at hold
      rw [hold, h.slots (j - 1) x hx]
  · intro x hx
    rw [hoffset]
    rcases (List.mem_insertIdx hi).mp hx with rfl | hx
    · exact ⟨le_rfl, by simp only [Placed.stop]; omega⟩
    · have := h.inside x hx
      exact ⟨by omega, this.2⟩
  · intro x hx
    rcases (List.mem_insertIdx hi).mp hx with rfl | hx
    · have hdata := slice_writeEntry (p := p) (e := e)
        (show p.dataOffset - e.len + e.len ≤ ps.bytes by omega)
      exact (slice_inserted h hroom hi (by simp only; omega)).trans hdata
    · rw [slice_inserted_of_le h hroom hi (h.inside x hx).1, h.data x hx]
  · rw [hperm.pairwise_iff Placed.Apart.symm, List.pairwise_cons]
    refine ⟨fun x hx => .inl ?_, h.apart⟩
    have := (h.inside x hx).1
    simp only [Placed.stop]
    omega

end Insert

end Pagebox.Storage
