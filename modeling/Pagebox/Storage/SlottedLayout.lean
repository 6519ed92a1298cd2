import Mathlib.Algebra.BigOperators.Group.List.Basic
import Pagebox.Storage.SlottedPage

/-!
# The layout of a slotted page

Which bytes each write of a slotted page changes, and the layout that the
operations keep: the slots list entries that lie apart from each other between
the slot array and the reserved suffix, and the counters in the header are exact.
-/

namespace Pagebox.Storage

open Pagebox.Base

namespace SlottedPage

variable {ps : PageSize} {p q : SlottedPage ps}

theorem slotPos_eq (i : Nat) : slotPos i = 24 + 12 * i := by
  unfold slotPos slottedHeaderSize slotSize
  ring

theorem slotPos_succ (i : Nat) : slotPos (i + 1) = slotPos i + slotSize := by
  unfold slotPos
  ring

theorem header_le_slotPos (i : Nat) : slottedHeaderSize ≤ slotPos i := Nat.le_add_right _ _

theorem slotPos_le {i j : Nat} (h : i ≤ j) : slotPos i ≤ slotPos j :=
  Nat.add_le_add_left (Nat.mul_le_mul_right _ h) _

theorem slotPos_lt {i j : Nat} (h : i < j) : slotPos i + slotSize ≤ slotPos j :=
  slotPos_succ i ▸ slotPos_le h

theorem header_lt_bytes (ps : PageSize) : slottedHeaderSize < ps.bytes :=
  Nat.lt_of_lt_of_le (by decide) (PageSize.le_bytes ps)

/-! ## What a write changes -/

structure SameHeader (p q : SlottedPage ps) : Prop where
  dataOffset : p.dataOffset = q.dataOffset
  spaceUsed : p.spaceUsed = q.spaceUsed
  numSlots : p.numSlots = q.numSlots

theorem SameHeader.trans {r : SlottedPage ps} (h : SameHeader p q) (h' : SameHeader q r) :
    SameHeader p r :=
  ⟨h.dataOffset.trans h'.dataOffset, h.spaceUsed.trans h'.spaceUsed, h.numSlots.trans h'.numSlots⟩

theorem sameHeader_write {offset : Nat} {bytes : Bytes} (h : slottedHeaderSize ≤ offset) :
    SameHeader (⟨p.data.write offset bytes⟩ : SlottedPage ps) p := by
  unfold slottedHeaderSize at h
  exact ⟨Page.readNat_write_of_disjoint p.data (.inl (by omega)),
    Page.readNat_write_of_disjoint p.data (.inl (by omega)),
    Page.readNat_write_of_disjoint p.data (.inl (by omega))⟩

theorem slot_congr {i j : Nat} (h : p.data.slice (slotPos i) (slotPos i + slotSize) =
    q.data.slice (slotPos j) (slotPos j + slotSize)) : p.slot i = q.slot j := by
  rw [slot, slot, h]

theorem slot_write_of_disjoint {offset i : Nat} {bytes : Bytes}
    (h : slotPos i + slotSize ≤ offset ∨ offset + bytes.length ≤ slotPos i) :
    (⟨p.data.write offset bytes⟩ : SlottedPage ps).slot i = p.slot i :=
  slot_congr (Page.slice_write_of_disjoint p.data h)

theorem writeNat_fits {offset width : Nat} (h : offset + width ≤ slottedHeaderSize) :
    offset + width ≤ ps.bytes :=
  h.trans (header_lt_bytes ps).le

section Header

variable {n : Nat}

theorem dataOffset_setDataOffset (h : n < 2 ^ 32) : (p.setDataOffset n).dataOffset = n :=
  Page.readNat_writeNat p.data (writeNat_fits (by decide)) (by norm_num at h ⊢; omega)

@[simp] theorem spaceUsed_setDataOffset : (p.setDataOffset n).spaceUsed = p.spaceUsed :=
  Page.readNat_writeNat_of_disjoint p.data (.inr (by decide))

@[simp] theorem numSlots_setDataOffset : (p.setDataOffset n).numSlots = p.numSlots :=
  Page.readNat_writeNat_of_disjoint p.data (.inr (by decide))

theorem spaceUsed_setSpaceUsed (h : n < 2 ^ 32) : (p.setSpaceUsed n).spaceUsed = n :=
  Page.readNat_writeNat p.data (writeNat_fits (by decide)) (by norm_num at h ⊢; omega)

@[simp] theorem dataOffset_setSpaceUsed : (p.setSpaceUsed n).dataOffset = p.dataOffset :=
  Page.readNat_writeNat_of_disjoint p.data (.inl (by decide))

@[simp] theorem numSlots_setSpaceUsed : (p.setSpaceUsed n).numSlots = p.numSlots :=
  Page.readNat_writeNat_of_disjoint p.data (.inr (by decide))

theorem numSlots_setNumSlots (h : n < 2 ^ 16) : (p.setNumSlots n).numSlots = n :=
  Page.readNat_writeNat p.data (writeNat_fits (by decide)) (by norm_num at h ⊢; omega)

@[simp] theorem dataOffset_setNumSlots : (p.setNumSlots n).dataOffset = p.dataOffset :=
  Page.readNat_writeNat_of_disjoint p.data (.inl (by decide))

@[simp] theorem spaceUsed_setNumSlots : (p.setNumSlots n).spaceUsed = p.spaceUsed :=
  Page.readNat_writeNat_of_disjoint p.data (.inl (by decide))

theorem sameHeader_setFlags : SameHeader (p.setFlags n) p :=
  ⟨Page.readNat_writeNat_of_disjoint p.data (.inl (by decide)),
    Page.readNat_writeNat_of_disjoint p.data (.inl (by decide)),
    Page.readNat_writeNat_of_disjoint p.data (.inl (by decide))⟩

end Header

def SameBody (p q : SlottedPage ps) : Prop :=
  ∀ a b, slottedHeaderSize ≤ a → p.data.slice a b = q.data.slice a b

theorem SameBody.trans {r : SlottedPage ps} (h : SameBody p q) (h' : SameBody q r) : SameBody p r :=
  fun a b ha => (h a b ha).trans (h' a b ha)

theorem SameBody.slot (h : SameBody p q) (i : Nat) : p.slot i = q.slot i :=
  slot_congr (h _ _ (header_le_slotPos i))

theorem sameBody_writeNat {offset width n : Nat} (h : offset + width ≤ slottedHeaderSize) :
    SameBody (⟨p.data.writeNat offset width n⟩ : SlottedPage ps) p :=
  fun _ _ ha => Page.slice_writeNat_of_disjoint p.data (.inr (h.trans ha))

theorem sameBody_setDataOffset (n : Nat) : SameBody (p.setDataOffset n) p :=
  sameBody_writeNat (by decide)

theorem sameBody_setSpaceUsed (n : Nat) : SameBody (p.setSpaceUsed n) p :=
  sameBody_writeNat (by decide)

theorem sameBody_setNumSlots (n : Nat) : SameBody (p.setNumSlots n) p :=
  sameBody_writeNat (by decide)

theorem sameBody_setFlags (n : Nat) : SameBody (p.setFlags n) p :=
  sameBody_writeNat (by decide)

theorem length_slotBytes (s : PageSlot) : s.bytes.length = slotSize := by
  simp [PageSlot.bytes, slotSize]

structure SlotFits (s : PageSlot) : Prop where
  offset : s.offset < 2 ^ 16
  keyLen : s.keyLen < 2 ^ 16
  valLen : s.valLen < 2 ^ 16
  head : s.head < 2 ^ 32

theorem ofBytes_bytes {s : PageSlot} (h : SlotFits s) : PageSlot.ofBytes s.bytes = s := by
  have hoffset : leNat (leBytes 2 s.offset) = s.offset := leNat_leBytes (by simpa using h.offset)
  have hkey : leNat (leBytes 2 s.keyLen) = s.keyLen := leNat_leBytes (by simpa using h.keyLen)
  have hval : leNat (leBytes 2 s.valLen) = s.valLen := leNat_leBytes (by simpa using h.valLen)
  have hhead : leNat (leBytes 4 s.head) = s.head := leNat_leBytes (by simpa using h.head)
  cases s
  simp [PageSlot.ofBytes, PageSlot.bytes, List.drop_append,
    List.drop_eq_nil_of_le, List.take_of_length_le] at hoffset hkey hval hhead ⊢
  exact ⟨hoffset, hkey, hval, hhead⟩

theorem makeHead_lt (key : Bytes) : makeHead key < 2 ^ 32 := by
  have h := beNat_lt (firstBytes 4 key)
  rw [length_firstBytes] at h
  exact h

theorem slot_setSlot {i : Nat} {s : PageSlot} (hfit : slotPos i + slotSize ≤ ps.bytes)
    (h : SlotFits s) : (p.setSlot i s).slot i = s := by
  have hslice : (p.data.write (slotPos i) s.bytes).slice (slotPos i) (slotPos i + slotSize) =
      s.bytes := by
    have hlen : slotPos i + s.bytes.length ≤ ps.bytes := by rwa [length_slotBytes]
    have := Page.slice_write p.data hlen
    rwa [length_slotBytes] at this
  rw [slot, setSlot, hslice, ofBytes_bytes h]

theorem slot_setSlot_of_ne {i j : Nat} (s : PageSlot) (h : i ≠ j) :
    (p.setSlot i s).slot j = p.slot j := by
  apply slot_write_of_disjoint
  rcases Nat.lt_or_gt_of_ne h with h | h
  · exact .inr (slotPos_lt h)
  · exact .inl (slotPos_lt h)

theorem slice_setSlot {i a b : Nat} (s : PageSlot) (h : slotPos (i + 1) ≤ a) :
    (p.setSlot i s).data.slice a b = p.data.slice a b :=
  Page.slice_write_of_disjoint p.data (.inr (by rw [length_slotBytes, ← slotPos_succ]; exact h))

theorem sameHeader_setSlot (i : Nat) (s : PageSlot) : SameHeader (p.setSlot i s) p :=
  sameHeader_write (header_le_slotPos i)

theorem slot_setSlotOffset {i offset : Nat} (hfit : slotPos i + slotSize ≤ ps.bytes)
    (h : offset < 2 ^ 16) : (p.setSlotOffset i offset).slot i = { p.slot i with offset } := by
  unfold slotSize at hfit
  have hlen : (leBytes 2 offset).length = 2 := length_leBytes 2 offset
  have hfits : slotPos i + (leBytes 2 offset).length ≤ ps.bytes := by omega
  have hwrite := Page.slice_write p.data hfits
  rw [hlen] at hwrite
  have hnew : (p.setSlotOffset i offset).data.slice (slotPos i) (slotPos i + slotSize) =
      leBytes 2 offset ++ p.data.slice (slotPos i + 2) (slotPos i + slotSize) := by
    rw [setSlotOffset, Page.writeNat,
      Page.slice_append _ (Nat.le_add_right _ 2) (by simp [slotSize]),
      hwrite, Page.slice_write_of_disjoint p.data (.inr (by omega))]
  have hold : p.data.slice (slotPos i) (slotPos i + slotSize) =
      p.data.slice (slotPos i) (slotPos i + 2) ++
        p.data.slice (slotPos i + 2) (slotPos i + slotSize) :=
    Page.slice_append p.data (Nat.le_add_right _ 2) (by simp [slotSize])
  have hlow : (p.data.slice (slotPos i) (slotPos i + 2)).length = 2 := by
    rw [Page.length_slice (by omega)]
    omega
  have hnat : leNat (leBytes 2 offset) = offset := leNat_leBytes (by simpa using h)
  rw [slot, slot, hnew, hold]
  simp [PageSlot.ofBytes, List.drop_append, hlow, hlen, hnat, List.drop_eq_nil_of_le]

theorem slot_setSlotOffset_of_ne {i j : Nat} (offset : Nat) (h : i ≠ j) :
    (p.setSlotOffset i offset).slot j = p.slot j := by
  apply slot_write_of_disjoint
  rw [length_leBytes]
  have hsize : slotSize = 12 := rfl
  rcases Nat.lt_or_gt_of_ne h with h | h
  · exact .inr (by have := slotPos_lt h; omega)
  · exact .inl (slotPos_lt h)

theorem slice_setSlotOffset {i a b : Nat} (offset : Nat) (h : slotPos (i + 1) ≤ a) :
    (p.setSlotOffset i offset).data.slice a b = p.data.slice a b := by
  apply Page.slice_writeNat_of_disjoint
  have hsize : slotSize = 12 := rfl
  rw [slotPos_succ] at h
  exact .inr (by omega)

theorem sameHeader_setSlotOffset (i offset : Nat) : SameHeader (p.setSlotOffset i offset) p :=
  sameHeader_write (header_le_slotPos i)

section Move

variable {src dst count : Nat}

theorem length_movedSlots (hcount : slotPos count ≤ ps.bytes) :
    (p.data.slice (slotPos src) (slotPos count)).length = 12 * (count - src) := by
  rw [Page.length_slice hcount, slotPos_eq, slotPos_eq]
  omega

theorem slot_moveSlots (hcount : slotPos count ≤ ps.bytes)
    (hdst : slotPos (dst + (count - src)) ≤ ps.bytes) {k : Nat} (hk : src + k < count) :
    (p.moveSlots src dst count).slot (dst + k) = p.slot (src + k) := by
  have hlen : (p.data.slice (slotPos src) (slotPos count)).length = 12 * (count - src) :=
    length_movedSlots hcount
  have hstart : slotPos (dst + k) - slotPos dst = 12 * k := by
    rw [slotPos_eq, slotPos_eq]
    omega
  have hsrc : slotPos src + 12 * k = slotPos (src + k) := by
    rw [slotPos_eq, slotPos_eq]
    omega
  have hfit : slotPos dst + (p.data.slice (slotPos src) (slotPos count)).length ≤ ps.bytes := by
    rw [slotPos_eq] at hdst
    rw [hlen, slotPos_eq]
    omega
  have hstop : slotPos (dst + k) + slotSize ≤
      slotPos dst + (p.data.slice (slotPos src) (slotPos count)).length := by
    rw [hlen, slotPos_eq, slotPos_eq, slotSize]
    omega
  have hinside : 12 * k + slotSize ≤ slotPos count - slotPos src := by
    rw [slotPos_eq, slotPos_eq, slotSize]
    omega
  apply slot_congr
  rw [moveSlots, Page.slice_write_inside p.data hfit (slotPos_le (Nat.le_add_right _ _)) hstop,
    hstart, Nat.add_sub_cancel_left, Page.drop_take_slice p.data hinside, hsrc]

theorem slot_moveSlots_of_notin (hcount : slotPos count ≤ ps.bytes) {i : Nat}
    (hi : i < dst ∨ dst + (count - src) ≤ i) :
    (p.moveSlots src dst count).slot i = p.slot i := by
  apply slot_write_of_disjoint
  rw [length_movedSlots hcount, slotPos_eq, slotPos_eq, slotSize]
  omega

theorem slice_moveSlots (hcount : slotPos count ≤ ps.bytes) {a b : Nat}
    (ha : slotPos (dst + (count - src)) ≤ a) :
    (p.moveSlots src dst count).data.slice a b = p.data.slice a b := by
  apply Page.slice_write_of_disjoint
  rw [slotPos_eq] at ha
  rw [length_movedSlots hcount, slotPos_eq]
  omega

theorem sameHeader_moveSlots : SameHeader (p.moveSlots src dst count) p :=
  sameHeader_write (header_le_slotPos dst)

end Move

end SlottedPage

structure Placed where
  offset : Nat
  entry : Entry
  deriving DecidableEq

namespace Placed

def stop (e : Placed) : Nat := e.offset + e.entry.len

def slot (e : Placed) : PageSlot :=
  ⟨e.offset, e.entry.key.length, e.entry.value.length, makeHead e.entry.key⟩

def bytes (e : Placed) : Bytes := e.entry.key ++ e.entry.value

def Apart (a b : Placed) : Prop := a.stop ≤ b.offset ∨ b.stop ≤ a.offset

theorem length_bytes (e : Placed) : e.bytes.length = e.entry.len := List.length_append

end Placed

def liveLen (es : List Placed) : Nat := (es.map fun e => e.entry.len).sum

/-- The page `p` lists the entries `es` and keeps its last `suffix` bytes free. -/
structure Layout {ps : PageSize} (suffix : Nat) (es : List Placed) (p : SlottedPage ps) : Prop where
  pos : 1 ≤ suffix
  count : p.numSlots = es.length
  gap : slotPos es.length ≤ p.dataOffset
  room : p.dataOffset + liveLen es + suffix ≤ ps.bytes
  used : p.spaceUsed = suffix + liveLen es
  slots : ∀ i e, es[i]? = some e → p.slot i = e.slot
  inside : ∀ e ∈ es, p.dataOffset ≤ e.offset ∧ e.stop + suffix ≤ ps.bytes
  data : ∀ e ∈ es, p.data.slice e.offset e.stop = e.bytes
  apart : es.Pairwise Placed.Apart

def SameSuffix {ps : PageSize} (suffix : Nat) (p q : SlottedPage ps) : Prop :=
  p.data.slice (ps.bytes - suffix) ps.bytes = q.data.slice (ps.bytes - suffix) ps.bytes

end Pagebox.Storage
