import Pagebox.Storage.SlottedOps

/-!
# Compaction of a slotted page

`compactify` writes the live entries next to each other below the suffix and
points the slots at them.  It always succeeds on a page with a layout, and then
all free room lies between the slot array and the entries.
-/

namespace Pagebox.Storage

open Pagebox.Base SlottedPage List

variable {ps : PageSize} {p q tmp : SlottedPage ps} {suffix : Nat} {es : List Placed}

def packDown : Nat → List Placed → List Placed
  | _, [] => []
  | start, e :: es => ⟨start - e.entry.len, e.entry⟩ :: packDown (start - e.entry.len) es

theorem liveLen_cons (e : Placed) (es : List Placed) :
    liveLen (e :: es) = e.entry.len + liveLen es := by
  simp [liveLen]

theorem map_entry_packDown (start : Nat) (es : List Placed) :
    (packDown start es).map Placed.entry = es.map Placed.entry := by
  induction es generalizing start with
  | nil => rfl
  | cons e es ih => rw [packDown, map_cons, map_cons, ih]

theorem length_packDown (start : Nat) (es : List Placed) :
    (packDown start es).length = es.length := by
  have h := congrArg List.length (map_entry_packDown start es)
  simpa using h

theorem liveLen_congr {es es' : List Placed} (h : es.map Placed.entry = es'.map Placed.entry) :
    liveLen es = liveLen es' := by
  have hlen : ∀ xs : List Placed, liveLen xs = ((xs.map Placed.entry).map Entry.len).sum := by
    intro xs
    rw [map_map]
    rfl
  rw [hlen, hlen, h]

theorem packDown_inside {start : Nat} {es : List Placed} (h : liveLen es ≤ start) :
    ∀ x ∈ packDown start es, start - liveLen es ≤ x.offset ∧ x.stop ≤ start := by
  induction es generalizing start with
  | nil => simp [packDown]
  | cons e es ih =>
    rw [liveLen_cons] at h
    intro x hx
    rw [packDown, mem_cons] at hx
    rw [liveLen_cons]
    rcases hx with rfl | hx
    · simp only [Placed.stop]
      omega
    · have := ih (by omega) x hx
      omega

theorem packDown_apart {start : Nat} {es : List Placed} (h : liveLen es ≤ start) :
    (packDown start es).Pairwise Placed.Apart := by
  induction es generalizing start with
  | nil => exact .nil
  | cons e es ih =>
    rw [liveLen_cons] at h
    rw [packDown, pairwise_cons]
    refine ⟨fun x hx => .inr ?_, ih (by omega)⟩
    exact (packDown_inside (by omega) x hx).2

abbrev Reads (p : SlottedPage ps) : List Nat → List Placed → Prop :=
  List.Forall₂ fun i e => p.slot i = e.slot

theorem Layout.reads (h : Layout suffix es p) : Reads p (List.range es.length) es := by
  refine forall₂_iff_get.mpr ⟨by simp, fun i hi hi' => ?_⟩
  simp only [get_eq_getElem, getElem_range]
  exact h.slots i es[i] (List.getElem?_eq_getElem hi')

theorem Placed.slot_len (e : Placed) : e.slot.keyLen + e.slot.valLen = e.entry.len := rfl

theorem liveData_eq {is : List Nat} (hr : Reads p is es) (h : ∀ e ∈ es, e.stop ≤ ps.bytes) :
    p.liveData is = .ok (liveLen es) := by
  induction hr with
  | nil => rfl
  | @cons i e is es hslot _ ih =>
    have hstop := h e mem_cons_self
    have hrest := ih fun x hx => h x (mem_cons_of_mem e hx)
    have hassert : Fault.assert (e.slot.offset + (e.slot.keyLen + e.slot.valLen) ≤ ps.bytes) =
        .ok () := if_pos (decide_eq_true hstop)
    rw [liveData, hslot, hassert, Fault.ok_bind, hrest, Fault.ok_bind, liveLen_cons]
    rfl

theorem dataLens_eq {is : List Nat} (hr : Reads p is es) (h : ∀ e ∈ es, e.entry.len < 2 ^ 16) :
    p.dataLens is = .ok (es.map fun e => e.entry.len) := by
  induction hr with
  | nil => rfl
  | @cons i e is es hslot _ ih =>
    have hrest := ih fun x hx => h x (mem_cons_of_mem e hx)
    rw [dataLens, hslot, Placed.slot_len, Fault.fit_of_lt 16 _ (h e mem_cons_self),
      Fault.ok_bind, hrest, Fault.ok_bind]
    rfl

/-- The entries are in the temporary page where they are to go. -/
theorem gather_spec {is : List Nat} (hr : Reads p is es)
    (hdata : ∀ e ∈ es, p.data.slice e.offset e.stop = e.bytes) (offset : Nat)
    (hlive : liveLen es ≤ offset) (hoffset : offset ≤ ps.bytes) (tmp : SlottedPage ps) :
    ∃ tmp', p.gather is offset tmp = .ok tmp' ∧
      (∀ a b, offset ≤ a → tmp'.data.slice a b = tmp.data.slice a b) ∧
      ∀ x ∈ packDown offset es, tmp'.data.slice x.offset x.stop = x.bytes := by
  induction hr generalizing offset tmp with
  | nil => exact ⟨tmp, rfl, fun _ _ _ => rfl, by simp [packDown]⟩
  | @cons i e is es hslot _ ih =>
    rw [liveLen_cons] at hlive
    have hbytes := hdata e mem_cons_self
    have hlen : e.bytes.length = e.entry.len := e.length_bytes
    have hfit : offset - e.entry.len + e.bytes.length ≤ ps.bytes := by omega
    obtain ⟨tmp', hgather, hframe, hrest⟩ := ih
      (fun x hx => hdata x (mem_cons_of_mem e hx)) (offset - e.entry.len)
      (by omega) (by omega) ⟨tmp.data.write (offset - e.entry.len) e.bytes⟩
    refine ⟨tmp', ?_, ?_, ?_⟩
    · have hstop : p.data.slice e.slot.offset (e.slot.offset + e.entry.len) = e.bytes := hbytes
      rw [gather, hslot, Placed.slot_len, Fault.sub_of_le (by omega), Fault.ok_bind, hstop,
        put_of_le hfit, Fault.ok_bind, hgather]
    · intro a b ha
      rw [hframe a b (by omega)]
      exact Page.slice_write_of_disjoint _ (.inr (by omega))
    intro x hx
    rw [packDown, mem_cons] at hx
    rcases hx with rfl | hx
    · have hwrite := Page.slice_write tmp.data hfit
      rw [hlen] at hwrite
      exact (hframe _ _ le_rfl).trans hwrite
    · exact hrest x hx

/-- What copying back the entries from slot `i` on leaves in the page. -/
structure Scattered (p q : SlottedPage ps) (i offset : Nat) (es : List Placed) : Prop where
  header : SameHeader q p
  frame : ∀ a b, offset ≤ a → q.data.slice a b = p.data.slice a b
  before : ∀ j < i, q.slot j = p.slot j
  slots : ∀ k x, (packDown offset es)[k]? = some x →
    q.slot (i + k) = { p.slot (i + k) with offset := x.offset }
  data : ∀ x ∈ packDown offset es, q.data.slice x.offset x.stop = x.bytes

def scatterOne (p : SlottedPage ps) (i : Nat) (x : Placed) : SlottedPage ps :=
  (⟨p.data.write x.offset x.bytes⟩ : SlottedPage ps).setSlotOffset i x.offset

section ScatterOne

variable {i : Nat} {x : Placed}

theorem sameHeader_scatterOne (h : slottedHeaderSize ≤ x.offset) :
    SameHeader (scatterOne p i x) p :=
  (sameHeader_setSlotOffset _ _).trans (sameHeader_write h)

theorem slot_scatterOne (hfit : slotPos i + slotSize ≤ x.offset) (hbytes : x.offset < 2 ^ 16)
    (hle : x.offset ≤ ps.bytes) :
    (scatterOne p i x).slot i = { p.slot i with offset := x.offset } := by
  rw [scatterOne, slot_setSlotOffset (hfit.trans hle) hbytes, slot_write_of_disjoint (.inl hfit)]

theorem slot_scatterOne_of_ne {j : Nat} (hij : i ≠ j) (hfit : slotPos j + slotSize ≤ x.offset) :
    (scatterOne p i x).slot j = p.slot j := by
  rw [scatterOne, slot_setSlotOffset_of_ne _ hij, slot_write_of_disjoint (.inl hfit)]

theorem slice_scatterOne {a b : Nat} (hslot : slotPos (i + 1) ≤ a) (ha : x.stop ≤ a) :
    (scatterOne p i x).data.slice a b = p.data.slice a b := by
  rw [scatterOne, slice_setSlotOffset _ hslot]
  exact Page.slice_write_of_disjoint _ (.inr (x.length_bytes ▸ ha))

theorem slice_scatterOne_self (hslot : slotPos (i + 1) ≤ x.offset) (hfit : x.stop ≤ ps.bytes) :
    (scatterOne p i x).data.slice x.offset x.stop = x.bytes := by
  have hlen : x.offset + x.bytes.length ≤ ps.bytes := x.length_bytes ▸ hfit
  have hwrite := Page.slice_write p.data hlen
  rw [x.length_bytes] at hwrite
  rw [scatterOne, slice_setSlotOffset _ hslot]
  exact hwrite

end ScatterOne

theorem scatter_spec (es : List Placed) (i offset : Nat) (p : SlottedPage ps)
    (htmp : ∀ x ∈ packDown offset es, tmp.data.slice x.offset x.stop = x.bytes)
    (hlive : liveLen es ≤ offset) (hroom : slotPos (i + es.length) ≤ offset - liveLen es)
    (hoffset : offset ≤ ps.bytes) (hsmall : offset < 2 ^ 16) :
    ∃ q, scatterWith (Fault.fit 16) tmp i (es.map fun e => e.entry.len) offset p =
      .ok (q, offset - liveLen es) ∧
      Scattered p q i offset es := by
  induction es generalizing i offset p with
  | nil =>
    exact ⟨p, rfl, ⟨rfl, rfl, rfl⟩, fun _ _ _ => rfl, fun _ _ => rfl, by simp [packDown],
      by simp [packDown]⟩
  | cons e es ih =>
    rw [liveLen_cons] at hlive hroom ⊢
    rw [length_cons] at hroom
    rw [packDown] at htmp
    generalize hx : (⟨offset - e.entry.len, e.entry⟩ : Placed) = x at htmp
    have hxo : x.offset = offset - e.entry.len := by rw [← hx]
    have hxs : x.stop = offset := by
      rw [← hx]
      simp only [Placed.stop]
      omega
    have hroom' : slotPos (i + 1 + es.length) ≤ offset - e.entry.len - liveLen es := by
      rw [show i + 1 + es.length = i + (es.length + 1) by omega]
      omega
    have hslot : slotPos (i + 1) ≤ x.offset := by
      have := slotPos_le (Nat.le_add_right (i + 1) es.length)
      omega
    have hheader := (header_le_slotPos (i + 1)).trans hslot
    obtain ⟨q, hq, hs⟩ := ih (i + 1) (offset - e.entry.len) (scatterOne p i x)
      (fun y hy => htmp y (mem_cons_of_mem x hy)) (by omega) hroom' (by omega) (by omega)
    refine ⟨q, ?_, ?_, ?_, ?_, ?_, ?_⟩
    · have hbytes : tmp.data.slice (offset - e.entry.len) (offset - e.entry.len + e.entry.len) =
          x.bytes := by
        have h := htmp x mem_cons_self
        rw [hxo, hxs] at h
        rwa [Nat.sub_add_cancel (by omega)]
      have hput : p.put (offset - e.entry.len) x.bytes = .ok ⟨p.data.write x.offset x.bytes⟩ := by
        rw [hxo]
        refine put_of_le ?_
        rw [x.length_bytes, ← hx]
        simp only
        omega
      rw [map_cons, scatterWith, Fault.sub_of_le (by omega), Fault.ok_bind, hbytes, hput,
        Fault.ok_bind, Fault.fit_of_lt 16 _ (by omega), Fault.ok_bind, ← hxo]
      rw [← hxo] at hq
      exact hq.trans (by rw [hxo, Nat.sub_sub])
    · exact hs.header.trans (sameHeader_scatterOne hheader)
    · intro a b ha
      rw [hs.frame a b (by omega), slice_scatterOne (by omega) (by omega)]
    · intro j hj
      have hne : slotPos j + slotSize ≤ x.offset := (slotPos_lt (by omega)).trans hslot
      rw [hs.before j (by omega), slot_scatterOne_of_ne (by omega) hne]
    · intro k y hy
      rw [packDown, hx] at hy
      cases k with
      | zero =>
        cases hy
        rw [Nat.add_zero, hs.before i (by omega),
          slot_scatterOne ((slotPos_lt (Nat.lt_succ_self i)).trans hslot) (by omega) (by omega)]
      | succ k =>
        rw [List.getElem?_cons_succ] at hy
        have hk : k < es.length := by
          rw [← length_packDown (offset - e.entry.len)]
          exact (List.getElem?_eq_some_iff.mp hy).1
        have hne : slotPos (i + 1 + k) + slotSize ≤ x.offset := by
          have := slotPos_lt (show i + 1 + k < i + 1 + es.length by omega)
          omega
        have h := hs.slots k y hy
        rw [slot_scatterOne_of_ne (by omega) hne] at h
        rwa [show i + (k + 1) = i + 1 + k by omega]
    · intro y hy
      rw [packDown, hx, mem_cons] at hy
      rcases hy with rfl | hy
      · rw [hs.frame _ _ (by omega), slice_scatterOne_self hslot (by omega)]
      · exact hs.data y hy

/-- The stores at the end of `compactify`. -/
def compacted (q : SlottedPage ps) (offset : Nat) : SlottedPage ps :=
  (q.setDataOffset offset).clearGarbage

theorem sameBody_compacted (q : SlottedPage ps) (offset : Nat) : SameBody (compacted q offset) q :=
  (sameBody_setFlags _).trans (sameBody_setDataOffset _)

theorem dataOffset_compacted {offset : Nat} (h : offset < 2 ^ 32) :
    (compacted q offset).dataOffset = offset := by
  rw [compacted, clearGarbage, sameHeader_setFlags.dataOffset, dataOffset_setDataOffset h]

theorem spaceUsed_compacted (q : SlottedPage ps) (offset : Nat) :
    (compacted q offset).spaceUsed = q.spaceUsed := by
  rw [compacted, clearGarbage, sameHeader_setFlags.spaceUsed, spaceUsed_setDataOffset]

theorem numSlots_compacted (q : SlottedPage ps) (offset : Nat) :
    (compacted q offset).numSlots = q.numSlots := by
  rw [compacted, clearGarbage, sameHeader_setFlags.numSlots, numSlots_setDataOffset]

theorem suffix_body (h : Layout suffix es p) : slottedHeaderSize ≤ ps.bytes - suffix := by
  have := header_le_slotPos es.length
  have := h.count_le
  omega

theorem layout_scattered (h : Layout suffix es p)
    (hs : Scattered p q 0 (ps.bytes - suffix) es) :
    Layout suffix (packDown (ps.bytes - suffix) es)
      (compacted q (ps.bytes - suffix - liveLen es)) := by
  have hle := PageSize.bytes_le ps
  have hroom := h.room
  have hgap := h.gap
  have hlive : liveLen (packDown (ps.bytes - suffix) es) = liveLen es :=
    liveLen_congr (map_entry_packDown _ _)
  have hinside := packDown_inside (show liveLen es ≤ ps.bytes - suffix by omega)
  have hoffset : (compacted q (ps.bytes - suffix - liveLen es)).dataOffset =
      ps.bytes - suffix - liveLen es := dataOffset_compacted (by omega)
  refine ⟨h.pos, ?_, ?_, ?_, ?_, ?_, ?_, ?_, packDown_apart (by omega)⟩
  · rw [numSlots_compacted, hs.header.numSlots, h.count, length_packDown]
  · rw [length_packDown, hoffset]
    omega
  · omega
  · rw [spaceUsed_compacted, hs.header.spaceUsed, h.used, hlive]
  · intro k x hx
    have hk : k < es.length := by
      rw [← length_packDown (ps.bytes - suffix)]
      exact (List.getElem?_eq_some_iff.mp hx).1
    have hentry : x.entry = es[k].entry := by
      have hmap : ((packDown (ps.bytes - suffix) es).map Placed.entry)[k]? =
          (es.map Placed.entry)[k]? := by rw [map_entry_packDown]
      rw [List.getElem?_map, List.getElem?_map, hx, List.getElem?_eq_getElem hk] at hmap
      exact Option.some.inj hmap
    have hslot := hs.slots k x hx
    rw [Nat.zero_add] at hslot
    rw [(sameBody_compacted q _).slot, hslot, h.slots k es[k] (List.getElem?_eq_getElem hk)]
    simp only [Placed.slot, hentry]
  · intro x hx
    have := hinside x hx
    omega
  · intro x hx
    have hx' := hinside x hx
    have hheader := header_le_slotPos es.length
    rw [sameBody_compacted q _ _ _ (by omega), hs.data x hx]

theorem compactify_spec (h : Layout suffix es p) :
    ∃ q es', p.compactify = .ok q ∧ Layout suffix es' q ∧
      es'.map Placed.entry = es.map Placed.entry ∧ SameSuffix suffix q p ∧
      q.dataOffset + liveLen es + suffix = ps.bytes := by
  have hle := PageSize.bytes_le ps
  have hpos := h.pos
  have hroom := h.room
  have hgap := h.gap
  have hused := h.used
  have hsuffix := suffix_body h
  by_cases hcount : p.numSlots = 0
  · have hnil : es = [] := length_eq_zero_iff.mp (h.count ▸ hcount)
    subst hnil
    have hzero : liveLen [] = 0 := rfl
    rw [hzero] at hroom hused
    have hs : Scattered p p 0 (ps.bytes - suffix) [] :=
      ⟨⟨rfl, rfl, rfl⟩, fun _ _ _ => rfl, fun _ _ => rfl, by simp [packDown], by simp [packDown]⟩
    have hlayout := layout_scattered h hs
    refine ⟨compacted p (ps.bytes - suffix), [], ?_, hlayout, rfl, ?_, ?_⟩
    · rw [compactify, compactifyWith, if_pos hcount, hused, Nat.add_zero,
        Fault.sub_of_le (by omega), Fault.ok_bind]
      rfl
    · exact sameBody_compacted p _ _ _ hsuffix
    · rw [dataOffset_compacted (by omega), hzero]
      omega
  have hinside := h.inside
  have hstop : ∀ e ∈ es, e.stop ≤ ps.bytes := fun e he => by
    have := (hinside e he).2
    omega
  have hlens : ∀ e ∈ es, e.entry.len < 2 ^ 16 := fun e he => by
    have := (hinside e he).2
    simp only [Placed.stop] at this
    omega
  obtain ⟨tmp, hgather, -, htmp⟩ := gather_spec h.reads h.data (ps.bytes - suffix) (by omega)
    (by omega) ⟨.zero ps⟩
  obtain ⟨q, hscatter, hs⟩ := scatter_spec es 0 (ps.bytes - suffix) p htmp (by omega)
    (by rw [Nat.zero_add]; omega) (by omega) (by omega)
  refine ⟨_, _, ?_, layout_scattered h hs, map_entry_packDown _ _, ?_, ?_⟩
  · rw [compactify, compactifyWith, if_neg hcount, h.count, liveData_eq h.reads hstop,
      Fault.ok_bind, hused,
      Fault.sub_of_le (by omega), Fault.ok_bind, Nat.add_sub_cancel, Fault.sub_of_le (by omega),
      Fault.ok_bind, hgather, Fault.ok_bind, dataLens_eq h.reads hlens, Fault.ok_bind, hscatter,
      Fault.ok_bind]
    rfl
  · rw [SameSuffix, sameBody_compacted q _ _ _ hsuffix, hs.frame _ _ le_rfl]
  · rw [dataOffset_compacted (by omega)]
    omega

end Pagebox.Storage
