import Pagebox.Storage.SlottedCompact

/-!
# Inserting, removing, updating and copying entries

What each editing operation does to the list of entries of a page with a layout,
and exactly when it panics.
-/

namespace Pagebox.Storage

open Pagebox.Base SlottedPage List

variable {ps : PageSize} {p q : SlottedPage ps} {suffix : Nat} {es : List Placed}

/-- The entries of a page, in slot order. -/
def entriesOf (es : List Placed) : List Entry := es.map Placed.entry

theorem length_entriesOf (es : List Placed) : (entriesOf es).length = es.length := length_map _

theorem SameSuffix.trans {r : SlottedPage ps} (h : SameSuffix suffix p q)
    (h' : SameSuffix suffix q r) : SameSuffix suffix p r :=
  Eq.trans h h'

theorem sameSuffix_of_sameBody (h : Layout suffix es p) (hb : SameBody q p) :
    SameSuffix suffix q p :=
  hb _ _ (suffix_body h)

theorem canInsert_iff (h : Layout suffix es p) (keyLen valLen : Nat) :
    p.canInsert keyLen valLen = true ↔
      slotPos (es.length + 1) + liveLen es + (keyLen + valLen) + suffix ≤ ps.bytes := by
  have hfree := h.freeSpace_le
  have hroom := h.room
  have hgap := h.gap
  have hafter : p.freeSpaceAfterCompaction =
      ps.bytes - (slotPos es.length + (suffix + liveLen es)) := by
    rw [freeSpaceAfterCompaction, h.slotArrayEnd_eq, h.used]
  rw [slotPos_succ]
  simp only [canInsert, decide_eq_true_eq]
  omega

/-- The entry written at `i` of a page that has room below its data. -/
theorem insertEntry_spec (h : Layout suffix es p) {i : Nat} (hi : i ≤ es.length) {e : Entry}
    (hroom : slotPos (es.length + 1) + e.len ≤ p.dataOffset) :
    ∃ q es', p.insertEntry i e = .ok q ∧ Layout suffix es' q ∧
      entriesOf es' = (entriesOf es).insertIdx i e ∧ SameSuffix suffix q p := by
  have hsuffix : p.dataOffset ≤ ps.bytes - suffix := by
    have := h.room
    omega
  refine ⟨p.inserted i e, es.insertIdx i ⟨p.dataOffset - e.len, e⟩, insertEntry_eq h hroom hi,
    layout_inserted h hroom hi, ?_, slice_inserted_of_le h hroom hi hsuffix⟩
  rw [entriesOf, map_insertIdx]
  rfl

theorem insert_spec (h : Layout suffix es p) {i : Nat} (hi : i ≤ es.length) {e : Entry}
    (hcan : p.canInsert e.key.length e.value.length = true) :
    ∃ q es', p.insert i e = .ok q ∧ Layout suffix es' q ∧
      entriesOf es' = (entriesOf es).insertIdx i e ∧ SameSuffix suffix q p := by
  have hfits := (canInsert_iff h _ _).mp hcan
  have hlen := Entry.len_eq e
  by_cases hfree : p.freeSpace < slotSize + e.len
  · obtain ⟨q, es', hq, hlayout, hentries, hsame, hoffset⟩ := compactify_spec h
    have hassert : Fault.assert (slotSize + e.len ≤ p.freeSpaceAfterCompaction) = .ok () := by
      refine if_pos (decide_eq_true ?_)
      rw [freeSpaceAfterCompaction, h.slotArrayEnd_eq, h.used]
      rw [slotPos_succ] at hfits
      omega
    have hlength : es'.length = es.length := by
      have := congrArg List.length hentries
      rwa [length_map, length_map] at this
    rw [← hlength] at hi
    obtain ⟨r, es'', hr, hlayout', hentries', hsame'⟩ :=
      insertEntry_spec hlayout hi (e := e) (by rw [hlength]; omega)
    refine ⟨r, es'', ?_, hlayout', ?_, hsame'.trans hsame⟩
    · have hq' : p.compactifyWith (Fault.fit 16) = .ok q := hq
      rw [SlottedPage.insert, SlottedPage.insertWith]
      simp only [if_pos hfree, hassert, hq', Fault.ok_bind]
      exact hr
    · rw [hentries', entriesOf, hentries]
      rfl
  have hroom : slotPos (es.length + 1) + e.len ≤ p.dataOffset := by
    have hgap := h.gap
    rw [freeSpace, h.slotArrayEnd_eq] at hfree
    rw [slotPos_succ]
    omega
  rw [SlottedPage.insert, SlottedPage.insertWith]
  simp only [if_neg hfree]
  exact insertEntry_spec h hi hroom

theorem insert_panic (i : Nat) {e : Entry}
    (hcan : p.canInsert e.key.length e.value.length = false) : p.insert i e = .error .panic := by
  have hlen := Entry.len_eq e
  have hnot : ¬(slotSize + e.key.length + e.value.length ≤ p.freeSpace ∨
      slotSize + e.key.length + e.value.length ≤ p.freeSpaceAfterCompaction) := by
    simpa [canInsert] using hcan
  have hassert : Fault.assert (slotSize + e.len ≤ p.freeSpaceAfterCompaction) = .error .panic :=
    if_neg (by simp only [decide_eq_true_eq]; omega)
  rw [SlottedPage.insert, SlottedPage.insertWith]
  simp only [if_pos (show p.freeSpace < slotSize + e.len by omega), hassert]
  rfl

theorem liveLen_eraseIdx {i : Nat} (hi : i < es.length) :
    liveLen (es.eraseIdx i) + es[i].entry.len = liveLen es := by
  have hperm := (getElem_cons_eraseIdx_perm hi).map fun e : Placed => e.entry.len
  have hsum := hperm.sum_eq
  rw [map_cons, sum_cons] at hsum
  unfold liveLen
  omega

namespace SlottedPage

def closeSlot (p : SlottedPage ps) (i count : Nat) : SlottedPage ps :=
  if 0 < count - i - 1 then p.moveSlots (i + 1) i count else p

theorem sameHeader_closeSlot (i count : Nat) : SameHeader (p.closeSlot i count) p := by
  unfold closeSlot
  split
  · exact sameHeader_moveSlots
  · exact ⟨rfl, rfl, rfl⟩

theorem slot_closeSlot {i j count : Nat} (hcount : slotPos count ≤ ps.bytes) (hj : j + 1 < count) :
    (p.closeSlot i count).slot j = p.slot (if j < i then j else j + 1) := by
  unfold closeSlot
  split
  · by_cases hji : j < i
    · rw [if_pos hji, slot_moveSlots_of_notin hcount (.inl hji)]
    · have hdst : slotPos (i + (count - (i + 1))) ≤ ps.bytes := (slotPos_le (by omega)).trans hcount
      have := slot_moveSlots (p := p) hcount hdst (k := j - i) (by omega)
      rwa [show i + (j - i) = j by omega, show i + 1 + (j - i) = j + 1 by omega,
        ← if_neg (c := j < i) (t := j) (e := j + 1) hji] at this
  · rw [if_pos (show j < i by omega)]

theorem slice_closeSlot {i count a b : Nat} (hcount : slotPos count ≤ ps.bytes)
    (ha : slotPos count ≤ a) : (p.closeSlot i count).data.slice a b = p.data.slice a b := by
  unfold closeSlot
  split
  · exact slice_moveSlots hcount ((slotPos_le (by omega)).trans ha)
  · rfl

def removed (p : SlottedPage ps) (i used : Nat) : SlottedPage ps :=
  (((p.setSpaceUsed used).closeSlot i p.numSlots).setNumSlots (p.numSlots - 1)).setGarbage

theorem sameHeader_removed (i used : Nat) : SameHeader (p.removed i used)
    (((p.setSpaceUsed used).closeSlot i p.numSlots).setNumSlots (p.numSlots - 1)) :=
  sameHeader_setFlags

theorem sameBody_removed (i used : Nat) :
    SameBody (p.removed i used) ((p.setSpaceUsed used).closeSlot i p.numSlots) :=
  SameBody.trans (sameBody_setFlags _) (sameBody_setNumSlots _)

end SlottedPage

theorem slice_removed (h : Layout suffix es p) {i used a b : Nat} (ha : p.dataOffset ≤ a) :
    (p.removed i used).data.slice a b = p.data.slice a b := by
  have hroom := h.room
  have hgap := h.gap
  have hcount : slotPos p.numSlots ≤ ps.bytes := by rw [h.count]; omega
  have hheader := header_le_slotPos es.length
  rw [sameBody_removed i used a b (by omega), slice_closeSlot hcount (by rw [h.count]; omega),
    sameBody_setSpaceUsed used a b (by omega)]

theorem layout_removed (h : Layout suffix es p) {i : Nat} (hi : i < es.length) :
    Layout suffix (es.eraseIdx i) (p.removed i (suffix + liveLen (es.eraseIdx i))) := by
  have hle := PageSize.bytes_le ps
  have hroom := h.room
  have hgap := h.gap
  have hlive := liveLen_eraseIdx hi
  have hbytes : slotPos es.length ≤ ps.bytes := by omega
  have hpos := slotPos_eq es.length
  have hlength : (es.eraseIdx i).length = es.length - 1 := length_eraseIdx_of_lt hi
  have hheader := sameHeader_removed (p := p) i (suffix + liveLen (es.eraseIdx i))
  have hclosed := sameHeader_closeSlot (p := p.setSpaceUsed (suffix + liveLen (es.eraseIdx i))) i
    p.numSlots
  have hoffset : (p.removed i (suffix + liveLen (es.eraseIdx i))).dataOffset = p.dataOffset := by
    rw [hheader.dataOffset, dataOffset_setNumSlots, hclosed.dataOffset, dataOffset_setSpaceUsed]
  refine ⟨h.pos, ?_, ?_, ?_, ?_, ?_, ?_, ?_, h.apart.sublist (eraseIdx_sublist es i)⟩
  · rw [hheader.numSlots, numSlots_setNumSlots (by rw [h.count]; omega), h.count, hlength]
  · rw [hoffset, hlength]
    exact (slotPos_le (by omega)).trans hgap
  · omega
  · rw [hheader.spaceUsed, spaceUsed_setNumSlots, hclosed.spaceUsed,
      spaceUsed_setSpaceUsed (by omega)]
  · intro j e he
    have hj : j + 1 < es.length := by
      have := (List.getElem?_eq_some_iff.mp he).1
      omega
    rw [(sameBody_removed i _).slot, slot_closeSlot (by rwa [h.count]) (by rwa [h.count]),
      (sameBody_setSpaceUsed _).slot]
    rw [List.getElem?_eraseIdx] at he
    apply h.slots
    split at he
    · rwa [if_pos ‹j < i›]
    · rwa [if_neg ‹¬j < i›]
  · intro e he
    rw [hoffset]
    exact h.inside e (mem_of_mem_eraseIdx he)
  · intro e he
    have hmem := mem_of_mem_eraseIdx he
    rw [slice_removed h (h.inside e hmem).1, h.data e hmem]

theorem remove_spec (h : Layout suffix es p) {i : Nat} (hi : i < es.length) :
    ∃ q es', p.remove i = .ok q ∧ Layout suffix es' q ∧
      entriesOf es' = (entriesOf es).eraseIdx i ∧ SameSuffix suffix q p := by
  have hlive := liveLen_eraseIdx hi
  have hroom := h.room
  have hslot : (p.slot i).keyLen + (p.slot i).valLen = es[i].entry.len := by
    rw [h.slots i es[i] (List.getElem?_eq_getElem hi)]
    rfl
  have hused : Fault.sub p.spaceUsed ((p.slot i).keyLen + (p.slot i).valLen) =
      .ok (suffix + liveLen (es.eraseIdx i)) := by
    rw [hslot, h.used, Fault.sub_of_le (by omega)]
    exact congrArg _ (by omega)
  refine ⟨p.removed i (suffix + liveLen (es.eraseIdx i)), es.eraseIdx i, ?_,
    layout_removed h hi, ?_, slice_removed h (by omega)⟩
  · have hassert : Fault.assert (i < p.numSlots) = .ok () :=
      if_pos (decide_eq_true (by rw [h.count]; exact hi))
    have hcount : Fault.sub p.numSlots 1 = .ok (p.numSlots - 1) :=
      Fault.sub_of_le (by rw [h.count]; omega)
    simp only [remove, hassert, hused, hcount, Fault.ok_bind]
    rfl
  · rw [entriesOf, entriesOf, eraseIdx_map]

/-! ## Updating a value in place -/

def Placed.withValue (e : Placed) (value : Bytes) : Placed := ⟨e.offset, ⟨e.entry.key, value⟩⟩

theorem Placed.stop_withValue {e : Placed} {value : Bytes}
    (h : value.length = e.entry.value.length) : (e.withValue value).stop = e.stop := by
  simp only [Placed.stop, Placed.withValue, Entry.len, h]

theorem getElem_apart (h : Layout suffix es p) {i j : Nat} (hi : i < es.length) (hj : j < es.length)
    (hne : i ≠ j) : es[i].Apart es[j] := by
  rcases Nat.lt_or_gt_of_ne hne with hlt | hlt
  · exact pairwise_iff_getElem.mp h.apart i j hi hj hlt
  · exact (pairwise_iff_getElem.mp h.apart j i hj hi hlt).symm

theorem slice_key_value (h : Layout suffix es p) {e : Placed} (he : e ∈ es) :
    p.data.slice e.offset (e.offset + e.entry.key.length) = e.entry.key ∧
      p.data.slice (e.offset + e.entry.key.length) e.stop = e.entry.value := by
  have hstop : e.stop = e.offset + e.entry.key.length + e.entry.value.length := by
    rw [Placed.stop, Entry.len, Nat.add_assoc]
  have hinside := (h.inside e he).2
  have hdata := h.data e he
  rw [Page.slice_append p.data (Nat.le_add_right _ e.entry.key.length) (by omega),
    Placed.bytes] at hdata
  refine append_inj hdata ?_
  rw [Page.length_slice (by omega)]
  omega

section Update

variable {i : Nat} {value : Bytes}

def SlottedPage.updated (p : SlottedPage ps) (e : Placed) (value : Bytes) : SlottedPage ps :=
  ⟨p.data.write (e.offset + e.entry.key.length) value⟩

theorem slice_updated_of_apart {e f : Placed} (hapart : f.Apart e)
    (hlen : value.length = e.entry.value.length) :
    (p.updated e value).data.slice f.offset f.stop = p.data.slice f.offset f.stop := by
  apply Page.slice_write_of_disjoint
  simp only [Placed.Apart, Placed.stop, Entry.len] at hapart ⊢
  omega

theorem slice_updated (h : Layout suffix es p) {e : Placed} (he : e ∈ es)
    (hlen : value.length = e.entry.value.length) :
    (p.updated e value).data.slice e.offset e.stop = e.entry.key ++ value := by
  have hstop : e.stop = e.offset + e.entry.key.length + value.length := by
    rw [Placed.stop, Entry.len, hlen, Nat.add_assoc]
  have hinside := (h.inside e he).2
  rw [SlottedPage.updated, Page.slice_append _ (Nat.le_add_right _ e.entry.key.length) (by omega),
    Page.slice_write_of_disjoint p.data (.inl (Nat.le_refl _)), (slice_key_value h he).1, hstop,
    Page.slice_write p.data (by omega)]

theorem layout_updated (h : Layout suffix es p) (hi : i < es.length)
    (hlen : value.length = es[i].entry.value.length) :
    Layout suffix (es.set i (es[i].withValue value)) (p.updated es[i] value) := by
  have hmem : es[i] ∈ es := getElem_mem hi
  have hgap := h.gap
  have hoffset := (h.inside _ hmem).1
  have hheader : SameHeader (p.updated es[i] value) p :=
    sameHeader_write ((h.header_le_offset hmem).trans (Nat.le_add_right _ _))
  have hlive : liveLen (es.set i (es[i].withValue value)) = liveLen es := by
    have hentry : (es[i].withValue value).entry.len = es[i].entry.len := by
      simp only [Placed.withValue, Entry.len, hlen]
    calc liveLen (es.set i (es[i].withValue value))
        = liveLen (es.set i es[i]) := by simp only [liveLen, map_set, hentry]
      _ = liveLen es := by rw [set_getElem_self]
  -- every entry of the new list lies where an entry of the old list lay
  have hold : ∀ j (hj : j < es.length), ∃ e : Placed,
      (es.set i (es[i].withValue value))[j]? = some e ∧
      e.offset = es[j].offset ∧ e.stop = es[j].stop ∧ e.slot = es[j].slot ∧
      (p.updated es[i] value).data.slice e.offset e.stop = e.bytes := by
    intro j hj
    by_cases hij : i = j
    · subst hij
      have hstop := Placed.stop_withValue hlen
      refine ⟨es[i].withValue value, List.getElem?_set_self hi, rfl, hstop, ?_, ?_⟩
      · simp only [Placed.slot, Placed.withValue, hlen]
      · rw [hstop]
        exact slice_updated h hmem hlen
    · refine ⟨es[j], ?_, rfl, rfl, rfl, ?_⟩
      · rw [List.getElem?_set_ne hij, List.getElem?_eq_getElem hj]
      · rw [slice_updated_of_apart (getElem_apart h hj hi (Ne.symm hij)) hlen,
          h.data _ (getElem_mem hj)]
  have hget : ∀ j e, (es.set i (es[i].withValue value))[j]? = some e → ∃ hj : j < es.length,
      e.offset = es[j].offset ∧ e.stop = es[j].stop ∧ e.slot = es[j].slot ∧
      (p.updated es[i] value).data.slice e.offset e.stop = e.bytes := by
    intro j e he
    have hj : j < es.length := by
      have := (List.getElem?_eq_some_iff.mp he).1
      rwa [length_set] at this
    obtain ⟨e', he', hrest⟩ := hold j hj
    rw [he] at he'
    cases he'
    exact ⟨hj, hrest⟩
  refine ⟨h.pos, ?_, ?_, ?_, ?_, ?_, ?_, ?_, ?_⟩
  · rw [hheader.numSlots, h.count, length_set]
  · rw [hheader.dataOffset, length_set]
    exact hgap
  · rw [hheader.dataOffset, hlive]
    exact h.room
  · rw [hheader.spaceUsed, hlive, h.used]
  · intro j e he
    obtain ⟨hj, -, -, hslot, -⟩ := hget j e he
    have hbelow : slotPos j + slotSize ≤ slotPos es.length := slotPos_lt hj
    rw [SlottedPage.updated, slot_write_of_disjoint (.inl (by omega)), hslot]
    exact h.slots j _ (List.getElem?_eq_getElem hj)
  · intro e he
    obtain ⟨j, hj⟩ := mem_iff_getElem?.mp he
    obtain ⟨hj, hoff, hstop, -, -⟩ := hget j e hj
    rw [hheader.dataOffset, hoff, hstop]
    exact h.inside _ (getElem_mem hj)
  · intro e he
    obtain ⟨j, hj⟩ := mem_iff_getElem?.mp he
    exact (hget j e hj).2.2.2.2
  · refine pairwise_iff_getElem.mpr fun j k hj hk hjk => ?_
    obtain ⟨hj', hoff, hstop, -, -⟩ := hget j _ (List.getElem?_eq_getElem hj)
    obtain ⟨hk', hoff', hstop', -, -⟩ := hget k _ (List.getElem?_eq_getElem hk)
    rw [Placed.Apart, hoff, hstop, hoff', hstop']
    exact pairwise_iff_getElem.mp h.apart j k hj' hk' hjk

theorem updateValue_spec (h : Layout suffix es p) (hi : i < es.length)
    (hlen : value.length = es[i].entry.value.length) :
    ∃ q es', p.updateValue i value = .ok (q, true) ∧ Layout suffix es' q ∧
      entriesOf es' = (entriesOf es).set i ⟨es[i].entry.key, value⟩ ∧ SameSuffix suffix q p := by
  have hmem : es[i] ∈ es := getElem_mem hi
  have hinside := (h.inside _ hmem).2
  have hslot := h.slots i es[i] (List.getElem?_eq_getElem hi)
  have hstop : es[i].stop = es[i].offset + es[i].entry.key.length + value.length := by
    rw [Placed.stop, Entry.len, hlen, Nat.add_assoc]
  refine ⟨p.updated es[i] value, es.set i (es[i].withValue value), ?_, layout_updated h hi hlen, ?_,
    ?_⟩
  · have hval : ¬value.length ≠ (p.slot i).valLen := by
      rw [hslot, not_not]
      exact hlen
    have hput : p.put ((p.slot i).offset + (p.slot i).keyLen) value =
        .ok (p.updated es[i] value) := by
      rw [hslot]
      exact put_of_le (by simp only [Placed.slot]; omega)
    simp only [updateValue, if_neg hval, hput, Fault.ok_bind]
    rfl
  · rw [entriesOf, map_set]
    rfl
  · exact Page.slice_write_of_disjoint p.data (.inr (by omega))

end Update

theorem liveLen_append (xs ys : List Placed) : liveLen (xs ++ ys) = liveLen xs + liveLen ys := by
  simp [liveLen]

theorem liveLen_take_add_drop (n : Nat) (es : List Placed) :
    liveLen (es.take n) + liveLen (es.drop n) = liveLen es := by
  rw [← liveLen_append, take_append_drop]

/-- The loop over the slots from `k` on gives back the bytes of their entries. -/
theorem releaseSlots_spec (h : Layout suffix es p) {k n used : Nat} (hk : k + n = es.length)
    (hused : liveLen (es.drop k) ≤ used) :
    p.releaseSlots (range' k n) used = .ok (used - liveLen (es.drop k)) := by
  induction n generalizing k used with
  | zero =>
    rw [drop_eq_nil_of_le (by omega)]
    rfl
  | succ n ih =>
    have hlt : k < es.length := by omega
    have hslot : (p.slot k).keyLen + (p.slot k).valLen = es[k].entry.len := by
      rw [h.slots k es[k] (List.getElem?_eq_getElem hlt)]
      rfl
    rw [drop_eq_getElem_cons hlt, liveLen_cons] at hused ⊢
    rw [range'_succ, releaseSlots, hslot, Fault.sub_of_le (by omega), Fault.ok_bind,
      ih (by omega) (by omega), Nat.sub_sub]

theorem layout_take (h : Layout suffix es p) {n : Nat} (hn : n ≤ es.length)
    (hq : SameBody q p) (hoffset : q.dataOffset = p.dataOffset) (hcount : q.numSlots = n)
    (hused : q.spaceUsed = suffix + liveLen (es.take n)) : Layout suffix (es.take n) q := by
  have hgap := h.gap
  have hroom := h.room
  have hlen : (es.take n).length = n := length_take_of_le hn
  have hlive := liveLen_take_add_drop n es
  refine ⟨h.pos, by rw [hcount, hlen], ?_, by omega, hused, ?_, ?_, ?_,
    h.apart.sublist (take_sublist n es)⟩
  · rw [hoffset, hlen]
    exact (slotPos_le hn).trans hgap
  · intro j e he
    rw [hq.slot]
    rw [List.getElem?_take] at he
    split at he
    · exact h.slots j e he
    · exact absurd he (by simp)
  · intro e he
    rw [hoffset]
    exact h.inside e (mem_of_mem_take he)
  · intro e he
    have hmem := mem_of_mem_take he
    rw [hq _ _ (h.header_le_offset hmem), h.data e hmem]

theorem truncate_spec (h : Layout suffix es p) {n : Nat} (hn : n ≤ es.length) :
    ∃ q es', p.truncate n = .ok q ∧ Layout suffix es' q ∧
      entriesOf es' = (entriesOf es).take n ∧ SameSuffix suffix q p := by
  have hassert : Fault.assert (n ≤ p.numSlots) = .ok () :=
    if_pos (decide_eq_true (by rw [h.count]; exact hn))
  by_cases hall : n = p.numSlots
  · refine ⟨p, es, ?_, h, ?_, rfl⟩
    · simp only [truncate, hassert, Fault.ok_bind, if_pos hall]
      rfl
    · rw [take_of_length_le (by rw [length_entriesOf, hall, h.count])]
  have hle := PageSize.bytes_le ps
  have hroom := h.room
  have hpos := slotPos_eq es.length
  have hgap := h.gap
  have hlive := liveLen_take_add_drop n es
  have hused : p.releaseSlots (range' n (p.numSlots - n)) p.spaceUsed =
      .ok (suffix + liveLen (es.take n)) := by
    rw [h.used, h.count, releaseSlots_spec h (by omega) (by omega)]
    exact congrArg _ (by omega)
  let cut := ((p.setSpaceUsed (suffix + liveLen (es.take n))).setNumSlots n).setGarbage
  have hbody : SameBody cut p :=
    .trans (sameBody_setFlags _) (.trans (sameBody_setNumSlots _) (sameBody_setSpaceUsed _))
  have hheader : SameHeader cut ((p.setSpaceUsed (suffix + liveLen (es.take n))).setNumSlots n) :=
    sameHeader_setFlags
  have hcut : Layout suffix (es.take n) cut := by
    refine layout_take h hn hbody ?_ ?_ ?_
    · rw [hheader.dataOffset, dataOffset_setNumSlots, dataOffset_setSpaceUsed]
    · rw [hheader.numSlots, numSlots_setNumSlots (by omega)]
    · rw [hheader.spaceUsed, spaceUsed_setNumSlots, spaceUsed_setSpaceUsed (by omega)]
  obtain ⟨q, es', hq, hlayout, hentries, hsame, -⟩ := compactify_spec hcut
  refine ⟨q, es', ?_, hlayout, ?_, hsame.trans (sameSuffix_of_sameBody h hbody)⟩
  · simp only [truncate, hassert, Fault.ok_bind, if_neg hall, hused]
    exact hq
  · rw [entriesOf, hentries, entriesOf, map_take]

/-! ## Reading entries back and copying them -/

theorem getKey_eq (h : Layout suffix es p) {i : Nat} (hi : i < es.length) :
    p.getKey i = es[i].entry.key := by
  rw [getKey, h.slots i es[i] (List.getElem?_eq_getElem hi)]
  exact (slice_key_value h (getElem_mem hi)).1

theorem getValue_eq (h : Layout suffix es p) {i : Nat} (hi : i < es.length) :
    p.getValue i = es[i].entry.value := by
  have hvalue := (slice_key_value h (getElem_mem hi)).2
  rw [Placed.stop, Entry.len, ← Nat.add_assoc] at hvalue
  rw [getValue, h.slots i es[i] (List.getElem?_eq_getElem hi)]
  exact hvalue

theorem entries_eq (h : Layout suffix es p) : p.entries = entriesOf es := by
  refine ext_getElem ?_ fun i hi hi' => ?_
  · rw [entries, length_map, length_range, h.count, length_entriesOf]
  · rw [length_entriesOf] at hi'
    simp only [entries, entriesOf, getElem_map, getElem_range, getKey_eq h hi', getValue_eq h hi']

/-- The room that a list of entries takes: their bytes and a slot each. -/
def slottedLen (es : List Entry) : Nat := (es.map fun e => slotSize + e.len).sum

def pageLen (suffix : Nat) (es : List Entry) : Nat := slottedHeaderSize + slottedLen es + suffix

theorem slottedLen_append (xs ys : List Entry) :
    slottedLen (xs ++ ys) = slottedLen xs + slottedLen ys := by
  simp [slottedLen]

theorem slottedLen_entriesOf (es : List Placed) :
    slottedHeaderSize + slottedLen (entriesOf es) = slotPos es.length + liveLen es := by
  induction es with
  | nil => rfl
  | cons e es ih =>
    rw [liveLen_cons, length_cons, slotPos_succ]
    simp only [slottedLen, entriesOf, map_cons, sum_cons] at ih ⊢
    omega

theorem canInsert_iff_pageLen (h : Layout suffix es p) (e : Entry) :
    p.canInsert e.key.length e.value.length = true ↔
      pageLen suffix (entriesOf es ++ [e]) ≤ ps.bytes := by
  have hlen := slottedLen_entriesOf es
  have hone : slottedLen [e] = slotSize + (e.key.length + e.value.length) := by
    simp [slottedLen, Entry.len]
  rw [canInsert_iff h, pageLen, slottedLen_append, hone, slotPos_succ]
  omega

section Copy

variable {source : SlottedPage ps} {suffix' : Nat} {fs : List Placed}

/-- Copying appends the entries if they fit, and panics otherwise. -/
theorem copySlots_spec (hfrom : Layout suffix' fs source) (h : Layout suffix es p) {k n : Nat}
    (hk : k + n ≤ fs.length) :
    if pageLen suffix (entriesOf es ++ ((entriesOf fs).drop k).take n) ≤ ps.bytes then
      ∃ q es', source.copySlots (range' k n) p = .ok q ∧ Layout suffix es' q ∧
        entriesOf es' = entriesOf es ++ ((entriesOf fs).drop k).take n ∧ SameSuffix suffix q p
    else source.copySlots (range' k n) p = .error .panic := by
  induction n generalizing k p es with
  | zero =>
    have hfit : pageLen suffix (entriesOf es) ≤ ps.bytes := by
      have := slottedLen_entriesOf es
      have := h.gap
      have := h.room
      rw [pageLen]
      omega
    rw [take_zero, append_nil, if_pos hfit]
    exact ⟨p, es, rfl, h, rfl, rfl⟩
  | succ n ih =>
    have hlt : k < fs.length := by omega
    have hrest : ((entriesOf fs).drop k).take (n + 1) =
        fs[k].entry :: ((entriesOf fs).drop (k + 1)).take n := by
      rw [drop_eq_getElem_cons (by rwa [length_entriesOf]), take_succ_cons]
      simp only [entriesOf, getElem_map]
    have hentry : (⟨source.getKey k, source.getValue k⟩ : Entry) = fs[k].entry := by
      rw [getKey_eq hfrom hlt, getValue_eq hfrom hlt]
    rw [range'_succ, copySlots, hentry, h.count, hrest, append_cons]
    cases hcan : p.canInsert fs[k].entry.key.length fs[k].entry.value.length with
    | true =>
      obtain ⟨q, es', hq, hlayout, hentries, hsame⟩ := insert_spec h (Nat.le_refl _) hcan
      rw [← length_entriesOf, insertIdx_length_self] at hentries
      rw [hq, Fault.ok_bind, ← hentries]
      have hih := ih hlayout (k := k + 1) (by omega)
      by_cases hfit : pageLen suffix
          (entriesOf es' ++ ((entriesOf fs).drop (k + 1)).take n) ≤ ps.bytes
      · rw [if_pos hfit] at hih ⊢
        obtain ⟨r, es'', hr, hlayout', hentries', hsame'⟩ := hih
        exact ⟨r, es'', hr, hlayout', hentries', hsame'.trans hsame⟩
      · rw [if_neg hfit] at hih ⊢
        exact hih
    | false =>
      have hfull : ¬pageLen suffix (entriesOf es ++ [fs[k].entry]) ≤ ps.bytes := by
        rw [← canInsert_iff_pageLen h, hcan]
        exact Bool.false_ne_true
      rw [if_neg, insert_panic _ hcan]
      · rfl
      · rw [pageLen, slottedLen_append]
        rw [pageLen] at hfull
        omega

end Copy

end Pagebox.Storage
